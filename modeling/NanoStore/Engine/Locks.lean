import NanoStore.Engine.Calls
import NanoStore.Table.Versioned
/-!
# The database — who holds the write locks

An open transaction holds the lock of every key it has written. A
transaction that has been consumed should hold none: `commit` and
`rollback` release the locks where they return `Ok`, and only there.
-/

namespace NanoStore.Engine

open List

namespace Database

open Wal Steps Txn Table Function

variable {T : Type} {E : Engines T} {cfg : WalWriterConfig} {db db' : Database T}

/-! ## Open transactions hold their locks -/

/-- Open transactions are known by their own ids, all below the next one, and hold the locks of
the keys they have written. -/
structure WellFormed (db : Database T) : Prop where
  ids : ∀ t txn, db.txns t = some txn → txn.txnId = t
  fresh : ∀ t txn, db.txns t = some txn → t < db.nextTxnId
  held : ∀ t txn, db.txns t = some txn → txn.Held db.shared.detector
  lockIds : ∀ k t, db.shared.detector.writeLocks k = some t → t < db.nextTxnId

theorem wellFormed_new {tables : T} : (new tables).WellFormed := by
  refine ⟨nofun, nofun, nofun, ?_⟩
  intro k t h
  cases h

/-- What a call that consumes its transaction can do to the locks. -/
def LocksAfter (d : ConflictDetector) (t : TransactionId) (d' : ConflictDetector) : Prop :=
  d' = d ∨ d' = d.releaseLocks t

variable {txn : Transaction} {sh' sh : Shared T} {choices : CommitChoices}

theorem locksAfter_commit
    {result : Except TransactionError ℕ} (h : txn.commit E cfg choices sh = (sh', result)) :
    LocksAfter sh.detector txn.txnId sh'.detector := by
  rcases Transaction.commit_cases h with ⟨-, hkeeps, -⟩ | ⟨-, -, _, _, -, -, -, rfl⟩
  · exact .inl hkeeps.detector
  · exact .inr rfl

variable {io : FlushIo}

theorem locksAfter_rollback
    {result : Except TransactionError Unit} (h : txn.rollback cfg io sh = (sh', result)) :
    LocksAfter sh.detector txn.txnId sh'.detector := by
  rcases Transaction.rollback_cases h with ⟨-, -, hkeeps, -⟩ | ⟨-, -, _, -, rfl⟩
  · exact .inl hkeeps.detector
  · exact .inr rfl

variable {t u : TransactionId} {d' d : ConflictDetector} {k : TableKey}

theorem LocksAfter.le
    (h : LocksAfter d t d') (hk : d'.writeLocks k = some u) : d.writeLocks k = some u := by
  rcases h with rfl | rfl
  · exact hk
  · exact (ConflictDetector.releaseLocks_eq_some.mp hk).1

theorem wellFormed_consume (h : db.WellFormed) (ht : db.txns t = some txn)
    (hlocks : LocksAfter db.shared.detector txn.txnId sh'.detector) :
    WellFormed { db with shared := sh', txns := update db.txns t none } := by
  have hother : ∀ u txn', update db.txns t none u = some txn' →
      u ≠ t ∧ db.txns u = some txn' := by
    intro u txn' hu
    rcases update_eq_some hu with ⟨-, hno⟩ | hu
    · cases hno
    · exact hu
  refine ⟨?_, ?_, ?_, ?_⟩
  · intro u txn' hu
    exact h.ids u txn' (hother u txn' hu).2
  · intro u txn' hu
    exact h.fresh u txn' (hother u txn' hu).2
  · intro u txn' hu k hk
    obtain ⟨hne, hu⟩ := hother u txn' hu
    have hid : txn'.txnId ≠ txn.txnId := by
      rw [h.ids u txn' hu, h.ids t txn ht]
      exact hne
    have hheld := h.held u txn' hu k hk
    rcases hlocks with hsame | hreleased
    · rwa [hsame]
    · rw [hreleased]
      exact ConflictDetector.releaseLocks_eq_some.mpr ⟨hheld, hid⟩
  · intro k u hu
    exact h.lockIds k u (hlocks.le hu)

variable {answer : Answer} {call : Call}

/-- **Every call keeps the database well-formed.** -/
theorem wellFormed_effect (h : db.WellFormed)
    (he : Effect E cfg db call answer db') : db'.WellFormed := by
  cases he with
  | idle _ _ hshared htxns hnext =>
    refine ⟨?_, ?_, ?_, ?_⟩
    · rw [htxns]; exact h.ids
    · rw [htxns, hnext]; exact h.fresh
    · rw [htxns, hshared]; exact h.held
    · rw [hshared, hnext]; exact h.lockIds
  | opened w hw snapshotLsn hsnap isolation durability hcall hact =>
    refine ⟨?_, ?_, ?_, ?_⟩
    · intro u txn' hu
      rcases update_eq_some hu with ⟨rfl, hnew⟩ | ⟨-, hu⟩
      · cases hnew
        rfl
      · exact h.ids u txn' hu
    · intro u txn' hu
      show u < db.nextTxnId + 1
      rcases update_eq_some hu with ⟨rfl, -⟩ | ⟨-, hu⟩
      · exact Nat.lt_succ_self _
      · exact Nat.lt_succ_of_lt (h.fresh u txn' hu)
    · intro u txn' hu
      rcases update_eq_some hu with ⟨-, hnew⟩ | ⟨-, hu⟩
      · -- the new transaction has written nothing
        cases hnew
        intro k hk
        exact absurd hk (AList.notMem_empty k)
      · exact h.held u txn' hu
    · intro k u hu
      exact Nat.lt_succ_of_lt (h.lockIds k u hu)
  | @continued call answer t txn txn' sh' ht hcont _ _ _ _ =>
    have hid := h.ids t txn ht
    refine ⟨?_, ?_, ?_, ?_⟩
    · intro u txn'' hu
      rcases update_eq_some hu with ⟨rfl, hnew⟩ | ⟨-, hu⟩
      · cases hnew
        exact hcont.txnId.trans hid
      · exact h.ids u txn'' hu
    · intro u txn'' hu
      rcases update_eq_some hu with ⟨rfl, -⟩ | ⟨-, hu⟩
      · exact h.fresh u txn ht
      · exact h.fresh u txn'' hu
    · intro u txn'' hu
      rcases update_eq_some hu with ⟨rfl, hnew⟩ | ⟨hne, hu⟩
      · cases hnew
        exact hcont.held (h.held u txn ht)
      · intro k hk
        have hne' : txn''.txnId ≠ txn.txnId := by
          rw [h.ids u txn'' hu, hid]
          exact hne
        exact (hcont.locks.others k _ hne').mpr (h.held u txn'' hu k hk)
    · intro k u hu
      by_cases hut : u = txn.txnId
      · rw [hut, hid]
        exact h.fresh t txn ht
      · exact h.lockIds k u ((hcont.locks.others k u hut).mp hu)
  | committed ht _ hcom | refused ht _ hcom =>
    exact wellFormed_consume h ht (locksAfter_commit hcom)
  | rolledBack ht hroll => exact wellFormed_consume h ht (locksAfter_rollback hroll)

/-! ## Consumed transactions hold none -/

/-- The id has been handed out, and its transaction is not open. -/
structure Closed (db : Database T) (t : TransactionId) : Prop where
  notOpen : db.txns t = none
  used : t < db.nextTxnId

theorem Closed.ne (h : db.Closed t) (hu : db.txns u = some txn) : t ≠ u := by
  rintro rfl
  rw [h.notOpen] at hu
  cases hu

/-- Closed transactions stay closed: ids are not handed out again. -/
theorem closed_effect (h : db.Closed t) (he : Effect E cfg db call answer db') : db'.Closed t := by
  cases he with
  | idle _ _ _ htxns hnext => exact ⟨htxns ▸ h.notOpen, hnext ▸ h.used⟩
  | opened =>
    have hne : t ≠ db.nextTxnId := Nat.ne_of_lt h.used
    exact ⟨(update_of_ne hne _ _).trans h.notOpen, Nat.lt_succ_of_lt h.used⟩
  | continued hopen | committed hopen | refused hopen | rolledBack hopen =>
    exact ⟨(update_of_ne (h.ne hopen) _ _).trans h.notOpen, h.used⟩

theorem closed_of_consumed (hwf : db.WellFormed) (he : Effect E cfg db call answer db')
    (ht : consumed (call, answer) = some t) : db'.Closed t := by
  cases he with
  | idle _ hcons =>
    rw [hcons] at ht
    cases ht
  | opened => cases call <;> cases ht
  | continued _ _ _ _ _ hcons =>
    rw [hcons] at ht
    cases ht
  | committed hopen | refused hopen | rolledBack hopen =>
    cases ht
    exact ⟨update_self _ _ _, hwf.fresh t _ hopen⟩

/-- The call leaves its transaction without locks: it does not consume one, or the one it
consumes holds none, or nothing stands in the way of the commit or rollback. -/
def ReleasesLocks (E : Engines T) (cfg : WalWriterConfig) (_ : List Event) (db : Database T) :
    Call → Prop
  | .commit t choices => ∀ txn, db.txns t = some txn → txn.Fits choices →
    Transaction.Unobstructed E cfg choices db.shared txn ∨
      ∀ k, db.shared.detector.writeLocks k ≠ some t
  | .rollback t io => ∀ txn, db.txns t = some txn →
    Transaction.MayRollback cfg io db.shared.wal txn ∨ ∀ k, db.shared.detector.writeLocks k ≠ some t
  | _ => True

/-- **A commit leaves a lock of its transaction exactly if the transaction holds one and
something stands in the way.** -/
theorem commit_releases_iff :
    (∀ k, (txn.commit E cfg choices sh).1.detector.writeLocks k ≠ some txn.txnId) ↔
      Transaction.Unobstructed E cfg choices sh txn ∨
        ∀ k, sh.detector.writeLocks k ≠ some txn.txnId := by
  obtain ⟨⟨sh', result⟩, hx⟩ : ∃ x, txn.commit E cfg choices sh = x := ⟨_, rfl⟩
  rw [hx]
  rcases Transaction.commit_cases hx with ⟨⟨e, rfl⟩, hkeeps, -⟩ | ⟨hfree, -, _, _, -, -, -, rfl⟩
  · have hnot : ¬Transaction.Unobstructed E cfg choices sh txn := by
      intro hfree
      have := Transaction.commit_of_unobstructed hfree
      rw [hx] at this
      cases this
    simp [hkeeps.detector, hnot, false_or]
  · simp only [hfree, true_or, iff_true]
    intro k hk
    exact (ConflictDetector.releaseLocks_eq_some.mp hk).2 rfl

theorem rollback_releases_iff :
    (∀ k, (txn.rollback cfg io sh).1.detector.writeLocks k ≠ some txn.txnId) ↔
      Transaction.MayRollback cfg io sh.wal txn ∨
        ∀ k, sh.detector.writeLocks k ≠ some txn.txnId := by
  obtain ⟨⟨sh', result⟩, hx⟩ : ∃ x, txn.rollback cfg io sh = x := ⟨_, rfl⟩
  rw [hx]
  rcases Transaction.rollback_cases hx with ⟨hnot, -, hkeeps, -⟩ | ⟨hmay, -, _, -, rfl⟩
  · simp [hkeeps.detector, hnot, false_or]
  · simp only [hmay, true_or, iff_true]
    intro k hk
    exact (ConflictDetector.releaseLocks_eq_some.mp hk).2 rfl

/-- Every lock is held by an open transaction. -/
def LocksOpen (db : Database T) : Prop :=
  ∀ k t, db.shared.detector.writeLocks k = some t → ∃ txn, db.txns t = some txn

theorem locksOpen_consume (h : db.LocksOpen) (hid : txn.txnId = t)
    (hlocks : LocksAfter db.shared.detector txn.txnId sh'.detector)
    (hnone : ∀ k, sh'.detector.writeLocks k ≠ some txn.txnId) :
    LocksOpen { db with shared := sh', txns := update db.txns t none } := by
  intro k u hu
  have hne : u ≠ t := by
    rintro rfl
    exact hnone k (hid ▸ hu)
  obtain ⟨txn', hu'⟩ := h k u (hlocks.le hu)
  exact ⟨txn', (update_of_ne hne _ _).trans hu'⟩

/-- **Every such call keeps the locks with open transactions.** -/
theorem locksOpen_effect {trace : List Event}
    (hwf : db.WellFormed) (h : db.LocksOpen) (hguard : ReleasesLocks E cfg trace db call)
    (he : Effect E cfg db call answer db') : db'.LocksOpen := by
  cases he with
  | idle _ _ hshared htxns _ =>
    intro k t ht
    rw [htxns]
    exact h k t (hshared ▸ ht)
  | opened =>
    intro k t ht
    obtain ⟨txn, hopen⟩ := h k t ht
    have hne : t ≠ db.nextTxnId := Nat.ne_of_lt (hwf.fresh t txn hopen)
    exact ⟨txn, (update_of_ne hne _ _).trans hopen⟩
  | @continued call answer t txn txn' sh' hopen hcont _ _ _ _ =>
    intro k u hu
    by_cases hut : u = t
    · exact ⟨txn', by subst hut; exact update_self _ _ _⟩
    · have hne : u ≠ txn.txnId := by
        rw [hwf.ids t txn hopen]
        exact hut
      obtain ⟨txn'', hu'⟩ := h k u ((hcont.locks.others k u hne).mp hu)
      exact ⟨txn'', (update_of_ne hut _ _).trans hu'⟩
  | @committed t txn choices sh' _ hopen hfits hcom | @refused t txn choices sh' _ hopen hfits hcom =>
    have hid := hwf.ids t txn hopen
    refine locksOpen_consume h hid (locksAfter_commit hcom) ?_
    have hnone := commit_releases_iff.mpr (hid ▸ hguard txn hopen hfits)
    rwa [hcom] at hnone
  | @rolledBack t txn io sh' result hopen hroll =>
    have hid := hwf.ids t txn hopen
    refine locksOpen_consume h hid (locksAfter_rollback hroll) ?_
    have hnone := rollback_releases_iff.mpr (hid ▸ hguard txn hopen)
    rwa [hroll] at hnone

/-- **If every commit and rollback finds its way clear or its transaction without locks, then a
consumed transaction holds no lock, and a transaction that is alone meets no conflict.** -/
theorem consumed_holds_no_lock {tables : T} {trace : List Event}
    (h : Run (exec E cfg) (ReleasesLocks E cfg) (new tables) trace db) :
    (∀ event ∈ trace, ∀ t, consumed event = some t →
      ∀ k, db.shared.detector.writeLocks k ≠ some t) ∧
    ∀ t, (∀ u, (∃ txn, db.txns u = some txn) → u = t) →
      ∀ k, db.shared.detector.checkWriteConflict k t = .ok () := by
  have hrun : db.WellFormed ∧ db.LocksOpen ∧
      ∀ event ∈ trace, ∀ t, consumed event = some t → db.Closed t := by
    refine h.invariant ?_ ?_
    · exact ⟨wellFormed_new, (fun _ _ h => by cases h), fun _ hevent => absurd hevent not_mem_nil⟩
    · rintro trace db call ⟨hwf, hlocks, hclosed⟩ hguard
      have he : Effect E cfg db call _ _ := exec_effect call
      refine ⟨wellFormed_effect hwf he, locksOpen_effect hwf hlocks hguard he, ?_⟩
      intro event hevent t ht
      rcases mem_cons.mp hevent with rfl | hevent
      · exact closed_of_consumed hwf he ht
      · exact closed_effect (hclosed event hevent t ht) he
  obtain ⟨-, hlocks, hclosed⟩ := hrun
  constructor
  · intro event hevent t ht k hk
    obtain ⟨txn, hopen⟩ := hlocks k t hk
    exact (hclosed event hevent t ht).ne hopen rfl
  · intro t halone k
    rw [ConflictDetector.checkWriteConflict_eq_ok]
    intro u hu
    exact halone u (hlocks k u hu)

/-- A transaction that writes a key and commits finds its way clear. -/
theorem consumed_holds_no_lock_committed : ∃ (trace : List Event) (db : Database Versioned),
    Run (exec Versioned.unscanned .default) (ReleasesLocks Versioned.unscanned .default)
      (new Versioned.empty) trace db ∧
    trace.length = 3 ∧ (∃ event ∈ trace, consumed event = some 1) ∧
    (∀ event ∈ trace, ∀ t, consumed event = some t →
      ∀ k, db.shared.detector.writeLocks k ≠ some t) := by
  have hrun : Run (exec Versioned.unscanned .default) (ReleasesLocks Versioned.unscanned .default)
      (new Versioned.empty) _ _ :=
    (((Run.nil.call (.beginWrite .walOnly .snapshotIsolation .ok) trivial).call
      (.put 1 (1, [0]) [7] .ok) trivial).call
      (.commit 1 ⟨[((1, [0]), some [7])], [], [1], fun _ => .ok⟩) (by
        rintro txn ⟨⟩ -
        refine .inl ⟨.inl rfl, ⟨_, rfl⟩, ?_, ⟨_, _, rfl, rfl, ?_⟩, rfl⟩
        · intro h
          cases h <;> contradiction
        · intro h
          cases h))
  exact ⟨_, _, hrun, rfl, ⟨_, mem_cons_self, rfl⟩, (consumed_holds_no_lock hrun).1⟩

/-- **A rolled back transaction keeps its lock.** The transaction was begun for reading, so the
log refuses its write after the lock is taken, and refuses its rollback record; the next
transaction, alone, meets a conflict with it. -/
theorem rollback_keeps_lock : ∃ (trace : List Event) (db : Database Versioned),
    Run (exec Versioned.unscanned .default) anyCall (new Versioned.empty) trace db ∧
    (∃ event ∈ trace, consumed event = some 1) ∧
    db.shared.detector.writeLocks (1, [0]) = some 1 ∧
    (∀ u, (∃ txn, db.txns u = some txn) → u = 2) ∧
    db.shared.detector.checkWriteConflict (1, [0]) 2 = .error (.writeWriteConflict 1 [0] 1 2) := by
  refine ⟨_, _, run_execute _ _ [.beginRead .snapshotIsolation, .put 1 (1, [0]) [7] .ok,
    .rollback 1 .ok, .beginWrite .walOnly .snapshotIsolation .ok], ?_, rfl, ?_, rfl⟩
  · exact ⟨_, mem_cons_of_mem _ mem_cons_self, rfl⟩
  · rintro u ⟨txn, hu⟩
    rcases update_eq_some hu with ⟨rfl, -⟩ | ⟨-, hu⟩
    · rfl
    · rcases update_eq_some hu with ⟨-, hno⟩ | ⟨hne, hu⟩
      · cases hno
      · rcases update_eq_some hu with ⟨rfl, -⟩ | ⟨-, hu⟩
        · exact absurd rfl hne
        · rcases update_eq_some hu with ⟨rfl, -⟩ | ⟨-, hu⟩
          · exact absurd rfl hne
          · cases hu

end Database

end NanoStore.Engine
