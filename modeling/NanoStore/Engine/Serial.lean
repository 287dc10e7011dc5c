import NanoStore.Common.Serial
import NanoStore.Engine.History
import NanoStore.Txn.Overlay
/-!
# The database — serial executions of what was committed

Over versioned tables, with commits in one step. The values committed
transactions read and the contents they leave are those of a serial
execution in commit order, if no transaction commits after another one
has changed what it read or deleted. The checks of the code do not
ensure that: they look for locks that are held when a transaction
commits, on keys that were recorded as read, and `get` records none.
-/

namespace NanoStore.Engine

open Wal Steps Txn Table Serial Function List Versioned Transaction VersionChain

/-! ## Programs -/

/-- The operation of a transaction an event shows, if the call returned `Ok`. -/
def opOf : Event → Option (TransactionId × Op TableKey Bytes)
  | (.get t k, .value (.ok result)) => some (t, .get k result)
  | (.put t k value _, .done (.ok _)) => some (t, .put k value)
  | (.delete t k _, .existed (.ok existed)) => some (t, .delete k existed)
  | _ => none

/-- The operations of a transaction, in the order of its calls. -/
def program (t : TransactionId) : List Event → List (Op TableKey Bytes)
  | [] => []
  | event :: trace =>
    program t trace ++ match opOf event with
      | some (u, op) => if u = t then [op] else []
      | none => []

/-- The transactions that committed, in the order of their commits. -/
def commitOrder : List Event → List TransactionId
  | [] => []
  | event :: trace => commitOrder trace ++ ((committed event).map Prod.fst).toList

/-- A value the tables give back: the empty one reads as none. -/
def kept (value : Bytes) : Bool := value ≠ []

/-- No transaction commits when a key it has read from the tables or deleted was written by one
that committed after it began, and none deletes a range. -/
def CommitsCurrent (trace : List Event) (_ : Database Versioned) : Call → Prop
  | .commit t _ => ∀ k ∈ dependencies (program t trace) [], ∀ c ∈ committedSince t trace, k ∉ c.keys
  | .rangeDelete _ _ _ _ => False
  | _ => True

variable {trace : List Event} {t : TransactionId} {event : Event}

theorem program_of_ne
    (h : ∀ op, opOf event ≠ some (t, op)) : program t (event :: trace) = program t trace := by
  rw [program]
  cases hop : opOf event with
  | none => simp
  | some x =>
    obtain ⟨u, op⟩ := x
    have hut : u ≠ t := by
      rintro rfl
      exact h op hop
    simp [hut]

variable {op : Op TableKey Bytes}

theorem program_of_eq (h : opOf event = some (t, op)) :
    program t (event :: trace) = program t trace ++ [op] := by
  simp [program, h]

/-! ## What a call does to a program -/

variable {scan : Versioned → TableId → ScanBounds → ℕ → Except TransactionError (List Key)}
  {cfg : WalWriterConfig} {sh sh' : Shared Versioned} {txn txn' : Transaction} {k : TableKey}
  {call : Call} {io : FlushIo}

/-- The write set, over the store. -/
def overlay (txn : Transaction) : Overlay TableKey Bytes := fun k => txn.writeSet.lookup k

/-- The contents a transaction's snapshot shows. -/
def shown (tables : Versioned) (snapshotLsn : ℕ) : Contents TableKey Bytes :=
  fun k => tables.read k snapshotLsn

theorem overlay_recordWrite (value : Option Bytes) :
    overlay (txn.recordWrite k value) = update (overlay txn) k (some value) := by
  funext k'
  by_cases hk : k' = k
  · subst hk
    simp [overlay, recordWrite]
  · simp [overlay, recordWrite, hk]

theorem get_agrees {result : Option Bytes} (h : txn.get (engines scan) sh k = .ok result) :
    Op.Agrees (shown sh.tables txn.snapshotLsn) (overlay txn) (.get k result) := by
  unfold Transaction.get at h
  split_ifs at h
  show result = (txn.writeSet.lookup k).getD (sh.tables.read k txn.snapshotLsn)
  cases hk : txn.writeSet.lookup k with
  | none | some value =>
    simp only [hk] at h
    cases h
    rfl

/-- What a call leaves of a transaction that stays open: one more operation with its effect on
the write set, or the program and the write set as they were. -/
def Follows (S : Contents TableKey Bytes) (t : TransactionId) (event : Event)
    (ws ws' : Overlay TableKey Bytes) : Prop :=
  (∃ op, opOf event = some (t, op) ∧ op.Agrees S ws ∧ ws' = op.record ws) ∨
    (∀ op, opOf event ≠ some (t, op)) ∧ ws' = ws

variable {db : Database Versioned} {u : TransactionId}

theorem follows_withTxn {α : Type} {f : Transaction → Transaction.CallOutcome Versioned α}
    {answer : Except TransactionError α → Answer} (hf : ∀ sh' txn' r, f txn = (sh', txn', r) →
      Follows (shown db.shared.tables txn.snapshotLsn) u (call, answer r) (overlay txn) (overlay txn'))
    (htxn : db.txns u = some txn) (htxn' : (db.withTxn u f answer).1.txns u = some txn') :
    Follows (shown db.shared.tables txn.snapshotLsn) u (call, (db.withTxn u f answer).2)
      (overlay txn) (overlay txn') := by
  simp only [Database.withTxn, htxn, update_self, Option.some.injEq] at htxn' ⊢
  subst htxn'
  exact hf _ _ _ rfl

theorem follows_same {S : Contents TableKey Bytes}
    {ws : Overlay TableKey Bytes} (h : opOf event = none) : Follows S t event ws ws :=
  .inr ⟨fun op hop => (by rw [h] at hop; cases hop), rfl⟩

theorem opOf_subject (h : opOf event = some (t, op)) : event.1.subject = some t := by
  unfold opOf at h
  split at h <;> cases h <;> rfl

/-- A call that is not made on a transaction leaves it as it is. -/
theorem txns_of_subject_ne
    (hwf : db.WellFormed) (hsubj : call.subject ≠ some u) (htxn : db.txns u = some txn) :
    (db.exec (engines scan) cfg call).1.txns u = some txn := by
  have he : Database.Effect (engines scan) cfg db call _ _ := Database.exec_effect call
  generalize (db.exec (engines scan) cfg call).1 = db', (db.exec (engines scan) cfg call).2 = answer at he ⊢
  cases he with
  | idle _ _ _ htxns => rwa [htxns]
  | opened => exact (update_of_ne (hwf.fresh u txn htxn).ne _ _).trans htxn
  | continued _ _ _ hcall =>
    refine (update_of_ne ?_ _ _).trans htxn
    rintro rfl
    exact hsubj hcall
  | committed | refused | rolledBack =>
    refine (update_of_ne ?_ _ _).trans htxn
    rintro rfl
    exact hsubj rfl

/-- **Every call but a range delete follows the program of a transaction that stays open.** -/
theorem exec_follows (hwf : db.WellFormed)
    (hrange : ∀ t tableId bounds ios, call ≠ .rangeDelete t tableId bounds ios) (htxn : db.txns u = some txn)
    (htxn' : (db.exec (engines scan) cfg call).1.txns u = some txn') :
    Follows (shown db.shared.tables txn.snapshotLsn) u
      (call, (db.exec (engines scan) cfg call).2) (overlay txn) (overlay txn') := by
  by_cases hsubj : call.subject = some u
  swap
  · cases (txns_of_subject_ne hwf hsubj htxn).symm.trans htxn'
    exact .inr ⟨fun op hop => hsubj (opOf_subject hop), rfl⟩
  cases call with
  | beginRead | beginWrite | beginReadAt | createSnapshot | releaseSnapshot => cases hsubj
  | get t k =>
    cases hsubj
    refine follows_withTxn ?_ htxn htxn'
    rintro _ _ r ⟨⟩
    cases hget : txn.get (engines scan) db.shared k with
    | error e => exact follows_same rfl
    | ok result => exact .inl ⟨_, rfl, get_agrees hget, rfl⟩
  | recordRead t k =>
    cases hsubj
    refine follows_withTxn ?_ htxn htxn'
    rintro _ _ r ⟨⟩
    have hsame : overlay (txn.recordRead k) = overlay txn := by
      unfold recordRead
      split <;> rfl
    rw [hsame]
    exact follows_same rfl
  | put t k value io =>
    cases hsubj
    refine follows_withTxn ?_ htxn htxn'
    intro sh' txn' r hx
    obtain ⟨-, hok, herr⟩ := put_spec hx
    cases r with
    | error e =>
      rw [herr ⟨e, rfl⟩]
      exact follows_same rfl
    | ok v =>
      rw [(hok rfl).2.2, overlay_recordWrite]
      exact .inl ⟨_, rfl, trivial, rfl⟩
  | delete t k io =>
    cases hsubj
    refine follows_withTxn ?_ htxn htxn'
    intro sh' txn' r hx
    obtain ⟨-, hok, herr⟩ := delete_spec hx
    cases r with
    | error e =>
      rw [herr ⟨e, rfl⟩]
      exact follows_same rfl
    | ok existed =>
      obtain ⟨-, -, hexisted, rfl⟩ := hok existed rfl
      rw [overlay_recordWrite]
      refine .inl ⟨_, rfl, ?_, rfl⟩
      show existed = ((txn.writeSet.lookup k).isSome || (db.shared.tables.read k txn.snapshotLsn).isSome)
      unfold Transaction.existed at hexisted
      split_ifs at hexisted with hk <;> cases hexisted <;> simp [hk]
  | rangeDelete t tableId bounds ios => exact absurd rfl (hrange t tableId bounds ios)
  | special t op io =>
    cases hsubj
    refine follows_withTxn ?_ htxn htxn'
    intro sh' txn' r hx
    have hsame : overlay txn' = overlay txn := by
      unfold overlay
      rw [special_writeSet hx]
    rw [hsame]
    exact follows_same (by cases r <;> rfl)
  | prepare t =>
    cases hsubj
    refine follows_withTxn ?_ htxn htxn'
    rintro _ _ r ⟨⟩
    have hsame : overlay txn.prepare.1 = overlay txn := by
      unfold prepare
      split_ifs <;> rfl
    rw [hsame]
    exact follows_same (by cases txn.prepare.2 <;> rfl)
  | commit t choices =>
    cases hsubj
    simp only [Database.exec, htxn] at htxn' ⊢
    split_ifs at htxn' ⊢ with hfits
    · simp [Database.consume, htxn] at htxn'
    · cases htxn.symm.trans htxn'
      exact follows_same rfl
  | rollback t io =>
    cases hsubj
    simp [Database.exec, Database.consume, htxn] at htxn'

variable {T : Type} {E : Engines T}

theorem exec_notOpen {db : Database T} (hcall : call.subject = some t) (ht : db.txns t = none) :
    (db.exec E cfg call).2 = .notOpen := by
  cases call <;> cases hcall <;> simp [Database.exec, Database.withTxn, Database.consume, ht]

theorem opOf_open {db : Database T} (h : opOf (call, (db.exec E cfg call).2) = some (t, op)) :
    db.txns t ≠ none := by
  intro ht
  rw [exec_notOpen (opOf_subject h) ht] at h
  cases call <;> cases h

namespace Database

variable {db' : Database Versioned} {answer : Answer}

/-! ## The tables -/

variable {choices : CommitChoices}

theorem tables_of_refused {e : TransactionError}
    (h : txn.commit (engines scan) cfg choices sh = (sh', .error e)) : sh'.tables = sh.tables ∨ sh'.tables =
      choices.writes.foldl (fun tables w => tables.write txn.txnId txn.snapshotLsn w)
        sh.tables := by
  rcases commit_cases h with ⟨-, -, hsame | ⟨undoLog, -, href⟩⟩ | ⟨-, hno, -⟩
  · exact .inl hsame
  · refine .inr ?_
    rcases href with ⟨applied, e', happ, -⟩ | ⟨applied, e', -, hcom⟩
    · rw [applyAllChanges_eq] at happ
      cases happ
    · simp only [commitTables, applyAllChanges_eq, andThen_ok] at hcom
      generalize hx : forEach (fun tables op => (engines scan).applySpecial tables
        txn.txnId (sh.wal.currentLsn + 1) op) _ (choices.blooms ++ txn.familyOps) = x at hcom
      have hspec := applySpecials_fst ▸ congrArg Prod.fst hx
      obtain ⟨tables, e'' | u⟩ := x
      · cases hcom
        exact hspec.symm
      · rw [andThen_ok, commitVersions_eq] at hcom
        cases (Prod.mk.inj hcom).2
  · cases hno

variable {lsn : ℕ}

/-- A commit that returns `Ok` leaves its writes applied and stamped, above every position
handed out before. -/
theorem tables_of_committed (h : txn.commit (engines scan) cfg choices sh = (sh', .ok lsn)) :
    lsn = sh.wal.currentLsn + 1 ∧ sh'.currentLsn = lsn ∧ lsn < sh'.wal.currentLsn ∧
      WalWriter.Onward sh.wal sh'.wal ∧ txn.txnId ∈ sh.wal.activeTxns ∧ sh'.tables = choices.tables.foldl
        (fun tables table => tables.commitVersions txn.txnId lsn table)
        (choices.writes.foldl (fun tables w => tables.write txn.txnId txn.snapshotLsn w) sh.tables) := by
  rcases commit_cases h with ⟨⟨e, hno⟩, -⟩ | ⟨hfree, hlsn, w, tables, htab, hw, hon, rfl⟩
  · cases hno
  cases hlsn
  have hact : txn.txnId ∈ sh.wal.activeTxns := by
    obtain ⟨w₁, w₂, hp, -, -⟩ := hfree.log
    rcases WalWriter.writeChecked_result hp with ⟨hnone, -, -, -⟩ | ⟨⟨e, he⟩, -, -⟩
    · by_contra hno
      simp [WalWriter.requireActive, hno] at hnone
    · cases he
  refine ⟨rfl, rfl, by simp only [hw]; omega, hon, hact, ?_⟩
  simp only [commitTables, applyAllChanges_eq, andThen_ok] at htab
  obtain ⟨tables₁, u, hx, hstamp⟩ := andThen_eq_ok.mp htab
  have hspec := applySpecials_fst ▸ congrArg Prod.fst hx
  rw [commitVersions_eq] at hstamp
  have htables := (Prod.mk.inj hstamp).1
  simp only at hspec
  rw [← htables, ← hspec]

section

variable (he : Effect (engines scan) cfg db call answer db')
include he

/-- A transaction that is open after a call is new and has written nothing, or was open before
with the same snapshot. -/
theorem txns_effect (ht : db'.txns t = some txn') :
    (t = db.nextTxnId ∧ overlay txn' = Overlay.none ∧ txn'.snapshotLsn ≤ db.shared.currentLsn) ∨
      ∃ txn, db.txns t = some txn ∧ txn'.snapshotLsn = txn.snapshotLsn := by
  cases he with
  | idle _ _ _ htxns => exact .inr ⟨txn', htxns ▸ ht, rfl⟩
  | opened _ _ _ hsnapshot =>
    rcases update_eq_some ht with ⟨hid, hnew⟩ | ⟨-, ht⟩
    · cases hnew
      exact .inl ⟨hid, rfl, hsnapshot⟩
    · exact .inr ⟨txn', ht, rfl⟩
  | continued hopen hcont =>
    rcases update_eq_some ht with ⟨rfl, hnew⟩ | ⟨-, ht⟩
    · cases hnew
      exact .inr ⟨_, hopen, hcont.snapshotLsn⟩
    · exact .inr ⟨txn', ht, rfl⟩
  | committed | refused | rolledBack =>
    rcases update_eq_some ht with ⟨-, hno⟩ | ⟨-, ht⟩
    · cases hno
    · exact .inr ⟨txn', ht, rfl⟩

/-- A transaction that the log takes records of did so before, or has just begun at the published
position. -/
theorem active_effect
    (hact : t ∈ db'.shared.wal.activeTxns) :
    t ∈ db.shared.wal.activeTxns ∨ t < db'.nextTxnId ∧ committed (call, answer) = none ∧
      ∀ txn', db'.txns t = some txn' → txn'.snapshotLsn = db.shared.currentLsn := by
  cases he with
  | idle _ _ hshared => exact .inl (hshared ▸ hact)
  | opened w hw snapshotLsn hsnapshot isolation durability hcall hnew =>
    rcases hnew t hact with hold | ⟨rfl, hsnap⟩
    · exact .inl hold
    · refine .inr ⟨Nat.lt_succ_self _, by cases call <;> rfl, fun txn' ht => ?_⟩
      cases (update_self db.nextTxnId _ _).symm.trans ht
      exact hsnap
  | continued _ hcont => exact .inl (hcont.active ▸ hact)
  | committed _ _ hcom =>
    obtain ⟨-, -, -, hon, -, -⟩ := tables_of_committed hcom
    exact .inl (hon.active t hact)
  | refused _ _ hcom =>
    rcases commit_cases hcom with ⟨-, hk, -⟩ | ⟨-, hno, -⟩
    · exact .inl (hk.log.active t hact)
    · cases hno
  | rolledBack _ hroll =>
    rcases rollback_cases hroll with ⟨-, -, hk, -⟩ | ⟨-, -, w, hw, rfl⟩
    · exact .inl (hk.log.active t hact)
    · exact .inl (hw.active t hact)

theorem begun_effect
    (h : begun (call, answer) = some t) : t = db.nextTxnId := by
  cases he with
  | opened => exact (Option.some.inj h).symm
  | idle hbegun | continued _ _ _ _ hbegun => cases hbegun.symm.trans h
  | committed | refused | rolledBack => cases h

theorem nextTxnId_effect :
    db.nextTxnId ≤ db'.nextTxnId := by
  cases he with
  | idle _ _ _ _ hnext => exact hnext.ge
  | opened => exact Nat.le_succ _
  | continued | committed | refused | rolledBack => exact le_rfl

end

/-- The published position is below the log's; every stamp and every snapshot is at or below it;
and an open transaction has no version in the tables. -/
structure Current (db : Database Versioned) : Prop where
  published : db.shared.currentLsn < db.shared.wal.currentLsn
  stamps : ∀ k, ∀ v ∈ db.shared.tables k, ∀ l, v.commitLsn = some l → l ≤ db.shared.currentLsn
  creators : ∀ k, ∀ v ∈ db.shared.tables k, v.createdBy < db.nextTxnId
  pending : ∀ k, ∀ v ∈ db.shared.tables k, v.commitLsn = none → db.txns v.createdBy = none
  active : ∀ t ∈ db.shared.wal.activeTxns, t < db.nextTxnId
  snapshots : ∀ t txn, db.txns t = some txn → txn.snapshotLsn ≤ db.shared.currentLsn

theorem current_new : (new empty).Current where
  published := by decide
  stamps k v hv := by cases hv
  creators k v hv := by cases hv
  pending k v hv := by cases hv
  active t ht := by cases ht
  snapshots := nofun

/-- A call keeps the tables current if the versions it adds are those of a transaction it closes,
pending or stamped with the position it publishes. -/
theorem Current.of_effect (h : db.Current) (he : Effect (engines scan) cfg db call answer db')
    (hpublished : db'.shared.currentLsn < db'.shared.wal.currentLsn)
    (hup : db.shared.currentLsn ≤ db'.shared.currentLsn)
    (htables : ∀ k, ∀ v ∈ db'.shared.tables k, v ∈ db.shared.tables k ∨
      v.createdBy < db.nextTxnId ∧ (v.commitLsn = none ∧ db'.txns v.createdBy = none ∨
        v.commitLsn = some db'.shared.currentLsn)) : db'.Current := by
  have hnext := nextTxnId_effect he
  refine ⟨hpublished, ?_, ?_, ?_, ?_, ?_⟩
  · intro k v hv l hl
    rcases htables k v hv with hv | ⟨-, ⟨hnone, -⟩ | hsome⟩
    · exact (h.stamps k v hv l hl).trans hup
    · cases hnone.symm.trans hl
    · cases hl.symm.trans hsome
      exact le_rfl
  · intro k v hv
    rcases htables k v hv with hv | ⟨hby, -⟩
    · exact (h.creators k v hv).trans_le hnext
    · exact hby.trans_le hnext
  · intro k v hv hnone
    rcases htables k v hv with hv | ⟨-, ⟨-, hclosed⟩ | hsome⟩
    · -- no call opens a transaction again
      by_contra hopen
      obtain ⟨txn', hopen⟩ := Option.ne_none_iff_exists'.mp hopen
      rcases txns_effect he hopen with ⟨hid, -⟩ | ⟨txn, ht, -⟩
      · exact (h.creators k v hv).ne hid
      · cases (h.pending k v hv hnone).symm.trans ht
    · exact hclosed
    · cases hnone.symm.trans hsome
  · intro t ht
    rcases active_effect he ht with ht | ⟨hlt, -⟩
    · exact (h.active t ht).trans_le hnext
    · exact hlt
  · intro t txn' ht
    rcases txns_effect he ht with ⟨-, -, hsnapshot⟩ | ⟨txn, ht, hsnap⟩
    · exact hsnapshot.trans hup
    · exact hsnap ▸ (h.snapshots t txn ht).trans hup

/-- **Every call keeps the tables current.** -/
theorem current_effect (hwf : db.WellFormed) (h : db.Current)
    (he : Effect (engines scan) cfg db call answer db') : db'.Current := by
  have hkept := h.of_effect he
  have hpublished := h.published
  cases he with
  | idle _ _ hshared =>
    rw [hshared] at hkept
    exact hkept h.published le_rfl fun k v hv => .inl hv
  | opened w hw => exact hkept (h.published.trans_le hw) le_rfl fun k v hv => .inl hv
  | continued ht hcont =>
    have := hcont.position
    have := hcont.currentLsn
    exact hkept (by dsimp only; omega) hcont.currentLsn.ge fun k v hv => .inl (hcont.tables ▸ hv)
  | @committed t txn choices sh' lsn ht hfits hcom =>
    have hid := hwf.ids t txn ht
    have hfresh := hwf.fresh t txn ht
    obtain ⟨hlsn, hcur, hw, -, -, htables⟩ := tables_of_committed hcom
    refine hkept (by dsimp only; omega) (by dsimp only; omega) fun k v hv => ?_
    have hwritten : ∀ v, v ∈ choices.writes.foldl
        (fun tables w => tables.write txn.txnId txn.snapshotLsn w) db.shared.tables k →
        v ∈ db.shared.tables k ∨ v.createdBy = t ∧ v.commitLsn = none := by
      intro v hv
      rcases mem_foldl_write hv with hv | ⟨hby, hnone, -⟩
      · exact .inl hv
      · exact .inr ⟨hby.trans hid, hnone⟩
    rw [htables] at hv
    rcases mem_foldl_commitVersions hv with hv | ⟨hsome, v₀, hv₀, hby⟩
    · rcases hwritten v hv with hv | ⟨rfl, hnone⟩
      · exact .inl hv
      · exact .inr ⟨hfresh, .inl ⟨hnone, update_self ..⟩⟩
    · refine .inr ⟨?_, .inr (hcur ▸ hsome)⟩
      rw [← hby]
      rcases hwritten v₀ hv₀ with hv₀ | ⟨rfl, -⟩
      · exact h.creators k v₀ hv₀
      · exact hfresh
  | @refused t txn choices sh' e ht hfits hcom =>
    have hkeeps : Transaction.Keeps db.shared sh' := by
      rcases commit_cases hcom with ⟨-, hk, -⟩ | ⟨-, hno, -⟩
      · exact hk
      · cases hno
    have := hkeeps.currentLsn
    have := hkeeps.log.position
    refine hkept (by dsimp only; omega) hkeeps.currentLsn.ge fun k v hv => ?_
    rcases tables_of_refused hcom with hsame | hwritten
    · exact .inl (hsame ▸ hv)
    · rw [hwritten] at hv
      rcases mem_foldl_write hv with hv | ⟨hby, hnone, -⟩
      · exact .inl hv
      · obtain rfl := hby.trans (hwf.ids t txn ht)
        exact .inr ⟨hwf.fresh _ txn ht, .inl ⟨hnone, update_self ..⟩⟩
  | rolledBack ht hroll =>
    rcases rollback_cases hroll with ⟨-, -, hk, htables⟩ | ⟨-, -, w, hw, rfl⟩
    · have := hk.currentLsn
      have := hk.log.position
      exact hkept (by dsimp only; omega) hk.currentLsn.ge fun k v hv => .inl (htables ▸ hv)
    · have := hw.position
      exact hkept (by dsimp only; omega) le_rfl fun k v hv => .inl hv

/-- **No call changes a read at a position published before it.** -/
theorem read_effect (h : db.Current) (he : Effect (engines scan) cfg db call answer db') {s : ℕ}
    (hs : s ≤ db.shared.currentLsn) :
    db'.shared.tables.read k s = db.shared.tables.read k s := by
  cases he with
  | idle _ _ hshared => rw [hshared]
  | opened => rfl
  | continued _ hcont => rw [hcont.tables]
  | committed _ _ hcom =>
    obtain ⟨hlsn, -, -, -, -, htables⟩ := tables_of_committed hcom
    have := h.published
    simp only [htables]
    rw [read_foldl_commitVersions (by omega), read_foldl_write]
  | refused _ _ hcom =>
    rcases tables_of_refused hcom with hsame | hwritten
    · simp [hsame]
    · simp only [hwritten]
      exact read_foldl_write
  | rolledBack _ hroll =>
    rcases rollback_cases hroll with ⟨-, -, -, htables⟩ | ⟨-, -, w, -, rfl⟩
    · simp [htables]
    · rfl

theorem currentLsn_effect (hcomm : committed (call, answer) = none)
    (he : Effect (engines scan) cfg db call answer db') : db'.shared.currentLsn = db.shared.currentLsn := by
  cases he with
  | idle _ _ hshared => rw [hshared]
  | opened => rfl
  | continued _ hcont => exact hcont.currentLsn
  | committed => cases hcomm
  | refused _ _ hcom =>
    rcases commit_cases hcom with ⟨-, hk, -⟩ | ⟨-, hno, -⟩
    · exact hk.currentLsn
    · cases hno
  | rolledBack _ hroll =>
    rcases rollback_cases hroll with ⟨-, -, hk, -⟩ | ⟨-, -, w, -, rfl⟩
    · exact hk.currentLsn
    · rfl

/-- The contents a transaction sees that begins now. -/
def contents (db : Database Versioned) : Contents TableKey Bytes :=
  shown db.shared.tables db.shared.currentLsn

/-- **A commit installs its write set**, if what it deletes without the snapshot showing it is not
there now either. -/
theorem contents_of_committed (hwf : db.WellFormed) (h : db.Current)
    (ht : db.txns t = some txn) (hfits : txn.Fits choices)
    (hcom : txn.commit (engines scan) cfg choices db.shared = (sh', .ok lsn))
    (hdeleted : ∀ k, overlay txn k = some none →
      db.shared.tables.read k txn.snapshotLsn = none → db.contents k = none) :
    contents { db with shared := sh', txns := update db.txns t none } =
      install kept db.contents (overlay txn) := by
  obtain ⟨hlsn, hcur, -, -, -, htables⟩ := tables_of_committed hcom
  have hid := hwf.ids t txn ht
  have hup : db.shared.currentLsn ≤ lsn := by
    have := h.published
    omega
  funext k
  -- the versions of the transaction are only now there
  have hself : stamp txn.txnId lsn (db.shared.tables k) = db.shared.tables k := by
    refine stamp_eq_self fun v hv hnone hby => ?_
    have hclosed := h.pending k v hv hnone
    rw [hby, hid, ht] at hclosed
    cases hclosed
  have hold : db.shared.tables.read k lsn = db.contents k := by
    rw [Versioned.read, VersionChain.findVisibleInline_of_stamps (h.stamps k) hup]
    rfl
  show sh'.tables.read k sh'.currentLsn = install kept db.contents (overlay txn) k
  rw [hcur]
  cases hk : overlay txn k with
  | none =>
    have hnot : k ∉ Commit.keys (t, choices.writes) := by
      rw [mem_keys_of_fits hfits]
      exact AList.lookup_eq_none.mp hk
    have hchain : sh'.tables k = db.shared.tables k := by
      rw [htables, foldl_commitVersions_apply, foldl_write_of_notMem hnot, hself, ite_self]
    rw [read_congr hchain, hold, install, hk]
  | some value =>
    have hmem : (k, value) ∈ choices.writes := (mem_writes_of_fits hfits).mpr hk
    have hchain : sh'.tables k = stamp txn.txnId lsn
        (db.shared.tables.added txn.txnId txn.snapshotLsn (k, value)) ++ db.shared.tables k := by
      rw [htables, foldl_commitVersions_apply, if_pos (mem_tables_of_fits hfits hmem),
        foldl_write_of_mem (nodup_keys_of_fits hfits) hmem, stamp, map_append, ← stamp, ← stamp, hself]
    rw [install, hk]
    cases value with
    | some value =>
      have hhead : sh'.tables k =
          ⟨.inline value, txn.txnId, some lsn⟩ :: db.shared.tables k := by
        rw [hchain]
        simp [added, stamp, Version.new]
      rw [read_committed le_rfl hhead]
      by_cases hval : value = [] <;> simp [Option.filter, kept, hval]
    | none =>
      by_cases hshown : (db.shared.tables.read k txn.snapshotLsn).isSome
      · have hhead : sh'.tables k = ⟨.inline [], txn.txnId, some lsn⟩ :: db.shared.tables k := by
          rw [hchain]
          simp [added, stamp, Version.new, hshown]
        rw [read_committed le_rfl hhead]
        rfl
      · have hsame : sh'.tables k = db.shared.tables k := by
          rw [hchain]
          simp [added, stamp, hshown]
        rw [read_congr hsame, hold]
        exact hdeleted k hk (by simpa using hshown)

/-! ## Serial order -/

/-- What the run so far has kept. An open transaction the log is ready for sees, of keys nobody
has committed since it began, what is there now; its program replays on its snapshot; and the
committed programs replay one after the other. -/
structure Serialized (trace : List Event) (db : Database Versioned) : Prop where
  wellFormed : db.WellFormed
  current : db.Current
  since : ∀ t txn, db.txns t = some txn → t ∈ db.shared.wal.activeTxns →
    ∀ k, (∀ c ∈ committedSince t trace, k ∉ c.keys) → db.contents k = db.shared.tables.read k txn.snapshotLsn
  replays : ∀ t txn, db.txns t = some txn →
    Replay (shown db.shared.tables txn.snapshotLsn) (program t trace) Overlay.none (overlay txn)
  unused : ∀ t, db.nextTxnId ≤ t → program t trace = []
  closed : ∀ t ∈ commitOrder trace, db.Closed t
  serial : Execution kept (fun t => program t trace) (commitOrder trace) (fun _ => none) db.contents

theorem serialized_new : Serialized [] (new empty) where
  wellFormed := wellFormed_new
  current := current_new
  since := nofun
  replays := nofun
  unused _ _ := rfl
  closed t ht := by cases ht
  serial := .nil _

variable {c : Commit}

theorem committed_cases (h : committed event = some c) : consumed event = some c.1 ∧ opOf event = none := by
  unfold committed at h
  split at h
  · cases h
    exact ⟨rfl, rfl⟩
  · cases h

/-- The commit at hand: its program replays on the contents as they are, and its writes are
installed. -/
theorem replay_now (h : Serialized trace db) (ht : db.txns t = some txn) (hact : t ∈ db.shared.wal.activeTxns)
    (hguard : ∀ k ∈ dependencies (program t trace) [], ∀ c ∈ committedSince t trace, k ∉ c.keys) :
    Replay db.contents (program t trace) Overlay.none (overlay txn) := by
  have hnil : ∀ k : TableKey, k ∈ ([] : List TableKey) ↔
      ((Overlay.none : Overlay TableKey Bytes) k).isSome := by
    intro k
    simp [Overlay.none]
  refine replay_congr hnil ?_ (h.replays t txn ht)
  · intro k hk
    exact (h.since t txn ht hact k (hguard k hk)).symm

theorem commitOrder_of_committed (h : committed event = some c) :
    commitOrder (event :: trace) = commitOrder trace ++ [c.1] := by
  simp [commitOrder, h]

theorem commitOrder_of_not
    (h : committed event = none) : commitOrder (event :: trace) = commitOrder trace := by
  simp [commitOrder, h]

theorem contents_of_not (h : db.Current) (he : Effect (engines scan) cfg db call answer db')
    (hcomm : committed (call, answer) = none) : db'.contents = db.contents := by
  funext k
  show db'.shared.tables.read k db'.shared.currentLsn = _
  rw [currentLsn_effect hcomm he]
  exact read_effect h he le_rfl

section

variable (h : Serialized trace db)
include h

/-- What an allowed call does to the contents: nothing, or a transaction has committed whose
program replays on the contents before, and its writes are installed. -/
theorem contents_effect (hguard : CommitsCurrent trace db call)
    (he : Effect (engines scan) cfg db call answer db') :
    (committed (call, answer) = none ∧ db'.contents = db.contents) ∨
      ∃ c txn, committed (call, answer) = some c ∧ db.txns c.1 = some txn ∧
        Replay db.contents (program c.1 trace) Overlay.none (overlay txn) ∧
        db'.contents = install kept db.contents (overlay txn) ∧
        ∀ k ∉ Commit.keys c, overlay txn k = none := by
  cases hcomm : committed (call, answer) with
  | none => exact .inl ⟨rfl, contents_of_not h.current he hcomm⟩
  | some c =>
    refine .inr ?_
    cases he with
    | idle _ hcons => cases (committed_eq_none hcons).symm.trans hcomm
    | opened => cases call <;> cases hcomm
    | continued _ _ _ _ _ hcons => cases (committed_eq_none hcons).symm.trans hcomm
    | refused | rolledBack => cases hcomm
    | @committed t txn choices sh' lsn ht hfits hcom =>
      cases hcomm
      obtain ⟨-, -, -, -, hact, -⟩ := tables_of_committed hcom
      rw [h.wellFormed.ids t txn ht] at hact
      refine ⟨_, txn, rfl, ht, replay_now h ht hact hguard, ?_, ?_⟩
      · refine contents_of_committed h.wellFormed h.current ht hfits hcom fun k hk hshown => ?_
        rcases delete_of_replay (h.replays t txn ht) hk with hno | ⟨existed, hdel⟩
        · cases hno
        · rw [h.since t txn ht hact k (hguard k (mem_dependencies_of_delete hdel)), hshown]
      · intro k hk
        rw [mem_keys_of_fits hfits] at hk
        exact AList.lookup_eq_none.mpr hk

theorem since_effect (hguard : CommitsCurrent trace db call)
    (he : Effect (engines scan) cfg db call answer db') (ht' : db'.txns t = some txn')
    (hact : t ∈ db'.shared.wal.activeTxns)
    (hk : ∀ c ∈ committedSince t ((call, answer) :: trace), k ∉ c.keys) :
    db'.contents k = db'.shared.tables.read k txn'.snapshotLsn := by
  rcases active_effect he hact with hact | ⟨-, hnone, hsnap⟩
  · have hold : t < db.nextTxnId := h.current.active t hact
    have hbegun : begun (call, answer) ≠ some t := fun hb => Nat.ne_of_lt hold (begun_effect he hb)
    rcases txns_effect he ht' with ⟨hid, -⟩ | ⟨txn, ht, hsnap⟩
    · exact absurd hid (Nat.ne_of_lt hold)
    rw [hsnap, read_effect h.current he (h.current.snapshots t txn ht), ← h.since t txn ht hact k
        fun c hc => hk c (mem_committedSince_cons.mpr ⟨hbegun, .inr hc⟩)]
    rcases contents_effect h hguard he with ⟨-, hsame⟩ | ⟨c, _, hcomm, -, -, hinst, hkeys⟩
    · rw [hsame]
    · -- the transaction that has just committed is among those since `t` began
      have hnot := hkeys k (hk c (mem_committedSince_cons.mpr ⟨hbegun, .inl hcomm⟩))
      rw [hinst, install, hnot]
  · rw [contents_of_not h.current he hnone, hsnap txn' ht']
    exact (read_effect h.current he le_rfl).symm

/-- **Every allowed call keeps the run serial.** -/
theorem serialized_exec (hguard : CommitsCurrent trace db call) :
    Serialized ((call, (db.exec (engines scan) cfg call).2) :: trace)
      (db.exec (engines scan) cfg call).1 := by
  have he : Effect (engines scan) cfg db call _ _ := exec_effect call
  have hfollows : ∀ t txn txn', db.txns t = some txn →
      (db.exec (engines scan) cfg call).1.txns t = some txn' → _ :=
    fun t txn txn' => exec_follows h.wellFormed (fun t tableId bounds ios hcall => by
      subst hcall
      exact hguard)
  have hops : ∀ t op, opOf (call, (db.exec (engines scan) cfg call).2) = some (t, op) →
      db.txns t ≠ none := fun t op => opOf_open
  generalize (db.exec (engines scan) cfg call).1 = db', (db.exec (engines scan) cfg call).2 = answer at *
  have hclosed : ∀ t, db.txns t = none → program t ((call, answer) :: trace) = program t trace :=
    fun t ht => program_of_ne fun op hop => hops t op hop ht
  have hshown : ∀ t txn, db.txns t = some txn →
      shown db'.shared.tables txn.snapshotLsn = shown db.shared.tables txn.snapshotLsn :=
    fun t txn ht => funext fun k => read_effect h.current he (h.current.snapshots t txn ht)
  have hfree : ∀ t, db.nextTxnId ≤ t → db.txns t = none := by
    intro t ht
    by_contra hopen
    obtain ⟨txn, hopen⟩ := Option.ne_none_iff_exists'.mp hopen
    exact absurd (h.wellFormed.fresh t txn hopen) (not_lt.mpr ht)
  have hconts := contents_effect h hguard he
  refine ⟨wellFormed_effect h.wellFormed he, current_effect h.wellFormed h.current he, ?_, ?_, ?_, ?_, ?_⟩
  · intro t txn' ht' hact k hk
    exact since_effect h hguard he ht' hact hk
  · intro t txn' ht'
    rcases txns_effect he ht' with ⟨rfl, hnone, -⟩ | ⟨txn, ht, hsnap⟩
    · rw [hclosed _ (hfree _ le_rfl), h.unused _ le_rfl, hnone]
      rfl
    · rw [hsnap, hshown t txn ht]
      rcases hfollows t txn txn' ht ht' with ⟨op, hop, hagrees, hrec⟩ | ⟨hno, hsame⟩
      · rw [program_of_eq hop, hrec]
        exact replay_snoc (h.replays t txn ht) hagrees
      · rw [program_of_ne hno, hsame]
        exact h.replays t txn ht
  · intro t ht
    have hold : db.nextTxnId ≤ t := (nextTxnId_effect he).trans ht
    rw [hclosed t (hfree t hold), h.unused t hold]
  · intro t ht
    rcases hconts with ⟨hcomm, -⟩ | ⟨c, txn, hcomm, -⟩
    · rw [commitOrder_of_not hcomm] at ht
      exact closed_effect (h.closed t ht) he
    · rw [commitOrder_of_committed hcomm, mem_append, mem_singleton] at ht
      rcases ht with ht | rfl
      · exact closed_effect (h.closed t ht) he
      · exact closed_of_consumed h.wellFormed he (committed_cases hcomm).1
  · have hprograms : ∀ t ∈ commitOrder trace, program t trace = program t ((call, answer) :: trace) :=
      fun t ht => (hclosed t (h.closed t ht).notOpen).symm
    have hserial := h.serial.congr hprograms
    rcases hconts with ⟨hcomm, hsame⟩ | ⟨c, txn, hcomm, ht, hrun, hinst, -⟩
    · rw [commitOrder_of_not hcomm, hsame]
      exact hserial
    · rw [commitOrder_of_committed hcomm, hinst]
      refine hserial.snoc ?_
      have hnoOp := (committed_cases hcomm).2
      rwa [program_of_ne fun op hop => by cases hnoOp.symm.trans hop]

end

/-- **If no transaction commits after another one has committed a key it read or deleted, the
committed transactions have read, and the tables hold, what a serial execution of them in commit
order gives.** -/
theorem serial_in_commitOrder {trace : List Event}
    (h : Run (exec (engines scan) cfg) CommitsCurrent (new empty) trace db) :
    Execution kept (fun t => program t trace) (commitOrder trace) (fun _ => none) db.contents := by
  refine (h.invariant (P := Serialized) serialized_new ?_).serial
  intro trace db call hinv hguard
  exact serialized_exec hinv hguard

/-- Two overlapping writers, of which the second has read a key the first has not written. -/
theorem serial_in_commitOrder_overlapping : ∃ (trace : List Event) (db : Database Versioned),
    Run (exec unscanned .default) CommitsCurrent (new empty) trace db ∧
    AtIsolation .serializable trace ∧ commitOrder trace = [1, 2] ∧
    program 2 trace = [.get (1, [1]) none, .put (1, [0]) [8]] ∧
    Execution kept (fun t => program t trace) [1, 2] (fun _ => none) db.contents := by
  have hrun : Run (exec unscanned .default) CommitsCurrent (new empty) _ _ :=
    ((((((Run.nil.call (.beginWrite .walOnly .serializable .ok) trivial).call
      (.beginWrite .walOnly .serializable .ok) trivial).call (.put 1 (1, [0]) [7] .ok) trivial).call
      (.commit 1 ⟨[((1, [0]), some [7])], [], [1], fun _ => .ok⟩) (by rintro _ ⟨⟩)).call
      (.get 2 (1, [1])) trivial).call (.put 2 (1, [0]) [8] .ok) trivial).call
      (.commit 2 ⟨[((1, [0]), some [8])], [], [1], fun _ => .ok⟩) (by unfold CommitsCurrent; decide)
  exact ⟨_, _, hrun, by unfold AtIsolation; decide, rfl, rfl, serial_in_commitOrder hrun⟩

/-- **Write skew at the serializable level.** Each of two transactions reads the key the other one
writes, and both commit. -/
theorem writeSkew_not_serial : ∃ (trace : List Event) (db : Database Versioned),
    Run (exec unscanned .default) anyCall (new empty) trace db ∧
    AtIsolation .serializable trace ∧ commitOrder trace = [1, 2] ∧ ∀ order, order.Perm (commitOrder trace) →
      ¬Execution kept (fun t => program t trace) order (fun _ => none) db.contents := by
  refine ⟨_, _, run_execute _ _ [.beginWrite .walOnly .serializable .ok,
    .beginWrite .walOnly .serializable .ok, .get 1 (1, [0]), .get 2 (1, [1]),
    .put 1 (1, [1]) [7] .ok, .put 2 (1, [0]) [8] .ok,
    .commit 1 ⟨[((1, [1]), some [7])], [], [1], fun _ => .ok⟩,
    .commit 2 ⟨[((1, [0]), some [8])], [], [1], fun _ => .ok⟩], ?_, rfl, ?_⟩
  · unfold AtIsolation
    decide
  · intro order hperm hexec
    rcases perm_pair.mp (hperm : order.Perm [1, 2]) with rfl | rfl
    all_goals exact absurd hexec (Execution.not_skewed rfl rfl rfl)

end Database

end NanoStore.Engine
