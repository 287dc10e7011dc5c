import NanoStore.Engine.Locks
import NanoStore.Engine.History
/-!
# The database — snapshots are stable where they were taken settled

Over versioned tables, and with commits taken in steps. Stamping the
versions of a commit changes reads at its position and above, so a
snapshot is safe from every commit that is logged after it was taken,
and from one under way if it lies below the position of that commit.
-/

namespace NanoStore.Engine

open Wal Steps Txn Table Function

/-! ## Commits that other calls interrupt

`commit` is not one step: the commit record is logged, the writes are
applied, the versions stamped and the position published one after the
other, and calls of other transactions fall in between. Here a commit is
taken in these steps. A snapshot is stable once taken, unless it was
taken at or above a commit position whose versions had not been stamped.
-/

/-- How far a commit has got: the last phase it has passed. -/
inductive Progress
  | logged (undoLog : List UndoOperation) (lsn : ℕ)
  | applied (lsn : ℕ)
  | specials (lsn : ℕ)
  | stamped (lsn : ℕ)

/-- The position of the commit record. -/
def Progress.lsn : Progress → ℕ
  | .logged _ lsn | .applied lsn | .specials lsn | .stamped lsn => lsn

/-- The versions have been stamped. -/
def Progress.isStamped : Progress → Bool
  | .stamped _ => true
  | _ => false

/-- A commit under way. -/
structure Committing where
  txn : Transaction
  choices : CommitChoices
  progress : Progress

/-- A database with commits under way. -/
structure SplitDatabase (T : Type) where
  db : Database T
  committing : TransactionId → Option Committing

/-- A call: any call of the database but a commit, a commit up to its commit record, or the
next phase of a commit under way. -/
inductive SplitCall
  | call (call : Call)
  | commit (t : TransactionId) (choices : CommitChoices)
  | resume (t : TransactionId)

/-- The answer to a call, or none while a commit is under way. -/
abbrev SplitAnswer := Option Answer

/-- The call is a commit in one step. -/
def Call.isCommit : Call → Bool
  | .commit _ _ => true
  | _ => false

namespace SplitDatabase

variable {T : Type} (E : Engines T) (cfg : WalWriterConfig) (s : SplitDatabase T)

/-- No commit under way. -/
def new (tables : T) : SplitDatabase T := ⟨.new tables, fun _ => none⟩

/-- A phase of the commit of `t` ends: the commit goes on, or the call returns its error. -/
def advance {α : Type} (t : TransactionId) (outcome : Outcome (Shared T) TransactionError α)
    (next : α → Committing) : SplitDatabase T × SplitAnswer :=
  match outcome with
  | (sh, .error e) =>
    (⟨{ s.db with shared := sh }, update s.committing t none⟩, some (.committed (.error e)))
  | (sh, .ok a) =>
    (⟨{ s.db with shared := sh }, update s.committing t (some (next a))⟩, none)

/-- The phases up to the commit record. -/
def commitToLog (choices : CommitChoices) (txn : Transaction) (sh : Shared T) :
    Outcome (Shared T) TransactionError (List UndoOperation × ℕ) :=
  andThen (txn.commitPrepare E cfg choices sh) fun sh undoLog =>
  andThen (txn.commitCheck sh) fun sh () =>
  andThen (txn.commitLog cfg choices sh) fun sh lsn => (sh, .ok (undoLog, lsn))

/-- A commit begun: its transaction is consumed. -/
def start (t : TransactionId) (choices : CommitChoices) : SplitDatabase T × SplitAnswer :=
  match s.db.txns t with
  | none => (s, some .notOpen)
  | some txn =>
    if txn.Fits choices then
      advance { s with db := { s.db with txns := update s.db.txns t none } } t
        (commitToLog E cfg choices txn s.db.shared) fun r => ⟨txn, choices, .logged r.1 r.2⟩
    else (s, some .notOpen)

/-- The next phase of a commit under way. -/
def resume (t : TransactionId) : SplitDatabase T × SplitAnswer :=
  match s.committing t with
  | none => (s, some .notOpen)
  | some c =>
    match c.progress with
    | .logged undoLog lsn =>
      s.advance t (c.txn.commitApply E cfg c.choices undoLog s.db.shared)
        fun _ => { c with progress := .applied lsn }
    | .applied lsn =>
      s.advance t (c.txn.commitSpecials E c.choices lsn s.db.shared)
        fun _ => { c with progress := .specials lsn }
    | .specials lsn =>
      s.advance t (c.txn.commitStamp E c.choices lsn s.db.shared) fun _ => { c with progress := .stamped lsn }
    | .stamped lsn =>
      (⟨{ s.db with shared := c.txn.commitPublish lsn s.db.shared },
        update s.committing t none⟩, some (.committed (.ok lsn)))

/-- The answer to a call, and the database it leaves. -/
def exec (s : SplitDatabase T) : SplitCall → SplitDatabase T × SplitAnswer
  | .call call =>
    if call.isCommit then (s, some .notOpen)
    else ({ s with db := (s.db.exec E cfg call).1 }, some (s.db.exec E cfg call).2)
  | .commit t choices => s.start E cfg t choices
  | .resume t => s.resume E cfg t

/-- A commit taken in steps with nothing in between. -/
def commitInSteps (t : TransactionId) (choices : CommitChoices) : SplitDatabase T :=
  (execute (exec E cfg) s [.commit t choices, .resume t, .resume t, .resume t, .resume t]).2

variable {E cfg s} {t : TransactionId} {choices : CommitChoices}

theorem commit_eq_andThen (txn : Transaction) (sh : Shared T) :
    txn.commit E cfg choices sh = andThen (commitToLog E cfg choices txn sh) fun sh r =>
      andThen (txn.commitApply E cfg choices r.1 sh) fun sh () =>
      andThen (txn.commitSpecials E choices r.2 sh) fun sh () =>
      andThen (txn.commitStamp E choices r.2 sh) fun sh () =>
        (txn.commitPublish r.2 sh, .ok r.2) := by
  simp [Transaction.commit, commitToLog, andThen_assoc, andThen_ok]

@[simp] theorem advance_error {α : Type} (sh : Shared T) (e : TransactionError)
    (next : α → Committing) : s.advance t (sh, .error e) next =
      (⟨{ s.db with shared := sh }, update s.committing t none⟩, some (.committed (.error e))) := rfl

@[simp] theorem advance_ok {α : Type} (sh : Shared T) (a : α) (next : α → Committing) :
    s.advance t (sh, .ok a) next =
      (⟨{ s.db with shared := sh }, update s.committing t (some (next a))⟩, none) := rfl

theorem resume_of_none (h : s.committing t = none) : s.resume E cfg t = (s, some .notOpen) := by
  simp [resume, h]

/-- **A commit taken in steps with nothing in between is the commit.** -/
theorem commitInSteps_db (h : s.committing t = none) :
    (s.commitInSteps E cfg t choices).db = (s.db.exec E cfg (.commit t choices)).1 := by
  simp only [commitInSteps, execute, List.foldl_cons, List.foldl_nil, exec, start, Database.exec]
  cases ht : s.db.txns t with
  | none => simp [resume_of_none h]
  | some txn =>
    by_cases hfits : txn.Fits choices
    · simp only [hfits, if_true, Database.consume, ht, commit_eq_andThen]
      -- at each phase the commit ends with the error, or goes on
      generalize commitToLog E cfg choices txn s.db.shared = x
      obtain ⟨sh₁, e | ⟨undoLog, lsn⟩⟩ := x
      · simp [resume]
      simp only [advance_ok, resume, update_self, andThen_ok]
      generalize txn.commitApply E cfg choices undoLog sh₁ = x
      obtain ⟨sh₂, e | _⟩ := x
      · simp
      simp only [advance_ok, update_self, andThen_ok]
      generalize txn.commitSpecials E choices lsn sh₂ = x
      obtain ⟨sh₃, e | _⟩ := x
      · simp
      simp only [advance_ok, update_self, andThen_ok]
      generalize txn.commitStamp E choices lsn sh₃ = x
      obtain ⟨sh₄, e | _⟩ := x
      · simp
      · simp
    · simp [hfits, resume_of_none h]

end SplitDatabase

namespace SplitDatabase

open Versioned Transaction

variable {scan : Versioned → TableId → ScanBounds → ℕ → Except TransactionError (List Key)}
  {cfg : WalWriterConfig} {s s' : SplitDatabase Versioned}

open Database (mem_keys_of_fits)

/-! ## The moves -/

/-- Nothing is opened, written, stamped or published: transactions go on or end. -/
structure Quiet (s s' : SplitDatabase Versioned) : Prop where
  tables : s'.db.shared.tables = s.db.shared.tables
  currentLsn : s'.db.shared.currentLsn = s.db.shared.currentLsn
  position : s.db.shared.wal.currentLsn ≤ s'.db.shared.wal.currentLsn
  nextTxnId : s'.db.nextTxnId = s.db.nextTxnId
  txns : ∀ t txn', s'.db.txns t = some txn' → ∃ txn, s.db.txns t = some txn ∧
    txn'.txnId = txn.txnId ∧ txn'.snapshotLsn = txn.snapshotLsn ∧
    ∀ k ∈ txn.writeSet, k ∈ txn'.writeSet
  committing : ∀ t c', s'.committing t = some c' → ∃ c, s.committing t = some c ∧
    c'.txn = c.txn ∧ c'.choices = c.choices ∧ c'.progress.lsn = c.progress.lsn ∧
    (c.progress.isStamped = true → c'.progress.isStamped = true)

/-- What a call can do to the parts a reader depends on. -/
inductive Move (s : SplitDatabase Versioned) : SplitCall → SplitDatabase Versioned → Prop
  | quiet {call : SplitCall} {s' : SplitDatabase Versioned} (h : Quiet s s') : Move s call s'
  | opened {call : Call} (w : WalWriterState)
      (hw : s.db.shared.wal.currentLsn ≤ w.currentLsn) (snapshotLsn : ℕ)
      (hsnapshot : snapshotLsn ≤ s.db.shared.currentLsn) (isolation : IsolationLevel)
      (durability : Durability) (hcall : call.snapshotLsn s.db = some snapshotLsn) :
      Move s (.call call) { s with db := (s.db.openTxn w snapshotLsn isolation durability).1 }
  | logged {t : TransactionId} {txn : Transaction} {choices : CommitChoices}
      {undoLog : List UndoOperation} {lsn : ℕ} {w : WalWriterState}
      (ht : s.db.txns t = some txn) (hfits : txn.Fits choices)
      (hlsn : s.db.shared.wal.currentLsn < lsn) (hw : lsn < w.currentLsn) :
      Move s (.commit t choices)
        ⟨{ s.db with
            shared := { s.db.shared with wal := w }
            txns := update s.db.txns t none },
          update s.committing t (some ⟨txn, choices, .logged undoLog lsn⟩)⟩
  | applied {t : TransactionId} {c : Committing} {undoLog : List UndoOperation} {lsn : ℕ}
      (hc : s.committing t = some c) (hprog : c.progress = .logged undoLog lsn) :
      Move s (.resume t)
        ⟨{ s.db with shared := { s.db.shared with
            tables := c.choices.writes.foldl
              (fun tables w => tables.write c.txn.txnId c.txn.snapshotLsn w) s.db.shared.tables } },
          update s.committing t (some { c with progress := .applied lsn })⟩
  | stamped {t : TransactionId} {c : Committing} {lsn : ℕ}
      (hc : s.committing t = some c) (hprog : c.progress = .specials lsn) :
      Move s (.resume t)
        ⟨{ s.db with shared := { s.db.shared with
            tables := c.choices.tables.foldl (fun tables table => tables.commitVersions c.txn.txnId lsn table)
              s.db.shared.tables } }, update s.committing t (some { c with progress := .stamped lsn })⟩
  | published {t : TransactionId} {c : Committing} {lsn : ℕ}
      (hc : s.committing t = some c) (hprog : c.progress = .stamped lsn) :
      Move s (.resume t)
        ⟨{ s.db with shared := c.txn.commitPublish lsn s.db.shared }, update s.committing t none⟩

theorem Quiet.refl : Quiet s s where
  tables := rfl
  currentLsn := rfl
  position := le_rfl
  nextTxnId := rfl
  txns _ txn h := ⟨txn, h, rfl, rfl, fun _ hk => hk⟩
  committing _ c h := ⟨c, h, rfl, rfl, rfl, id⟩

theorem quiet_of_ends {sh' : Shared Versioned} {txns : TransactionId → Option Transaction}
    {committing : TransactionId → Option Committing}
    (htables : sh'.tables = s.db.shared.tables) (hlsn : sh'.currentLsn = s.db.shared.currentLsn)
    (hw : s.db.shared.wal.currentLsn ≤ sh'.wal.currentLsn)
    (htxns : ∀ t txn, txns t = some txn → s.db.txns t = some txn)
    (hcommitting : ∀ t c, committing t = some c → s.committing t = some c) :
    Quiet s ⟨{ s.db with shared := sh', txns := txns }, committing⟩ where
  tables := htables
  currentLsn := hlsn
  position := hw
  nextTxnId := rfl
  txns t txn h := ⟨txn, htxns t txn h, rfl, rfl, fun _ hk => hk⟩
  committing t c h := ⟨c, hcommitting t c h, rfl, rfl, rfl, id⟩

variable {t : TransactionId}

theorem quiet_progress {c : Committing} {p : Progress}
    (hc : s.committing t = some c) (hlsn : p.lsn = c.progress.lsn)
    (hstamp : c.progress.isStamped = true → p.isStamped = true) :
    Quiet s { s with committing := update s.committing t (some { c with progress := p }) } := by
  refine ⟨rfl, rfl, le_rfl, rfl, fun _ txn h => ⟨txn, h, rfl, rfl, fun _ hk => hk⟩, ?_⟩
  intro u c' hu
  rcases update_eq_some hu with ⟨rfl, hnew⟩ | ⟨-, hu⟩
  · cases hnew
    exact ⟨c, hc, rfl, rfl, hlsn, hstamp⟩
  · exact ⟨c', hu, rfl, rfl, rfl, id⟩

theorem of_update_none {α : Type} {f : TransactionId → Option α} {u : TransactionId} {x : α}
    (h : update f t none u = some x) : f u = some x := by
  rcases update_eq_some h with ⟨-, hno⟩ | ⟨-, hu⟩
  · cases hno
  · exact hu

theorem move_of_effect {call : Call} {answer : Answer} {db' : Database Versioned}
    (hcall : call.isCommit = false) (he : Database.Effect (engines scan) cfg s.db call answer db') :
    Move s (.call call) { s with db := db' } := by
  cases he with
  | idle _ _ hshared htxns hnext =>
    refine .quiet ⟨?_, ?_, ?_, hnext, ?_, fun _ c h => ⟨c, h, rfl, rfl, rfl, id⟩⟩
    · simp [hshared]
    · simp [hshared]
    · simp [hshared]
    · intro t txn h
      exact ⟨txn, htxns ▸ h, rfl, rfl, fun _ hk => hk⟩
  | opened w hw snapshotLsn hsnapshot isolation durability hcall hactive =>
    exact .opened w hw snapshotLsn hsnapshot isolation durability hcall
  | continued ht hcont _ _ _ _ =>
    refine .quiet ⟨hcont.tables, hcont.currentLsn, hcont.position, rfl, ?_,
      fun _ c h => ⟨c, h, rfl, rfl, rfl, id⟩⟩
    intro u txn'' hu
    rcases update_eq_some hu with ⟨rfl, hnew⟩ | ⟨-, hu⟩
    · cases hnew
      exact ⟨_, ht, hcont.txnId, hcont.snapshotLsn, hcont.writeSet⟩
    · exact ⟨txn'', hu, rfl, rfl, fun _ hk => hk⟩
  | committed | refused => cases hcall
  | rolledBack ht hroll =>
    refine .quiet ?_
    rcases rollback_cases hroll with ⟨-, -, hk, htables⟩ | ⟨-, -, w, hw, rfl⟩
    · exact quiet_of_ends htables hk.currentLsn hk.log.position (fun _ _ => of_update_none) fun _ _ h => h
    · exact quiet_of_ends rfl rfl hw.position (fun _ _ => of_update_none) fun _ _ h => h

variable {txn : Transaction}

theorem commitToLog_cases {T : Type} {E : Engines T} {choices : CommitChoices}
    {sh sh' : Shared T} {result : Except TransactionError (List UndoOperation × ℕ)}
    (h : commitToLog E cfg choices txn sh = (sh', result)) :
    ∃ w, sh' = { sh with wal := w } ∧ sh.wal.currentLsn ≤ w.currentLsn ∧
      ∀ undoLog lsn, result = .ok (undoLog, lsn) →
        sh.wal.currentLsn < lsn ∧ lsn < w.currentLsn := by
  unfold commitToLog at h
  rcases andThen_cases h with ⟨sh₁, e, hprep, he⟩ | ⟨sh₁, undo, hprep, h⟩
  · cases he
    obtain ⟨w, rfl, hw, -⟩ := commitPrepare_cases hprep
    exact ⟨w, rfl, hw.position, nofun⟩
  obtain ⟨w₁, rfl, hw₁, hok₁⟩ := commitPrepare_cases hprep
  obtain ⟨-, -, -, hlsn₁⟩ := hok₁ undo rfl
  rcases andThen_cases h with ⟨sh₂, e, hcheck, he⟩ | ⟨sh₂, u, hcheck, h⟩
  · cases he
    obtain ⟨rfl, -⟩ := commitCheck_cases hcheck
    exact ⟨w₁, rfl, hw₁.position, nofun⟩
  obtain ⟨rfl, -⟩ := commitCheck_cases hcheck
  rcases andThen_cases h with ⟨sh₃, e, hlog, he⟩ | ⟨sh₃, position, hlog, h⟩
  · cases he
    obtain ⟨w₃, rfl, hw₃, -⟩ := commitLog_cases hlog
    exact ⟨w₃, rfl, (hw₁.trans hw₃).position, nofun⟩
  obtain ⟨w₃, rfl, hw₃, hok₃⟩ := commitLog_cases hlog
  obtain ⟨hpos, -, hlsn₃, -⟩ := hok₃ position rfl
  cases h
  simp only at hpos hlsn₃
  refine ⟨w₃, rfl, (hw₁.trans hw₃).position, ?_⟩
  rintro _ _ ⟨⟩
  omega

/-- **Every call is one of the moves.** -/
theorem exec_move (call : SplitCall) :
    Move s call (exec (engines scan) cfg s call).1 := by
  cases call with
  | call call =>
    simp only [exec]
    split_ifs with hcom
    · exact .quiet (.refl)
    · exact move_of_effect (by simpa using hcom) (Database.exec_effect call)
  | commit t choices =>
    simp only [exec, start]
    cases ht : s.db.txns t with
    | none => exact .quiet (.refl)
    | some txn =>
      simp only
      split_ifs with hfits
      · generalize hx : commitToLog (engines scan) cfg choices txn s.db.shared = x
        obtain ⟨sh', e | ⟨undoLog, lsn⟩⟩ := x
        · obtain ⟨w, rfl, hw, -⟩ := commitToLog_cases hx
          exact .quiet (quiet_of_ends rfl rfl hw (fun _ _ => of_update_none) fun _ _ => of_update_none)
        · obtain ⟨w, rfl, -, hok⟩ := commitToLog_cases hx
          obtain ⟨hlsn, hw⟩ := hok undoLog lsn rfl
          exact .logged ht hfits hlsn hw
      · exact .quiet (.refl)
  | resume t =>
    simp only [exec, resume]
    cases hc : s.committing t with
    | none => exact .quiet (.refl)
    | some c =>
      cases hprog : c.progress with
      | logged undoLog lsn =>
        simp only [hprog, commitApply, applyAllChanges_eq, advance_ok]
        exact .applied hc hprog
      | applied lsn =>
        refine .quiet ?_
        simp only [hprog, commitSpecials, applySpecials_fst]
        generalize (forEach _ s.db.shared.tables (c.choices.blooms ++ c.txn.familyOps)).2 = result
        cases result with
        | error e => exact quiet_of_ends rfl rfl le_rfl (fun _ _ h => h) fun _ _ => of_update_none
        | ok u => exact quiet_progress hc (by rw [hprog]; rfl) (by rw [hprog]; rintro ⟨⟩)
      | specials lsn =>
        simp only [hprog, commitStamp, commitVersions_eq, advance_ok]
        exact .stamped hc hprog
      | stamped lsn =>
        simp only [hprog]
        exact .published hc hprog

/-! ## What every settled call keeps -/

/-- A transaction is begun only at a snapshot below the position of every commit that has
written a key and whose versions are not stamped yet. -/
def BeginsSettled (_ : List (SplitCall × SplitAnswer)) (s : SplitDatabase Versioned) : SplitCall → Prop
  | .call call => ∀ snapshotLsn, call.snapshotLsn s.db = some snapshotLsn →
    ∀ u c, s.committing u = some c → c.progress.isStamped = false →
      (∃ k, k ∈ c.txn.writeSet) → snapshotLsn < c.progress.lsn
  | _ => True

/-- The positions of snapshots, commits and the log, and whose the uncommitted versions are. -/
structure Settled (s : SplitDatabase Versioned) : Prop where
  openIds : ∀ t txn, s.db.txns t = some txn → txn.txnId = t ∧ t < s.db.nextTxnId
  committingIds : ∀ t c, s.committing t = some c →
    c.txn.txnId = t ∧ t < s.db.nextTxnId ∧ s.db.txns t = none ∧ c.txn.Fits c.choices
  published : s.db.shared.currentLsn < s.db.shared.wal.currentLsn
  positions : ∀ t c, s.committing t = some c → c.progress.lsn < s.db.shared.wal.currentLsn
  snapshots : ∀ t txn, s.db.txns t = some txn → txn.snapshotLsn < s.db.shared.wal.currentLsn
  below : ∀ u c, s.committing u = some c → c.progress.isStamped = false →
    (∃ k, k ∈ c.txn.writeSet) → ∀ t txn, s.db.txns t = some txn → txn.snapshotLsn < c.progress.lsn
  creators : ∀ k, ∀ v ∈ s.db.shared.tables k, v.createdBy < s.db.nextTxnId
  pending : ∀ k, ∀ v ∈ s.db.shared.tables k, v.commitLsn = none →
    s.db.txns v.createdBy = none ∧ ∀ c, s.committing v.createdBy = some c → k ∈ c.txn.writeSet

theorem settled_new : (new empty).Settled where
  openIds := nofun
  committingIds := nofun
  published := by decide
  positions := nofun
  snapshots := nofun
  below := nofun
  creators k v hv := by cases hv
  pending k v hv := by cases hv

theorem settled_quiet (h : s.Settled) (hq : Quiet s s') : s'.Settled := by
  have hclosed : ∀ t, s.db.txns t = none → s'.db.txns t = none := by
    intro t ht
    by_contra hopen
    obtain ⟨txn', hopen⟩ := Option.ne_none_iff_exists'.mp hopen
    obtain ⟨txn, ht', -⟩ := hq.txns t txn' hopen
    rw [ht] at ht'
    cases ht'
  refine ⟨?_, ?_, ?_, ?_, ?_, ?_, ?_, ?_⟩
  · intro t txn' ht
    obtain ⟨txn, ht, hid, -, -⟩ := hq.txns t txn' ht
    rw [hid, hq.nextTxnId]
    exact h.openIds t txn ht
  · intro t c' hc
    obtain ⟨c, hc, htxn, hchoices, -, -⟩ := hq.committing t c' hc
    obtain ⟨hid, hlt, hnone, hfits⟩ := h.committingIds t c hc
    rw [htxn, hchoices, hq.nextTxnId]
    exact ⟨hid, hlt, hclosed t hnone, hfits⟩
  · have := h.published
    have := hq.position
    rw [hq.currentLsn]
    omega
  · intro t c' hc
    obtain ⟨c, hc, -, -, hlsn, -⟩ := hq.committing t c' hc
    have := h.positions t c hc
    have := hq.position
    omega
  · intro t txn' ht
    obtain ⟨txn, ht, -, hsnap, -⟩ := hq.txns t txn' ht
    have := h.snapshots t txn ht
    have := hq.position
    omega
  · intro u c' hc hstamp hwrites t txn' ht
    obtain ⟨c, hc, htxn, -, hlsn, hst⟩ := hq.committing u c' hc
    obtain ⟨txn, ht, -, hsnap, -⟩ := hq.txns t txn' ht
    rw [hsnap, hlsn]
    have hunstamped : c.progress.isStamped = false := by
      by_contra hno
      rw [hst (by simpa using hno)] at hstamp
      cases hstamp
    exact h.below u c hc hunstamped (htxn ▸ hwrites) t txn ht
  · rw [hq.tables, hq.nextTxnId]
    exact h.creators
  · rw [hq.tables]
    intro k v hv hnone
    obtain ⟨hopen, hkeys⟩ := h.pending k v hv hnone
    refine ⟨hclosed _ hopen, fun c' hc => ?_⟩
    obtain ⟨c, hc, htxn, -⟩ := hq.committing _ c' hc
    rw [htxn]
    exact hkeys c hc

theorem settled_wal {w : WalWriterState} (h : s.Settled)
    (hw : s.db.shared.wal.currentLsn ≤ w.currentLsn) :
    Settled { s with db := { s.db with shared := { s.db.shared with wal := w } } } :=
  settled_quiet h { Quiet.refl with position := hw }

theorem settled_tables {tables : Versioned} (h : s.Settled)
    (hcreators : ∀ k, ∀ v ∈ tables k, v.createdBy < s.db.nextTxnId)
    (hpending : ∀ k, ∀ v ∈ tables k, v.commitLsn = none → s.db.txns v.createdBy = none ∧
      ∀ c, s.committing v.createdBy = some c → k ∈ c.txn.writeSet) :
    Settled { s with db := { s.db with shared := { s.db.shared with tables := tables } } } :=
  { h with
    creators := hcreators
    pending := hpending }

variable {call : SplitCall}

/-- **Every call that begins at settled snapshots keeps the positions in order.** -/
theorem settled_move {trace : List (SplitCall × SplitAnswer)} (h : s.Settled)
    (hguard : BeginsSettled trace s call) (hm : Move s call s') : s'.Settled := by
  cases hm with
  | quiet hq => exact settled_quiet h hq
  | opened w hw snapshotLsn hsnapshot isolation durability hcall =>
    have hlogged := settled_wal h hw
    refine { hlogged with
      openIds := ?_, committingIds := ?_, snapshots := ?_, below := ?_, creators := ?_, pending := ?_ }
    · intro t txn ht
      show _ ∧ t < s.db.nextTxnId + 1
      rcases update_eq_some ht with ⟨rfl, hnew⟩ | ⟨-, ht⟩
      · cases hnew
        exact ⟨rfl, Nat.lt_succ_self _⟩
      · exact ⟨(h.openIds t txn ht).1, Nat.lt_succ_of_lt (h.openIds t txn ht).2⟩
    · intro t c hc
      obtain ⟨hid, hlt, hnone, hfits⟩ := h.committingIds t c hc
      refine ⟨hid, Nat.lt_succ_of_lt hlt, ?_, hfits⟩
      exact (update_of_ne (Nat.ne_of_lt hlt) _ _).trans hnone
    · intro t txn ht
      rcases update_eq_some ht with ⟨-, hnew⟩ | ⟨-, ht⟩
      · cases hnew
        exact hsnapshot.trans_lt hlogged.published
      · exact hlogged.snapshots t txn ht
    · intro u c hc hstamp hwrites t txn ht
      rcases update_eq_some ht with ⟨-, hnew⟩ | ⟨-, ht⟩
      · -- the new snapshot: this is what the guard is for
        cases hnew
        exact hguard snapshotLsn hcall u c hc hstamp hwrites
      · exact h.below u c hc hstamp hwrites t txn ht
    · intro k v hv
      exact Nat.lt_succ_of_lt (h.creators k v hv)
    · intro k v hv hnone
      obtain ⟨hopen, hkeys⟩ := h.pending k v hv hnone
      have hne := Nat.ne_of_lt (h.creators k v hv)
      exact ⟨(update_of_ne hne _ _).trans hopen, hkeys⟩
  | @logged t txn choices undoLog lsn w ht hfits hlsn hw =>
    obtain ⟨hid, hlt⟩ := h.openIds t txn ht
    have hlogged := settled_wal h (hlsn.trans hw).le
    refine { hlogged with
      openIds := ?_, committingIds := ?_, positions := ?_, snapshots := ?_, below := ?_, pending := ?_ }
    · intro u txn' hu
      exact h.openIds u txn' (of_update_none hu)
    · intro u c hc
      rcases update_eq_some hc with ⟨rfl, hnew⟩ | ⟨hne, hc⟩
      · cases hnew
        exact ⟨hid, hlt, update_self _ _ _, hfits⟩
      · obtain ⟨hid', hlt', hnone, hfits'⟩ := h.committingIds u c hc
        exact ⟨hid', hlt', (update_of_ne hne _ _).trans hnone, hfits'⟩
    · intro u c hc
      rcases update_eq_some hc with ⟨-, hnew⟩ | ⟨-, hc⟩
      · cases hnew
        exact hw
      · exact hlogged.positions u c hc
    · intro u txn' hu
      exact hlogged.snapshots u txn' (of_update_none hu)
    · intro u c hc hstamp hwrites u' txn' hu'
      have hsnap := h.snapshots u' txn' (of_update_none hu')
      rcases update_eq_some hc with ⟨-, hnew⟩ | ⟨-, hc⟩
      · -- every open snapshot lies below a record that is only now written
        cases hnew
        show txn'.snapshotLsn < lsn
        omega
      · exact h.below u c hc hstamp hwrites u' txn' (of_update_none hu')
    · intro k v hv hnone
      obtain ⟨hopen, hkeys⟩ := h.pending k v hv hnone
      have hne : v.createdBy ≠ t := by
        intro hby
        rw [hby, ht] at hopen
        cases hopen
      refine ⟨(update_of_ne hne _ _).trans hopen, fun c hc => ?_⟩
      rcases update_eq_some hc with ⟨hby, -⟩ | ⟨-, hc⟩
      · exact absurd hby hne
      · exact hkeys c hc
  | @applied t c undoLog lsn hc hprog =>
    obtain ⟨hid, hlt, hnone, hfits⟩ := h.committingIds t c hc
    refine settled_quiet (settled_tables h ?_ ?_)
      (quiet_progress (p := .applied lsn) hc (by rw [hprog]; rfl) (by rw [hprog]; rintro ⟨⟩))
    · intro k v hv
      rcases mem_foldl_write hv with hv | ⟨hby, -, -⟩
      · exact h.creators k v hv
      · rw [hby, hid]
        exact hlt
    · intro k v hv hv'
      rcases mem_foldl_write hv with hv | ⟨hby, -, hk⟩
      · exact h.pending k v hv hv'
      · rw [hby, hid]
        refine ⟨hnone, fun c' hc' => ?_⟩
        cases hc.symm.trans hc'
        exact (mem_keys_of_fits hfits (t := t)).mp hk
  | @stamped t c lsn hc hprog =>
    refine settled_quiet (settled_tables h ?_ ?_)
      (quiet_progress (p := .stamped lsn) hc (by rw [hprog]; rfl) fun _ => rfl)
    · intro k v hv
      rcases mem_foldl_commitVersions hv with hv | ⟨-, v₀, hv₀, hby⟩
      · exact h.creators k v hv
      · rw [← hby]
        exact h.creators k v₀ hv₀
    · intro k v hv hnone
      rcases mem_foldl_commitVersions hv with hv | ⟨hsome, -⟩
      · exact h.pending k v hv hnone
      · rw [hnone] at hsome
        cases hsome
  | @published t c lsn hc hprog =>
    have hlsn : c.progress.lsn = lsn := by rw [hprog]; rfl
    exact
      { h with
        committingIds := fun u c hu => h.committingIds u c (of_update_none hu)
        published := hlsn ▸ h.positions t c hc
        positions := fun u c hu => h.positions u c (of_update_none hu)
        below := fun u c hu => h.below u c (of_update_none hu)
        pending := fun k v hv hnone => ⟨(h.pending k v hv hnone).1,
          fun c hu => (h.pending k v hv hnone).2 c (of_update_none hu)⟩ }

/-! ## Reads -/

/-- **A settled move changes no read of an open transaction.** -/
theorem read_move (h : s.Settled) (hm : Move s call s') (ht : s.db.txns t = some txn) (k : TableKey) :
    s'.db.shared.tables.read k txn.snapshotLsn = s.db.shared.tables.read k txn.snapshotLsn := by
  cases hm with
  | quiet hq => rw [hq.tables]
  | opened | logged => rfl
  | applied => exact read_foldl_write
  | @stamped u c lsn hc hprog =>
    have hlsn : c.progress.lsn = lsn := by rw [hprog]; rfl
    have hid := (h.committingIds u c hc).1
    by_cases hbelow : txn.snapshotLsn < lsn
    · exact read_foldl_commitVersions hbelow
    · -- then the commit has written nothing, and there is nothing to stamp
      refine read_congr (foldl_commitVersions_eq_self ?_)
      intro v hv hnone hby
      have hk : k ∈ c.txn.writeSet := by
        refine (h.pending k v hv hnone).2 c ?_
        rw [hby, hid]
        exact hc
      have := h.below u c hc (by rw [hprog]; rfl) ⟨k, hk⟩ t txn ht
      omega
  | published => rfl

/-- A transaction that is open after a move was opened by it, or was open before with the same
snapshot and no more writes. -/
theorem txns_move {txn' : Transaction} (hm : Move s call s') (ht : s'.db.txns t = some txn') :
    t = s.db.nextTxnId ∨ ∃ txn, s.db.txns t = some txn ∧ txn'.snapshotLsn = txn.snapshotLsn ∧
      ∀ k ∈ txn.writeSet, k ∈ txn'.writeSet := by
  cases hm with
  | quiet hq =>
    obtain ⟨txn, ht, -, hsnap, hwrites⟩ := hq.txns t txn' ht
    exact .inr ⟨txn, ht, hsnap, hwrites⟩
  | opened =>
    rcases update_eq_some ht with ⟨rfl, -⟩ | ⟨-, ht⟩
    · exact .inl rfl
    · exact .inr ⟨txn', ht, rfl, fun _ hk => hk⟩
  | logged => exact .inr ⟨txn', of_update_none ht, rfl, fun _ hk => hk⟩
  | applied | stamped | published => exact .inr ⟨txn', ht, rfl, fun _ hk => hk⟩

theorem nextTxnId_move (hm : Move s call s') : s.db.nextTxnId ≤ s'.db.nextTxnId := by
  cases hm with
  | quiet hq => exact hq.nextTxnId.ge
  | opened => exact Nat.le_succ _
  | logged | applied | stamped | published => exact le_rfl

/-- **If transactions begin only at settled snapshots, then what a transaction reads of a key it
has not written stays the same for as long as it is open.** -/
theorem get_stable {trace trace' : List (SplitCall × SplitAnswer)}
    (h : Run (exec (engines scan) cfg) BeginsSettled (new empty) trace s)
    (h' : Run (exec (engines scan) cfg) BeginsSettled s trace' s')
    {t : TransactionId} {txn txn' : Transaction} (ht : s.db.txns t = some txn)
    (ht' : s'.db.txns t = some txn') (hactive : txn.state = .active)
    (hactive' : txn'.state = .active) {k : TableKey} (hk : k ∉ txn'.writeSet) :
    txn'.get (engines scan) s'.db.shared k =
      txn.get (engines scan) s.db.shared k := by
  have hs : s.Settled := by
    refine h.invariant settled_new fun _ s call hs hguard => ?_
    exact settled_move hs hguard (exec_move call)
  have hrun : s'.Settled ∧ t < s'.db.nextTxnId ∧ ∀ txn', s'.db.txns t = some txn' →
      txn'.snapshotLsn = txn.snapshotLsn ∧ (∀ k ∈ txn.writeSet, k ∈ txn'.writeSet) ∧
      ∀ k, s'.db.shared.tables.read k txn.snapshotLsn =
        s.db.shared.tables.read k txn.snapshotLsn := by
    refine h'.invariant ?_ ?_
    · refine ⟨hs, (hs.openIds t txn ht).2, fun txn₁ ht₁ => ?_⟩
      cases ht.symm.trans ht₁
      exact ⟨rfl, fun _ hk => hk, fun _ => rfl⟩
    · rintro _ s₁ call ⟨hs₁, hlt, hsame⟩ hguard
      have hm : Move s₁ call (exec (engines scan) cfg s₁ call).1 := exec_move call
      refine ⟨settled_move hs₁ hguard hm, hlt.trans_le (nextTxnId_move hm), fun txn₂ ht₂ => ?_⟩
      -- the id is not handed out again, so the transaction was open before the call
      rcases txns_move hm ht₂ with hnew | ⟨txn₁, ht₁, hsnap, hwrites⟩
      · exact absurd hnew (Nat.ne_of_lt hlt)
      · obtain ⟨hsnap₁, hwrites₁, hread₁⟩ := hsame txn₁ ht₁
        refine ⟨hsnap.trans hsnap₁, fun k hk => hwrites k (hwrites₁ k hk), fun k => ?_⟩
        rw [← hread₁ k, ← hsnap₁]
        exact read_move hs₁ hm ht₁ k
  obtain ⟨-, -, hsame⟩ := hrun
  obtain ⟨hsnap, hwrites, hread⟩ := hsame txn' ht'
  have hk₀ : k ∉ txn.writeSet := fun hmem => hk (hwrites k hmem)
  have hget : ∀ (sh : Shared Versioned) (x : Transaction), x.state = .active → k ∉ x.writeSet →
      x.get (engines scan) sh k = .ok (sh.tables.read k x.snapshotLsn) := by
    intro sh x hx hkx
    rw [Transaction.get, if_neg (by rw [hx]; simp), AList.lookup_eq_none.mpr hkx]
    rfl
  rw [hget _ txn' hactive' hk, hget _ txn hactive hk₀, hsnap, hread k]

/-- A reader that is open while another transaction writes and commits. -/
theorem get_stable_reader : ∃ (trace trace' : List (SplitCall × SplitAnswer))
    (s s' : SplitDatabase Versioned) (txn txn' : Transaction),
    Run (exec unscanned .default) BeginsSettled (new empty) trace s ∧
    Run (exec unscanned .default) BeginsSettled s trace' s' ∧
    s.db.txns 2 = some txn ∧ s'.db.txns 2 = some txn' ∧ s'.db.shared.currentLsn = 4 ∧
    txn'.get unscanned s'.db.shared (1, [0]) =
      txn.get unscanned s.db.shared (1, [0]) := by
  have h : Run (exec unscanned .default) BeginsSettled (new empty) _ _ :=
    (Run.nil.call (.call (.beginWrite .walOnly .snapshotIsolation .ok)) (by intro _ _ _ _ hc; cases hc)).call
      (.call (.beginRead .snapshotIsolation)) (by intro _ _ _ _ hc; cases hc)
  have h' : Run (exec unscanned .default) BeginsSettled
      (execute (exec unscanned .default) (new empty) [.call (.beginWrite .walOnly .snapshotIsolation .ok),
          .call (.beginRead .snapshotIsolation)]).2 _ _ :=
    (((((Run.nil.call (.call (.put 1 (1, [0]) [7] .ok)) (by rintro _ ⟨⟩)).call
      (.commit 1 ⟨[((1, [0]), some [7])], [], [1], fun _ => .ok⟩) (by trivial)).call
      (.resume 1) (by trivial)).call (.resume 1) (by trivial)).call
      (.resume 1) (by trivial)).call (.resume 1) (by trivial)
  exact ⟨_, _, _, _, _, _, h, h', rfl, rfl, rfl,
    get_stable h h' (t := 2) rfl rfl rfl rfl (AList.notMem_empty _)⟩

/-- **A reader sees two values of a key.** It begins at the position of the second commit while
the first, logged before it, has not stamped its versions. -/
theorem get_changes : ∃ (trace trace' : List (SplitCall × SplitAnswer))
    (s s' : SplitDatabase Versioned) (txn txn' : Transaction),
    Run (exec unscanned .default) anyCall (new empty) trace s ∧
    Run (exec unscanned .default) anyCall s trace' s' ∧
    s.db.txns 3 = some txn ∧ s'.db.txns 3 = some txn' ∧ (1, [0]) ∉ txn'.writeSet ∧
    txn.get unscanned s.db.shared (1, [0]) = .ok none ∧
    txn'.get unscanned s'.db.shared (1, [0]) = .ok (some [7]) := by
  refine ⟨_, _, _, _, _, _, run_execute _ _ [.call (.beginWrite .walOnly .snapshotIsolation .ok),
      .call (.beginWrite .walOnly .snapshotIsolation .ok),
      .call (.put 1 (1, [0]) [7] .ok), .call (.put 2 (1, [1]) [8] .ok),
      .commit 1 ⟨[((1, [0]), some [7])], [], [1], fun _ => .ok⟩,
      .commit 2 ⟨[((1, [1]), some [8])], [], [1], fun _ => .ok⟩,
      .resume 2, .resume 2, .resume 2, .resume 2, .call (.beginRead .snapshotIsolation)],
    run_execute _ _ [.resume 1, .resume 1, .resume 1], rfl, rfl, ?_, rfl, rfl⟩
  exact AList.notMem_empty _

end SplitDatabase

end NanoStore.Engine
