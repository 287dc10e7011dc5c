import NanoStore.Txn.Calls
/-!
# Transactions — what commit and rollback can do

The two calls that consume a transaction. A commit that returns `Ok` has
passed every phase; one that returns an error leaves every lock and the
published position as they were, whichever phase failed. `Unobstructed`
lists what has to go well, phase by phase, in terms of the state the
call finds.
-/

namespace NanoStore.Txn

open Wal Steps WalWriter
open WalWriter (Onward)

namespace Transaction

variable {T : Type}

/-- The locks and the published position stay, and the log moves on. -/
structure Keeps (sh sh' : Shared T) : Prop where
  detector : sh'.detector = sh.detector
  currentLsn : sh'.currentLsn = sh.currentLsn
  log : Onward sh.wal sh'.wal

variable {sh : Shared T}

theorem keeps_of_wal {w : WalWriterState} (h : Onward sh.wal w) : Keeps sh { sh with wal := w } :=
  ⟨rfl, rfl, h⟩

theorem Keeps.trans {sh' sh'' : Shared T} (h : Keeps sh sh') (h' : Keeps sh' sh'') : Keeps sh sh'' :=
  ⟨h'.detector.trans h.detector, h'.currentLsn.trans h.currentLsn, h.log.trans h'.log⟩

variable {E : Engines T} {cfg : WalWriterConfig} {choices : CommitChoices} {sh sh' : Shared T}
  {txn : Transaction}

/-! ## The phases -/

theorem commitPrepare_cases {result : Except TransactionError (List UndoOperation)}
    (h : txn.commitPrepare E cfg choices sh = (sh', result)) :
    ∃ w, sh' = { sh with wal := w } ∧ Onward sh.wal w ∧ ∀ undoLog, result = .ok undoLog →
        (txn.state = .active ∨ txn.state = .preparing) ∧
        txn.collectUndo E choices sh.tables = .ok undoLog ∧
        writePrepare cfg (choices.ios 0) sh.wal txn.txnId =
          (w, .ok sh.wal.currentLsn) ∧ w.currentLsn = sh.wal.currentLsn + 1 := by
  unfold commitPrepare at h
  split_ifs at h with hstate
  · cases h
    exact ⟨sh.wal, rfl, .refl, nofun⟩
  · have hactive : txn.state = .active ∨ txn.state = .preparing := by tauto
    cases hundo : txn.collectUndo E choices sh.tables with
    | error e =>
      simp only [hundo] at h
      cases h
      exact ⟨sh.wal, rfl, .refl, nofun⟩
    | ok undoLog =>
      simp only [hundo] at h
      generalize hx : writePrepare cfg (choices.ios 0) sh.wal txn.txnId = x at h
      obtain ⟨w, r⟩ := x
      have hw : Onward sh.wal w := onward_writeChecked (fun _ _ h => h) hx
      rcases writeChecked_result hx with ⟨-, rfl, hlsn, -⟩ | ⟨⟨e, rfl⟩, -, -⟩
      · cases h
        refine ⟨w, rfl, hw, ?_⟩
        rintro _ ⟨⟩
        exact ⟨hactive, rfl, rfl, hlsn⟩
      · cases h
        exact ⟨w, rfl, hw, nofun⟩

/-- The commit checks the reads of the two isolation levels that record them. -/
def ChecksReads (txn : Transaction) : Prop :=
  txn.isolation = .repeatableRead ∨ txn.isolation = .serializable

instance : Decidable txn.ChecksReads := inferInstanceAs (Decidable (_ ∨ _))

variable {result : Except TransactionError Unit}

theorem commitCheck_cases (h : txn.commitCheck sh = (sh', result)) : sh' = sh ∧
    (result = .ok () ↔ txn.ChecksReads → ∀ k ∈ txn.readSet, sh.detector.Free k txn.txnId) := by
  unfold commitCheck at h
  unfold ChecksReads
  cases hiso : txn.isolation <;> simp only [hiso] at h <;> cases h <;>
    simp [ConflictDetector.checkReadWriteConflicts_eq_ok]

theorem commitLog_cases {result : Except TransactionError ℕ}
    (h : txn.commitLog cfg choices sh = (sh', result)) :
    ∃ w, sh' = { sh with wal := w } ∧ Onward sh.wal w ∧
      ∀ lsn, result = .ok lsn → lsn = sh.wal.currentLsn ∧ txn.txnId ∉ w.activeTxns ∧
        w.currentLsn = sh.wal.currentLsn + 1 ∧
        ∃ w', writeCommit cfg (choices.ios 1) sh.wal (choices.ios 2) txn.txnId =
            (w', .ok lsn) ∧
          (txn.durability = .flushOnCommit → (flush cfg (choices.ios 3) w').2 = .ok ()) := by
  unfold commitLog at h
  generalize hx : writeCommit cfg (choices.ios 1) sh.wal (choices.ios 2) txn.txnId = x
    at h
  obtain ⟨w, e | lsn⟩ := x <;> have hw := onward_writeCommit hx
  · cases h
    exact ⟨w, rfl, hw, nofun⟩
  · rcases writeCommit_result hx with ⟨-, hlsn, hact, hok⟩ | ⟨⟨e, he⟩, -, -⟩
    · have hpos : lsn = sh.wal.currentLsn := by simpa using hok
      have hgone : txn.txnId ∉ w.activeTxns := by simp [hact]
      simp only at h
      split_ifs at h with hflush
      · generalize hy : flush cfg (choices.ios 3) w = y at h
        obtain ⟨w', result'⟩ := y
        obtain ⟨hl, ha⟩ := flushInternal_frame hy
        have hw' : Onward sh.wal w' := hw.trans ⟨hl.ge, fun t ht => ha ▸ ht⟩
        cases result' with
        | error e =>
          cases h
          exact ⟨w', rfl, hw', nofun⟩
        | ok u =>
          cases h
          refine ⟨w', rfl, hw', ?_⟩
          rintro _ ⟨⟩
          exact ⟨hpos, ha ▸ hgone, hl.trans hlsn, w, rfl, fun _ => by rw [hy]⟩
      · cases h
        refine ⟨w, rfl, hw, ?_⟩
        rintro _ ⟨⟩
        exact ⟨hpos, hgone, hlsn, w, rfl, fun h => absurd h hflush⟩
    · cases he

variable {undoLog : List UndoOperation}

/-- After the commit record the log refuses the rollback record of a failed apply: the locks
stay. -/
theorem commitApply_cases (hgone : txn.txnId ∉ sh.wal.activeTxns)
    (h : txn.commitApply E cfg choices undoLog sh = (sh', result)) :
    (∃ tables, txn.applyAllChanges E choices sh.tables = (tables, .ok ()) ∧ result = .ok () ∧
      sh' = { sh with tables := tables }) ∨
    (∃ e, result = .error e) ∧ Keeps sh sh' ∧
      ∃ tables e, txn.applyAllChanges E choices sh.tables = (tables, .error e) ∧
        sh'.tables = txn.undoAll E undoLog tables := by
  unfold commitApply at h
  generalize hx : txn.applyAllChanges E choices sh.tables = x at h
  obtain ⟨tables, e | _⟩ := x
  · have href : writeRollback cfg (choices.ios 4) sh.wal txn.txnId =
        (sh.wal, .error (.transactionNotFound txn.txnId)) := by
      simp [writeRollback, requireActive, hgone, writeChecked]
    simp only [href] at h
    cases h
    exact .inr ⟨⟨_, rfl⟩, ⟨rfl, rfl, .refl⟩, tables, e, rfl, rfl⟩
  · cases h
    exact .inl ⟨tables, rfl, rfl, rfl⟩

/-- What a commit does to the tables when nothing stands in its way. -/
def commitTables (E : Engines T) (choices : CommitChoices) (lsn : ℕ) (txn : Transaction)
    (tables : T) : Outcome T TransactionError Unit :=
  andThen (txn.applyAllChanges E choices tables) fun tables () =>
  andThen (forEach (fun tables op => E.applySpecial tables txn.txnId lsn op) tables
    (choices.blooms ++ txn.familyOps)) fun tables () =>
  forEach (fun tables table => E.commitVersions tables txn.txnId txn.snapshotLsn lsn table) tables
    choices.tables

/-- Where a commit that an engine refuses leaves the tables: undone if the write set could not be
applied, and otherwise as the refused change left them. -/
def RefusedAt (E : Engines T) (choices : CommitChoices) (undoLog : List UndoOperation) (lsn : ℕ)
    (txn : Transaction) (tables tables' : T) : Prop :=
  (∃ applied e, txn.applyAllChanges E choices tables = (applied, .error e) ∧
    tables' = txn.undoAll E undoLog applied) ∨
  ∃ applied e, txn.applyAllChanges E choices tables = (applied, .ok ()) ∧
    txn.commitTables E choices lsn tables = (tables', .error e)

variable {lsn : ℕ}

theorem commitRest_cases {result : Except TransactionError ℕ} (hgone : txn.txnId ∉ sh.wal.activeTxns)
    (h : (andThen (txn.commitApply E cfg choices undoLog sh) fun sh () =>
      andThen (txn.commitSpecials E choices lsn sh) fun sh () =>
      andThen (txn.commitStamp E choices lsn sh) fun sh () =>
        (txn.commitPublish lsn sh, .ok lsn)) = (sh', result)) : ((∃ e, result = .error e) ∧ Keeps sh sh' ∧
      txn.RefusedAt E choices undoLog lsn sh.tables sh'.tables) ∨
    ∃ tables, txn.commitTables E choices lsn sh.tables = (tables, .ok ()) ∧ result = .ok lsn ∧
      sh' = ⟨sh.wal, sh.detector.releaseLocks txn.txnId, tables, lsn⟩ := by
  rcases andThen_cases h with ⟨sh₁, e, happ, he⟩ | ⟨sh₁, _, happ, h⟩
  · cases he
    rcases commitApply_cases hgone happ with ⟨_, -, hno, -⟩ | ⟨-, hkeeps, hundone⟩
    · cases hno
    · exact .inl ⟨⟨e, rfl⟩, hkeeps, .inl hundone⟩
  rcases commitApply_cases hgone happ with ⟨tables₁, htab₁, -, rfl⟩ | ⟨⟨e, hno⟩, -, -⟩
  swap
  · cases hno
  simp only [commitSpecials, commitStamp] at h
  simp only [RefusedAt, commitTables, htab₁, andThen_ok]
  generalize forEach (fun tables op => E.applySpecial tables txn.txnId lsn op) tables₁
    (choices.blooms ++ txn.familyOps) = x at h ⊢
  obtain ⟨tables₂, e | _⟩ := x
  · cases h
    exact .inl ⟨⟨e, rfl⟩, ⟨rfl, rfl, .refl⟩, .inr ⟨tables₁, e, rfl, rfl⟩⟩
  simp only [andThen_ok] at h ⊢
  generalize forEach (fun tables table =>
    E.commitVersions tables txn.txnId txn.snapshotLsn lsn table) tables₂ choices.tables = x at h ⊢
  obtain ⟨tables₃, e | _⟩ := x
  · cases h
    exact .inl ⟨⟨e, rfl⟩, ⟨rfl, rfl, .refl⟩, .inr ⟨tables₁, e, rfl, rfl⟩⟩
  · cases h
    exact .inr ⟨tables₃, rfl, rfl, rfl⟩

/-! ## Commit -/

/-- The log takes the prepare record and the commit record of the transaction, and the flush
its durability asks for. Only a transaction begun with a begin record gets this far. -/
def LogTakes (cfg : WalWriterConfig) (ios : ℕ → FlushIo) (w : WalWriterState) (txn : Transaction) : Prop :=
  ∃ w₁ w₂, writePrepare cfg (ios 0) w txn.txnId = (w₁, .ok w.currentLsn) ∧
    writeCommit cfg (ios 1) w₁ (ios 2) txn.txnId = (w₂, .ok (w.currentLsn + 1)) ∧
    (txn.durability = .flushOnCommit → (flush cfg (ios 3) w₂).2 = .ok ())

/-- Nothing stands in the way of a commit: the transaction is in a state for it, its old values
can be read, nobody else has locked what it read, the log takes its records, and the engines
take its changes. -/
structure Unobstructed (E : Engines T) (cfg : WalWriterConfig) (choices : CommitChoices)
    (sh : Shared T) (txn : Transaction) : Prop where
  state : txn.state = .active ∨ txn.state = .preparing
  undo : ∃ undoLog, txn.collectUndo E choices sh.tables = .ok undoLog
  reads : txn.ChecksReads → ∀ k ∈ txn.readSet, sh.detector.Free k txn.txnId
  log : LogTakes cfg choices.ios sh.wal txn
  engines : (txn.commitTables E choices (sh.wal.currentLsn + 1) sh.tables).2 = .ok ()

/-- **A commit fails and keeps every lock, or passes every phase.** A failed one has left the
tables alone unless an engine refused a change. -/
theorem commit_cases {result : Except TransactionError ℕ} (h : txn.commit E cfg choices sh = (sh', result)) :
    ((∃ e, result = .error e) ∧ Keeps sh sh' ∧ (sh'.tables = sh.tables ∨
      ∃ undoLog, txn.collectUndo E choices sh.tables = .ok undoLog ∧
        txn.RefusedAt E choices undoLog (sh.wal.currentLsn + 1) sh.tables sh'.tables)) ∨
    Unobstructed E cfg choices sh txn ∧ result = .ok (sh.wal.currentLsn + 1) ∧
      ∃ w tables, txn.commitTables E choices (sh.wal.currentLsn + 1) sh.tables =
          (tables, .ok ()) ∧ w.currentLsn = sh.wal.currentLsn + 2 ∧
        Onward sh.wal w ∧ sh' = ⟨w, sh.detector.releaseLocks txn.txnId, tables, sh.wal.currentLsn + 1⟩ := by
  unfold commit at h
  rcases andThen_cases h with ⟨sh₁, e, hprep, he⟩ | ⟨sh₁, undoLog, hprep, h⟩
  · cases he
    obtain ⟨w, rfl, hw, -⟩ := commitPrepare_cases hprep
    exact .inl ⟨⟨e, rfl⟩, keeps_of_wal hw, .inl rfl⟩
  obtain ⟨w₁, rfl, hw₁, hok₁⟩ := commitPrepare_cases hprep
  obtain ⟨hstate, hundo, hp, hlsn₁⟩ := hok₁ undoLog rfl
  rcases andThen_cases h with ⟨sh₂, e, hcheck, he⟩ | ⟨sh₂, u, hcheck, h⟩
  · cases he
    obtain ⟨rfl, -⟩ := commitCheck_cases hcheck
    exact .inl ⟨⟨e, rfl⟩, keeps_of_wal hw₁, .inl rfl⟩
  obtain ⟨rfl, hreads⟩ := commitCheck_cases hcheck
  rcases andThen_cases h with ⟨sh₃, e, hlog, he⟩ | ⟨sh₃, lsn, hlog, h⟩
  · cases he
    obtain ⟨w₃, rfl, hw₃, -⟩ := commitLog_cases hlog
    exact .inl ⟨⟨e, rfl⟩, keeps_of_wal (hw₁.trans hw₃), .inl rfl⟩
  obtain ⟨w₃, rfl, hw₃, hok₃⟩ := commitLog_cases hlog
  obtain ⟨hlsn, hgone, hlsn₃, w₂, hc, hflush⟩ := hok₃ lsn rfl
  simp only at hlsn hlsn₃ hc
  have hcom : lsn = sh.wal.currentLsn + 1 := hlsn.trans hlsn₁
  subst hcom
  have hkeeps : Keeps sh { sh with wal := w₃ } := keeps_of_wal (hw₁.trans hw₃)
  rcases commitRest_cases hgone h with ⟨he, hk, hno⟩ | ⟨tables, htab, hres, hsh⟩
  · exact .inl ⟨he, hkeeps.trans hk, .inr ⟨undoLog, hundo, hno⟩⟩
  · refine .inr ⟨⟨hstate, ⟨undoLog, hundo⟩, hreads.mp rfl, ⟨w₁, w₂, hp, hc, hflush⟩, ?_⟩, hres,
      w₃, tables, htab, by omega, hkeeps.log, hsh⟩
    rw [htab]

/-- **An unobstructed commit returns the position of its commit record.** -/
theorem commit_of_unobstructed (h : Unobstructed E cfg choices sh txn) :
    (txn.commit E cfg choices sh).2 = .ok (sh.wal.currentLsn + 1) := by
  obtain ⟨hstate, ⟨undoLog, hundo⟩, hreads, ⟨w₁, w₂, hp, hc, hflush⟩, hengines⟩ := h
  have hprep : txn.commitPrepare E cfg choices sh = ({ sh with wal := w₁ }, .ok undoLog) := by
    have : ¬(txn.state ≠ .active ∧ txn.state ≠ .preparing) := by tauto
    simp [commitPrepare, this, hundo, hp]
  have hcheck : txn.commitCheck { sh with wal := w₁ } = ({ sh with wal := w₁ }, .ok ()) := by
    obtain ⟨⟨sh₂, result⟩, hx⟩ : ∃ x, txn.commitCheck { sh with wal := w₁ } = x := ⟨_, rfl⟩
    obtain ⟨rfl, hok⟩ := commitCheck_cases hx
    rw [hx, hok.mpr hreads]
  obtain ⟨w₃, hlog⟩ : ∃ w₃, txn.commitLog cfg choices { sh with wal := w₁ } =
      ({ sh with wal := w₃ }, .ok (sh.wal.currentLsn + 1)) := by
    simp only [commitLog, hc]
    split_ifs with hdur
    · have := hflush hdur
      generalize flush cfg (choices.ios 3) w₂ = y at this ⊢
      obtain ⟨w₃, r⟩ := y
      obtain rfl := this
      exact ⟨w₃, rfl⟩
    · exact ⟨w₂, rfl⟩
  obtain ⟨_, hw, -, hok⟩ := commitLog_cases hlog
  obtain ⟨-, hgone, -⟩ := hok _ rfl
  simp only [Shared.mk.injEq, and_self, and_true] at hw
  subst hw
  obtain ⟨⟨sh', result⟩, hx⟩ : ∃ x, txn.commit E cfg choices sh = x := ⟨_, rfl⟩
  rw [hx]
  simp only [commit, hprep, hcheck, hlog, andThen_ok] at hx
  rcases commitRest_cases hgone hx with ⟨-, -, hno⟩ | ⟨_, -, hres, -⟩
  · rcases hno with ⟨applied, e, happ, -⟩ | ⟨-, e, -, hcom⟩
    · simp [commitTables, happ] at hengines
    · simp [hcom] at hengines
  · exact hres

/-! ## Rollback -/

/-- The transaction is in a state for a rollback, and the log takes its rollback record. -/
structure MayRollback (cfg : WalWriterConfig) (io : FlushIo) (w : WalWriterState)
    (txn : Transaction) : Prop where
  state : txn.state = .active ∨ txn.state = .preparing
  log : (writeRollback cfg io w txn.txnId).2 = .ok w.currentLsn

/-- **A rollback fails and keeps every lock, or releases its transaction's.** -/
theorem rollback_cases {io : FlushIo} (h : txn.rollback cfg io sh = (sh', result)) :
    (¬MayRollback cfg io sh.wal txn ∧ (∃ e, result = .error e) ∧ Keeps sh sh' ∧ sh'.tables = sh.tables) ∨
    MayRollback cfg io sh.wal txn ∧ result = .ok () ∧ ∃ w, Onward sh.wal w ∧
        sh' = { sh with wal := w, detector := sh.detector.releaseLocks txn.txnId } := by
  unfold rollback at h
  split_ifs at h with hstate
  · cases h
    refine .inl ⟨fun hmay => ?_, ⟨_, rfl⟩, ⟨rfl, rfl, .refl⟩, rfl⟩
    have := hmay.state
    tauto
  · have hactive : txn.state = .active ∨ txn.state = .preparing := by tauto
    generalize hx : writeRollback cfg io sh.wal txn.txnId = x at h
    obtain ⟨w, result'⟩ := x
    have hw : Onward sh.wal w :=
      onward_writeChecked (fun _ _ h => List.mem_of_mem_filter h) hx
    rcases writeChecked_result hx with ⟨-, rfl, -, -⟩ | ⟨⟨e, rfl⟩, -, -⟩
    · cases h
      exact .inr ⟨⟨hactive, by rw [hx]⟩, rfl, w, hw, rfl⟩
    · cases h
      refine .inl ⟨fun hmay => ?_, ⟨_, rfl⟩, keeps_of_wal hw, rfl⟩
      have := hmay.log
      rw [hx] at this
      cases this

end Transaction

end NanoStore.Txn
