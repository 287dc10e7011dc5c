import NanoStore.Wal.LogRuns
/-!
# Write-ahead log — the log behind a truncation

`WalWriter::truncate` empties the file and keeps everything else: the cursor
of the handle, the positions, the running transactions. What is logged
next is written where the cursor stands, behind a gap of zeros that the
reader takes for a corrupt record. And recovery of the new log knows
nothing of the transactions that were running: it takes their records only
behind a prepare record.
-/

namespace NanoStore.Wal

open Function List WalRecovery LogWriter

open Steps (Run)

/-! ## Transactions that recovery has not seen begin -/

/-- Recovery, which knows the phases `q`, knows as much as the writer, which knows `p`, save for transactions
that were running before the log began. -/
def Carried (p q : Phases) : Prop := ∀ t, q t = p t ∨ q t = none ∧ p t = some .active

variable {p : Phases} {log : List WalRecord} {q : Phases} {t : TransactionId}

theorem Carried.update (h : Carried p q) {state : Option TransactionState} :
    Carried (update p t state) (update q t state) := by
  intro u
  by_cases hu : u = t
  · subst hu
    left
    rw [update_self, update_self]
  · rw [update_of_ne hu, update_of_ne hu]
    exact h u

theorem Carried.after (h : Carried p q) {r : WalRecord} : Carried (p.after r) (q.after r) := by
  obtain ⟨lsn, data⟩ := r
  cases data with
  | begin t | prepare t | commit t | rollback t => exact h.update
  | write t tableId opType key value | checkpoint lsn activeTxns => exact h

/-- A log keeps the phases carried. -/
theorem Carried.phases (h : Carried p q) :
    Carried (Wal.phases p log) (Wal.phases q log) := by
  induction log generalizing p q with
  | nil => exact h
  | cons r log ih => exact ih h.after

theorem carried_running {b : LogWriter} : Carried b.running noPhases := by
  intro t
  by_cases ht : t ∈ b.activeTxns
  · exact .inr ⟨rfl, if_pos ht⟩
  · exact .inl (if_neg ht).symm

theorem Carried.unknown (h : Carried p q) {r : WalRecord} (hallows : p.Allows r) (htakes : ¬ q.Takes r) :
    ∃ t, q t = none ∧ (r.data = .commit t ∨ r.data = .rollback t ∨
      ∃ tableId opType key value, r.data = .write t tableId opType key value) := by
  have hnone : ∀ t, p t = some .active → q t ≠ some .active → q t = none := by
    intro t hact hne
    rcases h t with hsame | ⟨hq, -⟩
    · exact absurd (hsame.trans hact) hne
    · exact hq
  obtain ⟨lsn, data⟩ := r
  cases data with
  | begin t | prepare t | checkpoint lsn activeTxns => exact absurd trivial htakes
  | commit t => exact ⟨t, hnone t hallows htakes, .inl rfl⟩
  | rollback t => exact ⟨t, hnone t hallows htakes, .inr (.inl rfl)⟩
  | write t tableId opType key value =>
    exact ⟨t, hnone t hallows htakes, .inr (.inr ⟨tableId, opType, key, value, rfl⟩)⟩

theorem WalRecovery.Tracks.processRecord_unknown {r : WalRecovery} (h : Tracks log r)
    (hnone : phases noPhases log t = none) {record : WalRecord}
    (hdata : record.data = .commit t ∨ record.data = .rollback t ∨
      ∃ tableId opType key value, record.data = .write t tableId opType key value) :
    ∃ e, r.processRecord record = .error e := by
  have hmem : t ∉ r.transactions := by
    rw [Std.TreeMap.mem_iff_isSome_getElem?, h.state, hnone]
    exact Bool.false_ne_true
  rcases hdata with hdata | hdata | ⟨tableId, opType, key, value, hdata⟩
  · exact ⟨_, by simp only [WalRecovery.processRecord, hdata, processCommit, if_neg hmem]; rfl⟩
  · exact ⟨_, by simp only [WalRecovery.processRecord, hdata, processRollback, if_neg hmem]; rfl⟩
  · exact ⟨_, by simp only [WalRecovery.processRecord, hdata, processWrite, if_neg hmem]; rfl⟩

/-- **Recovery of a log that goes on from running transactions** succeeds if and only if it takes every
record. -/
theorem Carried.processAll_iff (h : Carried p noPhases) (hlegal : LegalFrom p log) :
    (∃ r, processAll log = .ok r) ↔ Taken log := by
  constructor
  · -- from the first record that is not taken on, recovery has failed
    intro hok
    induction log using List.reverseRecOn with
    | nil => trivial
    | append_singleton log record ih =>
      obtain ⟨r', hr'⟩ := hok
      rw [processAll, foldlM_append, ← processAll] at hr'
      obtain ⟨hfront, hallows, -⟩ := legalFrom_append.mp hlegal
      cases hr : processAll log with
      | error e =>
        rw [hr] at hr'
        cases hr'
      | ok r =>
        have htaken : Taken log := ih hfront ⟨r, hr⟩
        refine takenFrom_append.mpr ⟨htaken, ?_, trivial⟩
        by_contra htakes
        obtain ⟨t, hnone, hdata⟩ := h.phases.unknown hallows htakes
        obtain ⟨r₁, hr₁, htracks⟩ := exists_processAll htaken
        obtain ⟨e, he⟩ := htracks.processRecord_unknown hnone hdata
        rw [hr₁] at hr'
        simp only [foldlM_cons, foldlM_nil, bind_pure] at hr'
        cases he.symm.trans hr'
  · intro htaken
    obtain ⟨r, hr, -⟩ := exists_processAll htaken
    exact ⟨r, hr⟩

/-! ## What is written behind a gap -/

variable {cfg : LogConfig} {bytes : Bytes}

theorem Holds.recover (h : Holds cfg bytes log) :
    recoverWithKey cfg.crates cfg.encryptionKey bytes = recover log := by
  obtain ⟨frames, rfl, rfl, -⟩ := h
  have hrec := recoverWithKey_of_done (WalReader.progresses.nil (logBytes frames).length)
  rwa [append_nil] at hrec

theorem Holds.header_le (h : Holds cfg bytes log) (hne : log ≠ []) : 31 ≤ bytes.length := by
  obtain ⟨frames, rfl, rfl, -⟩ := h
  cases frames with
  | nil => exact absurd rfl hne
  | cons f frames =>
    obtain ⟨stored, -, hlong, -⟩ := f.parts
    rw [logBytes, flatMap_cons, length_append]
    omega

/-- A gap of zeros fails the reading. -/
theorem readAll_gap {gap : ℕ} (hgap : 0 < gap) (hlong : 31 ≤ bytes.length) :
    ∃ e, WalReader.readAll cfg.crates cfg.encryptionKey (List.replicate gap 0 ++ bytes) = .error e := by
  obtain ⟨n, rfl⟩ := Nat.exists_eq_add_of_lt hgap
  have hne : List.replicate (0 + n + 1) (0 : Fin 256) ++ bytes ≠ [] := by
    simp [replicate_succ]
  have hhdr : ¬ (List.replicate (0 + n + 1) (0 : Fin 256) ++ bytes).length < 31 := by
    rw [length_append]
    omega
  have hmagic : (List.replicate (0 + n + 1) (0 : Fin 256) ++ bytes).take 4 ≠ walMagic := by
    rw [replicate_succ, cons_append, take_succ_cons, walMagic]
    intro heq
    have hhead := (cons_eq_cons.mp heq).1
    revert hhead
    decide
  obtain ⟨e, he⟩ : ∃ e, WalReader.readNext cfg.crates cfg.encryptionKey 0
      (List.replicate (0 + n + 1) 0 ++ bytes) = .failed e := by
    rw [WalReader.readNext, if_neg hne, if_neg hhdr]
    exact ⟨_, if_pos hmagic⟩
  exact ⟨e, Frames.run_of_failed WalReader.progresses he⟩

/-! ## The log behind a truncation -/

/-- The file is read as the log, and recovery of it reports every write of a transaction that committed
in it. -/
def ReportsCommitted (cfg : LogConfig) (file : Bytes) (log : List WalRecord) : Prop :=
  (∃ found, WalReader.readAll cfg.crates cfg.encryptionKey file = .ok found ∧
    found.map LogRecord.toWalRecord = log) ∧
  ∃ result, recoverWithKey cfg.crates cfg.encryptionKey file = .ok result ∧
    (committedWrites log : Multiset RecoveredWrite) ≤ (result.committedWrites : Multiset RecoveredWrite)

theorem reportsCommitted_of_holds
    (h : Holds cfg bytes log) (hcarried : Carried p noPhases) (hlegal : LegalFrom p log) :
    ReportsCommitted cfg bytes log ↔ Taken log ∧ NoWriteBeforePrepare log := by
  rw [ReportsCommitted, h.recover]
  constructor
  · rintro ⟨-, result, hres, hall⟩
    have htaken : Taken log := by
      refine (hcarried.processAll_iff hlegal).mp ?_
      cases hr : processAll log with
      | error e =>
        rw [recover, hr] at hres
        cases hres
      | ok r => exact ⟨r, rfl⟩
    obtain ⟨result', hres', hle, hiff⟩ := htaken.recover_committedWrites
    cases hres.symm.trans hres'
    exact ⟨htaken, hiff.mp (le_antisymm hle hall)⟩
  · rintro ⟨htaken, hno⟩
    obtain ⟨result, hres, -, hiff⟩ := htaken.recover_committedWrites
    exact ⟨h.readAll, result, hres, (hiff.mpr hno).ge⟩

/-- **The log behind a truncation is recovered** if and only if nothing was ever written through the handle
before it, or nothing is logged behind it; recovery takes every record of it; and no write of a committed
transaction is followed by a prepare record. -/
theorem truncate_reportsCommitted_iff (cfg : LogConfig) (b : LogWriter)
    {trace : List (LogCall × Except WalError (Option WalRecord))} {b' : LogWriter}
    (hrun : Run (exec cfg) (Calm cfg) (b.truncate .ok).1 trace b') :
    ReportsCommitted cfg (b'.flush cfg .ok).1.file.contents (acknowledged trace) ↔
      (b.file.cursor + b.buffer.length = 0 ∨ acknowledged trace = []) ∧
        Taken (acknowledged trace) ∧ NoWriteBeforePrepare (acknowledged trace) := by
  have hbuf : (b.truncate .ok).1.buffer = [] := rfl
  obtain ⟨-, hlegal, bytes, hbytes, hwritten⟩ := logged_of_run hbuf hrun
  have hstart : (b.truncate .ok).1.file = ⟨[], b.file.cursor + b.buffer.length⟩ := by
    rw [← LogFile.cursor_writeAll]
    rfl
  rw [hwritten, hstart]
  have hfound : ∀ file : Bytes, file = bytes → (ReportsCommitted cfg file (acknowledged trace) ↔
      Taken (acknowledged trace) ∧ NoWriteBeforePrepare (acknowledged trace)) := by
    intro file hfile
    rw [hfile]
    exact reportsCommitted_of_holds hbytes carried_running hlegal
  by_cases hlog : acknowledged trace = []
  · have hnil : bytes = [] := hbytes.eq_nil.mpr hlog
    rw [hfound _ (by rw [hnil, LogFile.writeAll_nil])]
    exact (and_iff_right (.inr hlog)).symm
  · have hne : bytes ≠ [] := fun hnil => hlog (hbytes.eq_nil.mp hnil)
    have hconts : (LogFile.writeAll ⟨[], b.file.cursor + b.buffer.length⟩ bytes).contents =
        List.replicate (b.file.cursor + b.buffer.length) 0 ++ bytes := by
      rw [LogFile.writeAll, if_neg hne]
      simp [InPlace.overwrite]
    rw [hconts]
    by_cases hcursor : b.file.cursor + b.buffer.length = 0
    · rw [hfound _ (by rw [hcursor, replicate_zero, nil_append])]
      exact (and_iff_right (.inl hcursor)).symm
    · refine iff_of_false ?_ fun hall => ?_
      · rintro ⟨⟨found, hread, -⟩, -⟩
        obtain ⟨e, he⟩ := readAll_gap (Nat.pos_of_ne_zero hcursor) (hbytes.header_le hlog)
        cases he.symm.trans hread
      · exact hall.1.elim hcursor hlog

/-- A log is opened and truncated while a transaction is running; it is prepared, writes and commits. -/
theorem truncate_reportsCommitted_prepared :
    let run := Steps.execute (exec syncedConfig) (openedLog.truncate .ok).1
      [.of (.prepare 7) .ok, .of (.operation 7 3 .put [1] [2]) .ok, .of (.commit 7) .ok]
    committedWrites (acknowledged run.1) = [⟨3, .put, [1], [2]⟩] ∧
      ReportsCommitted syncedConfig (run.2.flush syncedConfig .ok).1.file.contents
        (acknowledged run.1) := by
  have hlog : acknowledged (Steps.execute (exec syncedConfig) (openedLog.truncate .ok).1
      [.of (.prepare 7) .ok, .of (.operation 7 3 .put [1] [2]) .ok, .of (.commit 7) .ok]).1 =
      [⟨2, .prepare 7⟩, ⟨3, .write 7 3 .put [1] [2]⟩, ⟨4, .commit 7⟩] := by
    decide +kernel
  refine ⟨by rw [hlog]; decide +kernel, ?_⟩
  refine (truncate_reportsCommitted_iff syncedConfig openedLog
    (Steps.Guarded.run (by decide +kernel))).mpr ⟨.inl rfl, ?_⟩
  rw [hlog]
  exact ⟨⟨trivial, rfl, rfl, trivial⟩, by decide +kernel⟩

/-- A log is truncated behind one record, and the next record is not read any more. And an opened log is
truncated while a transaction is running: recovery does not know it when it writes and commits. -/
theorem truncate_loses :
    (let b := (Steps.execute (exec syncedConfig) create [.of (.begin 7) .ok]).2
      let run := Steps.execute (exec syncedConfig) (b.truncate .ok).1 [.of (.begin 8) .ok]
      let file := (run.2.flush syncedConfig .ok).1.file.contents
      acknowledged run.1 = [⟨2, .begin 8⟩] ∧
        WalReader.readAll syncedConfig.crates none file = .error (.error (.corruptedWal 0 "Invalid magic"
          "Expected \x27WALR\x27, found [0, 0, 0, 0]")) ∧
        ¬ ReportsCommitted syncedConfig file (acknowledged run.1)) ∧
    let run := Steps.execute (exec syncedConfig) (openedLog.truncate .ok).1
      [.of (.operation 7 3 .put [1] [2]) .ok, .of (.commit 7) .ok]
    let file := (run.2.flush syncedConfig .ok).1.file.contents
    acknowledged run.1 = [⟨2, .write 7 3 .put [1] [2]⟩, ⟨3, .commit 7⟩] ∧
      (recoverWithKey syncedConfig.crates none file).isOk = false ∧
      ¬ ReportsCommitted syncedConfig file (acknowledged run.1) := by
  refine ⟨?_, ?_⟩
  · have hread : WalReader.readAll syncedConfig.crates none
        ((Steps.execute (exec syncedConfig) ((Steps.execute (exec syncedConfig)
          create [.of (.begin 7) .ok]).2.truncate .ok).1 [.of (.begin 8) .ok]).2.flush
          syncedConfig .ok).1.file.contents = .error (.error (.corruptedWal 0 "Invalid magic"
            "Expected \x27WALR\x27, found [0, 0, 0, 0]")) := by
      decide +kernel
    refine ⟨by decide +kernel, hread, ?_⟩
    rintro ⟨⟨found, hfound, -⟩, -⟩
    cases hfound.symm.trans hread
  · have hfails : (recoverWithKey syncedConfig.crates none
        ((Steps.execute (exec syncedConfig) (openedLog.truncate .ok).1
          [.of (.operation 7 3 .put [1] [2]) .ok, .of (.commit 7) .ok]).2.flush
            syncedConfig .ok).1.file.contents).isOk = false := by
      decide +kernel
    refine ⟨by decide +kernel, hfails, ?_⟩
    rintro ⟨-, result, hres, -⟩
    have hok := congrArg Except.isOk hres
    exact Bool.false_ne_true (hfails.symm.trans hok)

end NanoStore.Wal
