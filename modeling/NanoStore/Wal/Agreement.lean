import NanoStore.Wal.Truncate
/-!
# Write-ahead log — who is still running

Three parties keep a set of running transactions: the writer as it makes its
calls, `scan_wal_file` when the log is opened again, and recovery. Recovery
goes by the phases of the log alone. The scan forgets what it counted at a
checkpoint record and goes on from the set the record lists, so that it
agrees only because the writer lists its own. The file lacks what the writer
still buffers, and none of the three agrees on it before a flush.
-/

namespace NanoStore.Wal

open List LogWriter

open Steps (Run)

namespace WalWriter

variable {cfg : WalWriterConfig} {w w' : WalWriterState}

/-- The scan of the log, up to the last record in the buffer, ends in the writer's own set. -/
def Scanned (w : WalWriterState) : Prop := ∀ t, t ∈ (scanWalFile w.log).2 ↔ t ∈ w.activeTxns

variable {refusal : Option WalError} {data : RecordData}

section

variable (h : Scanned w)
include h

/-- **A record call keeps the scan in step** when it tracks what its record does to the scan. -/
theorem Scanned.writeChecked {track : List TransactionId → List TransactionId}
    (htrack : ∀ s : ℕ × List TransactionId, (∀ t, t ∈ s.2 ↔ t ∈ w.activeTxns) →
      ∀ t, t ∈ (scanRecord s ⟨w.currentLsn, data⟩).2 ↔ t ∈ track w.activeTxns) :
    Scanned (writeChecked cfg .ok w refusal data track).1 := by
  rcases writeChecked_cases cfg w refusal data track with ⟨e, he⟩ | ⟨w', hw, -, hlog, hact, -⟩
  · rw [he]
    exact h
  · rw [hw]
    intro t
    rw [hlog, hact, scanWalFile, foldl_append]
    exact htrack _ h t

theorem Scanned.flushed : Scanned { w with file := w.file ++ w.buffer, buffer := [] } := by
  intro t
  simpa [WalWriterState.log] using h t

theorem Scanned.closes {t : TransactionId} (hdata : data = .commit t ∨ data = .rollback t) :
    Scanned (WalWriter.writeChecked cfg .ok w refusal data fun ts => ts.filter (· ≠ t)).1 := by
  refine h.writeChecked fun s hs u => ?_
  have hscan : (scanRecord s ⟨w.currentLsn, data⟩).2 = s.2.filter (· ≠ t) := by
    rcases hdata with rfl | rfl <;> rfl
  rw [hscan, mem_filter, mem_filter, hs]

/-- **Every call keeps the scan in step.** -/
theorem Scanned.exec {call : WalCall} : Scanned (exec cfg w call) := by
  cases call with
  | begin t =>
    refine h.writeChecked fun s hs u => ?_
    simp [scanRecord, hs]
  | operation t tableId opType key value | prepare t => exact h.writeChecked fun s hs => hs
  | commit t => exact writeCommit_keeps (fun _ hw => hw.flushed) (h.closes (.inl rfl))
  | rollback t => exact h.closes (.inr rfl)
  | checkpoint =>
    -- the scan starts again from what the record lists, and this is the writer's set
    refine h.writeChecked fun s hs u => ?_
    simp [scanRecord]
  | flush => simpa only [WalWriter.exec, flush, flushInternal_ok] using h.flushed

end

end WalWriter

variable {log : List WalRecord}

/-- What the two readers of a file say about the transactions that run and about the next position is what
the writer has. -/
structure AgreesWith (cfg : LogConfig) (file : Bytes) (b : LogWriter) : Prop where
  recovered : ∃ result, WalRecovery.recoverWithKey cfg.crates cfg.encryptionKey file = .ok result ∧
    result.activeTransactions = b.activeTxns.toFinset
  opened : ∃ b₀, openLog cfg file = .ok b₀ ∧
    b₀.activeTxns.toFinset = b.activeTxns.toFinset ∧ b₀.currentLsn = b.currentLsn

variable
  {cfg : LogConfig} {b : LogWriter} {trace : List (LogCall × Except WalError (Option WalRecord))}

theorem running_create : create.running = noPhases := by
  funext t
  simp [running, create, noPhases]

theorem exists_follows (hrun : Run (exec cfg) (Calm cfg) create trace b) :
    ∃ w, Follows cfg create trace b w ∧ WalWriter.Scanned w := by
  refine hrun.invariant ?_ ?_
  · refine ⟨_, follows_resumed rfl, fun t => ?_⟩
    simp [resumed, create, WalWriterState.log, WalWriter.scanWalFile]
  · rintro trace b c ⟨w, h, hscanned⟩ hcalm
    obtain ⟨w', hsame, h'⟩ := h.exec hcalm
    refine ⟨w', h', ?_⟩
    rcases hsame with rfl | rfl
    · exact hscanned.exec
    · exact hscanned

theorem lastLsn_of_range
    (h : log.map WalRecord.lsn = List.range' 1 log.length) : WalWriter.lastLsn log = log.length := by
  rcases eq_nil_or_concat' log with rfl | ⟨front, r, rfl⟩
  · rfl
  · rw [length_append, length_singleton, range'_concat, map_append] at h
    have hlast := (append_inj' h rfl).2
    simp only [map_cons, map_nil, List.cons.injEq, and_true] at hlast
    simp only [WalWriter.lastLsn, getLast?_append, getLast?_singleton,
      Option.some_or, Option.map_some, Option.getD_some, length_append, length_singleton]
    omega

/-- **The readers of the file agree with the writer exactly when it has nothing left to flush**, after every
run that writes a new log. -/
theorem agreesWith_iff (hrun : Run (exec cfg) (Calm cfg) create trace b) :
    AgreesWith cfg b.file.contents b ↔ b.buffer = [] := by
  obtain ⟨w, h, hscanned⟩ := exists_follows hrun
  obtain ⟨written, hholds, hfile⟩ := h.encodes.file
  have hconts : b.file.contents = written := by
    rw [hfile]
    exact LogFile.contents_writeAll_of_end _ rfl
  obtain ⟨records, hread, hrecords⟩ := hholds.readAll
  have hopen : openLog cfg b.file.contents =
      .ok ⟨WalWriter.lastLsn w.file + 1, written.length, (WalWriter.scanWalFile w.file).2, [],
        ⟨written, 0⟩⟩ := by
    rw [hconts, openLog, hread, ← WalWriter.scanWalFile_fst, ← hrecords]
  have hnums : w.log.map WalRecord.lsn = List.range' 1 w.log.length := by
    rw [h.log]
    exact h.lsns
  constructor
  · rintro ⟨-, b₀, hb₀, -, hlsn⟩
    -- the file alone ends at its own length, and the writer has counted the buffer too
    have hfront : w.file.map WalRecord.lsn = List.range' 1 w.file.length := by
      rw [WalWriterState.log, map_append, length_append, ← range'_append_1] at hnums
      exact (append_inj hnums (by simp)).1
    have hnext : w.currentLsn = 1 + (w.file.length + w.buffer.length) := by
      rw [← length_append, ← WalWriterState.log, h.log]
      exact h.lsn
    have hopened : b₀.currentLsn = WalWriter.lastLsn w.file + 1 := by
      cases hb₀.symm.trans hopen
      rfl
    rw [hopened, lastLsn_of_range hfront, h.encodes.lsn, hnext] at hlsn
    exact h.encodes.buffer.eq_nil.mpr (eq_nil_of_length_eq_zero (by omega))
  · intro hemp
    have hlog : w.file = w.log := by
      rw [WalWriterState.log, h.encodes.buffer.eq_nil.mp hemp, append_nil]
    have hactive : ∀ t, t ∈ b.activeTxns ↔ phases noPhases w.log t = some .active := by
      intro t
      rw [h.encodes.active, h.consistent.active, running_create]
    refine ⟨?_, _, hopen, ?_, ?_⟩
    · have hlegal : Legal w.log := by
        rw [Legal, ← running_create]
        exact h.consistent.legal
      obtain ⟨r, hr, htracks⟩ := WalRecovery.exists_processAll hlegal.taken
      refine ⟨r.buildResult, ?_, ?_⟩
      · rw [hconts, hholds.recover, hlog, WalRecovery.recover, hr]
        rfl
      · ext t
        rw [mem_toFinset, hactive, ← htracks.state]
        simp [WalRecovery.buildResult]
    · ext t
      rw [mem_toFinset, mem_toFinset, hlog, h.encodes.active]
      exact hscanned t
    · show WalWriter.lastLsn w.file + 1 = b.currentLsn
      have hnext : w.currentLsn = 1 + w.log.length := by
        rw [h.log]
        exact h.lsn
      rw [hlog, lastLsn_of_range hnums, h.encodes.lsn, hnext, Nat.add_comm]

/-- `WalWriterConfig::default`: commits are grouped, so that a record waits in the buffer for the next
commit. -/
def groupedConfig : LogConfig := { syncedConfig with groupCommit := true }

/-- One transaction commits; another one begins before it and a checkpoint is taken in between. -/
def groupedCalls : List LogCall :=
  [.of (.begin 7) .ok, .of (.begin 8) .ok, .of .checkpoint .ok, .of (.commit 8) .ok]

theorem agreesWith_groupedCalls : let run := Steps.execute (exec groupedConfig) create groupedCalls
    run.2.activeTxns = [7] ∧ run.2.currentLsn = 5 ∧
      AgreesWith groupedConfig run.2.file.contents run.2 := by
  refine ⟨by decide +kernel, by decide +kernel, ?_⟩
  exact (agreesWith_iff (Steps.Guarded.run (by decide +kernel))).mpr (by decide +kernel)

/-- A transaction has begun and nothing is committed: the file is empty, and both readers find nobody
running and the first position free. -/
theorem agreesWith_fails : ∃ trace b, Run (exec groupedConfig) (Calm groupedConfig) create trace b ∧
    (∀ call ∈ trace, call.1.io = .ok ∧ call.1.io' = .ok) ∧ b.activeTxns = [7] ∧ b.currentLsn = 2 ∧
    b.file.contents = [] ∧ ¬ AgreesWith groupedConfig b.file.contents b := by
  have hguarded : Steps.Guarded (exec groupedConfig) (Calm groupedConfig) [] create
      [.of (.begin 7) .ok] := by decide +kernel
  refine ⟨_, _, hguarded.run, by decide +kernel, by decide +kernel, by decide +kernel, by decide +kernel, ?_⟩
  rintro ⟨-, b₀, hopen, -, hlsn⟩
  have hnew : openLog groupedConfig [] = .ok create := by decide +kernel
  have hfst : b₀.currentLsn = 1 := by
    cases hopen.symm.trans hnew
    rfl
  revert hlsn
  rw [hfst]
  decide +kernel

end NanoStore.Wal
