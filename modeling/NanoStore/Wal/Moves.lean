import NanoStore.Wal.Writer
/-!
# Write-ahead log — how the log of a database grows

A flush that fails to sync leaves its records both in the file and in the
buffer, so a log can hold a stretch of records twice. `Flushed` is what a
flush can do to file and buffer, whatever the file does.
-/

namespace NanoStore.Wal

open List WalWriterState

namespace WalWriter

/-- File and buffer after a flush: as before, with the buffer written out, or with the buffer
written out and kept. -/
inductive Flushed (w w' : WalWriterState) : Prop
  | kept (hfile : w'.file = w.file) (hbuf : w'.buffer = w.buffer)
  | moved (hfile : w'.file = w.file ++ w.buffer) (hbuf : w'.buffer = [])
  | doubled (hfile : w'.file = w.file ++ w.buffer) (hbuf : w'.buffer = w.buffer)

variable {cfg : WalWriterConfig} {io : FlushIo} {w w' : WalWriterState} {result : Except WalError Unit}

theorem flushInternal_flushed (h : flushInternal cfg io w = (w', result)) :
    Flushed w w' ∧ (result = .ok () → w'.log = w.log ∧ w'.buffer = []) := by
  unfold flushInternal at h
  by_cases hemp : w.buffer = []
  · rw [if_pos hemp] at h
    cases h
    exact ⟨.kept rfl rfl, fun _ => ⟨rfl, hemp⟩⟩
  · rw [if_neg hemp] at h
    cases io with
    | ok =>
      cases h
      exact ⟨.moved rfl rfl, fun _ => ⟨by simp [log], rfl⟩⟩
    | writeError =>
      cases h
      exact ⟨.kept rfl rfl, nofun⟩
    | syncError =>
      dsimp only at h
      split_ifs at h
      · cases h
        exact ⟨.doubled rfl rfl, nofun⟩
      · cases h
        exact ⟨.moved rfl rfl, fun _ => ⟨by simp [log], rfl⟩⟩

variable {t : TransactionId}
  {track : List TransactionId → List TransactionId} {refusal : Option WalError}
  {data : RecordData}

/-- **A record call puts its record into the buffer or does not, and may flush.** If it returns
`Ok` the log has grown by the record. -/
theorem writeChecked_flushed {result : Except WalError ℕ}
    (h : writeChecked cfg io w refusal data track = (w', result)) :
    (w'.file = w.file ∧ w'.buffer = w.buffer ∧ ∃ e, result = .error e) ∨
      refusal = none ∧ Flushed { w with buffer := w.buffer ++ [⟨w.currentLsn, data⟩] } w' ∧
        ∀ lsn, result = .ok lsn → w'.log = w.log ++ [⟨w.currentLsn, data⟩] := by
  unfold writeChecked at h
  cases refusal with
  | some e =>
    cases h
    exact .inl ⟨rfl, rfl, e, rfl⟩
  | none =>
    simp only [writeRecordInternal] at h
    cases henc : cfg.encodeError ⟨w.currentLsn, data⟩ with
    | some e =>
      simp only [henc] at h
      cases h
      exact .inl ⟨rfl, rfl, e, rfl⟩
    | none =>
      simp only [henc] at h
      split_ifs at h with hfull hflush
      · cases h
        exact .inl ⟨rfl, rfl, _, rfl⟩
      · generalize hx : flushInternal cfg io
          { w with buffer := w.buffer ++ [⟨w.currentLsn, data⟩] } = x at h
        obtain ⟨flushed, e | _⟩ := x <;> obtain ⟨hf, hok⟩ := flushInternal_flushed hx
        · cases h
          exact .inr ⟨rfl, hf, nofun⟩
        · cases h
          refine .inr ⟨rfl, ?_, fun _ _ => ?_⟩
          · cases hf with
            | kept hfile hbuf => exact .kept hfile hbuf
            | moved hfile hbuf => exact .moved hfile hbuf
            | doubled hfile hbuf => exact .doubled hfile hbuf
          · have hlog := (hok rfl).1
            simpa [log] using hlog
      · cases h
        exact .inr ⟨rfl, .kept rfl rfl, fun _ _ => by simp [log]⟩

/-! ## The last position -/

/-- The position of the last record of a log, 0 if there is none. -/
def lastLsn (log : List WalRecord) : ℕ := (log.getLast?.map WalRecord.lsn).getD 0

/-! ## Opening -/

/-- One record of `scan_wal_file`: the position and the transactions running after it. -/
def scanRecord (s : ℕ × List TransactionId) (r : WalRecord) : ℕ × List TransactionId :=
  (r.lsn, match r.data with
    | .begin t => s.2.insert t
    | .commit t | .rollback t => s.2.filter (· ≠ t)
    | .checkpoint _ activeTxns => activeTxns.dedup
    | .write _ _ _ _ _ | .prepare _ => s.2)

/-- `scan_wal_file`: the last number and the transactions that are open. -/
def scanWalFile (file : List WalRecord) : ℕ × List TransactionId := file.foldl scanRecord (0, [])

theorem scanWalFile_fst (file : List WalRecord) : (scanWalFile file).1 = lastLsn file := by
  induction file using List.reverseRecOn with
  | nil => rfl
  | append_singleton file r _ =>
    simp [scanWalFile, foldl_append, scanRecord, lastLsn]

end WalWriter

end NanoStore.Wal
