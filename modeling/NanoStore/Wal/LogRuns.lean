import NanoStore.Wal.LogFile
import NanoStore.Wal.Report
/-!
# Write-ahead log — runs of the writer over bytes

What the file of a writer holds after any number of calls and a flush. The
calls that returned a position have logged their records, in turn and at
consecutive positions, as long as the file fails no flush of theirs; and
the bytes of these records were written from where the cursor of the handle
stood when the run began. For a new log that is the beginning of an empty
file. For an opened log it is the beginning of the old records, and for a
truncated one a place behind the new end of the file.
-/

namespace NanoStore.Wal

open List LogWriter LogRecord

open Steps (Run)
open WalWriter (ConsistentFrom)
open WalWriter (lastLsn)
open Wal.Frame (record)

/-- The file takes every flush of a record call, and a `flush` that fails has written nothing; the record
fits the fields of its header. -/
def Calm (cfg : LogConfig) (_ : List (LogCall × Except WalError (Option WalRecord))) (b : LogWriter)
    (c : LogCall) : Prop :=
  (c.io = .ok ∧ c.io' = .ok ∨ c.call = .flush ∧ c.io = .writeError 0) ∧
    ∀ data ∈ c.call.data b.currentLsn b.activeTxns, cfg.Writable ⟨b.currentLsn, data⟩

instance (cfg : LogConfig) (trace : List (LogCall × Except WalError (Option WalRecord))) (b : LogWriter)
    (c : LogCall) : Decidable (Calm cfg trace b c) :=
  inferInstanceAs (Decidable ((_ ∨ _) ∧ ∀ data ∈ c.call.data b.currentLsn b.activeTxns, _))

/-- The running transactions of a writer, as phases. -/
def LogWriter.running (b : LogWriter) : Phases := fun t => if t ∈ b.activeTxns then some .active else none

variable
  {cfg : LogConfig} {b b₀ b' : LogWriter} {trace : List (LogCall × Except WalError (Option WalRecord))}

variable {c : LogCall} {answer : Except WalError (Option WalRecord)}

theorem acknowledged_cons :
    acknowledged ((c, answer) :: trace) = acknowledged trace ++ answer.toOption.join.toList := by
  rw [acknowledged, reverse_cons, filterMap_append]
  cases h : answer.toOption.join with
  | none | some r => simp [acknowledged, h]

theorem LogWriter.flush_writeError (b : LogWriter) : (b.flush cfg (.writeError 0)).1 = b := by
  rw [flush, flushInternal]
  split_ifs
  · rfl
  · simp

theorem LogWriter.flush_eq_ok {io : LogIo} (h : b.flush cfg io = (b', .ok ())) :
    b' = (b.flush cfg .ok).1 := by
  rw [flush, flushInternal_ok]
  unfold flush flushInternal at h
  by_cases hemp : b.buffer = []
  · rw [if_pos hemp] at h
    cases h
    rw [hemp, LogFile.writeAll_nil, ← hemp]
  · rw [if_neg hemp] at h
    cases io with
    | ok =>
      cases h
      rfl
    | writeError taken => cases h
    | syncError =>
      dsimp only at h
      split_ifs at h
      · cases h
      · cases h
        rfl

/-- What a run from `b₀` on has logged. -/
structure Logged (cfg : LogConfig) (b₀ : LogWriter)
    (trace : List (LogCall × Except WalError (Option WalRecord))) (b : LogWriter) : Prop where
  lsns : (acknowledged trace).map WalRecord.lsn =
    List.range' b₀.currentLsn (acknowledged trace).length
  legal : LegalFrom b₀.running (acknowledged trace)
  written : ∃ bytes, Holds cfg bytes (acknowledged trace) ∧ (b.flush cfg .ok).1.file = b₀.file.writeAll bytes

/-- The same with the writer over records that has done what `b` did. -/
structure Follows (cfg : LogConfig) (b₀ : LogWriter)
    (trace : List (LogCall × Except WalError (Option WalRecord))) (b : LogWriter)
    (w : WalWriterState) : Prop where
  encodes : Encodes cfg b₀.file b w
  log : w.log = acknowledged trace
  lsn : w.currentLsn = b₀.currentLsn + (acknowledged trace).length
  lsns : (acknowledged trace).map WalRecord.lsn =
    List.range' b₀.currentLsn (acknowledged trace).length
  consistent : ConsistentFrom b₀.running w

/-- The writer over records from which `b₀` goes on. -/
def LogWriter.resumed (b₀ : LogWriter) : WalWriterState :=
  ⟨b₀.currentLsn, b₀.currentOffset, b₀.activeTxns, [], []⟩

theorem follows_resumed (hbuf : b₀.buffer = []) : Follows cfg b₀ [] b₀ b₀.resumed where
  encodes := by
    refine ⟨rfl, rfl, rfl, ?_, [], holds_nil, (LogFile.writeAll_nil _).symm⟩
    rw [hbuf]
    exact holds_nil
  log := rfl
  lsn := rfl
  lsns := rfl
  consistent := by
    refine ⟨trivial, fun t => ?_⟩
    simp [resumed, WalWriterState.log, running]

variable {w w' : WalWriterState}

section

variable (h : Follows cfg b₀ trace b w)
include h

theorem Follows.kept
    (hans : answer.toOption.join = none)
    (hencodes : Encodes cfg b₀.file b' w') (hlog : w'.log = w.log)
    (hlsn : w'.currentLsn = w.currentLsn) (hcons : ConsistentFrom b₀.running w') :
    Follows cfg b₀ ((c, answer) :: trace) b' w' := by
  have hsame : acknowledged ((c, answer) :: trace) = acknowledged trace := by
    rw [acknowledged_cons, hans, Option.toList_none, append_nil]
  refine ⟨hencodes, ?_, ?_, ?_, hcons⟩
  · rw [hsame, hlog, h.log]
  · rw [hsame, hlsn, h.lsn]
  · rw [hsame]
    exact h.lsns

theorem Follows.grown
    {data : RecordData} (hencodes : Encodes cfg b₀.file b' w')
    (hlog : w'.log = w.log ++ [⟨w.currentLsn, data⟩]) (hlsn : w'.currentLsn = w.currentLsn + 1)
    (hcons : ConsistentFrom b₀.running w') :
    Follows cfg b₀ ((c, .ok (some ⟨w.currentLsn, data⟩)) :: trace) b' w' := by
  have hgrown : acknowledged ((c, .ok (some ⟨w.currentLsn, data⟩)) :: trace) =
      acknowledged trace ++ [⟨w.currentLsn, data⟩] := acknowledged_cons
  refine ⟨hencodes, ?_, ?_, ?_, hcons⟩
  · rw [hgrown, hlog, h.log]
  · rw [hgrown, hlsn, h.lsn, length_append, length_singleton, Nat.add_assoc]
  · rw [hgrown, map_append, h.lsns, length_append, length_singleton, range'_concat, h.lsn]
    simp

/-- **One call** that the file does not fail. The writer over records makes the same call, or none. -/
theorem Follows.exec (hcalm : Calm cfg trace b c) :
    ∃ w', (w' = WalWriter.exec cfg.toWriterConfig w c.call ∨ w' = w) ∧
      Follows cfg b₀ ((c, (b.exec cfg c).2) :: trace) (b.exec cfg c).1 w' := by
  obtain ⟨call, draw, io, io'⟩ := c
  obtain ⟨⟨hio, hio'⟩ | ⟨hflush, hfail⟩, hwritable⟩ := hcalm
  · dsimp only at hio hio' hwritable
    subst hio hio'
    obtain ⟨hencodes, hanswers⟩ := h.encodes.exec hwritable
    have hcons : ConsistentFrom b₀.running (WalWriter.exec cfg.toWriterConfig w call) :=
      h.consistent.exec
    generalize b.exec cfg ⟨call, draw, .ok, .ok⟩ = result at hencodes hanswers ⊢
    obtain ⟨b', answer⟩ := result
    cases hanswers with
    | grown data hlog hlsn => exact ⟨_, .inl rfl, h.grown hencodes hlog hlsn hcons⟩
    | refused e hlog hlsn | flushed hlog hlsn =>
      exact ⟨_, .inl rfl, h.kept rfl hencodes hlog hlsn hcons⟩
  · dsimp only at hflush hfail
    subst hflush hfail
    have hstate : (b.exec cfg ⟨.flush, draw, .writeError 0, io'⟩).1 = b := b.flush_writeError
    refine ⟨w, .inr rfl, ?_⟩
    rw [hstate]
    refine h.kept ?_ h.encodes rfl rfl h.consistent
    simp only [exec, answer, WalCall.data, Option.map_none]
    cases (b.flush cfg (.writeError 0)).2 with
    | error e | ok _ => rfl

end

/-- **What a run has logged**, if the file failed no flush of a record call. -/
theorem logged_of_run (hbuf : b₀.buffer = [])
    (hrun : Run (exec cfg) (Calm cfg) b₀ trace b) : Logged cfg b₀ trace b := by
  obtain ⟨w, h⟩ : ∃ w, Follows cfg b₀ trace b w := by
    refine hrun.invariant ⟨_, follows_resumed hbuf⟩ ?_
    rintro trace b c ⟨w, h⟩ hcalm
    obtain ⟨w', -, h'⟩ := h.exec hcalm
    exact ⟨w', h'⟩
  refine ⟨h.lsns, ?_, ?_⟩
  · rw [← h.log]
    exact h.consistent.legal
  · obtain ⟨written, hwritten, hfile⟩ := h.encodes.flushed.file
    refine ⟨written, ?_, ?_⟩
    · rw [← h.log]
      exact hwritten
    · rw [flush, flushInternal_ok]
      exact hfile

/-! ## A new log -/

/-- The file is read as the records of the calls that returned `Ok`, and these are numbered from 1 on. -/
def HoldsAcknowledged (cfg : LogConfig) (file : Bytes)
    (trace : List (LogCall × Except WalError (Option WalRecord))) : Prop :=
  (∃ found, WalReader.readAll cfg.crates cfg.encryptionKey file = .ok found ∧
    found.map toWalRecord = acknowledged trace) ∧
  (acknowledged trace).map WalRecord.lsn = List.range' 1 (acknowledged trace).length

/-- **After a flush the log is what the calls were told it is**, if no record call met a failed flush. -/
theorem holdsAcknowledged_of_run (hrun : Run (exec cfg) (Calm cfg) create trace b) (io : LogIo)
    (hflush : b.flush cfg io = (b', .ok ())) : HoldsAcknowledged cfg b'.file.contents trace := by
  obtain ⟨hlsns, -, bytes, hbytes, hfile⟩ := logged_of_run rfl hrun
  refine ⟨?_, hlsns⟩
  have hconts : b'.file.contents = bytes := by
    rw [flush_eq_ok hflush, hfile]
    exact LogFile.contents_writeAll_of_end _ rfl
  rw [hconts]
  exact hbytes.readAll

/-- A log that is written without compression, encryption and group commit, and synced at every write. -/
def syncedConfig : LogConfig where
  bufferSize := 64 * 1024
  syncOnWrite := true
  maxWalSize := 1024 * 1024 * 1024
  groupCommit := false
  crates := Pager.Crates.plain
  encryptionKey := none
  compression := .none
  encryption := .none

theorem length_zeros : (List.replicate 12 (0 : Byte)).length = 12 := rfl

/-- A call under one clock and one nonce. -/
def LogCall.of (call : WalCall) (io : LogIo) : LogCall :=
  ⟨call, ⟨0, List.replicate 12 0, by decide, length_zeros⟩, io, .ok⟩

/-- A transaction that writes before it is prepared and commits; a flush in between fails. -/
def calmCalls : List LogCall :=
  [.of (.begin 7) .ok, .of (.prepare 7) .ok, .of .flush (.writeError 0),
    .of (.operation 7 3 .put [1] [2]) .ok, .of (.begin 7) .ok, .of (.commit 7) .ok]

theorem holdsAcknowledged_calmCalls : let run := Steps.execute (exec syncedConfig) create calmCalls
    (acknowledged run.1).length = 4 ∧
      HoldsAcknowledged syncedConfig (run.2.flush syncedConfig .ok).1.file.contents run.1 := by
  refine ⟨by decide +kernel, ?_⟩
  refine holdsAcknowledged_of_run (Steps.Guarded.run (by decide +kernel)) .ok ?_
  exact flushInternal_ok

/-- The file fails the flush of one begin record, and takes that of the next. The first call was told that
nothing is logged; both records are, with one position. -/
def failedBegin : List LogCall := [.of (.begin 7) (.writeError 0), .of (.begin 8) .ok]

theorem holdsAcknowledged_failedBegin : let run := Steps.execute (exec syncedConfig) create failedBegin
    let file := (run.2.flush syncedConfig .ok).1.file.contents
    (run.2.flush syncedConfig .ok).2 = .ok () ∧ acknowledged run.1 = [⟨1, .begin 8⟩] ∧
      WalReader.readAll syncedConfig.crates none file =
        .ok [⟨1, 0, .begin 7, .none, .none⟩, ⟨1, 0, .begin 8, .none, .none⟩] ∧
      ¬ HoldsAcknowledged syncedConfig file run.1 := by
  have hread : WalReader.readAll syncedConfig.crates none
      ((Steps.execute (exec syncedConfig) create failedBegin).2.flush syncedConfig .ok).1.file.contents =
      .ok [⟨1, 0, .begin 7, .none, .none⟩, ⟨1, 0, .begin 8, .none, .none⟩] := by
    decide +kernel
  have hacknowledged : acknowledged
      (Steps.execute (exec syncedConfig) create failedBegin).1 = [⟨1, .begin 8⟩] := by
    decide +kernel
  refine ⟨by decide +kernel, hacknowledged, hread, ?_⟩
  rintro ⟨⟨found, hfound, hsame⟩, -⟩
  cases hfound.symm.trans hread
  rw [hacknowledged] at hsame
  revert hsame
  decide +kernel

/-! ## An opened log -/

variable {crates : Pager.Crates} {key : Option Bytes}

theorem Frame.length_bytes {f g : Frame crates key}
    (h : f.record = g.record) : f.bytes.length = g.bytes.length := by
  obtain ⟨stored, hseal, -, hlen⟩ := toBytes_eq_ok f.encoded
  obtain ⟨stored', hseal', -, hlen'⟩ := toBytes_eq_ok g.encoded
  rw [h] at hseal
  rcases crates.sealData_cases key g.record.compression g.record.encryption (serializeData g.record.data)
      (f.length_nonce.trans g.length_nonce.symm) with
    ⟨e, herror, -⟩ | ⟨_, _, hok, hok', hsame⟩
  · cases herror.symm.trans hseal
  · cases hok.symm.trans hseal
    cases hok'.symm.trans hseal'
    omega

theorem length_logBytes {frames frames' : List (Frame crates key)}
    (h : frames.map record = frames'.map record) :
    (logBytes frames).length = (logBytes frames').length := by
  induction frames generalizing frames' with
  | nil =>
    cases frames' with
    | nil => rfl
    | cons g frames' => cases h
  | cons f frames ih =>
    cases frames' with
    | nil => cases h
    | cons g frames' =>
      obtain ⟨hhead, htail⟩ := cons_eq_cons.mp h
      rw [logBytes, logBytes, flatMap_cons, flatMap_cons, length_append,
        length_append, Frame.length_bytes hhead]
      exact congrArg _ (ih htail)

variable {old : List (Frame cfg.crates cfg.encryptionKey)}

/-- `WalWriter::open` of a log goes on behind its last position, with the handle at its beginning. -/
theorem openLog_logBytes :
    ∃ b₀, openLog cfg (logBytes old) = .ok b₀ ∧
      b₀.currentLsn = lastLsn (old.map fun f => f.record.toWalRecord) + 1 ∧
      b₀.buffer = [] ∧ b₀.file = ⟨logBytes old, 0⟩ := by
  rw [openLog, readAll_logBytes]
  refine ⟨_, rfl, ?_, rfl, rfl⟩
  have hscan : (WalWriter.scanWalFile ((old.map record).map toWalRecord)).1 =
      lastLsn (old.map fun f => f.record.toWalRecord) := by
    rw [WalWriter.scanWalFile_fst, map_map]
    rfl
  exact congrArg (· + 1) hscan

/-- The file is read as the old records and new ones behind them, numbered on from the last. -/
def Appends (cfg : LogConfig) (old : List LogRecord) (file : Bytes) (new : List WalRecord) : Prop :=
  (∃ added, WalReader.readAll cfg.crates cfg.encryptionKey file = .ok (old ++ added) ∧
    added.map toWalRecord = new) ∧
  new.map WalRecord.lsn =
    List.range' (lastLsn (old.map toWalRecord) + 1) new.length

theorem lastLsn_mem {log : List WalRecord} (h : log ≠ []) :
    lastLsn log ∈ log.map WalRecord.lsn := by
  rw [lastLsn, getLast?_eq_some_getLast h]
  exact mem_map_of_mem (getLast_mem h)

/-- **New records over the old ones are not behind them.** -/
theorem not_appends (hold : old ≠ []) {bytes : Bytes}
    {new : List WalRecord} (hbytes : Holds cfg bytes new) (hnew : new ≠ []) :
    ¬ Appends cfg (old.map record) (bytes ++ (logBytes old).drop bytes.length) new := by
  rintro ⟨⟨added, hread, hadded⟩, hlsns⟩
  obtain ⟨frames, rfl, rfl, -⟩ := hbytes
  have hfront := hread
  rw [readAll_append] at hfront
  cases hbehind : Frames.run (WalReader.readNext cfg.crates cfg.encryptionKey) Frames.collect []
      (logBytes frames).length ((logBytes old).drop (logBytes frames).length) with
  | error e =>
    rw [hbehind] at hfront
    cases hfront
  | ok rest =>
    rw [hbehind] at hfront
    have hsame : frames.map record ++ rest = old.map record ++ added :=
      Except.ok.inj hfront
    rcases append_eq_append_iff.mp hsame with ⟨left, hfrom, -⟩ | ⟨left, hfrom, -⟩
    · -- the new records are the first of the old, so that the others are read behind them
      have htake : frames.map record = (old.take frames.length).map record := by
        rw [map_take, hfrom]
        exact (take_left' (length_map _)).symm
      have hdrop : (logBytes old).drop (logBytes frames).length = logBytes (old.drop frames.length) := by
        have hsplit : logBytes old =
            logBytes (old.take frames.length) ++ logBytes (old.drop frames.length) := by
          rw [logBytes, logBytes, logBytes, ← flatMap_append, take_append_drop]
        rw [hsplit, length_logBytes htake, drop_left]
      have hall : logBytes frames ++ logBytes (old.drop frames.length) =
          logBytes (frames ++ old.drop frames.length) := flatMap_append.symm
      rw [hdrop, hall, readAll_logBytes, map_append, htake, ← map_append, take_append_drop] at hread
      have hnone : added = [] := self_eq_append_right.mp (Except.ok.inj hread)
      rw [hnone] at hadded
      exact hnew hadded.symm
    · -- the new records begin with the old, but are numbered from the last of them on
      have hne : (old.map record).map toWalRecord ≠ [] := by
        rw [ne_eq, map_eq_nil_iff, map_eq_nil_iff]
        exact hold
      have hlast := lastLsn_mem hne
      have hmem : lastLsn ((old.map record).map toWalRecord) ∈
          (frames.map fun f => f.record.toWalRecord).map WalRecord.lsn := by
        have hrecords : (frames.map fun f => f.record.toWalRecord) =
            (old.map record).map toWalRecord ++ left.map toWalRecord := by
          rw [← map_append, ← hfrom, map_map]
          rfl
        rw [hrecords, map_append]
        exact mem_append_left _ hlast
      rw [hlsns] at hmem
      have hbound := (mem_range'_1.mp hmem).1
      omega

/-- **Opening a log and writing to it appends** if and only if the log is empty, or nothing is written. -/
theorem appends_iff (cfg : LogConfig) (old : List (Frame cfg.crates cfg.encryptionKey)) :
    ∃ b₀, openLog cfg (logBytes old) = .ok b₀ ∧ ∀ trace b, Run (exec cfg) (Calm cfg) b₀ trace b →
        (Appends cfg (old.map record) (b.flush cfg .ok).1.file.contents (acknowledged trace) ↔
          old = [] ∨ acknowledged trace = []) := by
  obtain ⟨b₀, hopen, hlsn, hbuf, hfile⟩ := openLog_logBytes
  refine ⟨b₀, hopen, fun trace b hrun => ?_⟩
  obtain ⟨hlsns, -, bytes, hbytes, hwritten⟩ := logged_of_run hbuf hrun
  have hnums : (acknowledged trace).map WalRecord.lsn =
      List.range' (lastLsn ((old.map record).map toWalRecord) + 1)
        (acknowledged trace).length := by
    rw [hlsns, hlsn, map_map]
    rfl
  rw [hwritten, hfile]
  by_cases hnew : acknowledged trace = []
  · rw [hbytes.eq_nil.mpr hnew, LogFile.writeAll_nil]
    refine iff_of_true ⟨⟨[], ?_, hnew.symm⟩, hnums⟩ (.inr hnew)
    rw [append_nil]
    exact readAll_logBytes
  · have hne : bytes ≠ [] := fun hnil => hnew (hbytes.eq_nil.mp hnil)
    have hconts : (LogFile.writeAll ⟨logBytes old, 0⟩ bytes).contents =
        bytes ++ (logBytes old).drop bytes.length := by
      rw [LogFile.writeAll, if_neg hne]
      simp [InPlace.overwrite]
    rw [hconts]
    by_cases hold : old = []
    · subst hold
      refine iff_of_true ⟨?_, hnums⟩ (.inl rfl)
      obtain ⟨found, hfound, hsame⟩ := hbytes.readAll
      refine ⟨found, ?_, hsame⟩
      simpa [logBytes] using hfound
    · refine iff_of_false (not_appends hold hbytes hnew) ?_
      exact not_or.mpr ⟨hold, hnew⟩

/-- An empty log is opened, and written. -/
theorem appends_calmCalls : let run := Steps.execute (exec syncedConfig) create calmCalls
    openLog syncedConfig [] = .ok create ∧ (acknowledged run.1).length = 4 ∧
      Appends syncedConfig [] (run.2.flush syncedConfig .ok).1.file.contents (acknowledged run.1) := by
  refine ⟨by decide +kernel, by decide +kernel, ?_⟩
  obtain ⟨b₀, hopen, h⟩ := appends_iff syncedConfig []
  have hcreate : b₀ = create := Except.ok.inj (hopen.symm.trans (by decide +kernel))
  subst hcreate
  exact (h _ _ (Steps.Guarded.run (by decide +kernel))).mpr (.inl rfl)

/-- The log of one begin record, as it is opened. -/
def openedLog : LogWriter := ⟨2, 71, [7], [], ⟨logBytes [beginFrame], 0⟩⟩

/-- A begin record is written to an opened log: the old one is gone. -/
theorem appends_openedLog : let run := Steps.execute (exec syncedConfig) openedLog [.of (.begin 8) .ok]
    let file := (run.2.flush syncedConfig .ok).1.file.contents
    openLog syncedConfig (logBytes [beginFrame]) = .ok openedLog ∧ acknowledged run.1 = [⟨2, .begin 8⟩] ∧
      WalReader.readAll syncedConfig.crates none file = .ok [⟨2, 0, .begin 8, .none, .none⟩] ∧
      ¬ Appends syncedConfig [beginRecord] file (acknowledged run.1) := by
  have hread : WalReader.readAll syncedConfig.crates none
      ((Steps.execute (exec syncedConfig) openedLog [.of (.begin 8) .ok]).2.flush
        syncedConfig .ok).1.file.contents = .ok [⟨2, 0, .begin 8, .none, .none⟩] := by
    decide +kernel
  refine ⟨by decide +kernel, by decide +kernel, hread, ?_⟩
  rintro ⟨⟨added, hadded, -⟩, -⟩
  have hsame := Except.ok.inj (hadded.symm.trans hread)
  have hhead : beginRecord = ⟨2, 0, .begin 8, .none, .none⟩ := (cons_eq_cons.mp hsame).1
  revert hhead
  decide

end NanoStore.Wal
