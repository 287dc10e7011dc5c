import NanoStore.Wal.Log
import NanoStore.Wal.Moves
import NanoStore.Wal.Reader
/-!
# Write-ahead log — the writer over bytes

`WalWriter` once more, with what it does to its file: the buffer holds
bytes, and a flush writes them where the cursor of the file handle stands.
The writer never moves the cursor itself. A new log is written from the
beginning of an empty file on; an opened one too, whatever the file holds;
and a truncated one from where the last write ended, behind a gap.

`Encodes` relates it to the writer over records: file and buffer hold the
bytes of its records, the file from where the handle stood.
-/

namespace NanoStore.Wal

open List LogRecord

open Pager (CompressionType EncryptionType Crates)

/-- The handle through which the writer uses its file. -/
structure LogFile where
  contents : Bytes
  cursor : ℕ
  deriving DecidableEq

variable {bytes : Bytes}

namespace LogFile

variable (file : LogFile)

/-- `write_all`: what there is at the cursor is overwritten, and a gap before it filled with zeros. No
bytes are not written. -/
def writeAll (bytes : Bytes) : LogFile :=
  if bytes = [] then file
  else ⟨InPlace.overwrite 0 file.contents file.cursor bytes, file.cursor + bytes.length⟩

/-- `truncate`: the cursor stays where it is. -/
def truncate : LogFile := { file with contents := [] }

@[simp] theorem writeAll_nil : file.writeAll [] = file := if_pos rfl

@[simp] theorem cursor_writeAll (bytes : Bytes) :
    (file.writeAll bytes).cursor = file.cursor + bytes.length := by
  rw [writeAll]
  split_ifs with hnil
  · rw [hnil, length_nil, Nat.add_zero]
  · rfl

/-- **Writes one after the other are one write.** -/
theorem writeAll_append (bytes bytes' : Bytes) :
    (file.writeAll bytes).writeAll bytes' = file.writeAll (bytes ++ bytes') := by
  by_cases hnil : bytes = []
  · rw [hnil, writeAll_nil, nil_append]
  · by_cases hnil' : bytes' = []
    · rw [hnil', writeAll_nil, append_nil]
    · have hne : bytes ++ bytes' ≠ [] := fun happend => hnil (append_eq_nil_iff.mp happend).1
      rw [writeAll, if_neg hnil', writeAll, if_neg hnil, writeAll, if_neg hne]
      dsimp only
      rw [InPlace.overwrite_append, length_append, Nat.add_assoc]

theorem contents_writeAll_of_end (h : file.cursor = file.contents.length) :
    (file.writeAll bytes).contents = file.contents ++ bytes := by
  rw [writeAll]
  split_ifs with hnil
  · rw [hnil, append_nil]
  · dsimp only
    rw [h, InPlace.overwrite_length]

end LogFile

/-- `WalWriterConfig`, with the compression, the encryption and the key. -/
structure LogConfig where
  bufferSize : ℕ
  syncOnWrite : Bool
  maxWalSize : ℕ
  groupCommit : Bool
  crates : Crates
  encryptionKey : Option Bytes
  compression : CompressionType
  encryption : EncryptionType

/-- The fields of `WalWriter` that change. -/
structure LogWriter where
  currentLsn : ℕ
  currentOffset : ℕ
  activeTxns : List TransactionId
  buffer : Bytes
  file : LogFile
  deriving DecidableEq

/-- What the file does with one flush: it takes the bytes and syncs, fails after it has taken some of them,
or takes all and fails to sync. -/
inductive LogIo
  | ok
  | writeError (taken : ℕ)
  | syncError
  deriving DecidableEq

/-- What the clock shows and what nonce is drawn when a record is made. -/
structure Draw where
  timestamp : ℕ
  nonce : Bytes
  timestamp_lt : timestamp < 256 ^ 8
  length_nonce : nonce.length = 12

namespace LogWriter

/-- `create`, over an empty file. -/
def create : LogWriter := ⟨1, 0, [], [], ⟨[], 0⟩⟩

variable (cfg : LogConfig) (io : LogIo) (w : LogWriter)

/-- `flush_internal`: the buffer goes to the file, which may be synced. -/
def flushInternal : LogWriter × Except WalError Unit :=
  if w.buffer = [] then (w, .ok ())
  else match io with
    | .writeError taken =>
      ({ w with file := w.file.writeAll (w.buffer.take taken) }, .error .ioError)
    | .ok => ({ w with file := w.file.writeAll w.buffer, buffer := [] }, .ok ())
    | .syncError =>
      if cfg.syncOnWrite && !cfg.groupCommit then
        ({ w with file := w.file.writeAll w.buffer }, .error .vfsError)
      else ({ w with file := w.file.writeAll w.buffer, buffer := [] }, .ok ())

/-- The condition under which `write_record_internal` flushes. -/
def shouldFlush : Bool :=
  decide (cfg.bufferSize ≤ w.buffer.length) || (cfg.syncOnWrite && !cfg.groupCommit)

/-- The bytes of a record go to the buffer, if the log has room for them. -/
def writeRecordInternal (nonce : Bytes) (record : LogRecord) : LogWriter × Except WalError Unit :=
  match record.toBytes cfg.crates cfg.encryptionKey nonce with
  | .error e => (w, .error e)
  | .ok bytes =>
    if w.currentOffset + bytes.length > cfg.maxWalSize then
      (w, .error (.walFull (w.currentOffset + bytes.length) cfg.maxWalSize))
    else
      let buffered := { w with buffer := w.buffer ++ bytes }
      let (flushed, result) :=
        if shouldFlush cfg buffered then flushInternal cfg io buffered else (buffered, .ok ())
      match result with
      | .error e => (flushed, .error e)
      | .ok () =>
        ({ flushed with
            currentLsn := flushed.currentLsn + 1
            currentOffset := flushed.currentOffset + bytes.length }, .ok ())

/-- The common body of the record calls. -/
def writeChecked (draw : Draw) (refusal : Option WalError) (data : RecordData)
    (track : List TransactionId → List TransactionId) : LogWriter × Except WalError ℕ :=
  match refusal with
  | some e => (w, .error e)
  | none =>
    let record : LogRecord := ⟨w.currentLsn, draw.timestamp, data, cfg.compression, cfg.encryption⟩
    match writeRecordInternal cfg io w draw.nonce record with
    | (w', .error e) => (w', .error e)
    | (w', .ok ()) => ({ w' with activeTxns := track w'.activeTxns }, .ok w.currentLsn)

/-- The refusal of the calls that need an active transaction. -/
def requireActive (t : TransactionId) : Option WalError :=
  if t ∈ w.activeTxns then none else some (.transactionNotFound t)

def writeBegin (draw : Draw) (t : TransactionId) : LogWriter × Except WalError ℕ :=
  writeChecked cfg io w draw
    (if t ∈ w.activeTxns then some (.transactionAlreadyExists t) else none) (.begin t) (List.insert t)

def writeOperation (draw : Draw) (t : TransactionId) (tableId : TableId) (opType : WriteOpType)
    (key value : Bytes) : LogWriter × Except WalError ℕ :=
  writeChecked cfg io w draw (w.requireActive t) (.write t tableId opType key value) id

def writePrepare (draw : Draw) (t : TransactionId) : LogWriter × Except WalError ℕ :=
  writeChecked cfg io w draw (w.requireActive t) (.prepare t) id

def writeRollback (draw : Draw) (t : TransactionId) : LogWriter × Except WalError ℕ :=
  writeChecked cfg io w draw (w.requireActive t) (.rollback t) (fun ts => ts.filter (· ≠ t))

def writeCheckpoint (draw : Draw) : LogWriter × Except WalError ℕ :=
  writeChecked cfg io w draw none (.checkpoint w.currentLsn w.activeTxns) id

/-- The flush that the group-commit coordinator of a created log makes. -/
def groupFlush (t : TransactionId) (lsn : ℕ) : LogWriter × Except WalError Unit :=
  if w.buffer = [] then (w, .ok ())
  else match io with
    | .writeError taken =>
      ({ w with file := w.file.writeAll (w.buffer.take taken) }, .error (.commitNotificationError t lsn))
    | .ok => ({ w with file := w.file.writeAll w.buffer, buffer := [] }, .ok ())
    | .syncError =>
      ({ w with file := w.file.writeAll w.buffer }, .error (.commitNotificationError t lsn))

/-- `write_commit`; `io'` is for the flush behind the record. -/
def writeCommit (io' : LogIo) (draw : Draw) (t : TransactionId) : LogWriter × Except WalError ℕ :=
  match writeChecked cfg io w draw (w.requireActive t) (.commit t) (fun ts => ts.filter (· ≠ t)) with
  | (w', .error e) => (w', .error e)
  | (w', .ok lsn) =>
    let (flushed, result) :=
      if cfg.groupCommit then groupFlush io' w' t lsn
      else if cfg.syncOnWrite then flushInternal cfg io' w'
      else (w', .ok ())
    match result with
    | .error e => (flushed, .error e)
    | .ok () => (flushed, .ok lsn)

def flush : LogWriter × Except WalError Unit := flushInternal cfg io w

/-- `truncate`. What is in the buffer is written, and cut off with the rest. -/
def truncate : LogWriter × Except WalError Unit :=
  match io with
  | .writeError taken =>
    if w.buffer = [] then ({ w with file := w.file.truncate, currentOffset := 0 }, .ok ())
    else ({ w with file := w.file.writeAll (w.buffer.take taken) }, .error .ioError)
  | _ =>
    ({ w with
        buffer := []
        file := (w.file.writeAll w.buffer).truncate
        currentOffset := 0 }, .ok ())

/-- `WalWriter::open`. The handle is at the beginning of the file. -/
def openLog (file : Bytes) : Except (Failure WalError) LogWriter :=
  match WalReader.readAll cfg.crates cfg.encryptionKey file with
  | .error e => .error e
  | .ok records =>
    let (lastLsn, activeTxns) := WalWriter.scanWalFile (records.map toWalRecord)
    .ok ⟨lastLsn + 1, file.length, activeTxns, [], ⟨file, 0⟩⟩

end LogWriter

/-- A call of the writer, with what the clock, the generator and the file do. -/
structure LogCall where
  call : WalCall
  draw : Draw
  io : LogIo
  io' : LogIo

/-- What a record call logs if it is not refused. -/
def WalCall.data (call : WalCall) (lsn : ℕ) (activeTxns : List TransactionId) : Option RecordData :=
  match call with
  | .begin t => some (.begin t)
  | .operation t tableId opType key value => some (.write t tableId opType key value)
  | .prepare t => some (.prepare t)
  | .commit t => some (.commit t)
  | .rollback t => some (.rollback t)
  | .checkpoint => some (.checkpoint lsn activeTxns)
  | .flush => none

namespace LogWriter

/-- What a call returns. -/
def answer (cfg : LogConfig) (w : LogWriter) (c : LogCall) : LogWriter × Except WalError ℕ :=
  match c.call with
  | .begin t => writeBegin cfg c.io w c.draw t
  | .operation t tableId opType key value => writeOperation cfg c.io w c.draw t tableId opType key value
  | .prepare t => writePrepare cfg c.io w c.draw t
  | .commit t => writeCommit cfg c.io w c.io' c.draw t
  | .rollback t => writeRollback cfg c.io w c.draw t
  | .checkpoint => writeCheckpoint cfg c.io w c.draw
  | .flush => ((flush cfg c.io w).1, (flush cfg c.io w).2.map fun _ => 0)

/-- One call, answered with the record it reports as logged: the position that a record call returns, and
its data. -/
def exec (cfg : LogConfig) (w : LogWriter) (c : LogCall) : LogWriter × Except WalError (Option WalRecord) :=
  ((answer cfg w c).1, (answer cfg w c).2.map fun lsn =>
    (c.call.data w.currentLsn w.activeTxns).map fun data => ⟨lsn, data⟩)

end LogWriter

/-- The records of the calls that returned `Ok`, in the order of the calls. -/
def acknowledged (trace : List (LogCall × Except WalError (Option WalRecord))) : List WalRecord :=
  trace.reverse.filterMap fun entry => entry.2.toOption.join

/-! ## The writer over records -/

variable {lsn : ℕ} {data : RecordData}

namespace LogConfig

variable (cfg : LogConfig)

/-- The stored form of the data, under some nonce: its length does not depend on it. -/
def storedData (data : RecordData) : Except Pager.SealError Bytes :=
  cfg.crates.sealData cfg.encryptionKey (List.replicate 12 0) cfg.compression cfg.encryption
    (serializeData data)

def toWriterConfig : WalWriterConfig where
  bufferSize := cfg.bufferSize
  syncOnWrite := cfg.syncOnWrite
  maxWalSize := cfg.maxWalSize
  groupCommit := cfg.groupCommit
  encodeError r :=
    match cfg.storedData r.data with
    | .error e => some (sealError ⟨r.lsn, 0, r.data, cfg.compression, cfg.encryption⟩ e)
    | .ok _ => none
  encodedLen r :=
    match cfg.storedData r.data with
    | .error _ => 0
    | .ok stored => 31 + stored.length + 32

/-- The numbers of a record and the length of its bytes fit. -/
structure Writable (r : WalRecord) : Prop where
  lsn : r.lsn < 256 ^ 8
  data : r.data.Fits
  length : cfg.toWriterConfig.encodedLen r < 63 + 256 ^ 4

instance (r : WalRecord) : Decidable (cfg.Writable r) :=
  decidable_of_iff (r.lsn < 256 ^ 8 ∧ r.data.Fits ∧ cfg.toWriterConfig.encodedLen r < 63 + 256 ^ 4)
    ⟨fun h => ⟨h.1, h.2.1, h.2.2⟩, fun h => ⟨h.lsn, h.data, h.length⟩⟩

/-- What `to_bytes` returns, as the configuration over records says. -/
theorem toBytes_cases {timestamp : ℕ} {nonce : Bytes} (hnonce : nonce.length = 12) :
    (∃ e, toBytes cfg.crates cfg.encryptionKey nonce
        ⟨lsn, timestamp, data, cfg.compression, cfg.encryption⟩ = .error e ∧
        cfg.toWriterConfig.encodeError ⟨lsn, data⟩ = some e) ∨
      ∃ bytes, toBytes cfg.crates cfg.encryptionKey nonce
        ⟨lsn, timestamp, data, cfg.compression, cfg.encryption⟩ = .ok bytes ∧
        cfg.toWriterConfig.encodeError ⟨lsn, data⟩ = none ∧
        bytes.length = cfg.toWriterConfig.encodedLen ⟨lsn, data⟩ := by
  rcases cfg.crates.sealData_cases cfg.encryptionKey cfg.compression cfg.encryption (serializeData data)
      (hnonce.trans (length_replicate (a := 0)).symm) with
    ⟨e, hseal, hzero⟩ | ⟨stored, stored', hseal, hzero, hsame⟩
  · refine .inl ⟨sealError ⟨lsn, timestamp, data, cfg.compression, cfg.encryption⟩ e, ?_, ?_⟩
    · simp [toBytes, hseal]
    · simp only [toWriterConfig, storedData, hzero]
      cases e <;> rfl
  · obtain ⟨bytes, hbytes⟩ : ∃ bytes, toBytes cfg.crates cfg.encryptionKey nonce
        ⟨lsn, timestamp, data, cfg.compression, cfg.encryption⟩ = .ok bytes := by
      simp only [toBytes, hseal]
      exact ⟨_, rfl⟩
    obtain ⟨stored₁, hstored₁, -, hlen⟩ := toBytes_eq_ok hbytes
    cases hstored₁.symm.trans hseal
    refine .inr ⟨bytes, hbytes, ?_⟩
    simp only [toWriterConfig, storedData, hzero, true_and, ← hsame, hlen]

end LogConfig

/-- The bytes are those of the records, made under the configuration. -/
def Holds (cfg : LogConfig) (bytes : Bytes) (records : List WalRecord) : Prop :=
  ∃ frames : List (Frame cfg.crates cfg.encryptionKey), bytes = logBytes frames ∧
    frames.map (fun f => f.record.toWalRecord) = records ∧
    ∀ f ∈ frames, f.record.compression = cfg.compression ∧ f.record.encryption = cfg.encryption

variable {cfg : LogConfig} {bytes' : Bytes} {records records' : List WalRecord}

theorem holds_nil : Holds cfg [] [] :=
  ⟨[], rfl, rfl, fun _ hf => absurd hf not_mem_nil⟩

/-- Files of records, one behind the other. -/
theorem Holds.append (h : Holds cfg bytes records) (h' : Holds cfg bytes' records') :
    Holds cfg (bytes ++ bytes') (records ++ records') := by
  obtain ⟨frames, rfl, rfl, hcfg⟩ := h
  obtain ⟨frames', rfl, rfl, hcfg'⟩ := h'
  refine ⟨frames ++ frames', ?_, map_append, forall_mem_append.mpr ⟨hcfg, hcfg'⟩⟩
  exact flatMap_append.symm

variable {draw : Draw}

theorem holds_singleton (hw : cfg.Writable ⟨lsn, data⟩)
    (hbytes : toBytes cfg.crates cfg.encryptionKey draw.nonce
      ⟨lsn, draw.timestamp, data, cfg.compression, cfg.encryption⟩ = .ok bytes)
    (hlen : bytes.length = cfg.toWriterConfig.encodedLen ⟨lsn, data⟩) : Holds cfg bytes [⟨lsn, data⟩] := by
  let f : Frame cfg.crates cfg.encryptionKey :=
    { record := ⟨lsn, draw.timestamp, data, cfg.compression, cfg.encryption⟩
      nonce := draw.nonce
      bytes := bytes
      fits := ⟨hw.lsn, draw.timestamp_lt, hw.data⟩
      length_nonce := draw.length_nonce
      encoded := hbytes
      small := hlen ▸ hw.length }
  refine ⟨[f], ?_, rfl, forall_mem_singleton.mpr ⟨rfl, rfl⟩⟩
  rw [logBytes, flatMap_singleton]

section

variable (h : Holds cfg bytes records)
include h

theorem Holds.length :
    bytes.length = (records.map cfg.toWriterConfig.encodedLen).sum := by
  obtain ⟨frames, rfl, rfl, hcfg⟩ := h
  rw [logBytes, length_flatMap, map_map]
  congr 1
  refine map_congr_left fun f hf => ?_
  obtain ⟨hcompr, henc⟩ := hcfg f hf
  have hrec : f.record =
      ⟨f.record.lsn, f.record.timestamp, f.record.data, cfg.compression, cfg.encryption⟩ := by
    rw [← hcompr, ← henc]
  have hencoded := f.encoded
  rw [hrec] at hencoded
  rcases cfg.toBytes_cases f.length_nonce with
    ⟨e, he, -⟩ | ⟨bytes, hbytes, -, hlen⟩
  · rw [he] at hencoded
    cases hencoded
  · rw [hbytes] at hencoded
    cases hencoded
    exact hlen

theorem Holds.eq_nil : bytes = [] ↔ records = [] := by
  obtain ⟨frames, rfl, rfl, -⟩ := h
  cases frames with
  | nil => simp [logBytes]
  | cons f frames =>
    have hne := f.isFrame.nonempty
    simp [logBytes, hne]

/-- What is held is read. -/
theorem Holds.readAll :
    ∃ found, WalReader.readAll cfg.crates cfg.encryptionKey bytes = .ok found ∧
      found.map toWalRecord = records := by
  obtain ⟨frames, rfl, rfl, -⟩ := h
  exact ⟨_, readAll_logBytes, by rw [map_map]; rfl⟩

end

/-- The writer over bytes that has written from `start` on does as the writer over records: the file holds
the bytes of its file behind `start`, and the buffer those of its buffer. -/
structure Encodes (cfg : LogConfig) (start : LogFile) (b : LogWriter) (w : WalWriterState) : Prop where
  lsn : b.currentLsn = w.currentLsn
  offset : b.currentOffset = w.currentOffset
  active : b.activeTxns = w.activeTxns
  buffer : Holds cfg b.buffer w.buffer
  file : ∃ written, Holds cfg written w.file ∧ b.file = start.writeAll written

variable {start : LogFile} {b : LogWriter} {w : WalWriterState}

theorem LogWriter.flushInternal_ok : b.flushInternal cfg .ok =
    ({ b with file := b.file.writeAll b.buffer, buffer := [] }, .ok ()) := by
  unfold flushInternal
  by_cases h : b.buffer = []
  · obtain ⟨lsn, offset, active, buffer, file⟩ := b
    cases h
    simp
  · rw [if_neg h]

theorem LogWriter.groupFlush_ok (t : TransactionId) (lsn : ℕ) :
    b.groupFlush .ok t lsn = ({ b with file := b.file.writeAll b.buffer, buffer := [] }, .ok ()) := by
  unfold groupFlush
  by_cases h : b.buffer = []
  · obtain ⟨lsn, offset, active, buffer, file⟩ := b
    cases h
    simp
  · rw [if_neg h]

section

variable (h : Encodes cfg start b w)
include h

theorem Encodes.flushed :
    Encodes cfg start { b with file := b.file.writeAll b.buffer, buffer := [] }
      { w with file := w.file ++ w.buffer, buffer := [] } where
  __ := h
  buffer := holds_nil
  file := by
    obtain ⟨written, hwritten, hfile⟩ := h.file
    refine ⟨written ++ b.buffer, hwritten.append h.buffer, ?_⟩
    dsimp only
    rw [hfile, LogFile.writeAll_append]

theorem Encodes.shouldFlush :
    b.shouldFlush cfg = WalWriter.shouldFlush cfg.toWriterConfig w := by
  rw [LogWriter.shouldFlush, WalWriter.shouldFlush, h.buffer.length]
  rfl

theorem Encodes.buffered {record : WalRecord}
    (hbytes : Holds cfg bytes [record]) : Encodes cfg start { b with buffer := b.buffer ++ bytes }
      { w with buffer := w.buffer ++ [record] } :=
  { h with buffer := h.buffer.append hbytes }

theorem Encodes.moved (n : ℕ) : Encodes cfg start
    { b with currentLsn := b.currentLsn + 1, currentOffset := b.currentOffset + n }
      { w with currentLsn := w.currentLsn + 1, currentOffset := w.currentOffset + n } :=
  ⟨congrArg (· + 1) h.lsn, congrArg (· + n) h.offset, h.active, h.buffer, h.file⟩

/-- **A record is written by both or by neither.** -/
theorem Encodes.writeRecordInternal (draw : Draw)
    (hw : cfg.Writable ⟨b.currentLsn, data⟩) : ∃ b' w' result, b.writeRecordInternal cfg .ok draw.nonce
        ⟨b.currentLsn, draw.timestamp, data, cfg.compression, cfg.encryption⟩ = (b', result) ∧
      WalWriter.writeRecordInternal cfg.toWriterConfig .ok w ⟨w.currentLsn, data⟩ = (w', result) ∧
      Encodes cfg start b' w' := by
  rw [← h.lsn]
  rcases cfg.toBytes_cases draw.length_nonce with
    ⟨e, he, herror⟩ | ⟨bytes, hbytes, hnone, hlen⟩
  · refine ⟨b, w, .error e, ?_, ?_, h⟩
    · rw [LogWriter.writeRecordInternal, he]
    · rw [WalWriter.writeRecordInternal, herror]
  · have hbuffered := h.buffered (holds_singleton hw hbytes hlen)
    have hoffset := h.offset
    have hsame := hbuffered.shouldFlush
    by_cases hfull : b.currentOffset + bytes.length > cfg.maxWalSize
    · have hfull' : w.currentOffset + cfg.toWriterConfig.encodedLen ⟨b.currentLsn, data⟩ >
          cfg.toWriterConfig.maxWalSize := by
        rw [← hlen, ← hoffset]
        exact hfull
      refine ⟨b, w, .error (.walFull (b.currentOffset + bytes.length) cfg.maxWalSize), ?_, ?_, h⟩
      · rw [LogWriter.writeRecordInternal, hbytes]
        simp [if_pos hfull]
      · rw [WalWriter.writeRecordInternal, hnone]
        simp only [if_pos hfull']
        rw [← hlen, ← hoffset]
        rfl
    · have hfull' : ¬ w.currentOffset + bytes.length > cfg.toWriterConfig.maxWalSize := by
        rw [← hoffset]
        exact hfull
      -- the record is in both buffers; what is left is the flush
      cases hflush : LogWriter.shouldFlush cfg { b with buffer := b.buffer ++ bytes } with
      | true =>
        rw [hflush] at hsame
        refine ⟨_, _, .ok (), ?_, ?_, hbuffered.flushed.moved bytes.length⟩
        · rw [LogWriter.writeRecordInternal, hbytes]
          simp [if_neg hfull, hflush, LogWriter.flushInternal_ok]
        · rw [WalWriter.writeRecordInternal, hnone]
          simp [← hlen, if_neg hfull', ← hsame, WalWriter.flushInternal_ok]
      | false =>
        rw [hflush] at hsame
        refine ⟨_, _, .ok (), ?_, ?_, hbuffered.moved bytes.length⟩
        · rw [LogWriter.writeRecordInternal, hbytes]
          simp [if_neg hfull, hflush, Bool.false_eq_true]
        · rw [WalWriter.writeRecordInternal, hnone]
          simp [← hlen, if_neg hfull', ← hsame, Bool.false_eq_true]

theorem Encodes.writeChecked (draw : Draw) (refusal : Option WalError)
    (track : List TransactionId → List TransactionId) (hw : cfg.Writable ⟨b.currentLsn, data⟩) :
    ∃ b' w' result, b.writeChecked cfg .ok draw refusal data track = (b', result) ∧
      WalWriter.writeChecked cfg.toWriterConfig .ok w refusal data track = (w', result) ∧
      Encodes cfg start b' w' := by
  cases refusal with
  | some e => exact ⟨b, w, .error e, rfl, rfl, h⟩
  | none =>
    obtain ⟨b', w', result, hb, hwal, h'⟩ := h.writeRecordInternal draw hw
    unfold LogWriter.writeChecked WalWriter.writeChecked
    simp only [hb, hwal]
    cases result with
    | error e => exact ⟨b', w', .error e, rfl, rfl, h'⟩
    | ok _ =>
      refine ⟨_, _, .ok b.currentLsn, rfl, by rw [h.lsn], ?_⟩
      exact { h' with active := congrArg track h'.active }

theorem Encodes.requireActive (t : TransactionId) :
    b.requireActive t = WalWriter.requireActive w t := by
  rw [LogWriter.requireActive, WalWriter.requireActive, h.active]

end

variable {t : TransactionId}

/-- A commit keeps the file the bytes of the log. -/
theorem Encodes.writeCommit (h : Encodes cfg start b w) (draw : Draw)
    (hw : cfg.Writable ⟨b.currentLsn, .commit t⟩) :
    ∃ b' w' result, b.writeCommit cfg .ok .ok draw t = (b', result) ∧
      WalWriter.writeCommit cfg.toWriterConfig .ok w .ok t = (w', result) ∧ Encodes cfg start b' w' := by
  obtain ⟨b', w', result, hb, hwal, h'⟩ :=
    h.writeChecked draw (b.requireActive t) (fun ts => ts.filter (· ≠ t)) hw
  rw [h.requireActive] at hwal
  unfold LogWriter.writeCommit WalWriter.writeCommit
  simp only [hb, hwal]
  cases result with
  | error e => exact ⟨b', w', .error e, rfl, rfl, h'⟩
  | ok lsn =>
    have hgroup : cfg.toWriterConfig.groupCommit = cfg.groupCommit := rfl
    have hsync : cfg.toWriterConfig.syncOnWrite = cfg.syncOnWrite := rfl
    simp only [LogWriter.groupFlush_ok, LogWriter.flushInternal_ok, WalWriter.groupFlush_ok,
      WalWriter.flushInternal_ok, hgroup, hsync]
    by_cases hcoord : cfg.groupCommit
    · simp only [if_pos hcoord]
      exact ⟨_, _, .ok lsn, rfl, rfl, h'.flushed⟩
    · by_cases hsynced : cfg.syncOnWrite
      · simp only [if_neg hcoord, if_pos hsynced]
        exact ⟨_, _, .ok lsn, rfl, rfl, h'.flushed⟩
      · simp only [if_neg hcoord, if_neg hsynced]
        exact ⟨b', w', .ok lsn, rfl, rfl, h'⟩

/-- What a call may answer when the log goes from `w` to `w'`: the record that the log has grown by, or
nothing of an unchanged log. -/
inductive Answers (w w' : WalWriterState) : Except WalError (Option WalRecord) → Prop
  | grown (data : RecordData) (hlog : w'.log = w.log ++ [⟨w.currentLsn, data⟩])
      (hlsn : w'.currentLsn = w.currentLsn + 1) : Answers w w' (.ok (some ⟨w.currentLsn, data⟩))
  | refused (e : WalError) (hlog : w'.log = w.log) (hlsn : w'.currentLsn = w.currentLsn) :
      Answers w w' (.error e)
  | flushed (hlog : w'.log = w.log) (hlsn : w'.currentLsn = w.currentLsn) : Answers w w' (.ok none)

variable {result : Except WalError ℕ} {w' : WalWriterState}

theorem answers_writeChecked {refusal : Option WalError} {track : List TransactionId → List TransactionId}
    (h : WalWriter.writeChecked cfg.toWriterConfig .ok w refusal data track = (w', result)) :
    Answers w w' (result.map fun lsn => some ⟨lsn, data⟩) := by
  rcases WalWriter.writeChecked_cases cfg.toWriterConfig w refusal data track with
    ⟨e, he⟩ | ⟨w₁, hw, -, hlog, -, hlsn⟩
  · rw [he] at h
    cases h
    exact .refused e rfl rfl
  · rw [hw] at h
    cases h
    exact .grown data hlog hlsn

theorem answers_writeCommit (h : WalWriter.writeCommit cfg.toWriterConfig .ok w .ok t = (w', result)) :
    Answers w w' (result.map fun lsn => some ⟨lsn, .commit t⟩) := by
  rcases WalWriter.writeChecked_cases cfg.toWriterConfig w (WalWriter.requireActive w t) (.commit t)
    (fun ts => ts.filter (· ≠ t)) with ⟨e, he⟩ | ⟨w₁, hw, -, hlog, -, hlsn⟩
  · simp only [WalWriter.writeCommit, he] at h
    cases h
    exact .refused e rfl rfl
  · simp only [WalWriter.writeCommit, hw, WalWriter.groupFlush_ok, WalWriter.flushInternal_ok] at h
    -- a flush only moves the record from the buffer to the file
    have hmoved : ∀ w₂ : WalWriterState, w₂.log = w₁.log → w₂.currentLsn = w₁.currentLsn →
        Answers w w₂ (.ok (some ⟨w.currentLsn, .commit t⟩)) := fun w₂ hlog₂ hlsn₂ =>
      .grown (.commit t) (hlog₂.trans hlog) (hlsn₂.trans hlsn)
    split_ifs at h
    · cases h
      exact hmoved _ (by simp [WalWriterState.log]) rfl
    · cases h
      exact hmoved _ (by simp [WalWriterState.log]) rfl
    · cases h
      exact hmoved _ rfl rfl

/-- **A call that the file does not fail does the same to both**, and answers with what the log has
grown by. -/
theorem Encodes.exec (h : Encodes cfg start b w) {call : WalCall}
    (hw : ∀ data ∈ call.data b.currentLsn b.activeTxns, cfg.Writable ⟨b.currentLsn, data⟩) :
    Encodes cfg start (b.exec cfg ⟨call, draw, .ok, .ok⟩).1 (WalWriter.exec cfg.toWriterConfig w call) ∧
      Answers w (WalWriter.exec cfg.toWriterConfig w call) (b.exec cfg ⟨call, draw, .ok, .ok⟩).2 := by
  -- a record call is its check, its record and its track
  have hrec : ∀ (refusal : Option WalError) (data : RecordData)
      (track : List TransactionId → List TransactionId), cfg.Writable ⟨b.currentLsn, data⟩ →
      Encodes cfg start (b.writeChecked cfg .ok draw refusal data track).1
        (WalWriter.writeChecked cfg.toWriterConfig .ok w refusal data track).1 ∧
      Answers w (WalWriter.writeChecked cfg.toWriterConfig .ok w refusal data track).1
        ((b.writeChecked cfg .ok draw refusal data track).2.map fun lsn => some ⟨lsn, data⟩) := by
    intro refusal data track hwritable
    obtain ⟨b', w', result, hb, hwal, h'⟩ := h.writeChecked draw refusal track hwritable
    rw [hb, hwal]
    exact ⟨h', answers_writeChecked hwal⟩
  cases call with
  | begin t =>
    rw [WalWriter.exec, WalWriter.writeBegin, ← h.active]
    exact hrec _ (.begin t) (List.insert t) (hw _ rfl)
  | operation t tableId opType key value =>
    rw [WalWriter.exec, WalWriter.writeOperation, ← h.requireActive]
    exact hrec _ (.write t tableId opType key value) id (hw _ rfl)
  | prepare t =>
    rw [WalWriter.exec, WalWriter.writePrepare, ← h.requireActive]
    exact hrec _ (.prepare t) id (hw _ rfl)
  | rollback t =>
    rw [WalWriter.exec, WalWriter.writeRollback, ← h.requireActive]
    exact hrec _ (.rollback t) (fun ts => ts.filter (· ≠ t)) (hw _ rfl)
  | checkpoint =>
    rw [WalWriter.exec, WalWriter.writeCheckpoint, ← h.lsn, ← h.active]
    exact hrec none (.checkpoint b.currentLsn b.activeTxns) id (hw _ rfl)
  | commit t =>
    obtain ⟨b', w', result, hb, hwal, h'⟩ := h.writeCommit draw (hw _ rfl)
    simp only [LogWriter.exec, LogWriter.answer, WalWriter.exec, hb, hwal]
    exact ⟨h', answers_writeCommit hwal⟩
  | flush =>
    simp only [LogWriter.exec, LogWriter.answer, WalWriter.exec, LogWriter.flush, WalWriter.flush,
      LogWriter.flushInternal_ok, WalWriter.flushInternal_ok]
    exact ⟨h.flushed, .flushed (by simp [WalWriterState.log]) rfl⟩

end NanoStore.Wal
