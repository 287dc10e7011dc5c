import NanoStore.Wal.Record
/-!
# Write-ahead log — the writer

`WalWriter` of `wal/writer.rs`, one definition per call. A call takes the
writer's state and what the file does with the flushes the call makes,
and returns the state it leaves together with its result: a call that
fails can still leave a record in the buffer. The file and the buffer
hold records; how a record becomes bytes is a parameter of the
configuration.
-/

namespace NanoStore.Wal

/-- `WalWriterConfig`. The two codec fields stand for `WalRecord::to_bytes` under the
configured compression and encryption: the error it returns, if any, and the length of
the bytes it returns otherwise. -/
structure WalWriterConfig where
  bufferSize : ℕ
  syncOnWrite : Bool
  maxWalSize : ℕ
  groupCommit : Bool
  encodeError : WalRecord → Option WalError
  encodedLen : WalRecord → ℕ

/-- The length of `serialize_data`. -/
def serializedLen : RecordData → ℕ
  | .begin _ => 8
  | .write _ _ _ key value => 8 + 8 + 1 + 4 + key.length + 4 + value.length
  | .commit _ => 8
  | .rollback _ => 8
  | .checkpoint _ activeTxns => 8 + 4 + 8 * activeTxns.length
  | .prepare _ => 8

/-- `WalWriterConfig::default`: no compression and no encryption, so that a record is its 31
bytes of header, its data and its 32 bytes of checksum. -/
def WalWriterConfig.default : WalWriterConfig where
  bufferSize := 64 * 1024
  syncOnWrite := true
  maxWalSize := 1024 * 1024 * 1024
  groupCommit := true
  encodeError _ := none
  encodedLen record := 31 + serializedLen record.data + 32

/-- `WalWriterState`, with the records the file holds. -/
structure WalWriterState where
  currentLsn : ℕ
  currentOffset : ℕ
  activeTxns : List TransactionId
  buffer : List WalRecord
  file : List WalRecord
  deriving DecidableEq

/-- What the file does with one flush: it takes the bytes and syncs, fails to take them, or
takes them and fails to sync. -/
inductive FlushIo
  | ok
  | writeError
  | syncError
  deriving DecidableEq

namespace WalWriter

/-- `WalWriter::create`: the log starts at position 1. -/
def create : WalWriterState where
  currentLsn := 1
  currentOffset := 0
  activeTxns := []
  buffer := []
  file := []

variable (cfg : WalWriterConfig) (io : FlushIo) (w : WalWriterState)

/-- `flush_internal`. A failed sync leaves the buffer in place, so that its records are
written again by the next flush. -/
def flushInternal : WalWriterState × Except WalError Unit :=
  if w.buffer = [] then (w, .ok ())
  else match io with
    | .writeError => (w, .error .ioError)
    | .ok => ({ w with file := w.file ++ w.buffer, buffer := [] }, .ok ())
    | .syncError =>
      if cfg.syncOnWrite && !cfg.groupCommit then
        ({ w with file := w.file ++ w.buffer }, .error .vfsError)
      else ({ w with file := w.file ++ w.buffer, buffer := [] }, .ok ())

/-- The condition under which `write_record_internal` flushes. -/
def shouldFlush : Bool :=
  decide (cfg.bufferSize ≤ (w.buffer.map cfg.encodedLen).sum) || (cfg.syncOnWrite && !cfg.groupCommit)

/-- `write_record_internal`. The record enters the buffer before the flush, and the position
is advanced after it: a failed flush leaves the record behind at a position that is handed
out again. -/
def writeRecordInternal (record : WalRecord) : WalWriterState × Except WalError Unit :=
  match cfg.encodeError record with
  | some e => (w, .error e)
  | none =>
    if w.currentOffset + cfg.encodedLen record > cfg.maxWalSize then
      (w, .error (.walFull (w.currentOffset + cfg.encodedLen record) cfg.maxWalSize))
    else
      let buffered := { w with buffer := w.buffer ++ [record] }
      let (flushed, result) :=
        if shouldFlush cfg buffered then flushInternal cfg io buffered else (buffered, .ok ())
      match result with
      | .error e => (flushed, .error e)
      | .ok () =>
        ({ flushed with
            currentLsn := flushed.currentLsn + 1
            currentOffset := flushed.currentOffset + cfg.encodedLen record }, .ok ())

/-- The common body of the record calls: refuse, or write one record at the current position
and then update the active set. -/
def writeChecked (refusal : Option WalError) (data : RecordData)
    (track : List TransactionId → List TransactionId) : WalWriterState × Except WalError ℕ :=
  match refusal with
  | some e => (w, .error e)
  | none =>
    match writeRecordInternal cfg io w ⟨w.currentLsn, data⟩ with
    | (w', .error e) => (w', .error e)
    | (w', .ok ()) => ({ w' with activeTxns := track w'.activeTxns }, .ok w.currentLsn)

/-- The refusal of the calls that need an active transaction. -/
def requireActive (t : TransactionId) : Option WalError :=
  if t ∈ w.activeTxns then none else some (.transactionNotFound t)

def writeBegin (t : TransactionId) : WalWriterState × Except WalError ℕ :=
  writeChecked cfg io w (if t ∈ w.activeTxns then some (.transactionAlreadyExists t) else none)
    (.begin t) (List.insert t)

def writeOperation (t : TransactionId) (tableId : TableId) (opType : WriteOpType)
    (key value : Bytes) : WalWriterState × Except WalError ℕ :=
  writeChecked cfg io w (requireActive w t) (.write t tableId opType key value) id

/-- `write_prepare`: the transaction stays active. -/
def writePrepare (t : TransactionId) : WalWriterState × Except WalError ℕ :=
  writeChecked cfg io w (requireActive w t) (.prepare t) id

def writeRollback (t : TransactionId) : WalWriterState × Except WalError ℕ :=
  writeChecked cfg io w (requireActive w t) (.rollback t) (fun ts => ts.filter (· ≠ t))

/-- `write_checkpoint`: no transaction is needed. -/
def writeCheckpoint : WalWriterState × Except WalError ℕ :=
  writeChecked cfg io w none (.checkpoint w.currentLsn w.activeTxns) id

/-- The flush the group-commit coordinator makes for a commit, with the error `submit_commit`
turns a failure into. It syncs whatever the configuration says. -/
def groupFlush (t : TransactionId) (lsn : ℕ) : WalWriterState × Except WalError Unit :=
  if w.buffer = [] then (w, .ok ())
  else match io with
    | .writeError => (w, .error (.commitNotificationError t lsn))
    | .ok => ({ w with file := w.file ++ w.buffer, buffer := [] }, .ok ())
    | .syncError =>
      ({ w with file := w.file ++ w.buffer }, .error (.commitNotificationError t lsn))

/-- `write_commit`. The record is written and the transaction leaves the active set; only
then is the buffer flushed, through the group-commit coordinator where there is one. A
failure of that last flush, `io'`, is returned with the record already written. -/
def writeCommit (io' : FlushIo) (t : TransactionId) : WalWriterState × Except WalError ℕ :=
  match writeChecked cfg io w (requireActive w t) (.commit t) (fun ts => ts.filter (· ≠ t)) with
  | (w', .error e) => (w', .error e)
  | (w', .ok lsn) =>
    let (flushed, result) :=
      if cfg.groupCommit then groupFlush io' w' t lsn
      else if cfg.syncOnWrite then flushInternal cfg io' w'
      else (w', .ok ())
    match result with
    | .error e => (flushed, .error e)
    | .ok () => (flushed, .ok lsn)

def flush : WalWriterState × Except WalError Unit := flushInternal cfg io w

end WalWriter

/-- The records written so far, those still in the buffer included. -/
def WalWriterState.log (w : WalWriterState) : List WalRecord := w.file ++ w.buffer

/-- The calls of a writer. -/
inductive WalCall
  | begin (txnId : TransactionId)
  | operation (txnId : TransactionId) (tableId : TableId) (opType : WriteOpType) (key value : Bytes)
  | prepare (txnId : TransactionId)
  | commit (txnId : TransactionId)
  | rollback (txnId : TransactionId)
  | checkpoint
  | flush
  deriving DecidableEq

namespace WalWriter

/-- The state one call leaves when the file takes every flush. Whether the call returned `Ok`
is not asked: a refused call writes nothing. -/
def exec (cfg : WalWriterConfig) (w : WalWriterState) : WalCall → WalWriterState
  | .begin t => (writeBegin cfg .ok w t).1
  | .operation t tableId opType key value =>
    (writeOperation cfg .ok w t tableId opType key value).1
  | .prepare t => (writePrepare cfg .ok w t).1
  | .commit t => (writeCommit cfg .ok w .ok t).1
  | .rollback t => (writeRollback cfg .ok w t).1
  | .checkpoint => (writeCheckpoint cfg .ok w).1
  | .flush => (flush cfg .ok w).1

/-- The state a sequence of calls leaves, from a new log. -/
def run (cfg : WalWriterConfig) (calls : List WalCall) : WalWriterState :=
  calls.foldl (exec cfg) create

variable {cfg : WalWriterConfig} {io io' : FlushIo} {w w' : WalWriterState}

/-! ## What a call can do, whatever the file does -/

/-- The log moves on: the position does not fall, and no transaction becomes active. -/
structure Onward (w w' : WalWriterState) : Prop where
  position : w.currentLsn ≤ w'.currentLsn
  active : ∀ t ∈ w'.activeTxns, t ∈ w.activeTxns

theorem Onward.refl : Onward w w := ⟨le_rfl, fun _ h => h⟩

theorem Onward.trans {w w' w'' : WalWriterState} (h : Onward w w') (h' : Onward w' w'') : Onward w w'' :=
  ⟨h.position.trans h'.position, fun t ht => h.active t (h'.active t ht)⟩

theorem flushInternal_frame {result : Except WalError Unit} (h : flushInternal cfg io w = (w', result)) :
    w'.currentLsn = w.currentLsn ∧ w'.activeTxns = w.activeTxns := by
  unfold flushInternal at h
  split_ifs at h <;> cases io <;> cases h <;> exact ⟨rfl, rfl⟩

variable {t : TransactionId}

theorem groupFlush_frame {lsn : ℕ}
    {result : Except WalError Unit} (h : groupFlush io w t lsn = (w', result)) :
    w'.currentLsn = w.currentLsn ∧ w'.activeTxns = w.activeTxns := by
  unfold groupFlush at h
  split_ifs at h <;> cases io <;> cases h <;> exact ⟨rfl, rfl⟩

theorem writeRecordInternal_result {record : WalRecord} {result : Except WalError Unit}
    (h : writeRecordInternal cfg io w record = (w', result)) : w'.activeTxns = w.activeTxns ∧
      ((result = .ok () ∧ w'.currentLsn = w.currentLsn + 1) ∨
        (∃ e, result = .error e) ∧ w'.currentLsn = w.currentLsn) := by
  unfold writeRecordInternal at h
  cases henc : cfg.encodeError record with
  | some e =>
    simp only [henc] at h
    cases h
    exact ⟨rfl, .inr ⟨⟨e, rfl⟩, rfl⟩⟩
  | none =>
    simp only [henc] at h
    split_ifs at h with hfull hflush
    · cases h
      exact ⟨rfl, .inr ⟨⟨_, rfl⟩, rfl⟩⟩
    · generalize hx : flushInternal cfg io { w with buffer := w.buffer ++ [record] } = x at h
      obtain ⟨flushed, e | _⟩ := x <;> obtain ⟨hlsn, hact⟩ := flushInternal_frame hx <;> cases h
      · exact ⟨hact, .inr ⟨⟨e, rfl⟩, hlsn⟩⟩
      · exact ⟨hact, .inl ⟨rfl, by simp [hlsn]⟩⟩
    · cases h
      exact ⟨rfl, .inl ⟨rfl, rfl⟩⟩

variable {result : Except WalError ℕ} {track : List TransactionId → List TransactionId}
  {refusal : Option WalError} {data : RecordData}

/-- **A record call moves the position and the active set together, and only if it returns
the position.** -/
theorem writeChecked_result (h : writeChecked cfg io w refusal data track = (w', result)) :
    (refusal = none ∧ result = .ok w.currentLsn ∧ w'.currentLsn = w.currentLsn + 1 ∧
        w'.activeTxns = track w.activeTxns) ∨
      (∃ e, result = .error e) ∧ w'.currentLsn = w.currentLsn ∧ w'.activeTxns = w.activeTxns := by
  unfold writeChecked at h
  cases refusal with
  | some e =>
    cases h
    exact .inr ⟨⟨e, rfl⟩, rfl, rfl⟩
  | none =>
    generalize hx : writeRecordInternal cfg io w ⟨w.currentLsn, data⟩ = x at h
    obtain ⟨w₁, e | _⟩ := x <;> obtain ⟨hact, hcase⟩ := writeRecordInternal_result hx <;> cases h
    · exact .inr ⟨⟨e, rfl⟩, by simpa using hcase, hact⟩
    · exact .inl ⟨rfl, rfl, by simpa using hcase, by simp [hact]⟩

theorem onward_writeChecked (htrack : ∀ ts, ∀ t ∈ track ts, t ∈ ts)
    (h : writeChecked cfg io w refusal data track = (w', result)) : Onward w w' := by
  rcases writeChecked_result h with ⟨-, -, hlsn, hact⟩ | ⟨-, hlsn, hact⟩
  · exact ⟨by omega, fun t ht => htrack _ t (hact ▸ ht)⟩
  · exact ⟨hlsn.ge, fun t ht => hact ▸ ht⟩

/-- **The commit record takes its transaction out of the active set**, also when the flush
after it fails. -/
theorem writeCommit_result (h : writeCommit cfg io w io' t = (w', result)) :
    (t ∈ w.activeTxns ∧ w'.currentLsn = w.currentLsn + 1 ∧ w'.activeTxns = w.activeTxns.filter (· ≠ t) ∧
        (result = .ok w.currentLsn ∨ ∃ e, result = .error e)) ∨
      (∃ e, result = .error e) ∧ w'.currentLsn = w.currentLsn ∧ w'.activeTxns = w.activeTxns := by
  unfold writeCommit at h
  generalize hx : writeChecked cfg io w (requireActive w t) (.commit t) (fun ts => ts.filter (· ≠ t)) = x at h
  obtain ⟨w₁, e | lsn⟩ := x
  · cases h
    rcases writeChecked_result hx with ⟨-, hok, -, -⟩ | ⟨-, hlsn, hact⟩
    · cases hok
    · exact .inr ⟨⟨e, rfl⟩, hlsn, hact⟩
  · rcases writeChecked_result hx with ⟨hnone, hok, hlsn, hact⟩ | ⟨⟨e, he⟩, -, -⟩
    · have hmem : t ∈ w.activeTxns := by
        unfold requireActive at hnone
        by_contra hno
        simp [hno] at hnone
      cases hok
      refine .inl ⟨hmem, ?_⟩
      dsimp only at h
      split_ifs at h with hgroup hsync
      · generalize hg : groupFlush io' w₁ t w.currentLsn = y at h
        obtain ⟨w₂, e | _⟩ := y <;> obtain ⟨hl, ha⟩ := groupFlush_frame hg <;> cases h
        · exact ⟨hl.trans hlsn, ha.trans hact, .inr ⟨e, rfl⟩⟩
        · exact ⟨hl.trans hlsn, ha.trans hact, .inl rfl⟩
      · generalize hf : flushInternal cfg io' w₁ = y at h
        obtain ⟨w₂, e | _⟩ := y <;> obtain ⟨hl, ha⟩ := flushInternal_frame hf <;> cases h
        · exact ⟨hl.trans hlsn, ha.trans hact, .inr ⟨e, rfl⟩⟩
        · exact ⟨hl.trans hlsn, ha.trans hact, .inl rfl⟩
      · cases h
        exact ⟨hlsn, hact, .inl rfl⟩
    · cases he

/-- A commit goes on in the log. -/
theorem onward_writeCommit (h : writeCommit cfg io w io' t = (w', result)) : Onward w w' := by
  rcases writeCommit_result h with ⟨-, hlsn, hact, -⟩ | ⟨-, hlsn, hact⟩
  · exact ⟨by omega, fun u hu => List.mem_of_mem_filter (hact ▸ hu)⟩
  · exact ⟨hlsn.ge, fun u hu => hact ▸ hu⟩

end WalWriter

end NanoStore.Wal
