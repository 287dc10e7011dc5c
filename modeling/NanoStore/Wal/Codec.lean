import NanoStore.Wal.Writer
import NanoStore.Pager.Sealing
/-!
# Write-ahead log — the bytes of a record

`WalRecord::to_bytes` and `WalRecord::from_bytes`: a header of 31 bytes that
ends with the length of what is stored, the stored data, and a checksum of
32 bytes over both. The main result is the round trip,
`fromBytes_toBytes`: the bytes of a record whose numbers fit are read as
that record.
-/

namespace NanoStore.Wal

open LittleEndian List
open Pager (CompressionType EncryptionType Crates SealError)

/-! ## The data -/

inductive RecordType
  | begin
  | write
  | commit
  | rollback
  | checkpoint
  | prepare
  deriving DecidableEq

namespace RecordType

def toU8 : RecordType → Byte
  | begin => 1
  | write => 2
  | commit => 3
  | rollback => 4
  | checkpoint => 5
  | prepare => 6

def fromU8 (value : Byte) : Except WalError RecordType :=
  match value.val with
  | 1 => .ok begin
  | 2 => .ok write
  | 3 => .ok commit
  | 4 => .ok rollback
  | 5 => .ok checkpoint
  | 6 => .ok prepare
  | n => .error (.invalidRecord 0 s!"Invalid record type: {n}")

/-- What `Debug` prints. -/
def debug : RecordType → String
  | begin => "Begin"
  | write => "Write"
  | commit => "Commit"
  | rollback => "Rollback"
  | checkpoint => "Checkpoint"
  | prepare => "Prepare"

@[simp] theorem fromU8_toU8 (recordType : RecordType) : fromU8 recordType.toU8 = .ok recordType := by
  cases recordType <;> rfl

end RecordType

namespace WriteOpType

def toU8 : WriteOpType → Byte
  | put => 1
  | delete => 2
  | bloomInsert => 3
  | graphAddEdge => 4
  | graphRemoveEdge => 5
  | timeSeriesInsert => 6
  | timeSeriesDelete => 7
  | vectorInsert => 8
  | vectorDelete => 9
  | geoInsert => 10
  | geoDelete => 11
  | fullTextIndex => 12
  | fullTextUpdate => 13
  | fullTextDelete => 14

def fromU8 (value : Byte) : Except WalError WriteOpType :=
  match value.val with
  | 1 => .ok put
  | 2 => .ok delete
  | 3 => .ok bloomInsert
  | 4 => .ok graphAddEdge
  | 5 => .ok graphRemoveEdge
  | 6 => .ok timeSeriesInsert
  | 7 => .ok timeSeriesDelete
  | 8 => .ok vectorInsert
  | 9 => .ok vectorDelete
  | 10 => .ok geoInsert
  | 11 => .ok geoDelete
  | 12 => .ok fullTextIndex
  | 13 => .ok fullTextUpdate
  | 14 => .ok fullTextDelete
  | n => .error (.invalidRecord 0 s!"Invalid write op type: {n}")

@[simp] theorem fromU8_toU8 (opType : WriteOpType) : fromU8 opType.toU8 = .ok opType := by
  cases opType <;> rfl

end WriteOpType

def RecordData.recordType : RecordData → RecordType
  | .begin _ => .begin
  | .write _ _ _ _ _ => .write
  | .commit _ => .commit
  | .rollback _ => .rollback
  | .checkpoint _ _ => .checkpoint
  | .prepare _ => .prepare

/-- `serialize_data`. A length above 32 bits is cut off. -/
def serializeData : RecordData → Bytes
  | .begin t => encode 8 t
  | .write t tableId opType key value =>
    encode 8 t ++ (encode 8 tableId ++ ([opType.toU8] ++ (encode 4 key.length ++ (key ++
      (encode 4 value.length ++ (value ++ []))))))
  | .commit t => encode 8 t
  | .rollback t => encode 8 t
  | .checkpoint lsn activeTxns =>
    encode 8 lsn ++ (encode 4 activeTxns.length ++ (activeTxns.flatMap (encode 8) ++ []))
  | .prepare t => encode 8 t

/-- The next bytes of some data, and the place and the data behind them. -/
def takeBytes (n : ℕ) (details : String) (input : ℕ × Bytes) : Except WalError (Bytes × ℕ × Bytes) :=
  if input.2.length < n then .error (.deserializationError input.1 details)
  else .ok (input.2.take n, input.1 + n, input.2.drop n)

/-- The data of a record that has a transaction and nothing else. -/
def deserializeId (recordType : RecordType) (make : TransactionId → RecordData) (bytes : Bytes) :
    Except WalError RecordData :=
  let length := bytes.length
  let name := recordType.debug
  if length < 8 then .error (.deserializationError 0 s!"Invalid {name} record: {length} bytes")
  else .ok (make (decode (bytes.take 8)))

/-- The data of a write record. -/
def deserializeWrite (bytes : Bytes) : Except WalError RecordData := do
  let (txnId, input) ← takeBytes 8 "Invalid Write record: missing transaction ID" (0, bytes)
  let (tableId, input) ← takeBytes 8 "Invalid Write record: missing table ID" input
  let (op, input) ← takeBytes 1 "Invalid Write record: missing operation type" input
  let opType ← WriteOpType.fromU8 (op.headD 0)
  let (keyLen, input) ← takeBytes 4 "Invalid Write record: missing key length" input
  let keyLen := decode keyLen
  let (key, input) ← takeBytes keyLen s!"Invalid Write record: missing key data ({keyLen} bytes)" input
  let (valueLen, input) ← takeBytes 4 "Invalid Write record: missing value length" input
  let valueLen := decode valueLen
  let (value, _) ←
    takeBytes valueLen s!"Invalid Write record: missing value data ({valueLen} bytes)" input
  return .write (decode txnId) (decode tableId) opType key value

def deserializeTxns : ℕ → ℕ × Bytes → Except WalError (List TransactionId)
  | 0, _ => .ok []
  | n + 1, input => do
    let (txnId, input) ← takeBytes 8 "Invalid Checkpoint record: missing transaction ID" input
    let activeTxns ← deserializeTxns n input
    return decode txnId :: activeTxns

/-- The data of a checkpoint. -/
def deserializeCheckpoint (bytes : Bytes) : Except WalError RecordData := do
  let (lsn, input) ← takeBytes 8 "Invalid Checkpoint record: missing LSN" (0, bytes)
  let (count, input) ← takeBytes 4 "Invalid Checkpoint record: missing transaction count" input
  let activeTxns ← deserializeTxns (decode count) input
  return .checkpoint (decode lsn) activeTxns

/-- `deserialize_data`. What stands behind the data is not looked at. -/
def deserializeData (recordType : RecordType) (bytes : Bytes) : Except WalError RecordData :=
  match recordType with
  | .begin => deserializeId .begin .begin bytes
  | .write => deserializeWrite bytes
  | .commit => deserializeId .commit .commit bytes
  | .rollback => deserializeId .rollback .rollback bytes
  | .checkpoint => deserializeCheckpoint bytes
  | .prepare => deserializeId .prepare .prepare bytes

/-- The numbers besides the transaction id fit. -/
def RecordData.NumbersFit : RecordData → Prop
  | .write _ tableId _ _ _ => tableId < 256 ^ 8
  | .checkpoint lsn activeTxns => lsn < 256 ^ 8 ∧ ∀ t ∈ activeTxns, t < 256 ^ 8
  | .begin _ | .commit _ | .rollback _ | .prepare _ => True

instance : DecidablePred RecordData.NumbersFit
  | .write _ _ _ _ _ => inferInstanceAs (Decidable (_ < _))
  | .checkpoint _ _ => inferInstanceAs (Decidable (_ ∧ _))
  | .begin _ | .commit _ | .rollback _ | .prepare _ => .isTrue trivial

/-- The lengths that are written fit: they have 32 bits. -/
def RecordData.LengthsFit : RecordData → Prop
  | .write _ _ _ key value => key.length < 256 ^ 4 ∧ value.length < 256 ^ 4
  | .checkpoint _ activeTxns => activeTxns.length < 256 ^ 4
  | .begin _ | .commit _ | .rollback _ | .prepare _ => True

/-- The numbers of the data fit: identifiers have 64 bits, and the length of the data 32. -/
structure RecordData.Fits (data : RecordData) : Prop where
  txnId : ∀ t ∈ data.txnId, t < 256 ^ 8
  numbers : data.NumbersFit
  length : (serializeData data).length < 256 ^ 4

instance : DecidablePred RecordData.Fits := fun data =>
  decidable_of_iff ((∀ t ∈ data.txnId, t < 256 ^ 8) ∧ data.NumbersFit ∧ (serializeData data).length < 256 ^ 4)
    ⟨fun h => ⟨h.1, h.2.1, h.2.2⟩, fun h => ⟨h.txnId, h.numbers, h.length⟩⟩

variable {n : ℕ} {cursor : ℕ} {bytes behind : Bytes} {details : String}

theorem takeBytes_append (h : bytes.length = n) :
    takeBytes n details (cursor, bytes ++ behind) = .ok (bytes, cursor + n, behind) := by
  have hlong : ¬ (bytes ++ behind).length < n := by
    rw [length_append]
    omega
  rw [takeBytes, if_neg hlong, take_left' h, drop_left' h]

/-- The length computed is that of the bytes. -/
theorem length_serializeData (data : RecordData) : (serializeData data).length = serializedLen data := by
  cases data with
  | checkpoint lsn activeTxns =>
    have htxns : (activeTxns.flatMap (encode 8)).length = 8 * activeTxns.length := by
      simp [Nat.mul_comm]
    simp only [serializeData, serializedLen, length_append, length_encode, length_nil, htxns]
    omega
  | write t tableId opType key value =>
    simp only [serializeData, serializedLen, length_append, length_encode, length_singleton, length_nil]
    omega
  | begin t | commit t | rollback t | prepare t => exact length_encode

theorem deserializeId_encode {t : TransactionId} (ht : t < 256 ^ 8) (recordType : RecordType)
    (make : TransactionId → RecordData) : deserializeId recordType make (encode 8 t) = .ok (make t) := by
  have htake : (encode 8 t).take 8 = encode 8 t := take_of_length_le length_encode.le
  rw [deserializeId, htake, decode_encode_of_lt ht]
  simp [length_encode]

theorem deserializeTxns_flatMap {activeTxns : List TransactionId} (h : ∀ t ∈ activeTxns, t < 256 ^ 8) :
    deserializeTxns activeTxns.length (cursor, activeTxns.flatMap (encode 8) ++ behind) =
      .ok activeTxns := by
  induction activeTxns generalizing cursor with
  | nil => rfl
  | cons t activeTxns ih =>
    obtain ⟨ht, htail⟩ := forall_mem_cons.mp h
    rw [length_cons, deserializeTxns, flatMap_cons, append_assoc, takeBytes_append length_encode]
    simp only [bind, Except.bind, ih htail, decode_encode_of_lt ht]
    rfl

variable {data : RecordData}

/-- **The data are read back**, if the identifiers and the lengths fit. -/
theorem deserializeData_of_lengths (htxn : ∀ t ∈ data.txnId, t < 256 ^ 8)
    (hnums : data.NumbersFit) (hlengths : data.LengthsFit) :
    deserializeData data.recordType (serializeData data) = .ok data := by
  cases data with
  | begin t => exact deserializeId_encode (htxn t rfl) .begin .begin
  | commit t => exact deserializeId_encode (htxn t rfl) .commit .commit
  | rollback t => exact deserializeId_encode (htxn t rfl) .rollback .rollback
  | prepare t => exact deserializeId_encode (htxn t rfl) .prepare .prepare
  | write t tableId opType key value =>
    have ht : t < 256 ^ 8 := htxn t rfl
    have htable : tableId < 256 ^ 8 := hnums
    obtain ⟨hkey, hval⟩ := hlengths
    rw [RecordData.recordType, serializeData, deserializeData, deserializeWrite]
    simp only [takeBytes_append, length_encode, length_singleton, decode_encode_of_lt, bind,
      Except.bind, ht, hkey, hval, htable, headD_cons, WriteOpType.fromU8_toU8]
    rfl
  | checkpoint lsn activeTxns =>
    have hcount : activeTxns.length < 256 ^ 4 := hlengths
    rw [RecordData.recordType, serializeData, deserializeData, deserializeCheckpoint]
    simp only [takeBytes_append, length_encode, decode_encode_of_lt, bind, Except.bind, hnums.1, hcount,
      deserializeTxns_flatMap hnums.2]
    rfl

theorem RecordData.Fits.lengths (h : data.Fits) : data.LengthsFit := by
  have hlen := h.length
  rw [length_serializeData] at hlen
  cases data with
  | write t tableId opType key value =>
    simp only [serializedLen] at hlen
    exact ⟨by omega, by omega⟩
  | checkpoint lsn activeTxns =>
    simp only [serializedLen] at hlen
    show activeTxns.length < 256 ^ 4
    omega
  | begin t | commit t | rollback t | prepare t => trivial

/-! ## The record -/

/-- `WalRecord` with all it has in the file. -/
structure LogRecord where
  lsn : ℕ
  timestamp : ℕ
  data : RecordData
  compression : CompressionType
  encryption : EncryptionType
  deriving DecidableEq

/-- A record without what matters to its bytes only. -/
def LogRecord.toWalRecord (r : LogRecord) : WalRecord := ⟨r.lsn, r.data⟩

/-- The bytes of "WALR". -/
def walMagic : Bytes := [0x57, 0x41, 0x4C, 0x52]

/-- What `Debug` prints of some bytes. -/
def debugBytes (bytes : Bytes) : String := toString (bytes.map Fin.val)

namespace LogRecord

variable (crates : Crates) (key : Option Bytes)

/-- The error of a record whose data cannot be compressed or encrypted. -/
def sealError (r : LogRecord) : SealError → WalError
  | .compression details =>
    .serializationError r.lsn r.data.recordType.debug s!"Zstd compression failed: {details}"
  | _ => .missingEncryptionKey "AES-256-GCM"

/-- The header: the magic number, the position, the time, the types, and the two sizes. -/
def header (r : LogRecord) (uncompressedSize storedSize : ℕ) : Bytes :=
  walMagic ++ (encode 8 r.lsn ++ (encode 8 r.timestamp ++ ([r.data.recordType.toU8] ++
    ([r.compression.toU8] ++ ([r.encryption.toU8] ++ (encode 4 uncompressedSize ++ encode 4 storedSize))))))

/-- `to_bytes`, with the nonce that it draws. -/
def toBytes (nonce : Bytes) (r : LogRecord) : Except WalError Bytes :=
  let data := serializeData r.data
  match crates.sealData key nonce r.compression r.encryption data with
  | .error e => .error (r.sealError e)
  | .ok stored =>
    let buffer := r.header data.length stored.length ++ stored
    .ok (buffer ++ crates.sha256 buffer)

/-- The error of stored data that cannot be decrypted or decompressed. -/
def unsealError : SealError → WalError
  | .shortNonce length =>
    .decryptionError 31 "AES-256-GCM" s!"Insufficient data for nonce: {length} bytes"
  | .decryption details => .decryptionError 31 "AES-256-GCM" details
  | .decompression .lz4 details => .deserializationError 31 s!"LZ4 decompression failed: {details}"
  | .decompression _ details => .deserializationError 31 s!"Zstd decompression failed: {details}"
  | _ => .missingEncryptionKey "AES-256-GCM"

/-- `from_bytes` behind the checks of the types: the size and the checksum are verified, and the data
decrypted, decompressed and read. -/
def fromChecked (bytes : Bytes) (lsn timestamp : ℕ) (recordType : RecordType)
    (compression : CompressionType) (encryption : EncryptionType) (storedSize : ℕ) :
    Except WalError LogRecord :=
  let length := bytes.length
  let expectedLength := 31 + storedSize + 32
  if length < expectedLength then
    .error (.invalidRecord lsn s!"Incomplete record: expected {expectedLength} bytes, have {length} bytes")
  else
    let dataEnd := 31 + storedSize
    let expected := (bytes.drop dataEnd).take 32
    let actual := crates.sha256 (bytes.take dataEnd)
    if expected ≠ actual then
      .error (.checksumMismatch lsn 0 (decode (expected.take 4)) (decode (actual.take 4)))
    else
      match crates.unsealData key compression encryption ((bytes.take dataEnd).drop 31) with
      | .error e => .error (unsealError e)
      | .ok data =>
        (deserializeData recordType data).map fun data =>
          ⟨lsn, timestamp, data, compression, encryption⟩

/-- `from_bytes`. The two sizes are read in turn, and the first is not used. -/
def fromBytes (bytes : Bytes) : Except WalError LogRecord :=
  let length := bytes.length
  if length < 67 then .error (.invalidRecord 0 s!"Record too short: {length} bytes")
  else
    let (magic, rest) := bytes.splitAt 4
    if magic ≠ walMagic then
      let found := debugBytes magic
      .error (.invalidRecord 0 s!"Invalid magic number: {found}")
    else
      let (lsn, rest) := rest.splitAt 8
      let (timestamp, rest) := rest.splitAt 8
      let (recordType, rest) := rest.splitAt 1
      match RecordType.fromU8 (recordType.headD 0) with
      | .error e => .error e
      | .ok recordType =>
        let (compression, rest) := rest.splitAt 1
        match CompressionType.fromU8 (compression.headD 0) with
        | none =>
          let n := (compression.headD 0).val
          .error (.deserializationError 21 s!"Invalid compression type: {n}")
        | some compression =>
          let (encryption, rest) := rest.splitAt 1
          match EncryptionType.fromU8 (encryption.headD 0) with
          | none =>
            let n := (encryption.headD 0).val
            .error (.deserializationError 22 s!"Invalid encryption type: {n}")
          | some encryption =>
            let (_, rest) := rest.splitAt 4
            let storedSize := decode (rest.take 4)
            fromChecked crates key bytes (decode lsn) (decode timestamp) recordType compression encryption
              storedSize

/-- The numbers of the record fit. -/
structure Fits (r : LogRecord) : Prop where
  lsn : r.lsn < 256 ^ 8
  timestamp : r.timestamp < 256 ^ 8
  data : r.data.Fits

end LogRecord

/-- The bytes of a record as a writer put them into the log: the numbers of the record fit, and so does the
length of what is stored. -/
structure Frame (crates : Crates) (key : Option Bytes) where
  record : LogRecord
  nonce : Bytes
  bytes : Bytes
  fits : record.Fits
  length_nonce : nonce.length = 12
  encoded : record.toBytes crates key nonce = .ok bytes
  small : bytes.length < 63 + 256 ^ 4

variable {crates : Crates} {key : Option Bytes} {r : LogRecord} {nonce bytes' : Bytes}

theorem splitAt_append (h : bytes.length = n) : (bytes ++ bytes').splitAt n = (bytes, bytes') := by
  rw [splitAt_eq, take_left' h, drop_left' h]

variable {storedSize : ℕ}

@[simp] theorem LogRecord.length_header (r : LogRecord) {uncompressedSize : ℕ} :
    (r.header uncompressedSize storedSize).length = 31 := by
  simp [header, walMagic]

/-- What `to_bytes` returns. -/
theorem LogRecord.toBytes_eq_ok (h : r.toBytes crates key nonce = .ok bytes) :
    ∃ stored, crates.sealData key nonce r.compression r.encryption (serializeData r.data) = .ok stored ∧
      bytes = r.header (serializeData r.data).length stored.length ++ stored ++
        crates.sha256 (r.header (serializeData r.data).length stored.length ++ stored) ∧
      bytes.length = 31 + stored.length + 32 := by
  rw [toBytes] at h
  cases hseal : crates.sealData key nonce r.compression r.encryption (serializeData r.data) with
  | error e =>
    simp only [hseal] at h
    cases h
  | ok stored =>
    simp only [hseal, Except.ok.injEq] at h
    refine ⟨stored, rfl, h.symm, ?_⟩
    rw [← h, length_append, length_append, crates.length_sha256, length_header]

theorem four_le_length_serializeData (data : RecordData) : 4 ≤ (serializeData data).length := by
  rw [length_serializeData]
  cases data <;> simp only [serializedLen] <;> omega

/-- The numbers and lengths of a record fit their fields. -/
structure LogRecord.Sized (r : LogRecord) : Prop where
  lsn : r.lsn < 256 ^ 8
  timestamp : r.timestamp < 256 ^ 8
  txnId : ∀ t ∈ r.data.txnId, t < 256 ^ 8
  numbers : r.data.NumbersFit
  lengths : r.data.LengthsFit

theorem LogRecord.Fits.sized (h : r.Fits) : r.Sized :=
  ⟨h.lsn, h.timestamp, h.data.txnId, h.data.numbers, h.data.lengths⟩

theorem LogRecord.fromChecked_toBytes (hsized : r.Sized) (hnonce : nonce.length = 12) {stored : Bytes}
    (hseal : crates.sealData key nonce r.compression r.encryption (serializeData r.data) = .ok stored)
    (n : ℕ) (rest : Bytes) : fromChecked crates key (r.header n stored.length ++ stored ++
        crates.sha256 (r.header n stored.length ++ stored) ++ rest) r.lsn r.timestamp r.data.recordType
        r.compression r.encryption stored.length = .ok r := by
  have hbuf : (r.header n stored.length ++ stored).length = 31 + stored.length := by
    rw [length_append, length_header]
  have hlong : ¬ (r.header n stored.length ++ stored ++
      (crates.sha256 (r.header n stored.length ++ stored) ++ rest)).length < 31 + stored.length + 32 := by
    rw [length_append, hbuf, length_append, crates.length_sha256]
    omega
  have hchecksum : (crates.sha256 (r.header n stored.length ++ stored) ++ rest).take 32 =
      crates.sha256 (r.header n stored.length ++ stored) := take_left' (crates.length_sha256 _)
  have hstored : (r.header n stored.length ++ stored).drop 31 = stored :=
    drop_left' r.length_header
  rw [fromChecked, append_assoc]
  simp only [if_neg hlong, take_left' hbuf, drop_left' hbuf, hchecksum, ne_eq,
    not_true_eq_false, if_false, hstored, Pager.Crates.unsealData_sealData hnonce hseal,
    deserializeData_of_lengths hsized.txnId hsized.numbers hsized.lengths, Except.map]

theorem LogRecord.fromBytes_header (hsized : r.Sized) (hstored : storedSize < 256 ^ 4)
    {tail : Bytes} (hlong : 36 ≤ tail.length) : fromBytes crates key (r.header n storedSize ++ tail) =
      fromChecked crates key (r.header n storedSize ++ tail) r.lsn r.timestamp r.data.recordType
        r.compression r.encryption storedSize := by
  have hnotShort : ¬ (r.header n storedSize ++ tail).length < 67 := by
    rw [length_append, length_header]
    omega
  have hparts : r.header n storedSize ++ tail = walMagic ++ (encode 8 r.lsn ++ (encode 8 r.timestamp ++
      ([r.data.recordType.toU8] ++ ([r.compression.toU8] ++ ([r.encryption.toU8] ++
        (encode 4 n ++ (encode 4 storedSize ++ tail))))))) := by
    simp [header, append_assoc]
  have hsize : decode ((encode 4 storedSize ++ tail).take 4) = storedSize := by
    rw [take_left' length_encode, decode_encode_of_lt hstored]
  have hmagic : walMagic.length = 4 := rfl
  rw [fromBytes]
  simp only [if_neg hnotShort]
  rw [hparts]
  simp only [splitAt_append, hmagic, length_encode, length_singleton, ne_eq, not_true_eq_false,
    if_false, headD_cons, RecordType.fromU8_toU8, CompressionType.fromU8_toU8,
    EncryptionType.fromU8_toU8, decode_encode_of_lt hsized.lsn, decode_encode_of_lt hsized.timestamp, hsize]

/-- **The bytes of a record are read as the record**, whatever stands behind them. -/
theorem LogRecord.fromBytes_toBytes_append (hsized : r.Sized) (hnonce : nonce.length = 12)
    (h : r.toBytes crates key nonce = .ok bytes) (hsmall : bytes.length < 63 + 256 ^ 4) (rest : Bytes) :
    fromBytes crates key (bytes ++ rest) = .ok r := by
  obtain ⟨stored, hseal, hbytes, hlen⟩ := toBytes_eq_ok h
  have hfour := Pager.Crates.four_le_length_sealData (four_le_length_serializeData r.data) hseal
  have hcheck := fromChecked_toBytes hsized hnonce hseal (serializeData r.data).length rest
  rw [hbytes, ← hcheck, append_assoc, append_assoc]
  refine fromBytes_header hsized (by omega) ?_
  rw [length_append, length_append, crates.length_sha256]
  omega

/-- **A record is read back from its bytes.** -/
theorem LogRecord.fromBytes_toBytes (hfits : r.Fits) (hnonce : nonce.length = 12)
    (h : r.toBytes crates key nonce = .ok bytes) (hsmall : bytes.length < 63 + 256 ^ 4) :
    fromBytes crates key bytes = .ok r := by
  have hread := fromBytes_toBytes_append hfits.sized hnonce h hsmall []
  rwa [append_nil] at hread

/-- A frame cut short is not read. -/
theorem LogRecord.fromBytes_take (hsized : r.Sized) (h : r.toBytes crates key nonce = .ok bytes)
    (hsmall : bytes.length < 63 + 256 ^ 4) (hn : n < bytes.length) :
    ∃ e, fromBytes crates key (bytes.take n) = .error e := by
  have htake : (bytes.take n).length = n := length_take_of_le hn.le
  by_cases hshort : n < 67
  · rw [fromBytes]
    simp only [htake, if_pos hshort]
    exact ⟨_, rfl⟩
  · obtain ⟨stored, -, hbytes, hlen⟩ := toBytes_eq_ok h
    -- the header is whole, and the size in it asks for more than there is
    have hsplit : bytes.take n = r.header (serializeData r.data).length stored.length ++
        (stored ++ crates.sha256 (r.header (serializeData r.data).length stored.length ++ stored)).take (n - 31) := by
      rw [hbytes, append_assoc, take_append, length_header, take_of_length_le (by rw [length_header]; omega)]
    have htail : 36 ≤ ((stored ++ crates.sha256
        (r.header (serializeData r.data).length stored.length ++ stored)).take (n - 31)).length := by
      have hsum := congrArg List.length hsplit
      rw [htake, length_append, length_header] at hsum
      omega
    rw [hsplit, fromBytes_header hsized (by omega) htail, ← hsplit, fromChecked]
    have hcut : (bytes.take n).length < 31 + stored.length + 32 := by omega
    simp only [if_pos hcut]
    exact ⟨_, rfl⟩

theorem LogRecord.toBytes_of_key (hkey : r.encryption ≠ .none → key ≠ none) (hnonce : nonce.length = 12)
    (hzstd : r.compression = .zstd → ∃ packed, crates.zstdEncode (serializeData r.data) = .ok packed) :
    ∃ bytes, r.toBytes crates key nonce = .ok bytes := by
  have hpacked : ∃ packed, crates.compress r.compression (serializeData r.data) = .ok packed := by
    cases hcompr : r.compression with
    | none | lz4 => exact ⟨_, rfl⟩
    | zstd =>
      obtain ⟨packed, hencode⟩ := hzstd hcompr
      refine ⟨packed, ?_⟩
      rw [Pager.Crates.compress, hencode]
      rfl
  obtain ⟨packed, hcompress⟩ := hpacked
  obtain ⟨stored, hencrypt, -⟩ := @Pager.Crates.encrypt_of_key crates key nonce r.encryption hkey hnonce packed
  have hseal : crates.sealData key nonce r.compression r.encryption (serializeData r.data) = .ok stored := by
    rw [Pager.Crates.sealData, hcompress]
    exact hencrypt
  rw [toBytes]
  simp only [hseal]
  exact ⟨_, rfl⟩

/-- **The round trip.** A record whose numbers and lengths fit has bytes, for every compression and, with a
key, every encryption. If the length of what is stored fits as well, the bytes are read as the record,
whatever stands behind them, and no part of them that ends earlier is read as a record. -/
theorem LogRecord.toBytes_roundTrip (hsized : r.Sized) (hnonce : nonce.length = 12)
    (hkey : r.encryption ≠ .none → key ≠ none)
    (hzstd : r.compression = .zstd → ∃ packed, crates.zstdEncode (serializeData r.data) = .ok packed) :
    ∃ bytes, r.toBytes crates key nonce = .ok bytes ∧ (bytes.length < 63 + 256 ^ 4 →
      (∀ rest, fromBytes crates key (bytes ++ rest) = .ok r) ∧
        ∀ n < bytes.length, ∃ e, fromBytes crates key (bytes.take n) = .error e) := by
  obtain ⟨bytes, hbytes⟩ := toBytes_of_key hkey hnonce hzstd
  refine ⟨bytes, hbytes, fun hsmall => ⟨fun rest => ?_, fun n hn => ?_⟩⟩
  · exact fromBytes_toBytes_append hsized hnonce hbytes hsmall rest
  · exact fromBytes_take hsized hbytes hsmall hn

/-- A write that is compressed and encrypted. -/
def LogRecord.sample : LogRecord := ⟨7, 99, .write 3 4 .put [1, 2] [5], .zstd, .aes256Gcm⟩

/-- Its bytes are read back, and no part of them is read. -/
theorem LogRecord.toBytes_roundTrip_sample :
    ∃ bytes, sample.toBytes .plain (some (List.replicate 32 1)) (List.replicate 12 9) = .ok bytes ∧
      (∀ rest, fromBytes .plain (some (List.replicate 32 1)) (bytes ++ rest) = .ok sample) ∧
        ∀ n < bytes.length, ∃ e, fromBytes .plain (some (List.replicate 32 1)) (bytes.take n) = .error e := by
  have hsized : sample.Sized := by
    refine ⟨by decide, by decide, ?_, ?_, ?_⟩
    · rintro t ⟨⟩
      decide
    · show 4 < 256 ^ 8
      decide
    · show 2 < 256 ^ 4 ∧ 1 < 256 ^ 4
      decide
  have hnonce : (List.replicate 12 9 : Bytes).length = 12 := rfl
  have hkey : sample.encryption ≠ .none → some (List.replicate 32 1 : Bytes) ≠ none :=
    fun _ => Option.some_ne_none _
  have hzstd : sample.compression = .zstd →
      ∃ packed, Pager.Crates.plain.zstdEncode (serializeData sample.data) = .ok packed := fun _ => ⟨_, rfl⟩
  obtain ⟨bytes, hbytes, hread⟩ := toBytes_roundTrip hsized hnonce hkey hzstd
  have hlen : bytes.length < 63 + 256 ^ 4 := by
    cases hbytes
    decide +kernel
  exact ⟨bytes, hbytes, hread hlen⟩

end NanoStore.Wal
