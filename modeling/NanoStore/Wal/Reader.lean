import NanoStore.Common.Frames
import NanoStore.Wal.Codec
import NanoStore.Wal.Recovery
/-!
# Write-ahead log — reading the bytes

`WalReader` and `WalRecovery` over the bytes of a file. The records a writer
logged one behind the other are read one after the other. A file that is
cut off in the middle of a record is read up to that record if less than a
header of it is left; with a whole header and not the whole record, reading
it is an error, and so is recovery.
-/

namespace NanoStore.Wal

open LittleEndian List Frames WalRecovery
open Pager (Crates)

namespace WalReader

variable (crates : Crates) (key : Option Bytes)

/-- `read_next`: the record at an offset, given the bytes from there on. -/
def readNext (offset : ℕ) (input : Bytes) : Frames.Next LogRecord (Failure WalError) :=
  if input = [] then .done
  else if input.length < 31 then .done
  else
    let magic := input.take 4
    if magic ≠ walMagic then
      let found := debugBytes magic
      .failed (.error (.corruptedWal offset "Invalid magic" s!"Expected \x27WALR\x27, found {found}"))
    else
      let dataLen := decode ((input.drop 27).take 4)
      let totalSize := 31 + dataLen + 32
      let bytesRead := min input.length totalSize
      if bytesRead < totalSize then
        .failed (.error (.corruptedWal offset "Incomplete record"
          s!"Expected {totalSize} bytes, found {bytesRead} bytes"))
      else
        match LogRecord.fromBytes crates key (input.take totalSize) with
        | .error e => .failed (.error e)
        | .ok record => .item record totalSize

/-- Frames up to the end of the file. -/
def readAll (file : Bytes) : Except (Failure WalError) (List LogRecord) :=
  run (readNext crates key) collect [] 0 file

end WalReader

open WalReader

def WalRecovery.recoverWithKey (crates : Crates) (key : Option Bytes) (file : Bytes) :
    Except (Failure WalError) RecoveryResult :=
  (run (readNext crates key) (fun r record => r.processRecord record.toWalRecord) new 0 file).map buildResult

variable {crates : Crates} {key : Option Bytes}

theorem WalReader.progresses : Frames.Progresses (readNext crates key) where
  nil offset := by rw [readNext, if_pos rfl]
  item offset input a size h := by
    unfold readNext at h
    split_ifs at h
    dsimp only at h
    split_ifs at h
    split at h
    · cases h
    · cases h
      omega

variable {behind : Bytes}

namespace Frame

variable (f : Frame crates key)

theorem parts : ∃ stored : Bytes, f.bytes.length = 31 + stored.length + 32 ∧ 67 ≤ f.bytes.length ∧
    stored.length < 256 ^ 4 ∧ ∃ behind,
      f.bytes = f.record.header (serializeData f.record.data).length stored.length ++ behind := by
  obtain ⟨stored, hseal, hbytes, hlen⟩ := LogRecord.toBytes_eq_ok f.encoded
  have hfour := Crates.four_le_length_sealData (four_le_length_serializeData f.record.data) hseal
  have hsmall := f.small
  rw [append_assoc] at hbytes
  exact ⟨stored, hlen, by omega, by omega, _, hbytes⟩

theorem header_parts {r : LogRecord} {n size : ℕ} (hsize : size < 256 ^ 4) :
    (r.header n size ++ behind).take 4 = walMagic ∧
      decode (((r.header n size ++ behind).drop 27).take 4) = size := by
  have hfront : (r.header n size ++ behind) = walMagic ++ (encode 8 r.lsn ++ (encode 8 r.timestamp ++
      ([r.data.recordType.toU8] ++ ([r.compression.toU8] ++ ([r.encryption.toU8] ++
        encode 4 n))))) ++ (encode 4 size ++ behind) := by
    simp [LogRecord.header, append_assoc]
  constructor
  · rw [hfront, append_assoc]
    exact take_left' rfl
  · rw [hfront, drop_left' (by simp [walMagic]), take_left' length_encode, decode_encode_of_lt hsize]

/-- **A frame is read wherever it stands.** -/
theorem isFrame : Frames.IsFrame (readNext crates key) f.bytes f.record where
  reads offset behind := by
    obtain ⟨stored, hlen, hlong, hsize, rest, hbytes⟩ := f.parts
    have hne : f.bytes ++ behind ≠ [] := by
      intro hnil
      have := congrArg List.length hnil
      rw [length_append, length_nil] at this
      omega
    have hhdr : ¬ (f.bytes ++ behind).length < 31 := by
      rw [length_append]
      omega
    obtain ⟨hmagic, hstored⟩ : (f.bytes ++ behind).take 4 = walMagic ∧
        decode (((f.bytes ++ behind).drop 27).take 4) = stored.length := by
      rw [hbytes, append_assoc]
      exact header_parts hsize
    have hwhole : ¬ min (f.bytes ++ behind).length f.bytes.length < f.bytes.length := by
      rw [length_append]
      omega
    have hread : LogRecord.fromBytes crates key f.bytes = .ok f.record :=
      LogRecord.fromBytes_toBytes f.fits f.length_nonce f.encoded f.small
    rw [readNext, if_neg hne, if_neg hhdr]
    simp [hmagic, ne_eq, not_true_eq_false, hstored, ← hlen, hread]
  nonempty := by
    obtain ⟨stored, hlen, -⟩ := f.parts
    intro hnil
    rw [hnil, length_nil] at hlen
    omega

/-- Less than a header is the end of the log; more of a record, but not all of it, is an error. -/
theorem readNext_take {m : ℕ} (hm : m < f.bytes.length) {offset : ℕ} :
    if m < 31 then readNext crates key offset (f.bytes.take m) = .done
    else ∃ e, readNext crates key offset (f.bytes.take m) = .failed e := by
  obtain ⟨stored, hlen, hlong, hsize, rest, hbytes⟩ := f.parts
  have htake : (f.bytes.take m).length = m := length_take_of_le hm.le
  split_ifs with hshort
  · rw [readNext]
    split_ifs with hnil hlt
    · rfl
    · rfl
    · rw [htake] at hlt
      exact absurd hshort hlt
  · have hne : f.bytes.take m ≠ [] := by
      intro hnil
      rw [hnil, length_nil] at htake
      omega
    obtain ⟨hmagic, hstored⟩ : (f.bytes.take m).take 4 = walMagic ∧
        decode (((f.bytes.take m).drop 27).take 4) = stored.length := by
      have hhdr : f.bytes.take m =
          f.record.header (serializeData f.record.data).length stored.length ++ rest.take (m - 31) := by
        rw [hbytes, take_append, LogRecord.length_header, take_of_length_le]
        rw [LogRecord.length_header]
        omega
      rw [hhdr]
      exact header_parts hsize
    have hcut : min (f.bytes.take m).length f.bytes.length < f.bytes.length := by
      rw [htake]
      omega
    rw [readNext, if_neg hne, if_neg (by rw [htake]; exact hshort)]
    simp only [hmagic, ne_eq, not_true_eq_false, if_false, hstored, ← hlen, if_pos hcut]
    exact ⟨_, rfl⟩

end Frame

open Wal.Frame

/-- The bytes of some records, one behind the other. -/
def logBytes (frames : List (Frame crates key)) : Bytes := frames.flatMap bytes

theorem run_logBytes {σ : Type*} (frames : List (Frame crates key))
    (step : σ → LogRecord → Except (Failure WalError) σ) (s : σ) (behind : Bytes) :
    run (readNext crates key) step s 0 (logBytes frames ++ behind) =
      ((frames.map record).foldlM step s).bind fun s =>
        run (readNext crates key) step s (logBytes frames).length behind := by
  have hframes : ∀ f ∈ frames, Frames.IsFrame (readNext crates key) f.bytes f.record :=
    fun f _ => f.isFrame
  have hrun := run_frames progresses hframes step s 0 behind
  rwa [Nat.zero_add] at hrun

theorem readAll_append (frames : List (Frame crates key)) (behind : Bytes) :
    readAll crates key (logBytes frames ++ behind) =
      (run (readNext crates key) collect [] (logBytes frames).length behind).map
        (frames.map record ++ ·) := by
  rw [readAll, run_logBytes, foldlM_collect, nil_append, Except.bind, run_collect progresses]

variable {frames : List (Frame crates key)}

theorem readAll_logBytes :
    readAll crates key (logBytes frames) = .ok (frames.map record) := by
  have hread := readAll_append frames []
  rw [append_nil, run_of_done progresses (progresses.nil _), Except.map, append_nil] at hread
  exact hread

theorem recoverWithKey_append (frames : List (Frame crates key)) (behind : Bytes) :
    recoverWithKey crates key (logBytes frames ++ behind) =
      ((processAll (frames.map fun f => f.record.toWalRecord)).bind fun r =>
        run (readNext crates key) (fun r record => r.processRecord record.toWalRecord) r
          (logBytes frames).length behind).map buildResult := by
  have hprocess : (frames.map record).foldlM (fun r record => r.processRecord record.toWalRecord)
      new = processAll (frames.map fun f => f.record.toWalRecord) := by
    rw [processAll, foldlM_map, foldlM_map]
  rw [recoverWithKey, run_logBytes, hprocess]

theorem recoverWithKey_of_done
    (hdone : readNext crates key (logBytes frames).length behind = .done) :
    recoverWithKey crates key (logBytes frames ++ behind) =
      recover (frames.map fun f => f.record.toWalRecord) := by
  rw [recoverWithKey_append, recover]
  cases processAll (frames.map fun f => f.record.toWalRecord) with
  | error e => rfl
  | ok r => rw [Except.bind, run_of_done progresses hdone]

/-! ## Torn tails -/

/-- The first bytes of a log are read and recovered, and the records processed are those that lie
completely in them. -/
def RecoversWhole (frames : List (Frame crates key)) (n : ℕ) : Prop :=
  let cut := (logBytes frames).take n
  let records := (whole bytes n frames).map record
  readAll crates key cut = .ok records ∧ ∃ r, processAll (records.map LogRecord.toWalRecord) = .ok r ∧
      recoverWithKey crates key cut = .ok r.buildResult

theorem readNext_torn (n : ℕ) (frames : List (Frame crates key)) (offset : ℕ) :
    if (torn bytes n frames).length < 31 then
      readNext crates key offset (torn bytes n frames) = .done
    else ∃ e, readNext crates key offset (torn bytes n frames) = .failed e := by
  rcases torn_cases bytes n frames with hnil | ⟨f, -, m, hm, hpiece⟩
  · rw [hnil, if_pos (by decide)]
    exact progresses.nil offset
  · rw [hpiece, length_take_of_le hm.le]
    exact f.readNext_take hm

/-- **A torn log is recovered** if and only if recovery accepts the whole records, and the cut leaves less
than a header of the next. -/
theorem recoversWhole_iff (frames : List (Frame crates key)) (n : ℕ) : RecoversWhole frames n ↔
    (torn bytes n frames).length < 31 ∧ ∃ r, processAll ((whole bytes n frames).map
        fun f => f.record.toWalRecord) = .ok r := by
  have hcut : (logBytes frames).take n =
      logBytes (whole bytes n frames) ++ torn bytes n frames :=
    take_flatMap bytes
  have htorn := readNext_torn n frames (logBytes (whole bytes n frames)).length
  rw [RecoversWhole, hcut]
  simp only [map_map, Function.comp_def]
  by_cases hshort : (torn bytes n frames).length < 31
  · rw [if_pos hshort] at htorn
    have hread : readAll crates key (logBytes (whole bytes n frames) ++ torn bytes n frames) =
        .ok ((whole bytes n frames).map record) := by
      rw [readAll_append, run_of_done progresses htorn, Except.map, append_nil]
    have hrec := recoverWithKey_of_done htorn
    constructor
    · rintro ⟨-, r, hr, -⟩
      exact ⟨hshort, r, hr⟩
    · rintro ⟨-, r, hr⟩
      refine ⟨hread, r, hr, ?_⟩
      rw [hrec, recover, hr]
      rfl
  · rw [if_neg hshort] at htorn
    obtain ⟨e, he⟩ := htorn
    constructor
    · rintro ⟨hread, -⟩
      rw [readAll_append, run_of_failed progresses he] at hread
      cases hread
    · rintro ⟨hlt, -⟩
      exact absurd hlt hshort

/-- The begin record of a transaction, neither compressed nor encrypted. -/
def beginRecord : LogRecord := ⟨1, 0, .begin 7, .none, .none⟩

def beginFrame : Frame Crates.plain none where
  record := beginRecord
  nonce := List.replicate 12 0
  bytes := beginRecord.header 8 8 ++ LittleEndian.encode 8 7 ++ List.replicate 32 0
  fits := ⟨by decide, by decide, ⟨by simp [beginRecord, RecordData.txnId], trivial, by decide⟩⟩
  length_nonce := rfl
  encoded := rfl
  small := by decide

/-- Of the 71 bytes of one record 40 are left: no record lies in them, and reading them is an error. -/
theorem recoversWhole_fails : (logBytes [beginFrame]).length = 71 ∧ whole bytes 40 [beginFrame] = [] ∧
    readAll Crates.plain none ((logBytes [beginFrame]).take 40) =
      .error (.error (.corruptedWal 0 "Incomplete record" "Expected 71 bytes, found 40 bytes")) ∧
    ¬ RecoversWhole [beginFrame] 40 := by
  refine ⟨by decide +kernel, rfl, by decide +kernel, ?_⟩
  rintro ⟨hread, -⟩
  revert hread
  decide +kernel

end NanoStore.Wal
