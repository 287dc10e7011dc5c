import NanoStore.Types
import NanoStore.Common.Bytes
/-!
# Compression, encryption and checksums

What records of the log and pages have in common: their data are
compressed, then encrypted under a nonce that is stored in front of them,
and what is stored is protected by a checksum. The algorithms are not part
of the repository; `Crates` says what is used of them.
-/

namespace NanoStore.Pager

open List

inductive CompressionType
  | none
  | lz4
  | zstd
  deriving DecidableEq

inductive EncryptionType
  | none
  | aes256Gcm
  deriving DecidableEq

namespace CompressionType

def toU8 : CompressionType → Byte
  | none => 0
  | lz4 => 1
  | zstd => 2

def fromU8 (value : Byte) : Option CompressionType :=
  match value.val with
  | 0 => some none
  | 1 => some lz4
  | 2 => some zstd
  | _ => Option.none

@[simp] theorem fromU8_toU8 (compression : CompressionType) : fromU8 compression.toU8 = some compression := by
  cases compression <;> rfl

end CompressionType

namespace EncryptionType

def toU8 : EncryptionType → Byte
  | none => 0
  | aes256Gcm => 1

def fromU8 (value : Byte) : Option EncryptionType :=
  match value.val with
  | 0 => some none
  | 1 => some aes256Gcm
  | _ => Option.none

@[simp] theorem fromU8_toU8 (encryption : EncryptionType) : fromU8 encryption.toU8 = some encryption := by
  cases encryption <;> rfl

end EncryptionType

/-- The algorithms, and what is relied on: the hash has 32 bytes, what was compressed or encrypted is got
back, compressed data begin with four bytes at least, and encryption adds a tag of 16 bytes. Encryption
fails only on data of 64 GiB and more. -/
structure Crates where
  sha256 : Bytes → Bytes
  lz4Compress : Bytes → Bytes
  lz4Decompress : Bytes → Except String Bytes
  zstdEncode : Bytes → Except String Bytes
  zstdDecode : Bytes → Except String Bytes
  aesEncrypt : (key nonce data : Bytes) → Bytes
  aesDecrypt : (key nonce data : Bytes) → Except String Bytes
  length_sha256 : ∀ data, (sha256 data).length = 32
  lz4Decompress_lz4Compress : ∀ data, lz4Decompress (lz4Compress data) = .ok data
  length_lz4Compress : ∀ data, 4 ≤ (lz4Compress data).length
  zstdDecode_zstdEncode : ∀ data packed, zstdEncode data = .ok packed → zstdDecode packed = .ok data
  length_zstdEncode : ∀ data packed, zstdEncode data = .ok packed → 4 ≤ packed.length
  aesDecrypt_aesEncrypt : ∀ key nonce data, aesDecrypt key nonce (aesEncrypt key nonce data) = .ok data
  length_aesEncrypt : ∀ key nonce data, (aesEncrypt key nonce data).length = data.length + 16

/-- Algorithms that satisfy this: a constant checksum, and data that are marked and not changed. -/
def Crates.plain : Crates where
  sha256 _ := List.replicate 32 0
  lz4Compress data := List.replicate 4 0 ++ data
  lz4Decompress packed := .ok (packed.drop 4)
  zstdEncode data := .ok (List.replicate 4 0 ++ data)
  zstdDecode packed := .ok (packed.drop 4)
  aesEncrypt _ _ data := List.replicate 16 0 ++ data
  aesDecrypt _ _ data := .ok (data.drop 16)
  length_sha256 _ := rfl
  lz4Decompress_lz4Compress _ := rfl
  length_lz4Compress data := by simp
  zstdDecode_zstdEncode data packed h := by
    cases h
    rfl
  length_zstdEncode data packed h := by
    cases h
    simp
  aesDecrypt_aesEncrypt _ _ _ := rfl
  length_aesEncrypt _ _ data := by
    rw [List.length_append, List.length_replicate, Nat.add_comm]

/-- Why data could not be sealed or unsealed. -/
inductive SealError
  | compression (details : String)
  | missingKey
  | shortNonce (length : ℕ)
  | decryption (details : String)
  | decompression (compression : CompressionType) (details : String)
  deriving DecidableEq

namespace Crates

variable (crates : Crates) (key : Option Bytes)

/-- `compress`; no compression leaves the data. -/
def compress : CompressionType → Bytes → Except SealError Bytes
  | .none, data => .ok data
  | .lz4, data => .ok (crates.lz4Compress data)
  | .zstd, data => (crates.zstdEncode data).mapError .compression

/-- Encryption of the compressed data, with the nonce in front. -/
def encrypt (nonce : Bytes) : EncryptionType → Bytes → Except SealError Bytes
  | .none, data => .ok data
  | .aes256Gcm, data =>
    match key with
    | none => .error .missingKey
    | some key => .ok (nonce ++ crates.aesEncrypt key nonce data)

/-- Decryption: the nonce is taken off the front. -/
def decrypt : EncryptionType → Bytes → Except SealError Bytes
  | .none, data => .ok data
  | .aes256Gcm, data =>
    match key with
    | none => .error .missingKey
    | some key =>
      if data.length < 12 then .error (.shortNonce data.length)
      else (crates.aesDecrypt key (data.take 12) (data.drop 12)).mapError .decryption

/-- `decompress`. -/
def decompress : CompressionType → Bytes → Except SealError Bytes
  | .none, data => .ok data
  | .lz4, data => (crates.lz4Decompress data).mapError (.decompression .lz4)
  | .zstd, data => (crates.zstdDecode data).mapError (.decompression .zstd)

/-- Data as they are stored. -/
def sealData (nonce : Bytes) (compression : CompressionType) (encryption : EncryptionType)
    (data : Bytes) : Except SealError Bytes :=
  (crates.compress compression data).bind (crates.encrypt key nonce encryption)

/-- Stored data got back. -/
def unsealData (compression : CompressionType) (encryption : EncryptionType) (stored : Bytes) :
    Except SealError Bytes :=
  (crates.decrypt key encryption stored).bind (crates.decompress compression)

variable {crates key} {nonce nonce' data packed stored stored' : Bytes} {compression : CompressionType}
  {encryption : EncryptionType}

theorem compress_zstd (h : crates.compress .zstd data = .ok packed) :
    crates.zstdEncode data = .ok packed := by
  rw [compress] at h
  cases hzstd : crates.zstdEncode data with
  | error e =>
    rw [hzstd] at h
    cases h
  | ok packed' =>
    rw [hzstd] at h
    cases h
    rfl

/-- What was compressed comes back. -/
theorem decompress_compress (h : crates.compress compression data = .ok packed) :
    crates.decompress compression packed = .ok data := by
  cases compression with
  | none =>
    cases h
    rfl
  | lz4 =>
    cases h
    rw [decompress, crates.lz4Decompress_lz4Compress]
    rfl
  | zstd =>
    rw [decompress, crates.zstdDecode_zstdEncode data packed (compress_zstd h)]
    rfl

/-- What was encrypted comes back, with the key. -/
theorem decrypt_encrypt (hnonce : nonce.length = 12)
    (h : crates.encrypt key nonce encryption packed = .ok stored) :
    crates.decrypt key encryption stored = .ok packed := by
  cases encryption with
  | none =>
    cases h
    rfl
  | aes256Gcm =>
    cases key with
    | none => cases h
    | some key =>
      cases h
      have hlong : ¬ (nonce ++ crates.aesEncrypt key nonce packed).length < 12 := by
        rw [length_append]
        omega
      rw [decrypt]
      simp only [if_neg hlong, take_left' hnonce, drop_left' hnonce, crates.aesDecrypt_aesEncrypt]
      rfl

theorem sealData_eq_ok (h : crates.sealData key nonce compression encryption data = .ok stored) :
    ∃ packed, crates.compress compression data = .ok packed ∧
      crates.encrypt key nonce encryption packed = .ok stored := by
  rw [sealData] at h
  cases hpacked : crates.compress compression data with
  | error e =>
    rw [hpacked] at h
    cases h
  | ok packed =>
    rw [hpacked] at h
    exact ⟨packed, rfl, h⟩

/-- **What was sealed is got back.** -/
theorem unsealData_sealData (hnonce : nonce.length = 12)
    (h : crates.sealData key nonce compression encryption data = .ok stored) :
    crates.unsealData key compression encryption stored = .ok data := by
  obtain ⟨packed, hpacked, hstored⟩ := sealData_eq_ok h
  rw [unsealData, decrypt_encrypt hnonce hstored]
  exact decompress_compress hpacked

variable (crates key compression encryption) in
/-- **Another nonce** changes neither whether data can be sealed nor how long they then are. -/
theorem sealData_cases (data : Bytes) (hnonce : nonce.length = nonce'.length) :
    (∃ e, crates.sealData key nonce compression encryption data = .error e ∧
        crates.sealData key nonce' compression encryption data = .error e) ∨
      ∃ stored stored', crates.sealData key nonce compression encryption data = .ok stored ∧
        crates.sealData key nonce' compression encryption data = .ok stored' ∧
        stored.length = stored'.length := by
  simp only [sealData]
  cases crates.compress compression data with
  | error e => exact .inl ⟨e, rfl, rfl⟩
  | ok packed =>
    cases encryption with
    | none => exact .inr ⟨packed, packed, rfl, rfl, rfl⟩
    | aes256Gcm =>
      cases key with
      | none => exact .inl ⟨.missingKey, rfl, rfl⟩
      | some key =>
        refine .inr ⟨_, _, rfl, rfl, ?_⟩
        rw [length_append, length_append, crates.length_aesEncrypt, crates.length_aesEncrypt, hnonce]

theorem four_le_length_sealData (hdata : 4 ≤ data.length)
    (h : crates.sealData key nonce compression encryption data = .ok stored) : 4 ≤ stored.length := by
  obtain ⟨packed, hpacked, hstored⟩ := sealData_eq_ok h
  have hfour : 4 ≤ packed.length := by
    cases compression with
    | none =>
      cases hpacked
      exact hdata
    | lz4 =>
      cases hpacked
      exact crates.length_lz4Compress data
    | zstd => exact crates.length_zstdEncode data packed (compress_zstd hpacked)
  cases encryption with
  | none =>
    cases hstored
    exact hfour
  | aes256Gcm =>
    cases key with
    | none => cases hstored
    | some key =>
      cases hstored
      rw [length_append, crates.length_aesEncrypt]
      omega

theorem encrypt_of_key (hkey : encryption ≠ .none → key ≠ none) (hnonce : nonce.length = 12) (packed : Bytes) :
    ∃ stored, crates.encrypt key nonce encryption packed = .ok stored ∧
      stored.length ≤ packed.length + 28 := by
  cases encryption with
  | none => exact ⟨packed, rfl, Nat.le_add_right _ _⟩
  | aes256Gcm =>
    cases key with
    | none => exact absurd rfl (hkey (fun h => by cases h))
    | some key =>
      refine ⟨nonce ++ crates.aesEncrypt key nonce packed, rfl, ?_⟩
      rw [length_append, crates.length_aesEncrypt]
      omega

end Crates

end NanoStore.Pager
