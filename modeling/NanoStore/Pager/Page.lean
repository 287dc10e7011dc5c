import NanoStore.Pager.Sealing
/-!
# Pager — pages and their bytes

`Page` of `pager/page.rs`: a header of 32 bytes, the data, compressed and
encrypted as the header says, and a checksum of 32 bytes at the end. The
image of a page fills its slot of the file if the data are short enough;
nothing stops longer ones, whose image is longer than the slot.
-/

namespace NanoStore.Pager

open LittleEndian InPlace List

/-- The sizes a page may have. -/
inductive PageSize
  | size4KB
  | size8KB
  | size16KB
  | size32KB
  | size64KB
  deriving DecidableEq

namespace PageSize

def toU32 : PageSize → ℕ
  | size4KB => 4096
  | size8KB => 8192
  | size16KB => 16384
  | size32KB => 32768
  | size64KB => 65536

def fromU32 : ℕ → Option PageSize
  | 4096 => some size4KB
  | 8192 => some size8KB
  | 16384 => some size16KB
  | 32768 => some size32KB
  | 65536 => some size64KB
  | _ => none

@[simp] theorem fromU32_toU32 (size : PageSize) : fromU32 size.toU32 = some size := by
  cases size <;> rfl

theorem le_toU32 (size : PageSize) : 4096 ≤ size.toU32 := by
  cases size <;> decide

theorem toU32_le (size : PageSize) : size.toU32 ≤ 65536 := by
  cases size <;> decide

/-- `data_size`: what the header and the checksum leave. -/
def dataSize (size : PageSize) : ℕ := size.toU32 - 32 - 32

def default : PageSize := size4KB

end PageSize

/-- What a page holds. -/
inductive PageType
  | free
  | superblock
  | freeList
  | bTreeInternal
  | bTreeLeaf
  | hashBucket
  | artNode4
  | artNode16
  | artNode48
  | artNode256
  | lsmMeta
  | lsmData
  | catalog
  | overflow
  | bloomMeta
  | bloomData
  | bloomFilter
  | invertedIndex
  | rTreeNode
  | graphAdjList
  | vectorIndex
  | timeSeriesBucket
  | indexMetadata
  deriving DecidableEq

namespace PageType

def toU8 : PageType → Byte
  | free => 0
  | superblock => 1
  | freeList => 2
  | bTreeInternal => 3
  | bTreeLeaf => 4
  | hashBucket => 5
  | artNode4 => 6
  | artNode16 => 7
  | artNode48 => 8
  | artNode256 => 9
  | lsmMeta => 10
  | lsmData => 11
  | catalog => 12
  | overflow => 13
  | bloomMeta => 14
  | bloomData => 15
  | bloomFilter => 16
  | invertedIndex => 17
  | rTreeNode => 18
  | graphAdjList => 19
  | vectorIndex => 20
  | timeSeriesBucket => 21
  | indexMetadata => 33

/-- `from_u8`. There is no case for 14 and 15. -/
def fromU8 (value : Byte) : Option PageType :=
  match value.val with
  | 0 => some free
  | 1 => some superblock
  | 2 => some freeList
  | 3 => some bTreeInternal
  | 4 => some bTreeLeaf
  | 5 => some hashBucket
  | 6 => some artNode4
  | 7 => some artNode16
  | 8 => some artNode48
  | 9 => some artNode256
  | 10 => some lsmMeta
  | 11 => some lsmData
  | 12 => some catalog
  | 13 => some overflow
  | 16 => some bloomFilter
  | 17 => some invertedIndex
  | 18 => some rTreeNode
  | 19 => some graphAdjList
  | 20 => some vectorIndex
  | 21 => some timeSeriesBucket
  | 33 => some indexMetadata
  | _ => none

/-- The type of a page that can be read back. -/
def Known (pageType : PageType) : Prop := pageType ≠ bloomMeta ∧ pageType ≠ bloomData

instance (pageType : PageType) : Decidable pageType.Known := inferInstanceAs (Decidable (_ ∧ _))

variable {pageType : PageType}

theorem fromU8_of_not_known (h : ¬ pageType.Known) : fromU8 pageType.toU8 = none := by
  revert h
  cases pageType <;> decide

theorem fromU8_toU8 (h : pageType.Known) : fromU8 pageType.toU8 = some pageType := by
  revert h
  cases pageType <;> decide

end PageType

/-- The errors of the pager. -/
inductive PagerError
  | invalidPageId (pageId : ℕ)
  | pageNotFound (pageId : ℕ)
  | checksumMismatch (pageId : ℕ)
  | invalidPageSize (size : ℕ)
  | invalidFileHeader (expectedMagic foundMagic : ℕ) (details : String)
  | invalidSuperblock (field expected found : String)
  | compressionError (pageId : ℕ) (compressionType : CompressionType) (details : String)
  | decompressionError (pageId : ℕ) (compressionType : CompressionType) (details : String)
  | decryptionError (pageId : ℕ) (encryptionType : EncryptionType) (details : String)
  | missingEncryptionKey
  | configError (details : String)
  | pageAlreadyFree (pageId : ℕ)
  | invalidPageType (value : Byte)
  | invalidCompressionType (value : Byte)
  | invalidEncryptionType (value : Byte)
  | insufficientBuffer (structureName : String) (expected actual : ℕ)
  | invalidDataLength (pageId : ℕ) (details : String)
  | internalError (details : String)
  deriving DecidableEq

/-- The header of a page. -/
structure PageHeader where
  pageId : ℕ
  pageType : PageType
  compression : CompressionType
  encryption : EncryptionType
  flags : Byte
  uncompressedSize : ℕ
  compressedSize : ℕ
  virtualPageId : ℕ
  deriving DecidableEq

/-- The byte at a place. -/
def byteAt (bytes : Bytes) (pos : ℕ) : Byte := (slice bytes pos 1).headD 0

/-- The number at a place. -/
def numberAt (bytes : Bytes) (pos width : ℕ) : ℕ := decode (slice bytes pos width)

variable {bytes : Bytes}

theorem numberAt_lt {pos width : ℕ} : numberAt bytes pos width < 256 ^ width := by
  have hlen : (slice bytes pos width).length ≤ width := length_take_le _ _
  exact decode_lt.trans_le (Nat.pow_le_pow_right (by omega) hlen)

namespace PageHeader

def new (pageId : ℕ) (pageType : PageType) : PageHeader :=
  ⟨pageId, pageType, .none, .none, 0, 0, 0, 0⟩

def toBytes (h : PageHeader) : Bytes :=
  encode 8 h.pageId ++ ([h.pageType.toU8] ++ ([h.compression.toU8] ++ ([h.encryption.toU8] ++ ([h.flags] ++
    (encode 4 h.uncompressedSize ++ (encode 4 h.compressedSize ++ (replicate 4 0 ++
      (encode 8 h.virtualPageId ++ []))))))))

def fromBytes (bytes : Bytes) : Except PagerError PageHeader :=
  if bytes.length < 32 then .error (.insufficientBuffer "page header" 32 bytes.length)
  else match PageType.fromU8 (byteAt bytes 8) with
    | none => .error (.invalidPageType (byteAt bytes 8))
    | some pageType =>
      match CompressionType.fromU8 (byteAt bytes 9) with
      | none => .error (.invalidCompressionType (byteAt bytes 9))
      | some compression =>
        match EncryptionType.fromU8 (byteAt bytes 10) with
        | none => .error (.invalidEncryptionType (byteAt bytes 10))
        | some encryption =>
          .ok ⟨numberAt bytes 0 8, pageType, compression, encryption, byteAt bytes 11,
            numberAt bytes 12 4, numberAt bytes 16 4, numberAt bytes 24 8⟩

@[simp] theorem length_toBytes (h : PageHeader) : h.toBytes.length = 32 := by
  simp [toBytes]

/-- The numbers of a header fit their fields. -/
structure Fits (h : PageHeader) : Prop where
  pageId : h.pageId < 256 ^ 8
  uncompressedSize : h.uncompressedSize < 256 ^ 4
  compressedSize : h.compressedSize < 256 ^ 4
  virtualPageId : h.virtualPageId < 256 ^ 8

variable {h : PageHeader}

theorem fits_of_fromBytes (hread : fromBytes bytes = .ok h) : h.Fits := by
  unfold fromBytes at hread
  split_ifs at hread
  repeat' split at hread
  all_goals cases hread
  exact ⟨numberAt_lt, numberAt_lt, numberAt_lt, numberAt_lt⟩

theorem fromBytes_toBytes_unknown (hunknown : PageType.fromU8 h.pageType.toU8 = none) :
    fromBytes h.toBytes = .error (.invalidPageType h.pageType.toU8) := by
  have htype : byteAt h.toBytes 8 = h.pageType.toU8 := by
    simp only [byteAt, toBytes, slice_append_right, slice_append_left, length_encode,
      length_singleton, Nat.reduceSub, le_refl, headD_cons]
  have hlen : ¬ h.toBytes.length < 32 := by
    rw [length_toBytes]
    omega
  rw [fromBytes, if_neg hlen, htype, hunknown]

/-- **A header is read back.** -/
theorem fromBytes_toBytes (hfits : h.Fits) (hknown : h.pageType.Known) : fromBytes h.toBytes = .ok h := by
  have hlen : ¬ h.toBytes.length < 32 := by
    rw [length_toBytes]
    omega
  have hbyte : byteAt h.toBytes 8 = h.pageType.toU8 ∧ byteAt h.toBytes 9 = h.compression.toU8 ∧
      byteAt h.toBytes 10 = h.encryption.toU8 ∧ byteAt h.toBytes 11 = h.flags := by
    simp only [byteAt, toBytes, slice_append_right, slice_append_left, length_encode,
      length_singleton, Nat.reduceLeDiff, Nat.reduceSub, le_refl, headD_cons, and_self]
  have hnumber : numberAt h.toBytes 0 8 = h.pageId ∧ numberAt h.toBytes 12 4 = h.uncompressedSize ∧
      numberAt h.toBytes 16 4 = h.compressedSize ∧ numberAt h.toBytes 24 8 = h.virtualPageId := by
    simp only [numberAt, toBytes, slice_append_right, slice_append_left, length_encode,
      length_singleton, length_replicate, Nat.reduceLeDiff, Nat.reduceSub, le_refl,
      decode_encode_of_lt hfits.pageId, decode_encode_of_lt hfits.uncompressedSize,
      decode_encode_of_lt hfits.compressedSize, decode_encode_of_lt hfits.virtualPageId, and_self]
  obtain ⟨htype, hcompr, henc, hflags⟩ := hbyte
  obtain ⟨hid, huncompressed, hcompressed, hvirt⟩ := hnumber
  rw [fromBytes, if_neg hlen, htype, hcompr, henc, hflags, hid, huncompressed, hcompressed, hvirt]
  simp [PageType.fromU8_toU8 hknown, CompressionType.fromU8_toU8, EncryptionType.fromU8_toU8]

end PageHeader

/-- A page: header and data, as they are in memory. -/
structure Page where
  header : PageHeader
  data : Bytes
  deriving DecidableEq

/-- What a page tells its reader: of which type it is, and its data. -/
structure Contents where
  pageType : PageType
  data : Bytes
  deriving DecidableEq

/-- The error for a page whose data could not be sealed or unsealed. -/
def PagerError.ofSeal (pageId : ℕ) : SealError → PagerError
  | .compression details => .compressionError pageId .zstd details
  | .missingKey => .missingEncryptionKey
  | .shortNonce _ => .decryptionError pageId .aes256Gcm "Insufficient data for nonce"
  | .decryption details => .decryptionError pageId .aes256Gcm details
  | .decompression compression details => .decompressionError pageId compression details

namespace Page

def new (pageId : ℕ) (pageType : PageType) : Page := ⟨.new pageId pageType, []⟩

/-- What the page tells its reader. -/
def contents (page : Page) : Contents := ⟨page.header.pageType, page.data⟩

/-- The page with the lengths of its data and of what is stored of them. -/
def withSizes (page : Page) (stored : Bytes) : Page :=
  { page with
    header := { page.header with uncompressedSize := page.data.length, compressedSize := stored.length } }

variable (crates : Crates) (key : Option Bytes)

/-- The checksum over a header and what is stored behind it. -/
def checksum (header : PageHeader) (stored : Bytes) : Bytes :=
  crates.sha256 (header.toBytes ++ encode 4 stored.length ++ stored)

/-- The bytes of a page: the filling gives it the size of a slot, unless the data are too long. -/
def image (pageSize : ℕ) (header : PageHeader) (stored : Bytes) : Bytes :=
  header.toBytes ++ (stored ++ (replicate (pageSize - 32 - (32 + stored.length)) 0 ++
    checksum crates header stored))

/-- `to_bytes`: the image of a page in its slot. -/
def toBytes (nonce : Bytes) (pageSize : ℕ) (page : Page) : Except PagerError Bytes :=
  match crates.sealData key nonce page.header.compression page.header.encryption page.data with
  | .error e => .error (.ofSeal page.header.pageId e)
  | .ok stored => .ok (image crates pageSize (page.withSizes stored).header stored)

def fromBytes (verifyChecksum : Bool) (bytes : Bytes) : Except PagerError Page :=
  if bytes.length < 64 then .error (.insufficientBuffer "page" 64 bytes.length)
  else match PageHeader.fromBytes (slice bytes 0 32) with
    | .error e => .error e
    | .ok header =>
      if bytes.length - 32 < 32 + header.compressedSize then
        .error (.invalidDataLength header.pageId
          s!"compressed data length {header.compressedSize} exceeds available space {bytes.length - 32 - 32}")
      else
        let stored := slice bytes 32 header.compressedSize
        if verifyChecksum ∧ checksum crates header stored ≠ bytes.drop (bytes.length - 32) then
          .error (.checksumMismatch header.pageId)
        else match crates.unsealData key header.compression header.encryption stored with
          | .error e => .error (.ofSeal header.pageId e)
          | .ok data =>
            if data.length ≠ header.uncompressedSize then
              .error (.decompressionError header.pageId header.compression
                s!"Decompressed size {data.length} does not match expected size {header.uncompressedSize}")
            else .ok ⟨header, data⟩

/-- A page that can be stored in a slot and read back: its numbers fit their fields, its type is one
that is read, its data can be sealed, and what is stored of them leaves room for the header and the
checksum. How long that is does not depend on the nonce. -/
structure Storable (pageSize : ℕ) (page : Page) : Prop where
  pageId : page.header.pageId < 256 ^ 8
  virtualPageId : page.header.virtualPageId < 256 ^ 8
  known : page.header.pageType.Known
  size : page.data.length < 256 ^ 4
  room : ∃ stored, crates.sealData key (replicate 12 0) page.header.compression
    page.header.encryption page.data = .ok stored ∧ 32 + stored.length ≤ pageSize - 32

variable {crates key} {nonce stored : Bytes} {pageSize : ℕ} {page : Page} {verifyChecksum : Bool}
  {header : PageHeader}

theorem length_image (h : 32 + stored.length ≤ pageSize - 32) :
    (image crates pageSize header stored).length = pageSize := by
  simp only [image, checksum, length_append, PageHeader.length_toBytes, length_replicate,
    crates.length_sha256]
  omega

theorem slice_image : slice (image crates pageSize header stored) 0 32 = header.toBytes :=
  slice_append_left header.length_toBytes

/-- **The bytes of a page are read back.** -/
theorem fromBytes_image (hfits : header.Fits) (hknown : header.pageType.Known)
    (hroom : 32 + stored.length ≤ pageSize - 32) (hstored : header.compressedSize = stored.length)
    {data : Bytes} (hdata : crates.unsealData key header.compression header.encryption stored = .ok data)
    (hsize : data.length = header.uncompressedSize) :
    fromBytes crates key verifyChecksum (image crates pageSize header stored) = .ok ⟨header, data⟩ := by
  have hshort : ¬ pageSize < 64 := by omega
  have hmiddle : slice (image crates pageSize header stored) 32 stored.length = stored := by
    have hfront : header.toBytes.length ≤ 32 := le_of_eq header.length_toBytes
    rw [image, slice_append_right hfront, header.length_toBytes, Nat.sub_self]
    exact slice_append_left rfl
  have hlast : (image crates pageSize header stored).drop (pageSize - 32) =
      checksum crates header stored := by
    rw [image, ← append_assoc, ← append_assoc]
    refine drop_left' ?_
    simp only [length_append, PageHeader.length_toBytes, length_replicate]
    omega
  have hroom' : ¬ pageSize - 32 < 32 + stored.length := by omega
  rw [fromBytes, length_image hroom, if_neg hshort, slice_image,
    PageHeader.fromBytes_toBytes hfits hknown]
  simp only [hstored, if_neg hroom', hmiddle, hlast, ne_eq, not_true_eq_false, and_false,
    if_false, hdata, hsize]

theorem fromBytes_image_unknown (hunknown : PageType.fromU8 header.pageType.toU8 = none)
    (hroom : 32 + stored.length ≤ pageSize - 32) :
    fromBytes crates key verifyChecksum (image crates pageSize header stored) =
      .error (.invalidPageType header.pageType.toU8) := by
  have hshort : ¬ pageSize < 64 := by omega
  rw [fromBytes, length_image hroom, if_neg hshort, slice_image,
    PageHeader.fromBytes_toBytes_unknown hunknown]

theorem Storable.sealData (h : page.Storable crates key pageSize) (hnonce : nonce.length = 12) :
    ∃ stored, crates.sealData key nonce page.header.compression page.header.encryption page.data =
      .ok stored ∧ 32 + stored.length ≤ pageSize - 32 := by
  obtain ⟨stored, hstored, hroom⟩ := h.room
  rcases crates.sealData_cases key page.header.compression page.header.encryption page.data
      (hnonce.trans (length_replicate (a := 0)).symm) with
    ⟨e, -, herror⟩ | ⟨stored', _, hseal, hzero, hsame⟩
  · cases herror.symm.trans hstored
  · cases hzero.symm.trans hstored
    exact ⟨stored', hseal, by omega⟩

/-- **A page that can be stored has bytes that fill a slot, and is read back from them.** -/
theorem Storable.toBytes (h : page.Storable crates key pageSize) (hnonce : nonce.length = 12)
    (hsize : pageSize ≤ 65536) :
    ∃ bytes stored, page.toBytes crates key nonce pageSize = .ok bytes ∧ bytes.length = pageSize ∧
      ∀ verifyChecksum, fromBytes crates key verifyChecksum bytes = .ok (page.withSizes stored) := by
  obtain ⟨stored, hstored, hroom⟩ := h.sealData hnonce
  refine ⟨image crates pageSize (page.withSizes stored).header stored, stored, ?_,
    length_image hroom, fun verifyChecksum => ?_⟩
  · rw [Page.toBytes, hstored]
  · have hsmall : stored.length < 256 ^ 4 := by omega
    have hfits : (page.withSizes stored).header.Fits := ⟨h.pageId, h.size, hsmall, h.virtualPageId⟩
    exact fromBytes_image hfits h.known hroom rfl (Crates.unsealData_sealData hnonce hstored) rfl

theorem fromBytes_of_verified (h : fromBytes crates key true bytes = .ok page) :
    fromBytes crates key verifyChecksum bytes = .ok page := by
  cases verifyChecksum with
  | true => exact h
  | false =>
    rw [fromBytes] at h ⊢
    split_ifs at h ⊢
    cases hhdr : PageHeader.fromBytes (slice bytes 0 32) with
    | error e =>
      rw [hhdr] at h
      cases h
    | ok header =>
      simp only [hhdr] at h ⊢
      split_ifs at h ⊢ with hroom hsum
      · exact hsum.1.elim
      · exact h

theorem header_of_fromBytes (h : fromBytes crates key verifyChecksum bytes = .ok page) :
    PageHeader.fromBytes (slice bytes 0 32) = .ok page.header := by
  rw [fromBytes] at h
  split_ifs at h
  cases hhdr : PageHeader.fromBytes (slice bytes 0 32) with
  | error e =>
    rw [hhdr] at h
    cases h
  | ok header =>
    simp only [hhdr] at h
    split_ifs at h
    cases hdata : crates.unsealData key header.compression header.encryption
        (slice bytes 32 header.compressedSize) with
    | error e =>
      rw [hdata] at h
      cases h
    | ok data =>
      simp only [hdata] at h
      split_ifs at h
      cases h
      rfl

/-- **The bytes of a page fill its slot and are read back as the page**, but for the two lengths in its
header, exactly if it can be stored. -/
theorem toBytes_fills_slot_iff {size : PageSize} {bytes : Bytes} (hnonce : nonce.length = 12)
    (h : page.toBytes crates key nonce size.toU32 = .ok bytes) :
    (bytes.length = size.toU32 ∧ ∀ verifyChecksum, ∃ stored,
        fromBytes crates key verifyChecksum bytes = .ok (page.withSizes stored)) ↔
      page.Storable crates key size.toU32 := by
  constructor
  · rintro ⟨hlen, hread⟩
    obtain ⟨stored', hback⟩ := hread false
    have hhdr := header_of_fromBytes hback
    have hfits := PageHeader.fits_of_fromBytes hhdr
    unfold toBytes at h
    rcases crates.sealData_cases key page.header.compression page.header.encryption page.data
      (hnonce.trans (length_replicate (a := 0)).symm) with
      ⟨e, hseal, -⟩ | ⟨stored, zero, hseal, hzero, hsame⟩
    · rw [hseal] at h
      cases h
    · rw [hseal] at h
      cases h
      -- the filling is empty if the data are too long
      have hroom : 32 + stored.length ≤ size.toU32 - 32 := by
        simp only [image, checksum, length_append, PageHeader.length_toBytes, length_replicate,
          crates.length_sha256] at hlen
        omega
      refine ⟨hfits.pageId, hfits.virtualPageId, ?_, hfits.uncompressedSize, zero, hzero, hsame ▸ hroom⟩
      by_contra hunknown
      have hfail : PageType.fromU8 (page.withSizes stored).header.pageType.toU8 = none :=
        PageType.fromU8_of_not_known hunknown
      cases hback.symm.trans (fromBytes_image_unknown hfail hroom)
  · intro hstor
    obtain ⟨bytes', stored, hbytes, hlen, hread⟩ := hstor.toBytes hnonce size.toU32_le
    cases hbytes.symm.trans h
    exact ⟨hlen, fun verifyChecksum => ⟨stored, hread verifyChecksum⟩⟩

/-- A leaf with three bytes, compressed and encrypted: its bytes fill the slot and are read back. -/
theorem toBytes_fills_slot_leaf : let page : Page := { header := { PageHeader.new 2 .bTreeLeaf with
      compression := .zstd, encryption := .aes256Gcm }, data := [1, 2, 3] }
    let key := some (replicate 32 1)
    ∃ bytes, page.toBytes .plain key (replicate 12 9) PageSize.size4KB.toU32 = .ok bytes ∧
      bytes.length = PageSize.size4KB.toU32 ∧
      ∀ verifyChecksum, ∃ stored, fromBytes .plain key verifyChecksum bytes = .ok (page.withSizes stored) := by
  intro page key
  have hstor : page.Storable .plain key PageSize.size4KB.toU32 :=
    ⟨by decide, by decide, by decide, by decide, _, rfl, by decide⟩
  obtain ⟨bytes, -, hbytes, -⟩ := hstor.toBytes (length_replicate (a := 9)) PageSize.size4KB.toU32_le
  exact ⟨bytes, hbytes, (toBytes_fills_slot_iff length_replicate hbytes).mpr hstor⟩

/-- A page of a bloom filter is not read back. -/
theorem toBytes_fills_slot_fails : ∃ bytes, (Page.new 2 .bloomMeta).toBytes .plain none
    (replicate 12 0) 4096 = .ok bytes ∧
      ∀ verifyChecksum, fromBytes .plain none verifyChecksum bytes = .error (.invalidPageType 14) :=
  ⟨_, rfl, fun _ => fromBytes_image_unknown rfl (by decide)⟩

/-- **An encrypted page is not read without the key.** -/
theorem fromBytes_without_key (h : fromBytes crates key verifyChecksum bytes = .ok page)
    (henc : page.header.encryption ≠ .none) :
    fromBytes crates none verifyChecksum bytes = .error (.ofSeal page.header.pageId .missingKey) := by
  have hunseal : ∀ stored, crates.unsealData none page.header.compression page.header.encryption stored =
      .error .missingKey := by
    intro stored
    cases hcase : page.header.encryption with
    | none => exact absurd hcase henc
    | aes256Gcm => rfl
  have hhdr := header_of_fromBytes h
  rw [fromBytes] at h ⊢
  split_ifs at h ⊢
  simp only [hhdr] at h ⊢
  split_ifs at h ⊢
  simp [hunseal]

theorem isFree_of_fromBytes_zeros (hsize : 32 ≤ pageSize)
    (h : fromBytes crates key verifyChecksum (replicate pageSize 0) = .ok page) :
    page.header.pageType = .free := by
  have hfront : slice (replicate pageSize (0 : Byte)) 0 32 = replicate 32 0 := by
    rw [slice, drop_zero, take_replicate, min_eq_left hsize]
  have hhdr : PageHeader.fromBytes (replicate 32 0) = .ok (PageHeader.new 0 .free) := by decide
  have hread := header_of_fromBytes h
  rw [hfront, hhdr] at hread
  rw [← Except.ok.inj hread]
  rfl

/-- **A page whose image is longer than its slot is not read back.** -/
theorem fromBytes_take_image (hfits : header.Fits) (hknown : header.pageType.Known)
    (hstored : header.compressedSize = stored.length) (hsize : 64 ≤ pageSize)
    (hlong : pageSize - 32 < 32 + stored.length) :
    ∃ details, fromBytes crates key verifyChecksum ((image crates pageSize header stored).take pageSize) =
      .error (.invalidDataLength header.pageId details) := by
  have hlen : ((image crates pageSize header stored).take pageSize).length = pageSize := by
    rw [length_take]
    refine min_eq_left ?_
    simp only [image, checksum, length_append, PageHeader.length_toBytes, length_replicate,
      crates.length_sha256]
    omega
  have hhdr : slice ((image crates pageSize header stored).take pageSize) 0 32 = header.toBytes := by
    rw [slice, drop_zero, take_take, min_eq_left (by omega), image]
    exact take_left' header.length_toBytes
  rw [fromBytes, if_neg (by omega), hhdr, PageHeader.fromBytes_toBytes hfits hknown]
  simp only [hlen, hstored, if_pos hlong]
  exact ⟨_, rfl⟩

end Page

end NanoStore.Pager
