import NanoStore.Common.Assoc
import NanoStore.Pager.Allocator
/-!
# Pager — the bytes of its metadata

Page 0 holds the file header, page 1 the superblock. The superblock has
room for a mapper of 256 bytes, that is for 15 pages whose two numbers
differ; a larger mapper is left out, and reading the superblock gives the
empty one.
-/

namespace NanoStore.Pager

open LittleEndian InPlace List

/-! ## The mapper -/

variable {mapper : PageMapper} {back : Bytes} {n : ℕ}

namespace PageMapper

def toBytes (mapper : PageMapper) : Bytes :=
  encode 8 mapper.nextVirtualId ++ (encode 8 mapper.mapping.entries.length ++
    mapper.mapping.entries.flatMap fun e => encode 8 e.1 ++ encode 8 e.2)

/-- The loop of `from_bytes`. -/
def readEntries (bytes : Bytes) : ℕ → ℕ → (AList fun _ : ℕ => ℕ) → Except PagerError (AList fun _ : ℕ => ℕ)
  | 0, _, mapping => .ok mapping
  | count + 1, offset, mapping =>
    if bytes.length < offset + 16 then
      .error (.insufficientBuffer "page mapper entries" (offset + 16) bytes.length)
    else readEntries bytes count (offset + 16)
      (mapping.insert (numberAt bytes offset 8) (numberAt bytes (offset + 8) 8))

def fromBytes (bytes : Bytes) : Except PagerError PageMapper :=
  if bytes.length < 16 then .error (.insufficientBuffer "page mapper header" 16 bytes.length)
  else (readEntries bytes (numberAt bytes 8 8) 16 ∅).map fun mapping =>
    fromState mapping (numberAt bytes 0 8)

theorem length_toBytes :
    mapper.toBytes.length = 16 + 16 * mapper.mapping.entries.length := by
  have hents : ∀ entries : List (Sigma fun _ : ℕ => ℕ),
      (entries.flatMap fun e => encode 8 e.1 ++ encode 8 e.2).length = 16 * entries.length := by
    intro entries
    induction entries with
    | nil => rfl
    | cons e entries ih =>
      simp only [flatMap_cons, length_append, length_encode, ih, length_cons]
      omega
  simp only [toBytes, length_append, length_encode, hents]
  omega

theorem numberAt_append (front : Bytes) {pos : ℕ} (hpos : front.length = pos) (hn : n < 256 ^ 8) :
    numberAt (front ++ (encode 8 n ++ back)) pos 8 = n := by
  rw [numberAt, slice_append_right (le_of_eq hpos), hpos, Nat.sub_self, slice_append_left length_encode,
    decode_encode_of_lt hn]

theorem readEntries_append {entries : List (Sigma fun _ : ℕ => ℕ)}
    (hfits : ∀ e ∈ entries, e.1 < 256 ^ 8 ∧ e.2 < 256 ^ 8) (front back : Bytes)
    (mapping : AList fun _ : ℕ => ℕ) :
    readEntries (front ++ ((entries.flatMap fun e => encode 8 e.1 ++ encode 8 e.2) ++ back))
        entries.length front.length mapping =
      .ok (entries.foldl (fun m e => m.insert e.1 e.2) mapping) := by
  -- what was read becomes part of the front
  induction entries generalizing front mapping with
  | nil => rfl
  | cons e entries ih =>
    have he := hfits e mem_cons_self
    have hrest := ih (fun e' he' => hfits e' (mem_cons_of_mem _ he'))
      (front ++ (encode 8 e.1 ++ encode 8 e.2)) (mapping.insert e.1 e.2)
    have hlen : (front ++ (encode 8 e.1 ++ encode 8 e.2)).length = front.length + 16 := by
      simp [length_append, length_encode]
    rw [hlen] at hrest
    simp only [flatMap_cons, append_assoc] at hrest ⊢
    generalize (entries.flatMap fun e => encode 8 e.1 ++ encode 8 e.2) ++ back = rest at hrest ⊢
    have hkey : numberAt (front ++ (encode 8 e.1 ++ (encode 8 e.2 ++ rest))) front.length 8 = e.1 :=
      numberAt_append front rfl he.1
    have hval : numberAt (front ++ (encode 8 e.1 ++ (encode 8 e.2 ++ rest))) (front.length + 8) 8 =
        e.2 := by
      rw [← append_assoc]
      refine numberAt_append _ ?_ he.2
      rw [length_append, length_encode]
    have hlong : ¬ (front ++ (encode 8 e.1 ++ (encode 8 e.2 ++ rest))).length < front.length + 16 := by
      simp only [length_append, length_encode]
      omega
    rw [length_cons, readEntries, if_neg hlong, hkey, hval, foldl_cons]
    exact hrest

/-- The numbers of a mapper fit their fields. -/
structure Fits (mapper : PageMapper) : Prop where
  next : mapper.nextVirtualId < 256 ^ 8
  count : mapper.mapping.entries.length < 256 ^ 8
  entries : ∀ e ∈ mapper.mapping.entries, e.1 < 256 ^ 8 ∧ e.2 < 256 ^ 8

/-- **A mapper is read back**, up to the order of its entries, and what stands behind it is ignored. -/
theorem fromBytes_toBytes_append (hfits : mapper.Fits) (back : Bytes) :
    ∃ mapper', fromBytes (mapper.toBytes ++ back) = .ok mapper' ∧
      mapper'.nextVirtualId = mapper.nextVirtualId ∧ mapper'.dirty = false ∧
      mapper.mapping.entries.Perm mapper'.mapping.entries := by
  have hlong : ¬ (mapper.toBytes ++ back).length < 16 := by
    rw [length_append, length_toBytes]
    omega
  have hnext : numberAt (mapper.toBytes ++ back) 0 8 = mapper.nextVirtualId := by
    rw [toBytes, append_assoc]
    exact numberAt_append [] rfl hfits.next
  have hcount : numberAt (mapper.toBytes ++ back) 8 8 = mapper.mapping.entries.length := by
    rw [toBytes, append_assoc, append_assoc]
    exact numberAt_append _ length_encode hfits.count
  have hents : readEntries (mapper.toBytes ++ back) mapper.mapping.entries.length 16 ∅ =
      .ok (mapper.mapping.entries.foldl (fun m e => m.insert e.1 e.2) ∅) := by
    have hfront : (encode 8 mapper.nextVirtualId ++ encode 8 mapper.mapping.entries.length).length = 16 := by
      rw [length_append, length_encode, length_encode]
    have hread := readEntries_append hfits.entries
      (encode 8 mapper.nextVirtualId ++ encode 8 mapper.mapping.entries.length) back ∅
    rwa [hfront, ← append_assoc, append_assoc (encode 8 mapper.nextVirtualId)] at hread
  refine ⟨fromState (mapper.mapping.entries.foldl (fun m e => m.insert e.1 e.2) ∅) mapper.nextVirtualId,
    ?_, rfl, rfl, ?_⟩
  · rw [fromBytes, if_neg hlong, hcount, hents, hnext]
    rfl
  · -- the two maps find the same under every number
    refine lookup_ext mapper.mapping.nodupKeys (AList.nodupKeys _) fun v p => ?_
    have hlook := AList.lookup_foldl_insert mapper.mapping.nodupKeys ∅ v
    rw [AList.lookup_empty, Option.or_none] at hlook
    rw [← hlook]
    rfl

end PageMapper

/-! ## Pages of the free list -/

/-- A page of the list of free pages, linked to the next. -/
structure FreeListPage where
  nextPage : ℕ
  freePages : List ℕ
  deriving DecidableEq

namespace FreeListPage

/-- The loop of `from_bytes`. -/
def readEntries (bytes : Bytes) : ℕ → ℕ → Except PagerError (List ℕ)
  | 0, _ => .ok []
  | count + 1, offset =>
    if bytes.length < offset + 8 then
      .error (.insufficientBuffer "free list page entries" (offset + 8) bytes.length)
    else (readEntries bytes count (offset + 8)).map (numberAt bytes offset 8 :: ·)

def fromBytes (bytes : Bytes) : Except PagerError FreeListPage :=
  if bytes.length < 16 then .error (.insufficientBuffer "free list page header" 16 bytes.length)
  else (readEntries bytes (numberAt bytes 8 8) 16).map (FreeListPage.mk (numberAt bytes 0 8))

end FreeListPage

/-! ## The superblock -/

namespace Superblock

/-- The fields in front of the mapper. -/
def headerBytes (sb : Superblock) : Bytes :=
  encode 8 sb.magic ++ (encode 8 sb.version ++ (encode 8 sb.totalPages ++ (encode 8 sb.freePages ++
    (encode 8 sb.firstFreeListPage ++ (encode 8 sb.lastFreeListPage ++ (encode 8 sb.nextPageId ++
      (encode 8 sb.transactionCounter ++ (encode 8 sb.lastCheckpointLsn ++ (encode 8 sb.rootBtreePage ++
        (encode 8 sb.btreeRowCount ++ (encode 8 sb.pageMapperPage ++ [])))))))))))

/-- The mapper, if it fits. -/
def inlineBytes (mapper : PageMapper) : Bytes :=
  if mapper.toBytes.length ≤ 256 then
    mapper.toBytes ++ replicate (256 - mapper.toBytes.length) 0
  else replicate 256 0

def toBytes (sb : Superblock) : Bytes := sb.headerBytes ++ inlineBytes sb.pageMapper

/-- A number as `0x{:X}` prints it. -/
def hex (n : ℕ) : String :=
  let digits := String.ofList ((Nat.toDigits 16 n).map Char.toUpper)
  s!"0x{digits}"

/-- The mapper of a superblock of the current version. -/
def readMapper (bytes : Bytes) : Except PagerError PageMapper :=
  if numberAt bytes 88 8 = 0 ∧ 352 ≤ bytes.length then
    let mapperBytes := slice bytes 96 256
    if (slice mapperBytes 0 16).any (· ≠ 0) then PageMapper.fromBytes mapperBytes
    else .ok .new
  else .ok .new

/-- The superblock that bytes stand for, with a mapper. -/
def ofFields (bytes : Bytes) (pageMapperPage : ℕ) (pageMapper : PageMapper) : Superblock :=
  ⟨expectedMagic, currentVersion, numberAt bytes 16 8, numberAt bytes 24 8, numberAt bytes 32 8,
    numberAt bytes 40 8, numberAt bytes 48 8, numberAt bytes 56 8, numberAt bytes 64 8,
    numberAt bytes 72 8, numberAt bytes 80 8, pageMapperPage, pageMapper⟩

def fromBytes (bytes : Bytes) : Except PagerError Superblock :=
  if bytes.length < 96 then .error (.invalidSuperblock "size" "96" s!"{bytes.length}")
  else if numberAt bytes 0 8 ≠ expectedMagic then
    .error (.invalidSuperblock "magic" (hex expectedMagic) (hex (numberAt bytes 0 8)))
  else
    let version := numberAt bytes 8 8
    if version = 1 then .ok (ofFields bytes 0 .new)
    else if version = 2 then (readMapper bytes).map (ofFields bytes (numberAt bytes 88 8))
    else .error (.invalidSuperblock "version" s!"1 or {currentVersion}" s!"{version}")

variable {sb : Superblock}

@[simp] theorem length_headerBytes (sb : Superblock) : sb.headerBytes.length = 96 := by
  simp [headerBytes]

@[simp] theorem length_inlineBytes : (inlineBytes mapper).length = 256 := by
  rw [inlineBytes]
  split_ifs with hle
  · rw [length_append, length_replicate]
    omega
  · exact length_replicate

@[simp] theorem length_toBytes (sb : Superblock) : sb.toBytes.length = 352 := by
  rw [toBytes, length_append, length_headerBytes, length_inlineBytes]

/-- A mapper that fits is found again: its first field is not 0. -/
theorem readMapper_toBytes (hpage : sb.pageMapperPage = 0) (hfits : sb.pageMapper.Fits)
    (htwo : 2 ≤ sb.pageMapper.nextVirtualId) (hroom : sb.pageMapper.mapping.entries.length ≤ 15) :
    readMapper sb.toBytes =
      PageMapper.fromBytes (sb.pageMapper.toBytes ++ replicate (256 - sb.pageMapper.toBytes.length) 0) := by
  have hpageAt : numberAt sb.toBytes 88 8 = 0 := by
    simp only [numberAt, toBytes, headerBytes, append_assoc, slice_append_right, slice_append_left,
      length_encode, Nat.reduceLeDiff, Nat.reduceSub, le_refl, hpage]
    rw [decode_encode, Nat.zero_mod]
  have hshort : sb.pageMapper.toBytes.length ≤ 256 := by
    rw [PageMapper.length_toBytes]
    omega
  have hinline : slice sb.toBytes 96 256 = sb.pageMapper.toBytes ++
      replicate (256 - sb.pageMapper.toBytes.length) 0 := by
    have hfront : sb.headerBytes.length ≤ 96 := le_of_eq sb.length_headerBytes
    have hwhole : slice (inlineBytes sb.pageMapper ++ []) 0 256 = inlineBytes sb.pageMapper :=
      slice_append_left length_inlineBytes
    rw [toBytes, slice_append_right hfront, length_headerBytes, Nat.sub_self]
    rw [append_nil] at hwhole
    rw [hwhole, inlineBytes, if_pos hshort]
  have hdata : (slice (sb.pageMapper.toBytes ++
      replicate (256 - sb.pageMapper.toBytes.length) 0) 0 16).any (· ≠ 0) = true := by
    -- all zero, they would say that the next number is 0
    by_contra hnone
    have hfst : slice (sb.pageMapper.toBytes ++ replicate (256 - sb.pageMapper.toBytes.length) 0) 0 16 =
        encode 8 sb.pageMapper.nextVirtualId ++ encode 8 sb.pageMapper.mapping.entries.length := by
      rw [PageMapper.toBytes, ← append_assoc (encode 8 sb.pageMapper.nextVirtualId), append_assoc]
      refine slice_append_left ?_
      rw [length_append, length_encode, length_encode]
    have hzero : decode (encode 8 sb.pageMapper.nextVirtualId) = 0 := by
      refine decode_of_forall_zero fun b hb => ?_
      by_contra hb'
      refine hnone (any_eq_true.mpr ⟨b, ?_, decide_eq_true hb'⟩)
      rw [hfst]
      exact mem_append_left _ hb
    rw [decode_encode_of_lt hfits.next] at hzero
    omega
  rw [readMapper, if_pos ⟨hpageAt, le_of_eq sb.length_toBytes.symm⟩]
  simp only [hinline, hdata, if_true]

/-- The marks that are checked, and what is never set: a page for the mapper, and one for the free list. -/
structure Marked (sb : Superblock) : Prop where
  magic : sb.magic = expectedMagic
  version : sb.version = currentVersion
  pageMapperPage : sb.pageMapperPage = 0
  firstFreeListPage : sb.firstFreeListPage = 0

/-- Two superblocks that say the same, up to the order in which a mapper lists its entries. -/
structure SameAs (sb sb' : Superblock) : Prop where
  marked : sb.Marked ↔ sb'.Marked
  totalPages : sb'.totalPages = sb.totalPages
  nextPageId : sb'.nextPageId = sb.nextPageId
  nextVirtualId : sb'.pageMapper.nextVirtualId = sb.pageMapper.nextVirtualId
  entries : sb.pageMapper.mapping.entries.Perm sb'.pageMapper.mapping.entries

theorem SameAs.refl : sb.SameAs sb := ⟨.rfl, rfl, rfl, rfl, .refl _⟩

/-- What a superblock needs for being read back: its marks, numbers that fit, and a mapper with room in
it. -/
structure Readable (sb : Superblock) : Prop extends sb.Marked where
  totalPages : sb.totalPages < 256 ^ 8
  nextPageId : sb.nextPageId < 256 ^ 8
  mapper : sb.pageMapper.Fits
  two_le : 2 ≤ sb.pageMapper.nextVirtualId
  room : sb.pageMapper.mapping.entries.length ≤ 15

/-- **A superblock is read back.** -/
theorem fromBytes_toBytes (h : sb.Readable) :
    ∃ sb', fromBytes sb.toBytes = .ok sb' ∧ sb.SameAs sb' ∧ sb'.Marked ∧ sb'.pageMapper.dirty = false := by
  obtain ⟨mapper, hmap, hnext, hdirty, hents⟩ := PageMapper.fromBytes_toBytes_append h.mapper
    (replicate (256 - sb.pageMapper.toBytes.length) 0)
  have hread := readMapper_toBytes h.pageMapperPage h.mapper h.two_le h.room
  rw [hmap] at hread
  have hfields : numberAt sb.toBytes 0 8 = sb.magic % 256 ^ 8 ∧
      numberAt sb.toBytes 8 8 = sb.version % 256 ^ 8 ∧
      numberAt sb.toBytes 16 8 = sb.totalPages % 256 ^ 8 ∧
      numberAt sb.toBytes 32 8 = sb.firstFreeListPage % 256 ^ 8 ∧
      numberAt sb.toBytes 48 8 = sb.nextPageId % 256 ^ 8 ∧
      numberAt sb.toBytes 88 8 = sb.pageMapperPage % 256 ^ 8 := by
    simp only [numberAt, toBytes, headerBytes, append_assoc, slice_append_right, slice_append_left,
      length_encode, Nat.reduceLeDiff, Nat.reduceSub, le_refl, decode_encode, and_self]
  obtain ⟨hmagic, hver, htot, hfst, hnextPage, hpage⟩ := hfields
  rw [h.magic] at hmagic
  rw [h.version] at hver
  rw [h.pageMapperPage, Nat.zero_mod] at hpage
  rw [Nat.mod_eq_of_lt h.totalPages] at htot
  rw [Nat.mod_eq_of_lt h.nextPageId] at hnextPage
  have hlong : ¬ sb.toBytes.length < 96 := by
    rw [length_toBytes]
    omega
  have hmagic' : ¬ numberAt sb.toBytes 0 8 ≠ expectedMagic := by
    rw [hmagic]
    decide
  have hver' : numberAt sb.toBytes 8 8 = 2 := by
    rw [hver]
    rfl
  have hok : fromBytes sb.toBytes = .ok (ofFields sb.toBytes 0 mapper) := by
    rw [fromBytes, if_neg hlong, if_neg hmagic', hver', hread, hpage]
    rfl
  rw [h.firstFreeListPage, Nat.zero_mod] at hfst
  have hmarked : (ofFields sb.toBytes 0 mapper).Marked := ⟨rfl, rfl, rfl, hfst⟩
  exact ⟨ofFields sb.toBytes 0 mapper, hok, ⟨iff_of_true h.toMarked hmarked, htot, hnextPage, hnext, hents⟩,
    hmarked, hdirty⟩

end Superblock

theorem Allocator.marked_allocate {a : Allocator} (h : a.superblock.Marked) :
    a.allocate.1.superblock.Marked := by
  obtain ⟨p, rest, freeList, -, -, heq⟩ | ⟨-, heq⟩ := a.allocate_cases
  all_goals
    rw [heq]
    exact { h with }

/-! ## The file header -/

/-- The header of the file. -/
structure FileHeader where
  version : ℕ
  pageSize : PageSize
  compression : CompressionType
  encryption : EncryptionType
  totalPages : ℕ
  freePages : ℕ
  superblockPageId : ℕ
  firstFreeListPageId : ℕ
  catalogPageId : ℕ
  databaseUuid : Bytes
  createdAt : Bytes
  modifiedAt : Bytes
  deriving DecidableEq

namespace FileHeader

def magic : Bytes := [0x4E, 0x4B, 0x44, 0x42]

/-- `VERSION`. -/
def currentVersion : ℕ := 1

/-- A number of 8 bytes in a field of 32. -/
def padded (n : ℕ) : Bytes := encode 8 n ++ replicate 24 0

/-- `FileHeader::new`, at a time given in nanoseconds and in seconds. -/
def new (pageSize : PageSize) (compression : CompressionType) (encryption : EncryptionType)
    (nanos secs : ℕ) : FileHeader :=
  ⟨currentVersion, pageSize, compression, encryption, 3, 0, 1, 0, 2, padded nanos, padded secs, padded secs⟩

def toBytes (h : FileHeader) : Bytes :=
  magic ++ (encode 2 h.version ++ (replicate 2 0 ++ (encode 4 h.pageSize.toU32 ++
    ([h.compression.toU8] ++ ([h.encryption.toU8] ++ (replicate 2 0 ++ (encode 8 h.totalPages ++
      (encode 8 h.freePages ++ (encode 8 h.superblockPageId ++ (encode 8 h.firstFreeListPageId ++
        (encode 8 h.catalogPageId ++ (replicate 24 0 ++ (h.databaseUuid ++ (h.createdAt ++
          (h.modifiedAt ++ replicate 80 0)))))))))))))))

def fromBytes (bytes : Bytes) : Except PagerError FileHeader :=
  if bytes.length < 256 then
    .error (.invalidFileHeader (decode magic) 0 "Insufficient bytes for file header")
  else
    let invalid := PagerError.invalidFileHeader (decode magic) (numberAt bytes 0 4)
    if slice bytes 0 4 ≠ magic then .error (invalid "Invalid magic number")
    else if numberAt bytes 4 2 ≠ currentVersion then
      let version := numberAt bytes 4 2
      .error (invalid s!"Unsupported version: {version}")
    else match PageSize.fromU32 (numberAt bytes 8 4) with
      | none => .error (.invalidPageSize (numberAt bytes 8 4))
      | some pageSize =>
        match CompressionType.fromU8 (byteAt bytes 12) with
        | none =>
          let compression := (byteAt bytes 12).val
          .error (invalid s!"Invalid compression type: {compression}")
        | some compression =>
          match EncryptionType.fromU8 (byteAt bytes 13) with
          | none =>
            let encryption := (byteAt bytes 13).val
            .error (invalid s!"Invalid encryption type: {encryption}")
          | some encryption =>
            .ok ⟨numberAt bytes 4 2, pageSize, compression, encryption, numberAt bytes 16 8,
              numberAt bytes 24 8, numberAt bytes 32 8, numberAt bytes 40 8, numberAt bytes 48 8,
              slice bytes 80 32, slice bytes 112 32, slice bytes 144 32⟩

/-- `update_modified_timestamp`. -/
def updateModifiedTimestamp (h : FileHeader) (secs : ℕ) : FileHeader := { h with modifiedAt := padded secs }

variable {h : FileHeader}

/-- The fields of fixed length have it. -/
structure Sized (h : FileHeader) : Prop where
  version : h.version = currentVersion
  databaseUuid : h.databaseUuid.length = 32
  createdAt : h.createdAt.length = 32
  modifiedAt : h.modifiedAt.length = 32

theorem length_padded : (padded n).length = 32 := by
  simp [padded]

theorem length_toBytes (hsized : h.Sized) : h.toBytes.length = 256 := by
  simp only [toBytes, magic, length_append, length_cons, length_nil, length_encode,
    length_replicate, hsized.databaseUuid, hsized.createdAt, hsized.modifiedAt]

/-- **What a pager is opened with is read back**, whatever stands behind the header. -/
theorem fromBytes_toBytes_append (hsized : h.Sized) :
    ∃ h', fromBytes (h.toBytes ++ back) = .ok h' ∧ h'.Sized ∧ h'.pageSize = h.pageSize ∧
      h'.compression = h.compression ∧ h'.encryption = h.encryption := by
  have hlong : ¬ (h.toBytes ++ back).length < 256 := by
    rw [length_append, length_toBytes hsized]
    omega
  have hmagicLength : magic.length = 4 := rfl
  have hmagic : slice (h.toBytes ++ back) 0 4 = magic := by
    rw [toBytes, append_assoc]
    exact slice_append_left hmagicLength
  have hnumber : numberAt (h.toBytes ++ back) 4 2 = h.version % 256 ^ 2 ∧
      numberAt (h.toBytes ++ back) 8 4 = h.pageSize.toU32 % 256 ^ 4 := by
    simp only [numberAt, toBytes, append_assoc, slice_append_right, slice_append_left, length_encode,
      length_replicate, hmagicLength, Nat.reduceLeDiff, Nat.reduceSub, le_refl, decode_encode, and_self]
  have hbyte : byteAt (h.toBytes ++ back) 12 = h.compression.toU8 ∧
      byteAt (h.toBytes ++ back) 13 = h.encryption.toU8 := by
    simp only [byteAt, toBytes, append_assoc, slice_append_right, slice_append_left, length_encode,
      length_replicate, length_singleton, hmagicLength, Nat.reduceLeDiff, Nat.reduceSub, le_refl,
      headD_cons, and_self]
  have hslices : ∀ pos, pos + 32 ≤ 256 → (slice (h.toBytes ++ back) pos 32).length = 32 := by
    intro pos hpos
    rw [slice, length_take, length_drop]
    omega
  obtain ⟨hver, hsize⟩ := hnumber
  obtain ⟨hcompr, henc⟩ := hbyte
  have hsmall := h.pageSize.toU32_le
  have hver' : numberAt (h.toBytes ++ back) 4 2 = currentVersion := by
    rw [hver, hsized.version]
    rfl
  rw [Nat.mod_eq_of_lt (by omega)] at hsize
  refine ⟨⟨numberAt (h.toBytes ++ back) 4 2, h.pageSize, h.compression, h.encryption,
    numberAt (h.toBytes ++ back) 16 8, numberAt (h.toBytes ++ back) 24 8,
    numberAt (h.toBytes ++ back) 32 8, numberAt (h.toBytes ++ back) 40 8,
    numberAt (h.toBytes ++ back) 48 8, slice (h.toBytes ++ back) 80 32,
    slice (h.toBytes ++ back) 112 32, slice (h.toBytes ++ back) 144 32⟩, ?_,
    ⟨hver', hslices 80 (by omega), hslices 112 (by omega), hslices 144 (by omega)⟩, rfl, rfl, rfl⟩
  rw [fromBytes, if_neg hlong]
  simp only [hmagic, hver', hsize, hcompr, henc, ne_eq, not_true_eq_false, if_false,
    PageSize.fromU32_toU32, CompressionType.fromU8_toU8, EncryptionType.fromU8_toU8]

end FileHeader

end NanoStore.Pager
