import NanoStore.Common.Stream
import NanoStore.Table.BTree
/-!
# The paged B-tree — values

The bytes of a value on a leaf are the value itself or name the pages that
hold it; which of the two is decided by the bytes. `get` follows such a
reference, `get_stream` looks at the bytes `get` returns a second time,
and a flush frees what the old value of a key refers to.

The pages that hold no node stand beside the page file of the trees. A
page is read as it was last written, which is how the page cache serves
it.
-/

namespace NanoStore.Table

open Wal Steps Txn List

/-! ## References -/

inductive ValueRefDecodeError
  | insufficientBytes (expected actual : ℕ)
  | invalidLength (variant : String) (expected actual : ℕ)
  | unknownType (typeByte : Byte)
  deriving DecidableEq

/-- The text `Debug` gives the error. -/
def ValueRefDecodeError.debug : ValueRefDecodeError → String
  | .insufficientBytes expected actual =>
    s!"InsufficientBytes \x7b expected: {expected}, actual: {actual} \x7d"
  | .invalidLength variant expected actual =>
    s!"InvalidLength \x7b variant: \"{variant}\", expected: {expected}, actual: {actual} \x7d"
  | .unknownType typeByte => s!"UnknownType({typeByte.val})"

def fromLeBytes (bytes : Bytes) : ℕ := bytes.foldr (fun b n => b.val + 256 * n) 0

/-- The bytes from one position up to another. -/
def slice (bytes : Bytes) (start finish : ℕ) : Bytes := (bytes.drop start).take (finish - start)

def ValueRef.decode (bytes : Bytes) : Except ValueRefDecodeError ValueRef :=
  match bytes with
  | [] => .error (.insufficientBytes 1 0)
  | typeByte :: _ =>
    if typeByte = 0x00 then
      if bytes.length ≠ 1 then .error (.invalidLength "Inline" 1 bytes.length)
      else .ok .inline
    else if typeByte = 0x01 then
      if bytes.length ≠ 11 then .error (.invalidLength "SinglePage" 11 bytes.length)
      else .ok (.singlePage (fromLeBytes (slice bytes 1 5)) (fromLeBytes (slice bytes 5 7))
        (fromLeBytes (slice bytes 7 11)))
    else if typeByte = 0x02 then
      if bytes.length ≠ 17 then .error (.invalidLength "OverflowChain" 17 bytes.length)
      else .ok (.overflowChain (fromLeBytes (slice bytes 1 5)) (fromLeBytes (slice bytes 5 13))
        (fromLeBytes (slice bytes 13 17)))
    else .error (.unknownType typeByte)

/-- The first byte is one that a reference to pages begins with. -/
def tagged (value : Bytes) : Bool := value.head? = some 0x01 || value.head? = some 0x02

/-- `is_external_value`: the first byte and the length are those of a reference. -/
def isExternalValue (value : Bytes) : Bool :=
  match value.head? with
  | some 0x01 => value.length = 11
  | some 0x02 => value.length = 17
  | _ => false

/-! ## Pages -/

/-- `PageType`; the types no function here tells apart are one, with their name. -/
inductive PageType
  | free
  | freeList
  | bTreeInternal
  | bTreeLeaf
  | overflow
  | other (name : String)
  deriving DecidableEq

/-- The text `Debug` gives a page type. -/
def PageType.debug : PageType → String
  | .free => "Free"
  | .freeList => "FreeList"
  | .bTreeInternal => "BTreeInternal"
  | .bTreeLeaf => "BTreeLeaf"
  | .overflow => "Overflow"
  | .other name => name

/-- `Page`. -/
structure RawPage where
  pageType : PageType
  data : Bytes
  deriving DecidableEq

/-- The errors of `PagerError` the functions below return. -/
inductive PagerError
  | invalidPageId (page : PageId)
  | pageNotFound (page : PageId)
  | pageAlreadyFree (page : PageId)
  | insufficientBuffer (structureName : String) (expected actual : ℕ)
  | invalidMagic (structureName : String) (expected found : ℕ)
  | internalError (details : String)
  | endless
  deriving DecidableEq

/-- The errors of `TableError` the functions below return. -/
inductive TableError
  | tree (e : TreeError)
  | pager (e : PagerError)
  | invalidValueRef (details : String)
  deriving DecidableEq

/-- How nodes are written on their pages, and the checksum of an overflow page. -/
structure PageCodec where
  toBytes : BTreeNode → Bytes
  crc32 : Bytes → ℕ

/-- The page file of the trees and the pages that hold no node. -/
structure Volume where
  file : PageFile
  others : PageId → Option RawPage

/-- The header of a page of a chain. -/
structure OverflowPageHeader where
  nextPageId : PageId
  dataLength : ℕ
  checksum : ℕ
  deriving DecidableEq

namespace OverflowPageHeader

def magic : ℕ := 0x4F564C46

def fromBytes (bytes : Bytes) : Except PagerError OverflowPageHeader :=
  if bytes.length < 32 then
    .error (.insufficientBuffer "overflow page header" 32 bytes.length)
  else if fromLeBytes (slice bytes 0 4) ≠ magic then
    .error (.invalidMagic "overflow page header" magic (fromLeBytes (slice bytes 0 4)))
  else .ok ⟨fromLeBytes (slice bytes 4 8), fromLeBytes (slice bytes 8 12), fromLeBytes (slice bytes 12 16)⟩

/-- The page after this one; page 0 says that this is the last. -/
def next (header : OverflowPageHeader) : Option PageId :=
  if header.nextPageId = 0 then none else some header.nextPageId

end OverflowPageHeader

/-- The number in hexadecimal, eight digits at least. -/
def hex8 (n : ℕ) : String :=
  let digits := (Nat.toDigits 16 n).map Char.toUpper
  String.ofList (List.replicate (8 - digits.length) '0' ++ digits)

namespace Volume

variable (codec : PageCodec) (vol : Volume)

def readPage (page : PageId) : Except PagerError RawPage :=
  if vol.file.nextPage ≤ page then .error (.pageNotFound page)
  else match vol.file.pages page, vol.others page with
    | some (.internal entries rightmostChild), _ =>
      .ok ⟨.bTreeInternal, codec.toBytes (.internal entries rightmostChild)⟩
    | some (.leaf entries nextLeaf), _ => .ok ⟨.bTreeLeaf, codec.toBytes (.leaf entries nextLeaf)⟩
    | none, some raw => .ok raw
    | none, none => .error (.pageNotFound page)

/-- The page is read and has the header of an overflow page. -/
def readOverflowHeader (page : PageId) : Except PagerError (RawPage × OverflowPageHeader) :=
  match vol.readPage codec page with
  | .error e => .error e
  | .ok raw =>
    if raw.pageType ≠ .overflow then
      .error (.internalError s!"Expected overflow page, got {raw.pageType.debug}")
    else (OverflowPageHeader.fromBytes raw.data).map fun header => (raw, header)

/-- The data of one overflow page, checked, and the page after it. -/
def readOverflowPage (page : PageId) : Except PagerError (Bytes × Option PageId) :=
  match vol.readOverflowHeader codec page with
  | .error e => .error e
  | .ok (raw, header) =>
    let dataEnd := 32 + header.dataLength
    if raw.data.length < dataEnd then
      .error (.internalError s!"Overflow page data length {header.dataLength} exceeds page size")
    else
      let data := slice raw.data 32 dataEnd
      let actualChecksum := codec.crc32 data
      if actualChecksum ≠ header.checksum then
        let expected := hex8 header.checksum
        let actual := hex8 actualChecksum
        .error (.internalError s!"Overflow page checksum mismatch: expected 0x{expected}, got 0x{actual}")
      else .ok (data, header.next)

/-- The loop of `read_overflow_chain`, for at most `fuel` pages. -/
def readOverflowChainFrom : ℕ → PageId → Except PagerError Bytes
  | 0, _ => .error .endless
  | fuel + 1, page =>
    match vol.readOverflowPage codec page with
    | .error e => .error e
    | .ok (data, none) => .ok data
    | .ok (data, some next) => (readOverflowChainFrom fuel next).map (data ++ ·)

/-- `read_overflow_chain`. A chain of more pages than there are never ends. -/
def readOverflowChain (firstPageId : PageId) : Except PagerError Bytes :=
  vol.readOverflowChainFrom codec (vol.file.nextPage + 1) firstPageId

/-! ## Reads -/

/-- What `get_internal` makes of the bytes it finds on a leaf. A range outside of the page panics. -/
def resolve (value : Bytes) : Except TableError Bytes :=
  if tagged value then
    match ValueRef.decode value with
    | .ok (.singlePage pageId offset length) =>
      match vol.readPage codec pageId with
      | .error e => .error (.pager e)
      | .ok raw =>
        if offset + length ≤ raw.data.length then .ok (slice raw.data offset (offset + length))
        else .error (.tree .panicked)
    | .ok (.overflowChain firstPageId totalLength _) =>
      match vol.readOverflowChain codec firstPageId with
      | .error e => .error (.pager e)
      | .ok data =>
        if data.length ≠ totalLength then
          .error (.tree (.corruption "get_internal" "overflow_chain_length_mismatch"
            s!"Expected {totalLength} bytes, got {data.length}"))
        else .ok data
    | .ok .inline => .ok value
    | .error _ => .ok value
  else .ok value

/-- What `get_internal` makes of the bytes it finds, or does not find, on a leaf. -/
def answer : Option Bytes → Except TableError (Option Bytes)
  | none => .ok none
  | some value => (vol.resolve codec value).map some

/-- `get`, by `get_internal`. -/
def get (root : PageId) (key : Key) (snapshotLsn : ℕ) : Except TableError (Option Bytes) :=
  match vol.file.getInternal root key snapshotLsn with
  | .error e => .error (.tree e)
  | .ok found => vol.answer codec found

end Volume

/-! ## Streams -/

/-- A stream over a chain: the page to read next, and what is buffered. -/
structure OverflowChainStream where
  currentPageId : Option PageId
  totalLength : ℕ
  position : ℕ
  buffer : Bytes
  bufferPos : ℕ

/-- The streams `get_stream` returns: `SliceValueStream`, `SinglePageStream` and
`OverflowChainStream`. -/
inductive ValueStream
  | slice (data : Bytes) (position : ℕ)
  | singlePage (pageId : PageId) (offset length position : ℕ) (buffer : Option Bytes)
  | overflowChain (stream : OverflowChainStream)

/-- `size_hint`: the bytes a stream returns at most. -/
def ValueStream.sizeHint : ValueStream → ℕ
  | .slice data _ => data.length
  | .singlePage _ _ length _ _ => length
  | .overflowChain stream => stream.totalLength

/-- The bytes copied into a caller's buffer of `room` bytes from a position on. -/
def copied (data : Bytes) (position room : ℕ) : Bytes := (data.drop position).take room

namespace Volume

variable (codec : PageCodec) (vol : Volume)

/-- `load_next_page`. -/
def loadNextPage (stream : OverflowChainStream) : Except TableError OverflowChainStream :=
  match stream.currentPageId with
  | none => .ok stream
  | some page =>
    match vol.readOverflowPage codec page with
    | .error e => .error (.pager e)
    | .ok (data, next) => .ok { stream with buffer := data, bufferPos := 0, currentPageId := next }

/-- The loop of `read` of an overflow chain, with `room` bytes left in the caller's buffer. Every
round but the last copies a byte, so `fuel` is the length of the buffer. -/
def readOverflowStream : ℕ → ℕ → OverflowChainStream → Except TableError (Bytes × OverflowChainStream)
  | 0, _, stream => .ok ([], stream)
  | fuel + 1, room, stream =>
    if room = 0 ∨ stream.totalLength ≤ stream.position then .ok ([], stream)
    else if stream.buffer.length ≤ stream.bufferPos ∧ stream.currentPageId = none then
      .ok ([], stream) else
      let loaded := if stream.buffer.length ≤ stream.bufferPos then vol.loadNextPage codec stream
        else .ok stream
      match loaded with
      | .error e => .error e
      | .ok stream =>
        if stream.buffer = [] then .ok ([], stream)
        else
          let bytes := copied stream.buffer stream.bufferPos (min room (stream.totalLength - stream.position))
          let stream := { stream with
            bufferPos := stream.bufferPos + bytes.length
            position := stream.position + bytes.length }
          (readOverflowStream fuel (room - bytes.length) stream).map fun (rest, stream) =>
            (bytes ++ rest, stream)

/-- `read` with a buffer of `room` bytes. -/
def readStream (room : ℕ) : ValueStream → Except TableError (Bytes × ValueStream)
  | .slice data position =>
    let bytes := copied data position room
    .ok (bytes, .slice data (position + bytes.length))
  | .singlePage pageId offset length position (some data) =>
    let bytes := copied data position room
    .ok (bytes, .singlePage pageId offset length (position + bytes.length) (some data))
  | .singlePage pageId offset length position none =>
    match vol.readPage codec pageId with
    | .error e => .error (.pager e)
    | .ok raw =>
      if raw.data.length < offset + length then
        .error (.tree (.corruption s!"SinglePage at page {pageId}" "value_overflow"
          s!"Value extends beyond page boundary: offset={offset}, length={length}, page_size={raw.data.length}"))
      else
        let data := slice raw.data offset (offset + length)
        let bytes := copied data position room
        .ok (bytes, .singlePage pageId offset length (position + bytes.length) (some data))
  | .overflowChain stream =>
    (vol.readOverflowStream codec room room stream).map fun (bytes, stream) =>
      (bytes, .overflowChain stream)

/-- The stream `get_stream` makes of the bytes `get_internal` returned. -/
def streamOf (value : Bytes) : Except TableError ValueStream :=
  if tagged value then
    match ValueRef.decode value with
    | .error e => .error (.tree (.corruption "ValueRef decode" "invalid_encoding"
        s!"Failed to decode ValueRef: {e.debug}"))
    | .ok (.singlePage pageId offset length) => .ok (.singlePage pageId offset length 0 none)
    | .ok (.overflowChain firstPageId totalLength _) =>
      .ok (.overflowChain ⟨some firstPageId, totalLength, 0, [], 0⟩)
    | .ok .inline => .ok (.slice value 0)
  else .ok (.slice value 0)

/-- `get_stream`. -/
def getStream (root : PageId) (key : Key) (snapshotLsn : ℕ) : Except TableError (Option ValueStream) :=
  match vol.get codec root key snapshotLsn with
  | .error e => .error e
  | .ok none => .ok none
  | .ok (some value) => (streamOf value).map some

/-- A stream read to its end with a buffer of `room` bytes. -/
def readToEnd (room : ℕ) (stream : ValueStream) : Except TableError Bytes :=
  (Stream.drain (vol.readStream codec room) (stream.sizeHint + 1) stream).getD (.error (.tree .endless))

/-- `get_stream` and its stream read to the end. -/
def getStreamed (room : ℕ) (root : PageId) (key : Key) (snapshotLsn : ℕ) : Except TableError (Option Bytes) :=
  match vol.getStream codec root key snapshotLsn with
  | .error e => .error e
  | .ok none => .ok none
  | .ok (some stream) => (vol.readToEnd codec room stream).map some

end Volume

/-! ## Bytes that are a value -/

/-- The bytes decode as a reference to pages. -/
def NamesPages (value : Bytes) : Prop := ∃ ref, ValueRef.decode value = .ok ref ∧ ref ≠ .inline

variable {codec : PageCodec} {vol : Volume} {value : Bytes} {room : ℕ}

theorem resolve_of_not_namesPages (h : ¬ NamesPages value) : vol.resolve codec value = .ok value := by
  unfold Volume.resolve
  split_ifs with htag
  · cases hdecode : ValueRef.decode value with
    | error e => rfl
    | ok ref =>
      cases ref with
      | inline => rfl
      | singlePage pageId offset length | overflowChain firstPageId totalLength pageCount =>
        exact absurd ⟨_, hdecode, by simp⟩ h
  · rfl

theorem not_tagged_of_decode_inline (h : ValueRef.decode value = .ok .inline) : tagged value = false := by
  cases value with
  | nil => cases h
  | cons b value =>
    by_cases hb : b = 0x00
    · simp [tagged, hb]
    · simp only [ValueRef.decode, hb, if_false] at h
      split_ifs at h <;> cases h

theorem not_namesPages_of_not_tagged (h : tagged value = false) : ¬ NamesPages value := by
  rintro ⟨ref, hdecode, hne⟩
  cases value with
  | nil => cases hdecode
  | cons b value =>
    have hb : b ≠ 0x01 ∧ b ≠ 0x02 := by simpa [tagged] using h
    simp only [ValueRef.decode, hb.1, hb.2, if_false] at hdecode
    split_ifs at hdecode
    cases hdecode
    exact hne rfl

/-- **Bytes in memory are read to their end**, whatever the buffer is. -/
theorem readToEnd_slice (hroom : 0 < room) : vol.readToEnd codec room (.slice value 0) = .ok value := by
  have hdrain : Stream.drain (vol.readStream codec room) (value.length + 1) (.slice value 0) =
      some (.ok value) := by
    refine Stream.drain_eq (P := fun stream => ∃ position, stream = ValueStream.slice value position) (fun
        | ValueStream.slice data position => data.drop position
        | _ => [])
      ?_ ⟨0, rfl⟩ (Nat.lt_succ_self value.length)
    rintro _ ⟨position, rfl⟩
    refine ⟨copied value position room, _, rfl, ⟨_, rfl⟩, ?_, fun hnil => ?_⟩
    · have hrest : (value.drop position).drop (copied value position room).length =
          (value.drop position).drop room := by
        rw [copied, length_take]
        rcases Nat.le_total room (value.drop position).length with hle | hle
        · rw [min_eq_left hle]
        · rw [min_eq_right hle, drop_of_length_le hle, drop_length]
      dsimp only
      rw [← drop_drop, hrest, copied, take_append_drop]
    · rcases take_eq_nil_iff.mp hnil with hzero | hnil
      · omega
      · exact hnil
  rw [Volume.readToEnd, ValueStream.sizeHint, hdrain]
  rfl

end NanoStore.Table
