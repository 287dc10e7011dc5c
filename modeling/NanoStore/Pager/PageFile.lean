import NanoStore.Common.Steps
import NanoStore.Pager.Cache
import NanoStore.Pager.Metadata
/-!
# Pager — the page file

`Pager` of `pager/pagefile.rs` over the bytes of its file. A page is read
through the cache and written through it; allocating and freeing write the
page, the header and the superblock at once. The superblock carries the
mapper that `sync` stored last. No I/O fails: a read behind the end of the
file leaves the buffer at zero, and a write extends the file. One call
works at a time, so that no page is pinned when it is freed.
-/

namespace NanoStore.Pager

open Steps

/-- The configuration of a pager. -/
structure PagerConfig where
  pageSize : PageSize
  compression : CompressionType
  encryption : EncryptionType
  encryptionKey : Option Bytes
  enableChecksums : Bool
  cacheCapacity : ℕ
  cacheWriteBack : Bool
  deriving DecidableEq

def PagerConfig.validate (config : PagerConfig) : Except String Unit :=
  if config.encryption ≠ .none ∧ config.encryptionKey = none then
    .error "Encryption key required when encryption is enabled"
  else .ok ()

/-- What a pager takes from outside: the algorithms, random nonces, and the time in nanoseconds. The
nonces and the times are numbered in the order in which they are asked for. Compression of a few
bytes is relied on to succeed and to add less than a page has. -/
structure Surroundings where
  crates : Crates
  nonce : ℕ → Bytes
  clock : ℕ → ℕ
  length_nonce : ∀ i, (nonce i).length = 12
  compress_short : ∀ compression data, data.length ≤ 352 →
    ∃ packed, crates.compress compression data = .ok packed ∧ packed.length ≤ 4000

/-- Surroundings that hide and shorten nothing, and whose clock stands still. -/
def Surroundings.plain : Surroundings where
  crates := .plain
  nonce _ := List.replicate 12 0
  clock _ := 0
  length_nonce _ := List.length_replicate
  compress_short compression data hdata := by
    cases compression with
    | none => exact ⟨data, rfl, by omega⟩
    | lz4 => exact ⟨_, rfl, by rw [Crates.plain, List.length_append, List.length_replicate]; omega⟩
    | zstd => exact ⟨_, rfl, by rw [List.length_append, List.length_replicate]; omega⟩

/-- `Pager`. `ticks` counts what was asked of the surroundings. -/
structure State extends Allocator where
  file : Bytes
  config : PagerConfig
  header : FileHeader
  cache : Option PageCache
  ticks : ℕ

/-- What `compact_and_truncate` reports. -/
structure VacuumPagerStats where
  pagesMoved : ℕ
  pagesTruncated : ℕ
  bytesReclaimed : ℕ
  fileSizeBefore : ℕ
  fileSizeAfter : ℕ
  deriving DecidableEq

/-- The page is neither free nor a page of the free list. -/
def Page.isUsed (page : Page) : Bool :=
  page.header.pageType ≠ .free ∧ page.header.pageType ≠ .freeList

namespace State

variable (env : Surroundings) (s : State)

/-! ## Slots -/

/-- The bytes of a slot. -/
def pageSize : ℕ := s.config.pageSize.toU32

/-- Bytes are written from the beginning of a slot on. -/
def writeAt (physicalId : ℕ) (bytes : Bytes) : State :=
  { s with file := InPlace.overwrite 0 s.file (physicalId * s.pageSize) bytes }

/-- The page in a slot. -/
def loadPage (physicalId : ℕ) : Except PagerError Page :=
  Page.fromBytes env.crates s.config.encryptionKey s.config.enableChecksums
    (InPlace.readAt 0 s.file (physicalId * s.pageSize) s.pageSize)

/-- The bytes of a page are written to a slot. -/
def storePage (physicalId : ℕ) (page : Page) : Outcome State PagerError Unit :=
  match page.toBytes env.crates s.config.encryptionKey (env.nonce s.ticks) s.pageSize with
  | .error e => ({ s with ticks := s.ticks + 1 }, .error e)
  | .ok bytes => ({ s with ticks := s.ticks + 1 }.writeAt physicalId bytes, .ok ())

/-- A page with the compression and the encryption of the pager. -/
def newPage (pageId : ℕ) (pageType : PageType) (data : Bytes) : Page :=
  { header := { PageHeader.new pageId pageType with
      compression := s.config.compression, encryption := s.config.encryption }
    data := data }

def superblockPage (superblock : Superblock) : Page := s.newPage 1 .superblock superblock.toBytes

def headerPage (header : FileHeader) : Bytes :=
  header.toBytes ++ List.replicate (s.pageSize - header.toBytes.length) 0

/-- The end of `allocate_page` and `free_page`: the header is brought up to date, and the header and the
superblock are written. -/
def writeMetadata : Outcome State PagerError Unit :=
  let header := { s.header with
    totalPages := s.superblock.totalPages
    freePages := s.freeList.totalFree
    firstFreeListPageId := 0 }.updateModifiedTimestamp (env.clock s.ticks / 1000000000)
  let s := { s with header := header, ticks := s.ticks + 1 }
  let s := s.writeAt 0 (s.headerPage header)
  s.storePage env 1 (s.superblockPage s.superblock)

/-! ## Pages -/

/-- `allocate_page`: a free page, else a new one at the end. -/
def allocatePage (pageType : PageType) : Outcome State PagerError ℕ :=
  let (allocator, virtualId, physicalId) := s.toAllocator.allocate
  let s := { s with toAllocator := allocator }
  let page := s.newPage virtualId pageType []
  let page := { page with header := { page.header with virtualPageId := virtualId } }
  andThen (s.storePage env physicalId page) fun s _ =>
    andThen (s.writeMetadata env) fun s _ => (s, .ok virtualId)

/-- `free_page`. The cache is left as it is. -/
def freePage (virtualId : ℕ) : Outcome State PagerError Unit :=
  if virtualId = 0 ∨ virtualId = 1 then (s, .error (.invalidPageId virtualId))
  else
    let physicalId := s.pageMapper.translate virtualId
    match s.loadPage env physicalId with
    | .error e => (s, .error e)
    | .ok page =>
      if page.isUsed then
        andThen (s.storePage env physicalId (s.newPage physicalId .free [])) fun s _ =>
          { s with toAllocator := s.toAllocator.release virtualId }.writeMetadata env
      else (s, .error (.pageAlreadyFree physicalId))

/-- The image of a page goes to its slot. -/
def writePageToDisk (page : Page) : Outcome State PagerError Unit :=
  s.storePage env (s.pageMapper.translate page.header.pageId) page

/-- A page is put into the cache; a dirty page that is evicted is written. -/
def cachePage (cache : PageCache) (page : Page) (dirty : Bool) : Outcome State PagerError Unit :=
  let s := { s with cache := some (cache.put page dirty).1 }
  match (cache.put page dirty).2 with
  | none => (s, .ok ())
  | some evicted => s.writePageToDisk env evicted

/-- `read_page` once the cache was asked in vain: the page is cached under the number that stands in its
header. -/
def readUncached (virtualId : ℕ) : Outcome State PagerError Page :=
  match s.loadPage env (s.pageMapper.translate virtualId) with
  | .error e => (s, .error e)
  | .ok page =>
    let page := { page with header := { page.header with virtualPageId := virtualId } }
    match s.cache with
    | none => (s, .ok page)
    | some cache => andThen (s.cachePage env cache page false) fun s _ => (s, .ok page)

/-- `read_page`: from the cache, else from the slot and then to the cache. -/
def readPage (virtualId : ℕ) : Outcome State PagerError Page :=
  let physicalId := s.pageMapper.translate virtualId
  if s.superblock.totalPages ≤ physicalId then (s, .error (.pageNotFound physicalId))
  else match s.cache with
    | none => s.readUncached env virtualId
    | some cache =>
      match cache.get virtualId with
      | (cache, some page) => ({ s with cache := some cache }, .ok page)
      | (cache, none) => { s with cache := some cache }.readUncached env virtualId

/-- `write_page`. A page that is evicted by a page written through is not looked at. -/
def writePage (page : Page) : Outcome State PagerError Unit :=
  match s.cache with
  | none => s.writePageToDisk env page
  | some cache =>
    if s.config.cacheWriteBack then
      andThen (s.cachePage env cache page true) fun s _ =>
        andThen (s.writePageToDisk env page) fun s _ =>
          ({ s with cache := s.cache.map (·.markClean page.header.pageId) }, .ok ())
    else
      andThen (s.writePageToDisk env page) fun s _ =>
        ({ s with cache := some (cache.put page false).1 }, .ok ())

/-- Every dirty page is written, up to the first that fails. -/
def flushCache : Outcome State PagerError Unit :=
  match s.cache with
  | none => (s, .ok ())
  | some cache =>
    forEach (fun s e => andThen (s.writePageToDisk env e.2) fun s _ =>
      ({ s with cache := s.cache.map (·.markClean e.1) }, .ok ())) s cache.getDirtyPages

def clearCache : Outcome State PagerError Unit :=
  match s.cache with
  | none => (s, .ok ())
  | some cache =>
    forEach (fun s e => s.writePageToDisk env e.2) { s with cache := some cache.clear.1 } cache.clear.2

def writeSuperblock (superblock : Superblock) : Outcome State PagerError Unit :=
  s.writePage env (s.superblockPage superblock)

/-- A dirty mapper goes to the superblock. -/
def persistPageMapper : Outcome State PagerError Unit :=
  if s.pageMapper.dirty then
    let s := { s with superblock := { s.superblock with pageMapper := s.pageMapper } }
    andThen (s.writeSuperblock env s.superblock) fun s _ =>
      ({ s with pageMapper := { s.pageMapper with dirty := false } }, .ok ())
  else (s, .ok ())

/-- `sync`. -/
def sync : Outcome State PagerError Unit :=
  andThen (s.flushCache env) fun s _ => s.persistPageMapper env

/-! ## Creating and opening -/

def newCache (config : PagerConfig) : Option PageCache :=
  if 0 < config.cacheCapacity then some (.new config.cacheCapacity) else none

/-- The mapper of a new pager: its next number is at least that of the next slot. -/
def newMapper (superblock : Superblock) : PageMapper :=
  if superblock.pageMapper.nextVirtualId < superblock.nextPageId then
    .fromState superblock.pageMapper.mapping superblock.nextPageId
  else superblock.pageMapper

/-- A pager whose file is still empty. -/
def blank (config : PagerConfig) : State where
  superblock := .new
  freeList := .new
  pageMapper := newMapper .new
  file := []
  config := config
  header := .new config.pageSize config.compression config.encryption (env.clock 0) (env.clock 1 / 1000000000)
  cache := newCache config
  ticks := 2

/-- `create`. The superblock is written with no compression and no encryption. -/
def create (config : PagerConfig) : Except PagerError State :=
  match config.validate with
  | .error details => .error (.configError details)
  | .ok () =>
    let s := blank env config
    let s := s.writeAt 0 (s.headerPage s.header)
    match s.storePage env 1 { Page.new 1 .superblock with data := s.superblock.toBytes } with
    | (_, .error e) => .error e
    | (s, .ok ()) => .ok s

/-- The pages of the free list, from one on. The source has no bound on the loop, here it is `fuel`; a
chain of more pages than the file has goes in a circle. -/
def readFreeList (crates : Crates) (pageSize : ℕ) (file : Bytes) : ℕ → ℕ → Except PagerError (List ℕ)
  | 0, _ => .error (.internalError "circular free list")
  | fuel + 1, currentPageId =>
    if currentPageId = 0 then .ok [] else
      match Page.fromBytes crates none true (InPlace.readAt 0 file (currentPageId * pageSize) pageSize) with
      | .error e => .error e
      | .ok page =>
        match FreeListPage.fromBytes page.data with
        | .error e => .error e
        | .ok list => (readFreeList crates pageSize file fuel list.nextPage).map (list.freePages ++ ·)

/-- The free list of an opened pager. -/
def loadFreeList (crates : Crates) (pageSize : ℕ) (file : Bytes) (superblock : Superblock) :
    Except PagerError FreeList :=
  let freeList := FreeList.fromState superblock.firstFreeListPage superblock.lastFreeListPage
    superblock.freePages
  if 0 < superblock.freePages ∧ superblock.firstFreeListPage ≠ 0 then
    (readFreeList crates pageSize file (file.length + 1) superblock.firstFreeListPage).map
      freeList.setFreePages
  else .ok freeList

/-- `open`. The pages are read without a key. -/
def openFile (ticks : ℕ) (file : Bytes) : Except PagerError State :=
  match FileHeader.fromBytes (InPlace.readAt 0 file 0 4096) with
  | .error e => .error e
  | .ok header =>
    let pageSize := header.pageSize.toU32
    match Page.fromBytes env.crates none true (InPlace.readAt 0 file pageSize pageSize) with
    | .error e => .error e
    | .ok superblockPage =>
      match Superblock.fromBytes superblockPage.data with
      | .error e => .error e
      | .ok superblock =>
        let config : PagerConfig := ⟨header.pageSize, header.compression, header.encryption, none, true,
          1000, true⟩
        match loadFreeList env.crates pageSize file superblock with
        | .error e => .error e
        | .ok freeList =>
          .ok ⟨⟨superblock, freeList, newMapper superblock⟩, file, config, header, newCache config, ticks⟩

/-! ## Compaction -/

/-- The loop of `find_highest_used_page` over the pages `2 .. n + 2` from the last one down. -/
def findHighestFrom : ℕ → State → Outcome State PagerError (Option ℕ)
  | 0, s => (s, .ok none)
  | n + 1, s => andThen (s.readPage env (n + 2)) fun s page =>
      if page.isUsed then (s, .ok (some (n + 2))) else findHighestFrom n s

/-- The highest slot in use. -/
def findHighestUsedPage : Outcome State PagerError (Option ℕ) :=
  findHighestFrom env (s.superblock.totalPages - 2) s

/-- A page moves to another slot, and its own slot is free. -/
def movePage (fromPageId toPageId : ℕ) : Outcome State PagerError Unit :=
  if fromPageId = toPageId then (s, .error (.internalError "Cannot move page to itself"))
  else if fromPageId = 0 ∨ fromPageId = 1 then (s, .error (.invalidPageId fromPageId))
  else if toPageId = 0 ∨ toPageId = 1 then (s, .error (.invalidPageId toPageId))
  else
    let virtualPages := s.pageMapper.findVirtualPagesForPhysical fromPageId
    andThen (s.readPage env fromPageId) fun s page =>
      let page := { page with header := { page.header with pageId := toPageId } }
      andThen (s.writePageToDisk env page) fun s _ =>
        let s := { s with
          pageMapper := virtualPages.foldl (fun mapper v => mapper.remap v toPageId) s.pageMapper }
        s.writePageToDisk env (s.newPage fromPageId .free [])

/-- The loop of `compact_and_truncate` over the `n` pages behind the highest used one, from the last one
down. Each page that is in use moves to the next free page; the answer is how many moved. -/
def movePages (highest : ℕ) : ℕ → List ℕ → State → Outcome State PagerError ℕ
  | 0, _, s => (s, .ok 0)
  | n + 1, freePages, s => andThen (s.readPage env (highest + 1 + n)) fun s page =>
      if page.isUsed then
        match freePages with
        | [] => (s, .ok 0)
        | toPageId :: freePages => andThen (s.movePage env (highest + 1 + n) toPageId) fun s _ =>
            andThen (movePages highest n freePages s) fun s moved => (s, .ok (moved + 1))
      else movePages highest n freePages s

/-- The slots past the end are gone. -/
def truncateFile (newSize : ℕ) : State :=
  { s with file := s.file.take newSize ++ List.replicate (newSize - s.file.length) 0 }

/-- `compact_and_truncate`. -/
def compactAndTruncate : Outcome State PagerError VacuumPagerStats :=
  let fileSizeBefore := s.file.length
  andThen (s.findHighestUsedPage env) fun s highestUsed =>
    match highestUsed with
    | none => (s, .ok ⟨0, 0, 0, fileSizeBefore, fileSizeBefore⟩)
    | some highest =>
      let (freeList, allFreePages) := s.freeList.snapshotFreePages
      let freePages := (allFreePages.filter fun p => 2 ≤ p ∧ p < highest).mergeSort
      let s := { s with freeList := freeList }
      andThen (movePages env highest (s.superblock.totalPages - (highest + 1)) freePages s)
        fun s pagesMoved =>
          let newTotalPages := highest + 1
          let newFileSize := newTotalPages * s.pageSize
          let pagesTruncated := s.superblock.totalPages - newTotalPages
          let s := s.truncateFile newFileSize
          let s := { s with superblock := { s.superblock with totalPages := newTotalPages } }
          andThen (s.writeSuperblock env s.superblock) fun s _ =>
            (s, .ok ⟨pagesMoved, pagesTruncated, fileSizeBefore - newFileSize, fileSizeBefore, newFileSize⟩)

end State

end NanoStore.Pager
