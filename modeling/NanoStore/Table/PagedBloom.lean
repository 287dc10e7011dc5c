import NanoStore.Common.Steps
import NanoStore.Pager.Intact
/-!
# Bloom filters on pages

`PagedBloomFilter` of `table/bloom/paged.rs`: a root page with the
parameters and the numbers of the bitmap pages, and the bits. A bit that is
set stays set, so that a key is found once its bits are. The pages are of
types the pager writes but does not read again: a bit can be looked at, or
set, only while its page is in the cache, and a filter can be opened only
while its root page is.
-/

namespace NanoStore.Table

open Steps Pager Function List InPlace

/-! ## Pages -/

/-- What a page of a filter holds. -/
inductive BloomPage
  | metadata (numBits numHashFunctions numItems : ℕ) (bitmapPages : List ℕ)
  | bitmap (data : Bytes)
  deriving DecidableEq

/-- The pages of a pager by their numbers: as they were last written, and those in the cache. -/
structure BloomStore where
  disk : ℕ → Option (PageType × BloomPage)
  cached : ℕ → Option BloomPage
  nextPage : ℕ

namespace BloomStore

variable (store : BloomStore)

/-- `read_page`: what is not in the cache is read from its slot, where the type of the page is looked at
first. -/
def readPage (p : ℕ) : Outcome BloomStore (Failure PagerError) BloomPage :=
  match store.cached p with
  | some page => (store, .ok page)
  | none =>
    match store.disk p with
    | none => (store, .error (.error (.pageNotFound p)))
    | some (pageType, page) =>
      match PageType.fromU8 pageType.toU8 with
      | none => (store, .error (.error (.invalidPageType pageType.toU8)))
      | some _ => ({ store with cached := update store.cached p (some page) }, .ok page)

/-- `write_page`, to the slot and to the cache. A page that was not in the cache may cost others their
place, or find none itself. -/
def writePage (drops : ℕ → Bool) (p : ℕ) (pageType : PageType) (page : BloomPage) : BloomStore :=
  { store with
    disk := update store.disk p (some (pageType, page))
    cached := fun q =>
      if (store.cached p).isNone && drops q then none else update store.cached p (some page) q }

/-- Pages leave the cache. -/
def evict (drops : ℕ → Bool) : BloomStore :=
  { store with cached := fun q => if drops q then none else store.cached q }

/-- A page is on the disk, and in the cache it is no other. -/
structure Shows (p : ℕ) (pageType : PageType) (page : BloomPage) : Prop where
  disk : store.disk p = some (pageType, page)
  cached : ∀ page', store.cached p = some page' → page' = page

variable {store} {p q : ℕ} {pageType pageType' : PageType} {page page' : BloomPage} {drops : ℕ → Bool}

theorem shows_writePage : (store.writePage drops p pageType page).Shows p pageType page where
  disk := update_self _ _ _
  cached page' h := by
    simp only [writePage, update_self] at h
    split_ifs at h
    exact (Option.some.inj h).symm

theorem Shows.writePage (h : store.Shows q pageType' page') (hqp : q ≠ p) :
    (store.writePage drops p pageType page).Shows q pageType' page' where
  disk := (update_of_ne hqp _ _).trans h.disk
  cached page'' hcached := by
    simp only [BloomStore.writePage, update_of_ne hqp] at hcached
    split_ifs at hcached
    exact h.cached page'' hcached

theorem Shows.evict (h : store.Shows p pageType page) : (store.evict drops).Shows p pageType page where
  disk := h.disk
  cached page' hcached := by
    simp only [BloomStore.evict] at hcached
    split_ifs at hcached
    exact h.cached page' hcached

/-- **A page of an unknown type is read from the cache or not at all.** -/
theorem Shows.readPage (h : store.Shows p pageType page) (hunknown : PageType.fromU8 pageType.toU8 = none) :
    store.readPage p = (store, if (store.cached p).isSome then .ok page
      else .error (.error (.invalidPageType pageType.toU8))) := by
  rw [BloomStore.readPage]
  cases hcached : store.cached p with
  | none => simp [h.disk, hunknown]
  | some page' =>
    rw [h.cached page' hcached]
    rfl

/-- A pager has a page as the store has it: in its slot is an image of its type, and its cache has the
bytes if the store's has the page. -/
structure Mirrors (store : BloomStore) (encode : BloomPage → Bytes) (env : Surroundings) (s : Pager.State)
    (p : ℕ) : Prop where
  inFile : s.slotOf p < s.superblock.totalPages ∧ (s.slotOf p + 1) * s.pageSize ≤ s.file.length
  slot : ∀ pageType page, store.disk p = some (pageType, page) → ∃ header stored,
    header.pageType = pageType ∧ 32 + stored.length ≤ s.pageSize - 32 ∧
      slot s.pageSize s.file (s.slotOf p) = Page.image env.crates s.pageSize header stored
  cached : (s.cache.bind fun cache => cache.find p).map (·.page.data) = (store.cached p).map encode

/-- **The pager answers as the store does** where a page is of a type it does not read again. -/
theorem Mirrors.readPage {encode : BloomPage → Bytes} {env : Surroundings} {s : Pager.State}
    (h : store.Mirrors encode env s p) (hdisk : store.disk p = some (pageType, page))
    (hunknown : PageType.fromU8 pageType.toU8 = none) :
    ((s.readPage env p).2.map Page.data).mapError Failure.error = (store.readPage p).2.map encode := by
  obtain ⟨header, stored, rfl, hroom, hslot⟩ := h.slot pageType page hdisk
  -- without the cache the type is looked at first
  have hload : ∀ cache, ({ s with cache := cache }.readUncached env p).2 =
      .error (.invalidPageType header.pageType.toU8) := by
    intro cache
    have hfile : s.loadPage env (s.slotOf p) = .error (.invalidPageType header.pageType.toU8) := by
      rw [State.loadPage, readAt_eq_slot h.inFile.2, hslot, Page.fromBytes_image_unknown hunknown hroom]
    have hsame : { s with cache := cache }.loadPage env ({ s with cache := cache }.slotOf p) = _ := hfile
    rw [State.readUncached, hsame]
  have hcached := h.cached
  rw [State.readPage, if_neg (not_le.mpr h.inFile.1), BloomStore.readPage]
  cases hcache : s.cache with
  | none =>
    rw [hcache] at hcached
    have hnone : store.cached p = none := by simpa using hcached.symm
    have hself := hload s.cache
    simp [hnone, hdisk, hunknown, hself, Except.map, Except.mapError]
  | some cache =>
    rw [hcache, Option.bind_some] at hcached
    cases hfind : cache.find p with
    | none =>
      have hnone : store.cached p = none := by simpa [hfind] using hcached.symm
      simp [PageCache.get, hfind, hnone, hdisk, hunknown, hload, Except.map, Except.mapError]
    | some entry =>
      obtain ⟨page', hpage', hdata⟩ : ∃ page', store.cached p = some page' ∧ encode page' = entry.page.data := by
        simpa [hfind, eq_comm] using hcached
      simp [PageCache.get, hfind, hpage', hdata, Except.map, Except.mapError]

end BloomStore

/-! ## The filter -/

/-- `hash_key`: FNV-1a and a multiplicative hash, in 64 bits. -/
def hashKey (key : Bytes) : ℕ × ℕ :=
  (key.foldl (fun h b => (h ^^^ b.val) * 0x0100000001b3 % 2 ^ 64) 0xcbf29ce484222325,
    key.foldl (fun h b => (h * 31 + b.val) % 2 ^ 64) 0)

def setByteBit (bit : ℕ) (b : Byte) : Byte := ⟨(b.val ||| 2 ^ bit) % 256, Nat.mod_lt _ (by decide)⟩

/-- `PagedBloomFilter`, with the page size of its pager. -/
structure PagedBloomFilter where
  rootPageId : ℕ
  numBits : ℕ
  numHashFunctions : ℕ
  numItems : ℕ
  bitmapPages : List ℕ
  pageSize : PageSize
  deriving DecidableEq

namespace PagedBloomFilter

variable (f : PagedBloomFilter) (store : BloomStore)

/-- How many bits a page holds. -/
def bitsPerPage : ℕ := f.pageSize.dataSize * 8

/-- `get_bit_position`: a filter without bits divides by zero. -/
def getBitPosition (key : Bytes) (i : ℕ) : Except (Failure PagerError) ℕ :=
  if f.numBits = 0 then .error .panicked
  else .ok (((hashKey key).1 + i * (hashKey key).2) % 2 ^ 64 % f.numBits)

/-- The bitmap page of a position, read. -/
def readBitmap (pos : ℕ) : Outcome BloomStore (Failure PagerError) (ℕ × Bytes) :=
  match f.bitmapPages[pos / f.bitsPerPage]? with
  | none => (store, .error .panicked)
  | some p => andThen (store.readPage p) fun store page =>
      match page with
      | .metadata .. => (store, .error .panicked)
      | .bitmap data => (store, .ok (p, data))

/-- `set_bit`: read the page, change the byte, write it. -/
def setBit (pos : ℕ) : Outcome BloomStore (Failure PagerError) Unit :=
  andThen (f.readBitmap store pos) fun store (p, data) =>
    let byte := pos % f.bitsPerPage / 8
    let data := if data.length ≤ byte then data ++ replicate (f.pageSize.dataSize - data.length) 0 else data
    (store.writePage (fun _ => false) p .bloomData
      (.bitmap (data.modify byte (setByteBit (pos % f.bitsPerPage % 8)))), .ok ())

def getBit (pos : ℕ) : Outcome BloomStore (Failure PagerError) Bool :=
  andThen (f.readBitmap store pos) fun store (_, data) =>
    match data[pos % f.bitsPerPage / 8]? with
    | none => (store, .error .panicked)
    | some b => (store, .ok (b.val.testBit (pos % f.bitsPerPage % 8)))

/-- `write_metadata`. The numbers of the bitmap pages stand behind 72 bytes. -/
def writeMetadata (drops : ℕ → Bool) : Outcome BloomStore (Failure PagerError) Unit :=
  if f.pageSize.dataSize < 72 + 8 * f.bitmapPages.length then (store, .error .panicked)
  else (store.writePage drops f.rootPageId .bloomMeta
    (.metadata f.numBits (f.numHashFunctions % 2 ^ 32) f.numItems f.bitmapPages), .ok ())

/-- The bit of one hash function set. -/
def setKeyBit (key : Bytes) (store : BloomStore) (i : ℕ) : Outcome BloomStore (Failure PagerError) Unit :=
  match f.getBitPosition key i with
  | .error e => (store, .error e)
  | .ok pos => f.setBit store pos

/-- `insert`: one bit for each hash, then the metadata. -/
def insert (drops : ℕ → Bool) (key : Bytes) :
    Outcome (PagedBloomFilter × BloomStore) (Failure PagerError) Unit :=
  match forEach (f.setKeyBit key) store (range f.numHashFunctions) with
  | (store, .error e) => ((f, store), .error e)
  | (store, .ok ()) =>
    let f := { f with numItems := f.numItems + 1 }
    let (store, result) := f.writeMetadata store drops
    ((f, store), result)

/-- The loop of `contains`, over the hash functions that are left. -/
def containsAll (key : Bytes) : BloomStore → List ℕ → Outcome BloomStore (Failure PagerError) Bool
  | store, [] => (store, .ok true)
  | store, i :: is =>
    match f.getBitPosition key i with
    | .error e => (store, .error e)
    | .ok pos => andThen (f.getBit store pos) fun store set =>
        if set then containsAll key store is else (store, .ok false)

/-- `contains`, up to the first bit that is not set. -/
def contains (key : Bytes) : Outcome BloomStore (Failure PagerError) Bool :=
  f.containsAll key store (range f.numHashFunctions)

/-- `new`, for a number of bits and of hash functions. The pages are numbered on from the last. -/
def new (pageSize : PageSize) (numBits numHashFunctions : ℕ) (drops : ℕ → ℕ → Bool)
    (store : BloomStore) : Except (Failure PagerError) (PagedBloomFilter × BloomStore) :=
  let root := store.nextPage
  let numPages := (numBits + (pageSize.dataSize * 8 - 1)) / (pageSize.dataSize * 8)
  let f : PagedBloomFilter :=
    ⟨root, numBits, numHashFunctions, 0, range' (root + 1) numPages, pageSize⟩
  let store := f.bitmapPages.foldl (fun store p => store.writePage (drops p) p .bloomData
    (.bitmap (replicate pageSize.dataSize 0))) { store with nextPage := root + 1 + numPages }
  match f.writeMetadata store (drops root) with
  | (_, .error e) => .error e
  | (store, .ok ()) => .ok (f, store)

/-- `open`, from the root page. A page that holds no metadata does not begin with the magic number. -/
def openFilter (pageSize : PageSize) (root : ℕ) (store : BloomStore) :
    Outcome BloomStore (Failure PagerError) PagedBloomFilter :=
  andThen (store.readPage root) fun store page =>
    match page with
    | .metadata numBits numHashFunctions numItems bitmapPages =>
      (store, .ok ⟨root, numBits, numHashFunctions, numItems, bitmapPages, pageSize⟩)
    | .bitmap _ => (store, .error (.error (.internalError "Invalid bloom filter magic number")))

/-! ## Bits -/

variable {f} {store} {store' : BloomStore} {key : Bytes} {p pos i : ℕ} {data : Bytes}
  {drops : ℕ → Bool}

/-- The bit is set in the bytes of a page. -/
def BitIn (data : Bytes) (byte bit : ℕ) : Prop := ∃ b, data[byte]? = some b ∧ b.val.testBit bit = true

theorem testBit_setByteBit (bit bit' : ℕ) (b : Byte) (hbit : bit' < 8) :
    (setByteBit bit b).val.testBit bit' = (b.val.testBit bit' || decide (bit = bit')) := by
  show ((b.val ||| 2 ^ bit) % 2 ^ 8).testBit bit' = _
  rw [Nat.testBit_mod_two_pow, Nat.testBit_or, Nat.testBit_two_pow]
  simp [hbit]

/-- **A bit that is set stays set.** -/
theorem BitIn.modify {byte bit byte' bit' : ℕ} (h : BitIn data byte bit) (hbit : bit < 8) :
    BitIn (data.modify byte' (setByteBit bit')) byte bit := by
  obtain ⟨b, hb, hset⟩ := h
  by_cases hbyte : byte' = byte
  · subst hbyte
    exact ⟨setByteBit bit' b, by simp [hb], by simp [testBit_setByteBit, hbit, hset]⟩
  · exact ⟨b, by simp [hbyte, hb], hset⟩

theorem bitIn_modify_self {byte bit : ℕ} (hbyte : byte < data.length) (hbit : bit < 8) :
    BitIn (data.modify byte (setByteBit bit)) byte bit := by
  refine ⟨setByteBit bit data[byte], by simp [hbyte], ?_⟩
  simp [testBit_setByteBit, hbit]

/-! ## What always holds -/

/-- The pages of a filter: the root page lists the bitmap pages, and these have room for all bits. -/
structure Stored (f : PagedBloomFilter) (store : BloomStore) : Prop where
  root : ∃ n, store.Shows f.rootPageId .bloomMeta
    (.metadata f.numBits (f.numHashFunctions % 2 ^ 32) n f.bitmapPages)
  bitmap : ∀ p ∈ f.bitmapPages, ∃ data, store.Shows p .bloomData (.bitmap data) ∧
    data.length = f.pageSize.dataSize
  room : f.numBits ≤ f.bitmapPages.length * f.bitsPerPage
  apart : f.rootPageId ∉ f.bitmapPages
  fits : 72 + 8 * f.bitmapPages.length ≤ f.pageSize.dataSize

/-- The bit of a position is set, on the disk. -/
def HasBit (f : PagedBloomFilter) (store : BloomStore) (pos : ℕ) : Prop :=
  ∃ p data, f.bitmapPages[pos / f.bitsPerPage]? = some p ∧ store.disk p = some (.bloomData, .bitmap data) ∧
    BitIn data (pos % f.bitsPerPage / 8) (pos % f.bitsPerPage % 8)

/-- The page of a position is in the cache. -/
def InCache (f : PagedBloomFilter) (store : BloomStore) (pos : ℕ) : Prop :=
  ∃ p, f.bitmapPages[pos / f.bitsPerPage]? = some p ∧ (store.cached p).isSome

/-- **The pages of a filter are read from the cache or not at all.** -/
theorem Stored.readBitmap (h : f.Stored store) (hpos : pos < f.numBits) :
    ∃ p data, f.bitmapPages[pos / f.bitsPerPage]? = some p ∧
      store.disk p = some (.bloomData, .bitmap data) ∧ data.length = f.pageSize.dataSize ∧
      f.readBitmap store pos = (store, if (store.cached p).isSome then .ok (p, data)
        else .error (.error (.invalidPageType 15))) := by
  have hlt : pos / f.bitsPerPage < f.bitmapPages.length := by
    refine Nat.div_lt_of_lt_mul ?_
    rw [Nat.mul_comm]
    exact lt_of_lt_of_le hpos h.room
  have hpage := getElem?_eq_getElem hlt
  obtain ⟨data, hshows, hlen⟩ := h.bitmap _ (getElem_mem hlt)
  refine ⟨_, data, hpage, hshows.disk, hlen, ?_⟩
  rw [PagedBloomFilter.readBitmap, hpage]
  simp only [hshows.readPage rfl]
  split_ifs
  · rfl
  · rfl

theorem Stored.writeBitmap (h : f.Stored store) (hp : p ∈ f.bitmapPages)
    (hlen : data.length = f.pageSize.dataSize) :
    f.Stored (store.writePage drops p .bloomData (.bitmap data)) := by
  have hne : f.rootPageId ≠ p := fun heq => h.apart (heq ▸ hp)
  obtain ⟨n, hroot⟩ := h.root
  refine { h with root := ⟨n, hroot.writePage hne⟩, bitmap := fun q hq => ?_ }
  by_cases hqp : q = p
  · subst hqp
    exact ⟨data, BloomStore.shows_writePage, hlen⟩
  · obtain ⟨data', hshows, hlen'⟩ := h.bitmap q hq
    exact ⟨data', hshows.writePage hqp, hlen'⟩

theorem Stored.writeMetadata (h : f.Stored store) (drops : ℕ → Bool) (n : ℕ) :
    let f' := { f with numItems := n }
    f'.Stored (f'.writeMetadata store drops).1 ∧ (f'.writeMetadata store drops).2 = .ok () := by
  have hfits : ¬ f.pageSize.dataSize < 72 + 8 * f.bitmapPages.length := not_lt.mpr h.fits
  simp only [PagedBloomFilter.writeMetadata, if_neg hfits, and_true]
  refine ⟨⟨n, BloomStore.shows_writePage⟩, fun q hq => ?_, h.room, h.apart, h.fits⟩
  obtain ⟨data, hshows, hlen⟩ := h.bitmap q hq
  exact ⟨data, hshows.writePage fun heq => h.apart (heq ▸ hq), hlen⟩

theorem HasBit.writeBitmap {pos' : ℕ} (h : f.HasBit store pos')
    (hdisk : store.disk p = some (.bloomData, .bitmap data)) {byte bit : ℕ} :
    f.HasBit (store.writePage drops p .bloomData (.bitmap (data.modify byte (setByteBit bit)))) pos' := by
  obtain ⟨q, data', hpage, hdata, hbit⟩ := h
  by_cases hqp : q = p
  · subst hqp
    cases hdata.symm.trans hdisk
    exact ⟨q, _, hpage, update_self _ _ _, hbit.modify (Nat.mod_lt _ (by decide))⟩
  · exact ⟨q, data', hpage, (update_of_ne hqp _ _).trans hdata, hbit⟩

theorem HasBit.writeMetadata (h : f.Stored store) (hbit : f.HasBit store pos) {n : ℕ} :
    f.HasBit ({ f with numItems := n }.writeMetadata store drops).1 pos := by
  obtain ⟨q, data, hpage, hdata, hin⟩ := hbit
  have hq : q ≠ f.rootPageId := fun heq => h.apart (heq ▸ mem_of_getElem? hpage)
  refine ⟨q, data, hpage, ?_, hin⟩
  unfold PagedBloomFilter.writeMetadata
  split_ifs
  · exact hdata
  · exact (update_of_ne hq _ _).trans hdata

/-- From one state of the pages to another no bit is lost. -/
structure Keeps (f : PagedBloomFilter) (store store' : BloomStore) : Prop where
  stored : f.Stored store'
  bits : ∀ pos, f.HasBit store pos → f.HasBit store' pos

theorem Keeps.trans {store'' : BloomStore} (h : f.Keeps store store') (h' : f.Keeps store' store'') :
    f.Keeps store store'' := ⟨h'.stored, fun pos hpos => h'.bits pos (h.bits pos hpos)⟩

/-- **A position that is set.** -/
theorem Stored.setBit (h : f.Stored store) (hpos : pos < f.numBits) : f.Keeps store (f.setBit store pos).1 ∧
    ((f.setBit store pos).2 = .ok () → f.HasBit (f.setBit store pos).1 pos) := by
  obtain ⟨p, data, hpage, hdisk, hlen, hread⟩ := h.readBitmap hpos
  rw [PagedBloomFilter.setBit, hread]
  by_cases hcached : (store.cached p).isSome = true
  · have hbyte : pos % f.bitsPerPage / 8 < data.length := by
      have hpositive : 0 < f.bitsPerPage := by
        have hfits := h.fits
        rw [bitsPerPage]
        omega
      have hlt := Nat.mod_lt pos hpositive
      rw [bitsPerPage] at hlt ⊢
      omega
    rw [if_pos hcached, andThen_ok]
    simp only [if_neg (not_le.mpr hbyte)]
    have hmem : p ∈ f.bitmapPages := mem_of_getElem? hpage
    refine ⟨⟨h.writeBitmap hmem (by rw [length_modify, hlen]), fun q hq => ?_⟩, fun _ => ?_⟩
    · exact hq.writeBitmap hdisk
    · exact ⟨p, _, hpage, update_self _ _ _, bitIn_modify_self hbyte (Nat.mod_lt _ (by decide))⟩
  · rw [if_neg hcached, andThen_error]
    exact ⟨⟨h, fun _ hq => hq⟩, nofun⟩

theorem getBitPosition_lt (h : f.getBitPosition key i = .ok pos) : pos < f.numBits := by
  unfold getBitPosition at h
  split_ifs at h with hzero
  cases h
  exact Nat.mod_lt _ (Nat.pos_of_ne_zero hzero)

/-- The bit of the key for one hash function is set. -/
def HasKeyBit (f : PagedBloomFilter) (store : BloomStore) (key : Bytes) (i : ℕ) : Prop :=
  ∃ pos, f.getBitPosition key i = .ok pos ∧ f.HasBit store pos

/-- **The bits of a key are set one after the other**, up to the first whose page is not in the cache. -/
theorem Stored.setKeyBits (h : f.Stored store) {is : List ℕ} :
    f.Keeps store (forEach (f.setKeyBit key) store is).1 ∧ ((forEach (f.setKeyBit key) store is).2 = .ok () →
        ∀ i ∈ is, f.HasKeyBit (forEach (f.setKeyBit key) store is).1 key i) := by
  induction is generalizing store with
  | nil => exact ⟨⟨h, fun _ hq => hq⟩, nofun⟩
  | cons i is ih =>
    rw [forEach_cons, setKeyBit]
    cases hposition : f.getBitPosition key i with
    | error e => exact ⟨⟨h, fun _ hq => hq⟩, nofun⟩
    | ok pos =>
      obtain ⟨hkeeps, hset⟩ := h.setBit (getBitPosition_lt hposition)
      dsimp only
      generalize f.setBit store pos = x at hkeeps hset ⊢
      obtain ⟨store₁, e | _⟩ := x
      · exact ⟨hkeeps, nofun⟩
      · obtain ⟨hrest, hall⟩ := ih hkeeps.stored
        refine ⟨hkeeps.trans hrest, fun hok j hj => ?_⟩
        rcases mem_cons.mp hj with rfl | hj
        · exact ⟨pos, hposition, hrest.bits pos (hset rfl)⟩
        · exact hall hok j hj

/-! ## Reading -/

/-- The page of the key's bit for one hash function is in the cache. -/
def KeyInCache (f : PagedBloomFilter) (store : BloomStore) (key : Bytes) (i : ℕ) : Prop :=
  ∀ pos, f.getBitPosition key i = .ok pos → f.InCache store pos

/-- **A key whose bits are set is found** exactly if their pages are in the cache. -/
theorem Stored.containsAll_iff (h : f.Stored store) {is : List ℕ}
    (hbits : ∀ i ∈ is, f.HasKeyBit store key i) :
    (f.containsAll key store is).2 = .ok true ↔ ∀ i ∈ is, f.KeyInCache store key i := by
  induction is with
  | nil => exact iff_of_true rfl nofun
  | cons i is ih =>
    obtain ⟨pos, hposition, p, data, hpage, hdisk, b, hb, hset⟩ := hbits i mem_cons_self
    obtain ⟨p', data', hpage', hdisk', -, hread⟩ := h.readBitmap (getBitPosition_lt hposition)
    cases hpage.symm.trans hpage'
    cases hdisk.symm.trans hdisk'
    have hcache : f.KeyInCache store key i ↔ (store.cached p).isSome = true := by
      simp [KeyInCache, InCache, hposition, hpage]
    rw [forall_mem_cons, hcache, containsAll, hposition]
    simp only [getBit, hread]
    by_cases hcached : (store.cached p).isSome = true
    · have hrest := ih fun j hj => hbits j (mem_cons_of_mem _ hj)
      simp [hcached, andThen_ok, hb, hset, hrest, true_and]
    · simp [hcached]

/-- **A filter is opened** exactly if its root page is in the cache. -/
theorem Stored.openFilter (h : f.Stored store) : ∃ n, openFilter f.pageSize f.rootPageId store =
    (store, if (store.cached f.rootPageId).isSome then
        .ok { f with numHashFunctions := f.numHashFunctions % 2 ^ 32, numItems := n }
        else .error (.error (.invalidPageType 14))) := by
  obtain ⟨n, hroot⟩ := h.root
  refine ⟨n, ?_⟩
  rw [PagedBloomFilter.openFilter, hroot.readPage rfl]
  split_ifs
  · rfl
  · rfl

theorem Stored.opened (h : f.Stored store) {n : ℕ} :
    { f with numHashFunctions := f.numHashFunctions % 2 ^ 32, numItems := n }.Stored store := by
  obtain ⟨m, hroot⟩ := h.root
  exact { h with root := ⟨m, by simpa using hroot⟩ }

/-! ## Histories -/

/-- The calls: keys are inserted, pages leave the cache, and the filter is opened from its root page. After
a new start of the pager the cache is empty. -/
inductive Call
  | insert (key : Bytes) (drops : ℕ → Bool)
  | evict (drops : ℕ → Bool)
  | reopen

/-- The filter and the pages a call leaves, and its answer. -/
def exec (s : PagedBloomFilter × BloomStore) :
    Call → (PagedBloomFilter × BloomStore) × Except (Failure PagerError) Unit
  | .insert key drops => s.1.insert s.2 drops key
  | .evict drops => ((s.1, s.2.evict drops), .ok ())
  | .reopen =>
    match openFilter s.1.pageSize s.1.rootPageId s.2 with
    | (store, .error e) => ((s.1, store), .error e)
    | (store, .ok f) => ((f, store), .ok ())

/-- The keys that were inserted have their bits. -/
structure Sound (trace : List (Call × Except (Failure PagerError) Unit))
    (s : PagedBloomFilter × BloomStore) : Prop where
  stored : s.1.Stored s.2
  keys : ∀ key drops, (Call.insert key drops, Except.ok ()) ∈ trace →
    ∀ i < s.1.numHashFunctions, s.1.HasKeyBit s.2 key i

variable {trace : List (Call × Except (Failure PagerError) Unit)} {s : PagedBloomFilter × BloomStore}

theorem Sound.insert (h : Sound trace s) :
    Sound ((.insert key drops, (s.1.insert s.2 drops key).2) :: trace) (s.1.insert s.2 drops key).1 := by
  obtain ⟨f, store⟩ := s
  obtain ⟨hkeeps, hset⟩ := h.stored.setKeyBits
  simp only [PagedBloomFilter.insert]
  generalize forEach (f.setKeyBit key) store (range f.numHashFunctions) = x at hkeeps hset ⊢
  obtain ⟨store₁, e | _⟩ := x
  · refine ⟨hkeeps.stored, fun key' drops' hmem i hi => ?_⟩
    rcases mem_cons.mp hmem with heq | hmem
    · cases heq
    · obtain ⟨pos, hposition, hbit⟩ := h.keys key' drops' hmem i hi
      exact ⟨pos, hposition, hkeeps.bits pos hbit⟩
  · have hwrite := hkeeps.stored.writeMetadata drops (f.numItems + 1)
    refine ⟨hwrite.1, fun key' drops' hmem i hi => ?_⟩
    have hbits : f.HasKeyBit store₁ key' i := by
      rcases mem_cons.mp hmem with heq | hmem
      · have hcall := congrArg Prod.fst heq
        cases hcall
        exact hset rfl i (mem_range.mpr hi)
      · obtain ⟨pos, hposition, hbit⟩ := h.keys key' drops' hmem i hi
        exact ⟨pos, hposition, hkeeps.bits pos hbit⟩
    obtain ⟨pos, hposition, hbit⟩ := hbits
    exact ⟨pos, hposition, hbit.writeMetadata hkeeps.stored⟩

/-- **One call.** -/
theorem Sound.exec (h : Sound trace s) {call : Call} :
    Sound ((call, (exec s call).2) :: trace) (exec s call).1 := by
  cases call with
  | insert key drops => exact h.insert
  | evict drops =>
    obtain ⟨n, hroot⟩ := h.stored.root
    refine ⟨{ h.stored with root := ⟨n, hroot.evict⟩, bitmap := fun p hp => ?_ }, fun key drops' hmem => ?_⟩
    · obtain ⟨data, hshows, hlen⟩ := h.stored.bitmap p hp
      exact ⟨data, hshows.evict, hlen⟩
    · rcases mem_cons.mp hmem with heq | hmem
      · cases heq
      · exact h.keys key drops' hmem
  | reopen =>
    obtain ⟨n, hopen⟩ := h.stored.openFilter
    have hkeys : ∀ answer key drops, (Call.insert key drops, Except.ok ()) ∈ (Call.reopen, answer) :: trace →
        (Call.insert key drops, Except.ok ()) ∈ trace := by
      intro answer key drops hmem
      rcases mem_cons.mp hmem with heq | hmem
      · cases heq
      · exact hmem
    simp only [PagedBloomFilter.exec, hopen]
    by_cases hcached : (s.2.cached s.1.rootPageId).isSome = true
    · rw [if_pos hcached]
      refine ⟨h.stored.opened, fun key drops hmem i hi => ?_⟩
      exact h.keys key drops (hkeys _ key drops hmem) i (lt_of_lt_of_le hi (Nat.mod_le _ _))
    · rw [if_neg hcached]
      exact ⟨h.stored, fun key drops hmem => h.keys key drops (hkeys _ key drops hmem)⟩

/-! ## A new filter -/

theorem shows_zeros {drops : ℕ → ℕ → Bool} {zeros : BloomPage} (pages : List ℕ) (store : BloomStore) (p : ℕ)
    (h : p ∈ pages ∨ store.Shows p .bloomData zeros) :
    (pages.foldl (fun store p => store.writePage (drops p) p .bloomData zeros) store).Shows p .bloomData
      zeros := by
  induction pages generalizing store with
  | nil => exact h.resolve_left not_mem_nil
  | cons q pages ih =>
    refine ih _ ?_
    by_cases hpq : p = q
    · subst hpq
      exact .inr BloomStore.shows_writePage
    · rcases h with hmem | hshows
      · exact .inl ((mem_cons.mp hmem).resolve_left hpq)
      · exact .inr (hshows.writePage hpq)

theorem new_sound {pageSize : PageSize} {numBits numHashFunctions : ℕ} {drops : ℕ → ℕ → Bool}
    {store : BloomStore} (h : new pageSize numBits numHashFunctions drops store = .ok s) : Sound [] s := by
  unfold new at h
  generalize hpages : (numBits + (pageSize.dataSize * 8 - 1)) / (pageSize.dataSize * 8) = numPages at h
  dsimp only [PagedBloomFilter.writeMetadata] at h
  split_ifs at h with hfits
  cases h
  have hsize : 0 < pageSize.dataSize * 8 := by cases pageSize <;> decide
  refine ⟨⟨⟨0, BloomStore.shows_writePage⟩, fun p hp => ?_, ?_, ?_, not_lt.mp hfits⟩, fun _ _ h => by cases h⟩
  · have hp' : p ≠ store.nextPage := by
      have hrange := (mem_range'_1.mp hp).1
      omega
    exact ⟨_, (shows_zeros _ _ p (.inl hp)).writePage hp', length_replicate⟩
  · show numBits ≤ (range' (store.nextPage + 1) numPages).length * (pageSize.dataSize * 8)
    rw [length_range', ← hpages]
    generalize pageSize.dataSize * 8 = bits at *
    have hdiv := Nat.div_add_mod' (numBits + (bits - 1)) bits
    have hmod := Nat.mod_lt (numBits + (bits - 1)) hsize
    omega
  · intro hmem
    have hrange : store.nextPage + 1 ≤ store.nextPage := (mem_range'_1.mp hmem).1
    omega

/-- The key is found, by the filter at hand and by the one opened from the root page. -/
def Answers (s : PagedBloomFilter × BloomStore) (key : Bytes) : Prop :=
  (s.1.contains s.2 key).2 = .ok true ∧ ∃ store f,
    openFilter s.1.pageSize s.1.rootPageId s.2 = (store, .ok f) ∧ (f.contains store key).2 = .ok true

/-- **After every history a key that was inserted is found** exactly if its bits are on pages in the cache,
and the root page is there too. -/
theorem answers_iff {pageSize : PageSize} {numBits numHashFunctions : ℕ} {drops : ℕ → ℕ → Bool}
    {store : BloomStore} {s₀ : PagedBloomFilter × BloomStore} {key : Bytes} {drops' : ℕ → Bool}
    (hnew : new pageSize numBits numHashFunctions drops store = .ok s₀)
    (hrun : Run exec anyCall s₀ trace s) (hinserted : (Call.insert key drops', .ok ()) ∈ trace) :
    Answers s key ↔ (∀ i < s.1.numHashFunctions, s.1.KeyInCache s.2 key i) ∧
      (s.2.cached s.1.rootPageId).isSome := by
  have hsound : Sound trace s := hrun.invariant (new_sound hnew) fun _ _ call h _ => h.exec
  obtain ⟨n, hopen⟩ := hsound.stored.openFilter
  have hkeys := hsound.keys key drops' hinserted
  have hcont : (s.1.contains s.2 key).2 = .ok true ↔
      ∀ i < s.1.numHashFunctions, s.1.KeyInCache s.2 key i := by
    rw [contains, hsound.stored.containsAll_iff fun i hi => hkeys i (mem_range.mp hi)]
    simp [mem_range]
  rw [Answers, hcont, hopen]
  refine and_congr_right fun hcache => ?_
  by_cases hcached : (s.2.cached s.1.rootPageId).isSome = true
  · rw [if_pos hcached]
    refine iff_of_true ⟨_, _, rfl, ?_⟩ hcached
    -- the opened filter asks no other bits
    have hle : ∀ i ∈ range (s.1.numHashFunctions % 2 ^ 32), i < s.1.numHashFunctions := by
      intro i hi
      exact lt_of_lt_of_le (mem_range.mp hi) (Nat.mod_le _ _)
    rw [contains, hsound.stored.opened.containsAll_iff fun i hi => hkeys i (hle i hi)]
    exact fun i hi => hcache i (hle i hi)
  · rw [if_neg hcached]
    refine iff_of_false ?_ hcached
    rintro ⟨_, _, hno, -⟩
    cases hno

/-- A filter of 100 bits and three hash functions, over pages of 4 KB. -/
def smallFilter : PagedBloomFilter × BloomStore :=
  match new .size4KB 100 3 (fun _ _ => false) ⟨fun _ => none, fun _ => none, 2⟩ with
  | .error _ => (⟨0, 0, 0, 0, [], .size4KB⟩, ⟨fun _ => none, fun _ => none, 0⟩)
  | .ok s => s

def keyInserted : Call := .insert [1, 2] fun _ => false

/-- Another key is inserted after it, and pages that are not the filter's leave the cache. -/
def keyThenOther : List Call := [keyInserted, .insert [7] fun _ => false, .evict fun p => 3 < p]

/-- The key is found: the root page 2 and the page 3 of the bits are in the cache. -/
theorem answers_iff_cached : (keyInserted, .ok ()) ∈ (execute exec smallFilter keyThenOther).1 ∧
    Answers (execute exec smallFilter keyThenOther).2 [1, 2] := by
  have hnew : new .size4KB 100 3 (fun _ _ => false) ⟨fun _ => none, fun _ => none, 2⟩ = .ok smallFilter := rfl
  have hinserted : (keyInserted, .ok ()) ∈ (execute exec smallFilter keyThenOther).1 := by
    refine .tail _ (.tail _ (mem_singleton.mpr (Prod.ext rfl ?_)))
    decide +kernel
  refine ⟨hinserted, (answers_iff hnew (run_execute exec _ _) hinserted).mpr ⟨?_, by decide +kernel⟩⟩
  intro i _ pos hpos
  have hlt : pos < 100 := getBitPosition_lt hpos
  have hpage : pos / bitsPerPage (execute exec smallFilter keyThenOther).2.1 = 0 := by
    refine Nat.div_eq_of_lt (lt_trans hlt ?_)
    decide +kernel
  refine ⟨3, ?_, by decide +kernel⟩
  rw [hpage]
  decide +kernel

/-- The pages leave the cache: the key is not found, and the filter cannot be opened. -/
theorem answers_fails : let s := (execute exec smallFilter [keyInserted, .evict fun _ => true]).2
    (s.1.contains s.2 [1, 2]).2 = .error (.error (.invalidPageType 15)) ∧
      (openFilter s.1.pageSize s.1.rootPageId s.2).2 = .error (.error (.invalidPageType 14)) ∧
      (keyInserted, .ok ()) ∈ (execute exec smallFilter [keyInserted, .evict fun _ => true]).1 ∧
      ¬ Answers s [1, 2] := by
  have hcont : ((execute exec smallFilter [keyInserted, .evict fun _ => true]).2.1.contains
      (execute exec smallFilter [keyInserted, .evict fun _ => true]).2.2 [1, 2]).2 =
        .error (.error (.invalidPageType 15)) := by
    decide +kernel
  refine ⟨hcont, by decide +kernel, ?_, ?_⟩
  · refine mem_cons_of_mem _ (mem_singleton.mpr (Prod.ext rfl ?_))
    decide +kernel
  · rintro ⟨hfound, -⟩
    cases hcont.symm.trans hfound

end PagedBloomFilter

end NanoStore.Table
