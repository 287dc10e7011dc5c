import NanoStore.Pager.PageFile
/-!
# Pager — reads and writes through the cache

`Intact` says that every slot holds a page and that the cache has nothing
that is still to be written. An intact pager reads every page it has and
writes every page that can be stored (`readPage_spec`, `writePage_spec`),
and stays intact.
-/

namespace NanoStore.Pager

open InPlace

namespace State

/-! ## What the slots of the file hold

A page that can be stored fills the slot it is written to, is read back
from there, and leaves the other slots alone. The pages the pager makes
itself can all be stored: they are empty, or hold the 352 bytes of the
superblock.
-/

variable {env : Surroundings} {s : State} {p q : ℕ} {page : Page} {bytes : Bytes}

theorem le_pageSize (s : State) : 4096 ≤ s.pageSize := s.config.pageSize.le_toU32

theorem pageSize_le (s : State) : s.pageSize ≤ 65536 := s.config.pageSize.toU32_le

/-- A page that fits a slot of this pager. -/
abbrev Storable (env : Surroundings) (s : State) (page : Page) : Prop :=
  page.Storable env.crates s.config.encryptionKey s.pageSize

/-- A slot holds a page: it is read from there, and could be stored again. -/
structure Holds (env : Surroundings) (s : State) (p : ℕ) (page : Page) : Prop where
  read : Page.fromBytes env.crates s.config.encryptionKey true (slot s.pageSize s.file p) = .ok page
  storable : s.Storable env page

variable {s' : State}

theorem Holds.of_slot (h : s.Holds env p page)
    (hkey : s'.config.encryptionKey = s.config.encryptionKey) (hsize : s'.pageSize = s.pageSize)
    (hslot : slot s.pageSize s'.file p = slot s.pageSize s.file p) : s'.Holds env p page := by
  refine ⟨?_, ?_⟩
  · rw [hkey, hsize, hslot]
    exact h.read
  · rw [Storable, hkey, hsize]
    exact h.storable

theorem Holds.congr (h : s.Holds env p page) (hcfg : s'.config = s.config)
    (hslot : slot s.pageSize s'.file p = slot s.pageSize s.file p) : s'.Holds env p page :=
  h.of_slot (by rw [hcfg]) (by rw [pageSize, hcfg, pageSize]) hslot

/-- A slot holds one page. -/
theorem Holds.unique {page' : Page} (h : s.Holds env p page) (h' : s.Holds env p page') : page = page' :=
  Except.ok.inj (h.read.symm.trans h'.read)

/-- A page that a slot holds is loaded. -/
theorem Holds.loadPage (h : s.Holds env p page) (hfile : (p + 1) * s.pageSize ≤ s.file.length) :
    s.loadPage env p = .ok page := by
  rw [State.loadPage, readAt_eq_slot hfile]
  exact Page.fromBytes_of_verified h.read

/-! ## One write -/

/-- **A page that can be stored is stored.** -/
theorem storePage_of_storable (h : s.Storable env page) (p : ℕ) :
    ∃ file stored, s.storePage env p page = ({ s with file := file, ticks := s.ticks + 1 }, .ok ()) ∧
      Wrote s.pageSize s.file p file ∧
      { s with file := file, ticks := s.ticks + 1 }.Holds env p (page.withSizes stored) := by
  obtain ⟨bytes, stored, hbytes, hlen, hread⟩ :=
    Page.Storable.toBytes h (env.length_nonce s.ticks) s.pageSize_le
  refine ⟨overwrite 0 s.file (p * s.pageSize) bytes, stored, ?_, wrote_overwrite hlen, ?_,
    h.pageId, h.virtualPageId, h.known, h.size, h.room⟩
  · rw [storePage, hbytes]
    rfl
  · have hself : slot s.pageSize (overwrite 0 s.file (p * s.pageSize) bytes) p = bytes :=
      slot_overwrite_self hlen
    exact (congrArg _ hself).trans (hread true)

theorem storePage_withAllocator (a : Allocator) :
    { s with toAllocator := a }.storePage env p page =
      ({ (s.storePage env p page).1 with toAllocator := a }, (s.storePage env p page).2) := by
  have hsize : { s with toAllocator := a }.pageSize = s.pageSize := rfl
  rw [storePage, storePage, hsize]
  cases page.toBytes env.crates s.config.encryptionKey (env.nonce s.ticks) s.pageSize with
  | error e | ok bytes => rfl

/-! ## The pages of the pager itself -/

/-- **The pages that the pager makes can be stored.** -/
theorem storable_newPage (hkey : s.config.encryption ≠ .none → s.config.encryptionKey ≠ none)
    {pageId : ℕ} (hid : pageId < 256 ^ 8) {pageType : PageType} (hknown : pageType.Known) {data : Bytes}
    (hdata : data.length ≤ 352) : s.Storable env (s.newPage pageId pageType data) := by
  obtain ⟨packed, hpacked, hshort⟩ := env.compress_short s.config.compression data hdata
  have hencrypt : ∃ stored, env.crates.encrypt s.config.encryptionKey (List.replicate 12 0)
      s.config.encryption packed = .ok stored ∧ stored.length ≤ packed.length + 28 :=
    Crates.encrypt_of_key hkey List.length_replicate packed
  obtain ⟨stored, hstored, hroom⟩ := hencrypt
  have hsize := s.le_pageSize
  refine ⟨hid, Nat.pow_pos (by omega), hknown, by dsimp only [newPage]; omega, stored, ?_, by omega⟩
  rw [Crates.sealData]
  dsimp only [newPage]
  rw [hpacked]
  exact hstored

/-! ## Header and superblock -/

/-- A header of the pager's size, compression and encryption. -/
structure Fitting (s : State) (header : FileHeader) : Prop extends header.Sized where
  pageSize : header.pageSize = s.config.pageSize
  compression : header.compression = s.config.compression
  encryption : header.encryption = s.config.encryption

/-- Page 0 and page 1 describe the pager. What is written there need not be what the pager has in memory:
a pager that was opened has what it read. -/
structure Described (env : Surroundings) (s : State) : Prop where
  fitting : s.Fitting s.header
  header : ∃ header, s.Fitting header ∧ slot s.pageSize s.file 0 = s.headerPage header
  superblock : ∃ (page : Page) (superblock : Superblock), s.Holds env 1 page ∧ page.header.pageId = 1 ∧
    page.data = superblock.toBytes ∧ superblock.SameAs s.superblock

variable {header : FileHeader}

theorem Fitting.congr (h : s.Fitting header) (hcfg : s'.config = s.config) : s'.Fitting header :=
  ⟨h.toSized, hcfg ▸ h.pageSize, hcfg ▸ h.compression, hcfg ▸ h.encryption⟩

theorem Described.congr (h : s.Described env) (hcfg : s'.config = s.config)
    (hhdr : s'.header = s.header) (hsuper : s'.superblock = s.superblock)
    (hslot : ∀ q, q < 2 → slot s.pageSize s'.file q = slot s.pageSize s.file q) : s'.Described env := by
  have hsize : s'.pageSize = s.pageSize := by rw [State.pageSize, hcfg, State.pageSize]
  obtain ⟨header, hfitting, hbytes⟩ := h.header
  obtain ⟨page, superblock, hholds, hid, hdata, hsame⟩ := h.superblock
  refine ⟨hhdr ▸ h.fitting.congr hcfg, ⟨header, hfitting.congr hcfg, ?_⟩,
    page, superblock, hholds.congr hcfg (hslot 1 (by omega)), hid, hdata, hsuper ▸ hsame⟩
  rw [hsize, hslot 0 (by omega), hbytes, headerPage, headerPage, hsize]

theorem length_headerPage (h : header.Sized) : (s.headerPage header).length = s.pageSize := by
  have hsize := s.le_pageSize
  rw [headerPage, List.length_append, List.length_replicate, FileHeader.length_toBytes h]
  omega

/-- **The metadata are written, and no page of the tables changes.** -/
theorem writeMetadata_spec (s : State)
    (hkey : s.config.encryption ≠ .none → s.config.encryptionKey ≠ none) (hfitting : s.Fitting s.header)
    (hfile : 2 * s.pageSize ≤ s.file.length) : ∃ header file, s.writeMetadata env =
        ({ s with header := header, file := file, ticks := s.ticks + 1 + 1 }, .ok ()) ∧
      file.length = s.file.length ∧
      (∀ q, 2 ≤ q → (q + 1) * s.pageSize ≤ s.file.length →
        slot s.pageSize file q = slot s.pageSize s.file q) ∧
      { s with header := header, file := file, ticks := s.ticks + 1 + 1 }.Described env := by
  let header := { s.header with
    totalPages := s.superblock.totalPages
    freePages := s.freeList.totalFree
    firstFreeListPageId := 0 }.updateModifiedTimestamp (env.clock s.ticks / 1000000000)
  have hsized : header.Sized := { hfitting.toSized with modifiedAt := FileHeader.length_padded }
  have hfitting' : s.Fitting header := { hfitting with toSized := hsized }
  let s₁ := { s with header := header, ticks := s.ticks + 1 }
  have hlen : (s₁.headerPage header).length = s.pageSize := length_headerPage hsized
  let s₂ := s₁.writeAt 0 (s₁.headerPage header)
  have hwrote : Wrote s.pageSize s.file 0 s₂.file := wrote_overwrite hlen
  have hstor : s₂.Storable env (s₂.superblockPage s₂.superblock) :=
    storable_newPage hkey (by omega) (by decide) (le_of_eq (Superblock.length_toBytes _))
  obtain ⟨file, stored, hstore, hwritten, hholds⟩ := storePage_of_storable hstor 1
  have hwrote' : Wrote s.pageSize s₂.file 1 file := hwritten
  have hfst := hwrote.length
  have hsecond := hwrote'.length
  -- slot 0 was written first and is not touched by the second write
  have hzero : slot s.pageSize file 0 = s₁.headerPage header := by
    rw [hwrote'.other 0 (by omega) (by omega)]
    exact slot_overwrite_self hlen
  refine ⟨header, file, hstore, by omega, ?_, ⟨hfitting'.congr rfl, ⟨header, hfitting'.congr rfl, hzero⟩,
    (s₂.superblockPage s₂.superblock).withSizes stored, s.superblock, hholds, rfl, rfl, .refl⟩⟩
  intro q hq hle
  rw [hwrote'.other q (by omega) (by omega)]
  exact hwrote.other q (by omega) hle

end State

namespace State

open Steps

variable {env : Surroundings} {s : State} {p v : ℕ} {page : Page} {e : ℕ × CacheEntry}

/-- The cache of a pager holds an entry. -/
def Caches (s : State) (e : ℕ × CacheEntry) : Prop := ∃ cache, s.cache = some cache ∧ e ∈ cache

/-- A number is cached once. -/
def Keyed (s : State) : Prop := ∀ e e', s.Caches e → s.Caches e' → e.1 = e'.1 → e = e'

theorem Keyed.of_subset {s' : State} (h : s.Keyed) (hsub : ∀ e, s'.Caches e → s.Caches e) : s'.Keyed :=
  fun e e' he he' => h e e' (hsub e he) (hsub e' he')

/-- A page in the place of all others of its number keeps the cache keyed. -/
theorem Keyed.put {s' : State} {new : ℕ × CacheEntry} (h : s.Keyed)
    (hput : ∀ e, s'.Caches e → e = new ∨ s.Caches e ∧ e.1 ≠ new.1) : s'.Keyed := by
  intro e e' he he' hkey
  rcases hput e he with rfl | ⟨hold, hne⟩
  · rcases hput e' he' with rfl | ⟨-, hne'⟩
    · rfl
    · exact absurd hkey.symm hne'
  · rcases hput e' he' with rfl | ⟨hold', -⟩
    · exact absurd hkey hne
    · exact h e e' hold hold' hkey

/-- The slots below the end of the file hold pages, and what is cached is on the disk. -/
structure Intact (env : Surroundings) (s : State) : Prop where
  key : s.config.encryption ≠ .none → s.config.encryptionKey ≠ none
  two_le : 2 ≤ s.superblock.totalPages
  length : s.file.length = s.superblock.totalPages * s.pageSize
  slots : ∀ p, 1 ≤ p → p < s.superblock.totalPages → ∃ page, s.Holds env p page
  clean : ∀ e, s.Caches e → e.2.dirty = false
  cached : ∀ e, s.Caches e → s.Storable env e.2.page ∧ e.2.page.header.pageId = e.1

/-- The slots of the file are in it. -/
theorem Intact.slot_le (h : s.Intact env) (hp : p < s.superblock.totalPages) :
    (p + 1) * s.pageSize ≤ s.file.length := by
  rw [h.length]
  exact Nat.mul_le_mul_right _ hp

/-- The cache of an intact pager is clean. -/
theorem Intact.cacheClean (h : s.Intact env) {cache : PageCache} (hcache : s.cache = some cache) :
    cache.Clean := fun e he => h.clean e ⟨cache, hcache, he⟩

/-- The page as `read_page` hands it out. -/
def readAs (page : Page) (v : ℕ) : Page := { page with header := { page.header with virtualPageId := v } }

theorem cachePage_of_clean {cache : PageCache} (h : cache.Clean) (dirty : Bool) :
    s.cachePage env cache page dirty = ({ s with cache := some (cache.put page dirty).1 }, .ok ()) := by
  rw [cachePage, h.put_evicted]

/-- A read from the file answers with the page of the slot. -/
theorem readUncached_spec (h : s.Intact env) (hpos : 1 ≤ s.slotOf v)
    (hlt : s.slotOf v < s.superblock.totalPages) :
    ∃ cache stored, s.readUncached env v = ({ s with cache := cache }, .ok (readAs stored v)) ∧
      s.Holds env (s.slotOf v) stored ∧
      ∀ e, { s with cache := cache }.Caches e →
        e = (stored.header.pageId, ⟨readAs stored v, false⟩) ∨ s.Caches e ∧ e.1 ≠ stored.header.pageId := by
  obtain ⟨stored, hstored⟩ := h.slots _ hpos hlt
  have hload := hstored.loadPage (h.slot_le hlt)
  rw [readUncached, hload]
  dsimp only
  cases hcache : s.cache with
  | none =>
    refine ⟨s.cache, stored, rfl, hstored, ?_⟩
    rintro e ⟨cache, hsome, -⟩
    rw [hcache] at hsome
    cases hsome
  | some cache =>
    have hclean := h.cacheClean hcache
    refine ⟨some (cache.put (readAs stored v) false).1, stored, ?_, hstored, ?_⟩
    · dsimp only
      rw [cachePage_of_clean hclean]
      rfl
    · rintro e ⟨cache', hsome, he⟩
      cases hsome
      exact (hclean.mem_put he).imp_right fun he => ⟨⟨cache, hcache, he.1⟩, he.2⟩

theorem Intact.withCache (h : s.Intact env) {cache : Option PageCache}
    (hcaches : ∀ e, { s with cache := cache }.Caches e →
      e.2.dirty = false ∧ s.Storable env e.2.page ∧ e.2.page.header.pageId = e.1) :
    { s with cache := cache }.Intact env := by
  refine ⟨h.key, h.two_le, h.length, ?_, fun e he => (hcaches e he).1, fun e he => (hcaches e he).2⟩
  intro p hpos hlt
  obtain ⟨page, hpage⟩ := h.slots p hpos hlt
  exact ⟨page, hpage.congr rfl rfl⟩

/-- **What a read does.** The page is the one in the cache, or the one in the slot, which is then
cached under the number in its header. -/
theorem readPage_spec (h : s.Intact env) (hpos : 1 ≤ s.slotOf v)
    (hlt : s.slotOf v < s.superblock.totalPages) :
    ∃ cache page, s.readPage env v = ({ s with cache := cache }, .ok page) ∧
      ((∃ entry : CacheEntry, s.Caches (v, entry) ∧ entry.page = page ∧
          ∀ e, { s with cache := cache }.Caches e → s.Caches e) ∨
        ∃ stored, s.Holds env (s.slotOf v) stored ∧ page = readAs stored v ∧ (∀ e, s.Caches e → e.1 ≠ v) ∧
          ∀ e, { s with cache := cache }.Caches e →
            e = (stored.header.pageId, ⟨page, false⟩) ∨ s.Caches e ∧ e.1 ≠ stored.header.pageId) := by
  have htot : ¬ s.superblock.totalPages ≤ s.pageMapper.translate v := Nat.not_le.mpr hlt
  rw [readPage, if_neg htot]
  cases hcache : s.cache with
  | none =>
    obtain ⟨cache, stored, hread, hholds, hcaches⟩ := readUncached_spec h hpos hlt
    refine ⟨cache, readAs stored v, hread, .inr ⟨stored, hholds, rfl, ?_, hcaches⟩⟩
    rintro e ⟨cache', hsome, -⟩
    rw [hcache] at hsome
    cases hsome
  | some cache =>
    rcases hget : cache.get v with ⟨cache₁, found⟩
    have hsub : ∀ e, { s with cache := some cache₁ }.Caches e → s.Caches e := by
      rintro e ⟨cache', hsome, he⟩
      cases hsome
      have hget₁ : (cache.get v).1 = cache₁ := congrArg Prod.fst hget
      exact ⟨cache, hcache, PageCache.mem_get (hget₁ ▸ he)⟩
    cases found with
    | some page =>
      obtain ⟨entry, hent, hpage⟩ := PageCache.mem_of_get (congrArg Prod.snd hget)
      refine ⟨some cache₁, page, ?_, .inl ⟨entry, ⟨cache, hcache, hent⟩, hpage, hsub⟩⟩
      simp [hget]
    | none =>
      have h₁ : { s with cache := some cache₁ }.Intact env := h.withCache fun e he =>
        ⟨h.clean e (hsub e he), h.cached e (hsub e he)⟩
      obtain ⟨cache₂, stored, hread, hholds, hcaches⟩ := readUncached_spec h₁ hpos hlt
      refine ⟨cache₂, readAs stored v, ?_, .inr ⟨stored, hholds.congr rfl rfl, rfl, ?_, fun e he => ?_⟩⟩
      · simp only [hget]
        exact hread
      · rintro e ⟨cache', hsome, he⟩
        rw [hcache] at hsome
        cases hsome
        exact PageCache.ne_of_get (congrArg Prod.snd hget) he
      · exact (hcaches e he).imp_right fun he => ⟨hsub e he.1, he.2⟩

theorem Holds.readPage_uncached (h : s.Holds env (s.slotOf v) page) (hcache : s.cache = none)
    (hlt : s.slotOf v < s.superblock.totalPages) (hfile : (s.slotOf v + 1) * s.pageSize ≤ s.file.length) :
    s.readPage env v = (s, .ok (readAs page v)) := by
  have htot : ¬ s.superblock.totalPages ≤ s.pageMapper.translate v := Nat.not_le.mpr hlt
  have hload : s.loadPage env (s.pageMapper.translate v) = .ok page := h.loadPage hfile
  rw [State.readPage, if_neg htot, hcache]
  dsimp only
  rw [readUncached, hload]
  simp only [hcache]
  rfl

theorem slotOf_lt_of_readPage (h : (s.readPage env v).2 = .ok page) : s.slotOf v < s.superblock.totalPages := by
  by_contra hle
  have hle' : s.superblock.totalPages ≤ s.pageMapper.translate v := Nat.not_lt.mp hle
  rw [readPage, if_pos hle'] at h
  cases h

theorem storable_readAs (h : s.Storable env page) (hv : v < 256 ^ 8) : s.Storable env (readAs page v) :=
  { h with virtualPageId := hv }

/-- **A read keeps the pager intact.** -/
theorem Intact.readPage (h : s.Intact env) (hpos : 1 ≤ s.slotOf v)
    (hlt : s.slotOf v < s.superblock.totalPages) (hv : v < 256 ^ 8) :
    ∃ cache page, s.readPage env v = ({ s with cache := cache }, .ok page) ∧ s.Storable env page ∧
      { s with cache := cache }.Intact env := by
  obtain ⟨cache, page, hread, hcase⟩ := readPage_spec h hpos hlt
  rcases hcase with ⟨entry, hent, rfl, hsub⟩ | ⟨stored, hholds, rfl, -, hcaches⟩
  · refine ⟨cache, entry.page, hread, (h.cached _ hent).1, h.withCache fun e he => ?_⟩
    exact ⟨h.clean e (hsub e he), h.cached e (hsub e he)⟩
  · have hstor := storable_readAs hholds.storable hv
    refine ⟨cache, _, hread, hstor, h.withCache fun e he => ?_⟩
    rcases hcaches e he with rfl | ⟨he, -⟩
    · exact ⟨rfl, hstor, rfl⟩
    · exact ⟨h.clean e he, h.cached e he⟩

/-- **What a write does.** The page is in its slot, and in the cache if there is one. -/
theorem writePage_spec (h : s.Intact env) (hpage : s.Storable env page) :
    ∃ file cache stored, s.writePage env page =
        ({ s with file := file, cache := cache, ticks := s.ticks + 1 }, .ok ()) ∧
      Wrote s.pageSize s.file (s.slotOf page.header.pageId) file ∧
      { s with file := file, cache := cache, ticks := s.ticks + 1 }.Holds env
        (s.slotOf page.header.pageId) (page.withSizes stored) ∧
      ∀ e, { s with file := file, cache := cache, ticks := s.ticks + 1 }.Caches e →
        e = (page.header.pageId, ⟨page, false⟩) ∨ s.Caches e ∧ e.1 ≠ page.header.pageId := by
  obtain ⟨file, stored, hstore, hwrote, hholds⟩ :=
    storePage_of_storable hpage (s.slotOf page.header.pageId)
  rw [writePage]
  cases hcache : s.cache with
  | none =>
    refine ⟨file, s.cache, stored, hstore, hwrote, hholds, ?_⟩
    rintro e ⟨cache, hsome, -⟩
    rw [hcache] at hsome
    cases hsome
  | some cache =>
    have hclean := h.cacheClean hcache
    dsimp only
    split_ifs
    · -- write-back: the page is put as a dirty one and marked as clean after the write
      let s₁ := { s with cache := some (cache.put page true).1 }
      have hpage₁ : s₁.Storable env page := hpage
      obtain ⟨file₁, stored₁, hstore₁, hwrote₁, hholds₁⟩ :=
        storePage_of_storable hpage₁ (s.slotOf page.header.pageId)
      refine ⟨file₁, some ((cache.put page true).1.markClean page.header.pageId), stored₁, ?_, hwrote₁,
        hholds₁.congr rfl rfl, ?_⟩
      · rw [cachePage_of_clean hclean, andThen_ok]
        have hdisk : s₁.writePageToDisk env page =
            ({ s₁ with file := file₁, ticks := s₁.ticks + 1 }, .ok ()) := hstore₁
        rw [hdisk]
        rfl
      · rintro e ⟨cache', hsome, he⟩
        cases hsome
        rcases PageCache.mem_markClean he with ⟨hput, hne⟩ | ⟨entry, hput, rfl⟩
        · rcases hclean.mem_put hput with rfl | ⟨hold, -⟩
          · exact absurd rfl hne
          · exact .inr ⟨⟨cache, hcache, hold⟩, hne⟩
        · rcases hclean.mem_put hput with heq | ⟨-, hne⟩
          · left
            cases heq
            rfl
          · exact absurd rfl hne
    · refine ⟨file, some (cache.put page false).1, stored, ?_, hwrote, hholds.congr rfl rfl, ?_⟩
      · have hdisk : s.writePageToDisk env page =
            ({ s with file := file, ticks := s.ticks + 1 }, .ok ()) := hstore
        rw [hdisk]
        rfl
      · rintro e ⟨cache', hsome, he⟩
        cases hsome
        exact (hclean.mem_put he).imp_right fun he => ⟨⟨cache, hcache, he.1⟩, he.2⟩

/-- **A slot below the end is written, and the pager stays intact.** -/
theorem Intact.wrote (h : s.Intact env) (hp : p < s.superblock.totalPages) {file : Bytes}
    {cache : Option PageCache} {ticks : ℕ} (hwrote : Wrote s.pageSize s.file p file)
    (hholds : { s with file := file, cache := cache, ticks := ticks }.Holds env p page)
    (hcaches : ∀ e, { s with file := file, cache := cache, ticks := ticks }.Caches e →
      e.2.dirty = false ∧ s.Storable env e.2.page ∧ e.2.page.header.pageId = e.1) :
    { s with file := file, cache := cache, ticks := ticks }.Intact env := by
  have hlen := hwrote.length
  have hend := h.slot_le hp
  refine ⟨h.key, h.two_le, ?_, ?_, fun e he => (hcaches e he).1, fun e he => (hcaches e he).2⟩
  · have hsame : file.length = s.file.length := by omega
    exact hsame.trans h.length
  · intro q hpos hlt
    by_cases hq : q = p
    · exact ⟨page, hq ▸ hholds⟩
    · obtain ⟨stored, hstored⟩ := h.slots q hpos hlt
      exact ⟨stored, hstored.congr rfl (hwrote.other q hq (h.slot_le hlt))⟩

end State

end NanoStore.Pager
