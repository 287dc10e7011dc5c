import NanoStore.Pager.PageFile
/-!
# Pager — writes that fail

`write_page` on a file that may refuse the bytes of a page. With a cache
that is written back the page is in the cache, and dirty, before the file
is asked: if the write fails the page stays there, is read, and is written
by the next flush. Otherwise a write that fails changes neither the cache
nor the file.
-/

namespace NanoStore.Pager

open Steps Function List

namespace PageCache

variable {cache : PageCache} {page : Page}

theorem mem_getDirtyPages {e : ℕ × Page} : e ∈ cache.getDirtyPages ↔ (e.1, ⟨e.2, true⟩) ∈ cache := by
  simp only [getDirtyPages, mem_flatMap, mem_map, mem_filter]
  constructor
  · rintro ⟨i, -, ⟨v, p, d⟩, ⟨he, hdirty⟩, rfl⟩
    obtain rfl : d = true := hdirty
    exact mem_of_mem_shard he
  · intro he
    exact ⟨e.1 % 32, mem_range.mpr (Nat.mod_lt _ (by omega)), _, ⟨he, rfl⟩, rfl⟩

theorem mem_put_self (cache : PageCache) :
    (page.header.pageId, ⟨page, true⟩) ∈ (cache.put page true).1 := by
  show _ ∈ (cache.put page true).1.shards (shardIndex page.header.pageId)
  rw [put]
  cases cache.find page.header.pageId with
  | some entry =>
    simp only [setShard, update_self, Bool.or_true]
    exact mem_cons_self
  | none =>
    simp only [setShard, update_self, Lru.insert]
    split
    · exact mem_cons_self
    · exact mem_cons_self

end PageCache

namespace State

variable (env : Surroundings) (refuses : Page → Option PagerError) (s : State) (page : Page)

/-- `write_page_to_disk` on a file that may refuse a page. -/
def writeToDisk : Outcome State PagerError Unit :=
  match s.writePageToDisk env page, refuses page with
  | (s', .ok _), some e => ({ s' with file := s.file }, .error e)
  | result, _ => result

/-- `write_page` on such a file. -/
def writePageOn : Outcome State PagerError Unit :=
  match s.cache with
  | none => s.writeToDisk env refuses page
  | some cache =>
    if s.config.cacheWriteBack then
      let s := { s with cache := some (cache.put page true).1 }
      andThen (match (cache.put page true).2 with
        | none => (s, .ok ())
        | some evicted => s.writeToDisk env refuses evicted) fun s _ =>
        andThen (s.writeToDisk env refuses page) fun s _ =>
          ({ s with cache := s.cache.map (·.markClean page.header.pageId) }, .ok ())
    else
      andThen (s.writeToDisk env refuses page) fun s _ =>
        ({ s with cache := some (cache.put page false).1 }, .ok ())

/-- The page a read finds in the cache; if there is none, it reads the file. -/
def cached (v : ℕ) : Option Page := s.cache.bind fun cache => (cache.get v).2

/-- The pages `flush_cache` writes. -/
def dirtyPages : List (ℕ × Page) := s.cache.elim [] PageCache.getDirtyPages

/-- **A write that failed left nothing behind**: a read finds what it found before, in the cache and in the
file, and a flush does not write the page. -/
structure Undone (s' : State) : Prop where
  cached : s'.cached page.header.pageId = s.cached page.header.pageId
  file : s'.file = s.file
  flushed : (page.header.pageId, page) ∉ s'.dirtyPages

/-- On a file that refuses nothing the write is the pager's. -/
theorem writePageOn_eq : s.writePageOn env (fun _ => none) page = s.writePage env page := by
  have hdisk : ∀ (s : State) (page : Page), s.writeToDisk env (fun _ => none) page = s.writePageToDisk env page := by
    intro s page
    rw [writeToDisk]
    split <;> simp_all
  simp only [writePageOn, hdisk]
  rfl

variable {env refuses s page} {s' : State} {r : Except PagerError Unit} {e : PagerError}

theorem writeToDisk_cases (h : s.writeToDisk env refuses page = (s', r)) :
    s'.cache = s.cache ∧ ((∃ e, r = .error e) → s'.file = s.file) := by
  rw [writeToDisk, writePageToDisk, storePage] at h
  cases hbytes : page.toBytes env.crates s.config.encryptionKey (env.nonce s.ticks) s.pageSize with
  | error e' =>
    simp only [hbytes] at h
    cases h
    exact ⟨rfl, fun _ => rfl⟩
  | ok bytes =>
    cases hrefuses : refuses page with
    | none =>
      simp only [hbytes, hrefuses] at h
      cases h
      exact ⟨rfl, nofun⟩
    | some e' =>
      simp only [hbytes, hrefuses] at h
      cases h
      exact ⟨rfl, fun _ => rfl⟩

/-- **What a write that fails leaves**: the page in the cache, or everything as it was. -/
theorem writePageOn_failed (h : s.writePageOn env refuses page = (s', .error e)) :
    (∃ cache, s.cache = some cache ∧ s.config.cacheWriteBack = true ∧ s'.cache = some (cache.put page true).1) ∨
      (s.cache = none ∨ s.config.cacheWriteBack = false) ∧ s'.cache = s.cache ∧ s'.file = s.file := by
  rw [writePageOn] at h
  cases hcache : s.cache with
  | none =>
    rw [hcache] at h
    obtain ⟨hsame, hfile⟩ := writeToDisk_cases h
    exact .inr ⟨.inl rfl, hsame.trans hcache, hfile ⟨e, rfl⟩⟩
  | some cache =>
    simp only [hcache] at h
    split_ifs at h with hmode
    · refine .inl ⟨cache, rfl, hmode, ?_⟩
      rcases andThen_cases h with ⟨s₁, e₁, hput, heq⟩ | ⟨s₁, _, hput, h⟩
      · cases heq
        split at hput
        · cases hput
        · exact (writeToDisk_cases hput).1
      · have hcache₁ : s₁.cache = some (cache.put page true).1 := by
          split at hput
          · cases hput
            rfl
          · exact (writeToDisk_cases hput).1
        rcases andThen_cases h with ⟨s₂, e₂, hwrite, heq⟩ | ⟨s₂, _, -, heq⟩
        · cases heq
          exact (writeToDisk_cases hwrite).1.trans hcache₁
        · cases heq
    · refine .inr ⟨.inr (by simpa using hmode), ?_⟩
      rcases andThen_cases h with ⟨s₁, e₁, hwrite, heq⟩ | ⟨s₁, _, -, heq⟩
      · cases heq
        obtain ⟨hsame, hfile⟩ := writeToDisk_cases hwrite
        exact ⟨hsame.trans hcache, hfile ⟨e, rfl⟩⟩
      · cases heq

/-- **A write that fails leaves nothing behind exactly if no cache is written back**, and the very page is
not waiting in the cache to be flushed. -/
theorem writePage_undone_iff (h : s.writePageOn env refuses page = (s', .error e)) : s.Undone page s' ↔
    (s.cache = none ∨ s.config.cacheWriteBack = false) ∧ (page.header.pageId, page) ∉ s.dirtyPages := by
  rcases writePageOn_failed h with ⟨cache, hcache, hmode, hafter⟩ | ⟨hmode, hcache, hfile⟩
  · refine iff_of_false (fun hundone => hundone.flushed ?_) (by simp [hcache, hmode])
    rw [dirtyPages, hafter]
    exact PageCache.mem_getDirtyPages.mpr cache.mem_put_self
  · have hdirty : s'.dirtyPages = s.dirtyPages := by rw [dirtyPages, hcache, dirtyPages]
    constructor
    · intro hundone
      exact ⟨hmode, hdirty ▸ hundone.flushed⟩
    · rintro ⟨-, hnot⟩
      exact ⟨by rw [cached, hcache, cached], hfile, by rwa [hdirty]⟩

/-- A pager without pages, with a cache that is written back or through. -/
def cachedPager (writeBack : Bool) : State :=
  blank .plain ⟨.size4KB, .none, .none, none, true, 1000, writeBack⟩

def diskFull (_ : Page) : Option PagerError := some (.internalError "disk full")

theorem exists_failed {writeBack : Bool} :
    ∃ s' e, (cachedPager writeBack).writePageOn .plain diskFull page = (s', .error e) := by
  have hdisk (s : State) : ∃ s' e, s.writeToDisk .plain diskFull page = (s', .error e) := by
    rw [writeToDisk]
    rcases s.writePageToDisk .plain page with ⟨s', e | _⟩
    · exact ⟨_, _, rfl⟩
    · exact ⟨_, _, rfl⟩
  cases writeBack with
  | false =>
    obtain ⟨s', e, hfail⟩ := hdisk (cachedPager false)
    exact ⟨s', e, (congrFun (congrArg andThen hfail) _).trans andThen_error⟩
  | true =>
    obtain ⟨s', e, hfail⟩ := hdisk { cachedPager true with cache := some ((PageCache.new 1000).put page true).1 }
    exact ⟨s', e, (congrFun (congrArg andThen hfail) _).trans andThen_error⟩

theorem writePage_undone_through : ∃ s' e,
    (cachedPager false).writePageOn .plain diskFull (.new 7 .bTreeLeaf) = (s', .error e) ∧
      (cachedPager false).Undone (.new 7 .bTreeLeaf) s' := by
  obtain ⟨s', e, hfail⟩ := exists_failed
  exact ⟨s', e, hfail, (writePage_undone_iff hfail).mpr ⟨.inr rfl, by decide⟩⟩

/-- The cache was empty, and the page is in it after the write failed. -/
theorem writePage_not_undone : ∃ s' e,
    (cachedPager true).writePageOn .plain diskFull (.new 7 .bTreeLeaf) = (s', .error e) ∧
      (cachedPager true).cached 7 = none ∧ s'.cached 7 = some (.new 7 .bTreeLeaf) ∧
        (7, .new 7 .bTreeLeaf) ∈ s'.dirtyPages := by
  obtain ⟨s', e, hfail⟩ := exists_failed
  refine ⟨s', e, hfail, rfl, ?_⟩
  obtain ⟨cache, hcache, -, hafter⟩ | ⟨hmode, -⟩ := writePageOn_failed hfail
  · cases hcache
    rw [cached, dirtyPages, hafter]
    exact ⟨rfl, PageCache.mem_getDirtyPages.mpr (PageCache.mem_put_self _)⟩
  · rcases hmode with hnone | hthrough
    · cases hnone
    · cases hthrough

end State

end NanoStore.Pager
