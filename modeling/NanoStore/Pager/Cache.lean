import NanoStore.Common.Lru
import NanoStore.Pager.Page
/-!
# Pager — the page cache

`PageCache` of `pager/cache.rs`: 32 shards, each a list of pages in the
order of their use. A page that is put into a full shard evicts the last
one, which is handed back if it is dirty. Every result says which entries
there are afterwards: entries from before, or the one that was put.
-/

namespace NanoStore.Pager

open Function List

/-- A page, and whether it is yet to be written. -/
structure CacheEntry where
  page : Page
  dirty : Bool
  deriving DecidableEq

/-- `PageCache`: the entries of each shard, the one used last first. An entry is in the shard of its
number. -/
structure PageCache where
  capacity : ℕ
  shards : ℕ → List (ℕ × CacheEntry)
  placed : ∀ i, ∀ e ∈ shards i, e.1 % 32 = i

namespace PageCache

def new (capacity : ℕ) : PageCache where
  capacity := (capacity + 31) / 32
  shards _ := []
  placed i e he := by cases he

variable (cache : PageCache)

/-- Pages are spread over 32 shards. -/
def shardIndex (pageId : ℕ) : ℕ := pageId % 32

/-- A cache with one shard replaced by entries that belong there. -/
def setShard (pageId : ℕ) (entries : List (ℕ × CacheEntry))
    (h : ∀ e ∈ entries, e.1 % 32 = shardIndex pageId) : PageCache where
  capacity := cache.capacity
  shards := update cache.shards (shardIndex pageId) entries
  placed i e he := by
    by_cases hi : i = shardIndex pageId
    · subst hi
      rw [update_self] at he
      exact h e he
    · rw [update_of_ne hi] at he
      exact cache.placed i e he

/-- The entry under a number. -/
def find (pageId : ℕ) : Option CacheEntry := Lru.find pageId (cache.shards (shardIndex pageId))

theorem placed_toFront (pageId : ℕ) (entry : CacheEntry) :
    ∀ e ∈ Lru.toFront pageId entry (cache.shards (shardIndex pageId)), e.1 % 32 = shardIndex pageId := by
  intro e he
  rcases Lru.mem_toFront.mp he with rfl | ⟨he, -⟩
  · rfl
  · exact cache.placed _ e he

theorem placed_insert (pageId : ℕ) (entry : CacheEntry) :
    ∀ e ∈ (Lru.insert cache.capacity pageId entry (cache.shards (shardIndex pageId))).1,
      e.1 % 32 = shardIndex pageId := by
  intro e he
  rcases Lru.mem_of_mem_insert he with rfl | he
  · rfl
  · exact cache.placed _ e he

/-- `get`, which makes the entry the one used last. -/
def get (pageId : ℕ) : PageCache × Option Page :=
  match cache.find pageId with
  | none => (cache, none)
  | some entry => (cache.setShard pageId _ (cache.placed_toFront pageId entry), some entry.page)

/-- `put`, which may drop the entry used longest ago: a dirty one is handed back. -/
def put (page : Page) (dirty : Bool) : PageCache × Option Page :=
  let pageId := page.header.pageId
  match cache.find pageId with
  | some entry =>
    (cache.setShard pageId _ (cache.placed_toFront pageId ⟨page, entry.dirty || dirty⟩), none)
  | none =>
    let evicted := (Lru.insert cache.capacity pageId ⟨page, dirty⟩ (cache.shards (shardIndex pageId))).2
    (cache.setShard pageId _ (cache.placed_insert pageId ⟨page, dirty⟩),
      evicted.bind fun e => if e.2.dirty then some e.2.page else none)

def markClean (pageId : ℕ) : PageCache :=
  cache.setShard pageId
    ((cache.shards (shardIndex pageId)).map fun e =>
      if e.1 = pageId then (e.1, { e.2 with dirty := false }) else e) <| by
    intro e he
    obtain ⟨e', he', rfl⟩ := List.mem_map.mp he
    split_ifs
    · exact cache.placed _ e' he'
    · exact cache.placed _ e' he'

/-- `get_dirty_pages`. -/
def getDirtyPages : List (ℕ × Page) :=
  (List.range 32).flatMap fun i =>
    ((cache.shards i).filter fun e => e.2.dirty).map fun e => (e.1, e.2.page)

/-- `clear`, with the dirty pages that were dropped. -/
def clear : PageCache × List (ℕ × Page) :=
  ({ cache with shards := fun _ => [], placed := fun i e he => by cases he }, cache.getDirtyPages)

instance : Membership (ℕ × CacheEntry) PageCache := ⟨fun cache e => e ∈ cache.shards (shardIndex e.1)⟩

variable {cache} {e : ℕ × CacheEntry} {pageId : ℕ} {page : Page} {dirty : Bool}

theorem mem_of_mem_shard {i : ℕ} (h : e ∈ cache.shards i) : e ∈ cache := by
  have hi := cache.placed i e h
  subst hi
  exact h

theorem mem_of_find {entry : CacheEntry} (h : cache.find pageId = some entry) : (pageId, entry) ∈ cache :=
  Lru.mem_of_find h

theorem mem_setShard {entries : List (ℕ × CacheEntry)}
    {h : ∀ e ∈ entries, e.1 % 32 = shardIndex pageId} (he : e ∈ cache.setShard pageId entries h) :
    e ∈ entries ∨ e ∈ cache ∧ e.1 ≠ pageId := by
  by_cases hi : shardIndex e.1 = shardIndex pageId
  · left
    have hmem : e ∈ update cache.shards (shardIndex pageId) entries (shardIndex e.1) := he
    rwa [hi, update_self] at hmem
  · right
    have hmem : e ∈ update cache.shards (shardIndex pageId) entries (shardIndex e.1) := he
    rw [update_of_ne hi] at hmem
    exact ⟨hmem, fun heq => hi (congrArg shardIndex heq)⟩

/-- A read adds nothing. -/
theorem mem_get (he : e ∈ (cache.get pageId).1) : e ∈ cache := by
  rw [get] at he
  cases hfind : cache.find pageId with
  | none =>
    rw [hfind] at he
    exact he
  | some entry =>
    simp only [hfind] at he
    rcases mem_setShard he with he | he
    · rcases Lru.mem_toFront.mp he with rfl | ⟨he, -⟩
      · exact mem_of_find hfind
      · exact mem_of_mem_shard he
    · exact he.1

/-- What `get` answers is cached. -/
theorem mem_of_get {pageId : ℕ} (h : (cache.get pageId).2 = some page) :
    ∃ entry : CacheEntry, (pageId, entry) ∈ cache ∧ entry.page = page := by
  rw [get] at h
  cases hfind : cache.find pageId with
  | none =>
    rw [hfind] at h
    cases h
  | some entry =>
    rw [hfind] at h
    cases h
    exact ⟨entry, mem_of_find hfind, rfl⟩

theorem ne_of_get (h : (cache.get pageId).2 = none) (he : e ∈ cache) : e.1 ≠ pageId := by
  rintro rfl
  rw [get] at h
  cases hfind : cache.find e.1 with
  | none => exact Lru.ne_of_find_eq_none hfind he rfl
  | some entry =>
    rw [hfind] at h
    cases h

/-- No entry of a list is dirty. -/
def Clean (cache : PageCache) : Prop := ∀ e ∈ cache, e.2.dirty = false

/-- **What is in a clean cache after a page was put there**: the page, and other pages that were there. -/
theorem Clean.mem_put (h : cache.Clean) (he : e ∈ (cache.put page dirty).1) :
    e = (page.header.pageId, ⟨page, dirty⟩) ∨ e ∈ cache ∧ e.1 ≠ page.header.pageId := by
  rw [put] at he
  cases hfind : cache.find page.header.pageId with
  | none =>
    simp only [hfind] at he
    rcases mem_setShard he with he | he
    · refine (Lru.mem_of_mem_insert he).imp_right fun he => ⟨mem_of_mem_shard he, ?_⟩
      exact Lru.ne_of_find_eq_none hfind he
    · exact .inr he
  | some entry =>
    have hclean : entry.dirty = false := h _ (mem_of_find hfind)
    simp only [hfind] at he
    rcases mem_setShard he with he | he
    · rw [Lru.mem_toFront, hclean, Bool.false_or] at he
      exact he.imp_right fun he => ⟨mem_of_mem_shard he.1, he.2⟩
    · exact .inr he

/-- **A clean cache evicts nothing that must be written.** -/
theorem Clean.put_evicted (h : cache.Clean) :
    (cache.put page dirty).2 = none := by
  rw [put]
  cases hfind : cache.find page.header.pageId with
  | some entry => rfl
  | none =>
    dsimp only
    rw [Option.bind_eq_none_iff]
    intro e he
    have hclean := h e (mem_of_mem_shard (Lru.mem_of_insert_evicted he))
    rw [hclean]
    rfl

/-- A page marked is clean, the others are as they were. -/
theorem mem_markClean (he : e ∈ cache.markClean pageId) : e ∈ cache ∧ e.1 ≠ pageId ∨
    ∃ entry : CacheEntry, (pageId, entry) ∈ cache ∧ e = (pageId, { entry with dirty := false }) := by
  rcases mem_setShard he with he | he
  · obtain ⟨e', he', rfl⟩ := mem_map.mp he
    split_ifs with hkey
    · subst hkey
      exact .inr ⟨e'.2, mem_of_mem_shard he', rfl⟩
    · exact .inl ⟨mem_of_mem_shard he', hkey⟩
  · exact .inl he

theorem Clean.getDirtyPages (h : cache.Clean) : cache.getDirtyPages = [] := by
  rw [PageCache.getDirtyPages, flatMap_eq_nil_iff]
  intro i _
  rw [map_eq_nil_iff, filter_eq_nil_iff]
  intro e he
  rw [h e (mem_of_mem_shard he)]
  exact Bool.false_ne_true

end PageCache

end NanoStore.Pager
