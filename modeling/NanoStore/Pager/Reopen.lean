import NanoStore.Pager.Store
/-!
# Pager — creating and opening a file

A new pager has no live page. A pager that is opened on the file of a
synced one has the same live pages, if it needs no key to read them and if
the mapper had room in the superblock: the free list is not stored, so the
free slots are lost to it, but none of them is given out twice.
-/

namespace NanoStore.Pager

open List

namespace State

open Steps InPlace

variable {env : Surroundings} {pages : Pages} {s : State} {config : PagerConfig}

theorem not_caches_newCache (config : PagerConfig) {e : ℕ × CacheEntry} (hcache : s.cache = newCache config) :
    ¬ s.Caches e := by
  rintro ⟨cache, hsome, he⟩
  rw [hcache, newCache] at hsome
  split_ifs at hsome
  cases hsome
  cases he

theorem storable_first (env : Surroundings) (s : State) (superblock : Superblock) :
    s.Storable env { Page.new 1 .superblock with data := superblock.toBytes } := by
  have hsize := s.le_pageSize
  have hlen := superblock.length_toBytes
  have hknown : PageType.superblock.Known := by decide
  refine ⟨Nat.one_lt_pow (by omega) (by omega), Nat.pow_pos (by omega), hknown, ?_, superblock.toBytes, rfl,
    by omega⟩
  dsimp only
  omega

theorem sound_new : Allocator.Sound (Live fun _ => none) ⟨.new, .new, newMapper .new⟩ where
  two_le := le_refl 2
  next_le := le_refl 2
  live_lt v hv := by cases hv
  slot_lt v hv := by cases hv
  slot_injective v w hv := by cases hv
  mapped v p hp := by cases hp
  free_nodup := nodup_nil
  free_lt p hp := by cases hp
  free_live p hp := by cases hp

/-- **A file is created, and the new pager has no live page.** -/
theorem create_spec (hvalidate : config.validate = .ok ()) :
    ∃ s, create env config = .ok s ∧ s.Consistent env (fun _ => none) ∧ s.config = config ∧
      s.cache = newCache config ∧ s.toAllocator = ⟨.new, .new, newMapper .new⟩ := by
  have hkey : config.encryption ≠ .none → config.encryptionKey ≠ none := by
    intro henc hnone
    rw [PagerConfig.validate, if_pos ⟨henc, hnone⟩] at hvalidate
    cases hvalidate
  let s₀ := blank env config
  have hsized : s₀.header.Sized :=
    ⟨rfl, FileHeader.length_padded, FileHeader.length_padded, FileHeader.length_padded⟩
  have hfitting : s₀.Fitting s₀.header := ⟨hsized, rfl, rfl, rfl⟩
  have hhdr : (s₀.headerPage s₀.header).length = s₀.pageSize := length_headerPage hsized
  let s₁ := s₀.writeAt 0 (s₀.headerPage s₀.header)
  have hwrote₁ : Wrote s₀.pageSize [] 0 s₁.file := wrote_overwrite hhdr
  obtain ⟨file, stored, hstore, hwritten, hholds⟩ :=
    storePage_of_storable (storable_first env s₁ s₁.superblock) 1
  have hwrote : Wrote s₀.pageSize s₁.file 1 file := hwritten
  have hlen₁ := hwrote₁.length
  have hlen := hwrote.length
  rw [length_nil] at hlen₁
  have hzero : slot s₀.pageSize file 0 = s₀.headerPage s₀.header := by
    rw [hwrote.other 0 (by omega) (by omega)]
    exact slot_overwrite_self hhdr
  refine ⟨{ s₁ with file := file, ticks := s₁.ticks + 1 }, ?_, ?_, rfl, rfl, rfl⟩
  · rw [create]
    simp only [hvalidate]
    rw [hstore]
  · refine consistent_of hkey ⟨hfitting.congr rfl, ⟨s₀.header, hfitting.congr rfl, hzero⟩, _, .new,
      hholds, rfl, rfl, .refl⟩ ?_ rfl ?_ ?_ ?_ ?_
      (fun e _ he => absurd he (not_caches_newCache config rfl)) (show 2 < 256 ^ 8 by decide)
      ⟨rfl, rfl, rfl, rfl⟩ fun _ => ⟨rfl, rfl⟩
    · have hgoal : file.length = 2 * s₀.pageSize := by omega
      exact hgoal
    · exact sound_new
    · intro v c hv
      cases hv
    · intro p htwo hlt
      exact absurd (Nat.lt_of_lt_of_le hlt (le_refl 2)) (Nat.not_lt.mpr htwo)
    · intro e he
      exact absurd he (not_caches_newCache config rfl)

/-- **A new pager has no live page.** -/
theorem consistent_create (h : create env config = .ok s) : s.Consistent env fun _ => none := by
  cases hvalidate : config.validate with
  | error details =>
    rw [create, hvalidate] at h
    cases h
  | ok u =>
    obtain ⟨s', hcreate, hcons, -⟩ := create_spec hvalidate
    rw [hcreate] at h
    cases h
    exact hcons

/-- What `open` reads first begins with the header. -/
theorem Consistent.readAt_header (h : s.Consistent env pages) {header : FileHeader}
    (hsized : header.Sized) (hslot : slot s.pageSize s.file 0 = s.headerPage header) :
    ∃ back, readAt 0 s.file 0 4096 = header.toBytes ++ back := by
  have hsize := s.le_pageSize
  have hfile : s.pageSize ≤ s.file.length := by
    have hin := h.slot_le (show 0 < s.superblock.totalPages by have := h.two_le; omega)
    omega
  have hfst : s.file.take s.pageSize = s.headerPage header := by
    rw [slot, slice, Nat.zero_mul, drop_zero] at hslot
    exact hslot
  have hlen : header.toBytes.length ≤ 4096 := by
    rw [FileHeader.length_toBytes hsized]
    omega
  refine ⟨(List.replicate (s.pageSize - header.toBytes.length) 0).take (4096 - header.toBytes.length), ?_⟩
  have htake : s.file.take 4096 = (s.file.take s.pageSize).take 4096 := by
    rw [take_take, min_eq_left hsize]
  rw [readAt_eq_slice (by omega), slice, drop_zero, htake, hfst, headerPage, take_append,
    take_of_length_le hlen]

/-- What `open` reads then is slot 1. -/
theorem Consistent.readAt_second (h : s.Consistent env pages) :
    readAt 0 s.file s.pageSize s.pageSize = slot s.pageSize s.file 1 := by
  have hin := h.slot_le (show 1 < s.superblock.totalPages from h.two_le)
  rw [← readAt_eq_slot hin, Nat.one_mul]

variable {superblock : Superblock}

theorem Consistent.readable (h : s.Consistent env pages) (hclean : s.pageMapper.dirty = false)
    (hroom : s.pageMapper.mapping.entries.length ≤ 15)
    (hsame : superblock.SameAs s.superblock) : superblock.Readable := by
  obtain ⟨hnext, hmap⟩ := h.persisted hclean
  have hperm := hsame.entries
  rw [hmap] at hperm
  have hle := h.sound.next_le
  have hbound := h.bound
  have htot := h.total
  have htwo := h.sound.two_le
  have htot' := hsame.totalPages
  have hnextPage := hsame.nextPageId
  have hvirt := hsame.nextVirtualId
  have hlen := hperm.length_eq
  refine ⟨hsame.marked.mpr h.marked, by omega, by omega, ⟨by omega, by omega, fun e he => ?_⟩, by omega, by omega⟩
  -- an entry stands for a live page and its slot
  have hmem : e ∈ s.pageMapper.mapping.entries := hperm.mem_iff.mp he
  have hlook : s.pageMapper.mapping.lookup e.1 = some e.2 :=
    mem_dlookup s.pageMapper.mapping.nodupKeys hmem
  have hlive := h.sound.mapped e.1 e.2 hlook
  have hslot := h.sound.slot_lt e.1 hlive
  rw [Allocator.slotOf, PageMapper.translate_of_lookup hlook] at hslot
  have hlt := (h.sound.live_lt e.1 hlive).2
  omega

/-- **A synced pager is opened again with its pages.** -/
theorem Consistent.openFile (h : s.Consistent env pages) (hclean : s.pageMapper.dirty = false)
    (hkey : s.config.encryptionKey = none) (hroom : s.pageMapper.mapping.entries.length ≤ 15) {ticks : ℕ} :
    ∃ s', openFile env ticks s.file = .ok s' ∧ s'.Consistent env pages := by
  obtain ⟨header, hfitting, hslot⟩ := h.described.header
  obtain ⟨back, hfront⟩ := h.readAt_header hfitting.toSized hslot
  obtain ⟨header', hhdr, hsized, hpageSize, hcompr, henc⟩ :=
    FileHeader.fromBytes_toBytes_append hfitting.toSized
  obtain ⟨page, superblock, hholds, hid, hdata, hsame⟩ := h.described.superblock
  obtain ⟨superblock', hsuper, hsame', hmarked, hdirty⟩ :=
    Superblock.fromBytes_toBytes (h.readable hclean hroom hsame)
  have hsize : header'.pageSize.toU32 = s.pageSize := by rw [hpageSize, hfitting.pageSize, pageSize]
  have hsecond := h.readAt_second
  have hread := hholds.read
  rw [hkey] at hread
  -- the numbers and the mapper are those of the pager that was synced
  obtain ⟨hpers, hmap⟩ := h.persisted hclean
  have hvirt : superblock'.pageMapper.nextVirtualId = s.pageMapper.nextVirtualId := by
    rw [hsame'.nextVirtualId, ← hsame.nextVirtualId, hpers]
  have hnext : superblock'.nextPageId = s.superblock.nextPageId := by
    rw [hsame'.nextPageId, ← hsame.nextPageId]
  have htot : superblock'.totalPages = s.superblock.totalPages := by
    rw [hsame'.totalPages, ← hsame.totalPages]
  have hle := h.sound.next_le
  have hmapper : newMapper superblock' = superblock'.pageMapper := by
    rw [newMapper, if_neg (by omega)]
  have hlook : ∀ v, superblock'.pageMapper.mapping.lookup v = s.pageMapper.mapping.lookup v := by
    intro v
    rw [← hmap]
    exact AList.perm_lookup (hsame'.entries.symm.trans hsame.entries)
  have htranslate : ∀ v, superblock'.pageMapper.translate v = s.slotOf v := by
    intro v
    rw [PageMapper.translate, hlook, Allocator.slotOf, PageMapper.translate]
  let config : PagerConfig :=
    ⟨header'.pageSize, header'.compression, header'.encryption, none, true, 1000, true⟩
  let s' : State := ⟨⟨superblock', .fromState superblock'.firstFreeListPage superblock'.lastFreeListPage
    superblock'.freePages, superblock'.pageMapper⟩, s.file, config, header', newCache config, ticks⟩
  have hsize' : s'.pageSize = s.pageSize := hsize
  have hstays : ∀ p page, s.Holds env p page → s'.Holds env p page := fun p page hp =>
    hp.of_slot hkey.symm hsize' rfl
  refine ⟨s', ?_, consistent_of ?_ ?_ ?_ ?_ ?_ ?_ ?_ ?_
    (fun e _ he => absurd he (not_caches_newCache config rfl)) ?_ hmarked fun _ => ⟨rfl, rfl⟩⟩
  · rw [State.openFile, hfront, hhdr]
    have hnone : ¬ (0 < superblock'.freePages ∧ superblock'.firstFreeListPage ≠ 0) :=
      fun hlist => hlist.2 hmarked.firstFreeListPage
    simp only [hsize, hsecond, hread, hdata, hsuper, loadFreeList, if_neg hnone, hmapper]
    rfl
  · intro hencrypted
    have hnone : s.config.encryption ≠ .none := by
      rw [← hfitting.encryption, ← henc]
      exact hencrypted
    exact absurd hkey (h.key hnone)
  · refine ⟨⟨hsized, rfl, rfl, rfl⟩, ⟨header, ⟨hfitting.toSized, hpageSize.symm, hcompr.symm,
      henc.symm⟩, ?_⟩, page, superblock, hstays 1 page hholds, hid, hdata, hsame'⟩
    rw [hsize', headerPage, hsize']
    exact hslot
  · have hlen := h.length
    rw [hsize']
    dsimp only [s']
    rw [htot, hlen]
  · have heq := h.total
    dsimp only [s']
    omega
  · -- the free list is empty, and the mapper answers as before
    have hslots : ∀ v, s'.slotOf v = s.slotOf v := htranslate
    have hvirt' : s'.pageMapper.nextVirtualId = s.pageMapper.nextVirtualId := hvirt
    have hnext' : s'.superblock.nextPageId = s.superblock.nextPageId := hnext
    refine ⟨?_, ?_, ?_, ?_, ?_, ?_, nodup_nil, ?_, ?_⟩
    · exact hnext' ▸ h.sound.two_le
    · rw [hnext', hvirt']
      exact hle
    · intro v hv
      rw [hvirt']
      exact h.sound.live_lt v hv
    · intro v hv
      rw [hslots, hnext']
      exact h.sound.slot_lt v hv
    · intro v w hv hw heq
      rw [hslots, hslots] at heq
      exact h.sound.slot_injective v w hv hw heq
    · intro v p hp
      exact h.sound.mapped v p ((hlook v).symm.trans hp)
    · intro p hp
      cases hp
    · intro p hp
      cases hp
  · intro v c hv
    obtain ⟨page', hholds', hpage'⟩ := h.live v c hv
    refine ⟨page', ?_, hpage'⟩
    rw [← htranslate v] at hholds'
    exact hstays _ _ hholds'
  · intro p htwo hlt hfree
    have hfree' : ∀ v, Live pages v → s.slotOf v ≠ p := fun v hv heq =>
      hfree v hv ((htranslate v).trans heq)
    obtain ⟨page', hholds', hpage'⟩ := h.free p htwo (htot ▸ hlt) hfree'
    exact ⟨page', hstays _ _ hholds', hpage'⟩
  · intro e he
    exact absurd he (not_caches_newCache config rfl)
  · have hbound := h.bound
    dsimp only [s']
    omega

end State

end NanoStore.Pager
