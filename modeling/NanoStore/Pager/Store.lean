import NanoStore.Pager.Intact
/-!
# Pager — a store of pages

What a pager is for: a map from the numbers of the live pages to their
contents. `Consistent` relates a pager to such a map, over the mapper, the
free list, the slots and the cache at once. Every call of a table keeps it
if pages are written only while they are live and only if they can be
stored (`Careful`), and so after every run of such calls a live page is
read as it was last written.
-/

namespace NanoStore.Pager

open Steps InPlace Function

/-! ## Calls -/

/-- The contents of the live pages. -/
abbrev Pages := ℕ → Option Contents

def Live (pages : Pages) (v : ℕ) : Prop := (pages v).isSome

instance (pages : Pages) (v : ℕ) : Decidable (Live pages v) := inferInstanceAs (Decidable (_ = true))

/-- The calls of a pager. `reopen` is a `sync` and then `open` on the file. -/
inductive Action
  | allocate (pageType : PageType)
  | write (page : Page)
  | free (virtualId : ℕ)
  | read (virtualId : ℕ)
  | flush
  | clear
  | sync
  | reopen

/-- What a call answers. -/
inductive Answer
  | done
  | allocated (virtualId : ℕ)
  | page (page : Page)
  deriving DecidableEq

namespace State

/-- One call. -/
def exec (env : Surroundings) (s : State) : Action → State × Except PagerError Answer
  | .allocate pageType => andThen (s.allocatePage env pageType) fun s v => (s, .ok (.allocated v))
  | .write page => andThen (s.writePage env page) fun s _ => (s, .ok .done)
  | .free virtualId => andThen (s.freePage env virtualId) fun s _ => (s, .ok .done)
  | .read virtualId => andThen (s.readPage env virtualId) fun s page => (s, .ok (.page page))
  | .flush => andThen (s.flushCache env) fun s _ => (s, .ok .done)
  | .clear => andThen (s.clearCache env) fun s _ => (s, .ok .done)
  | .sync => andThen (s.sync env) fun s _ => (s, .ok .done)
  | .reopen => andThen (s.sync env) fun s _ =>
      match openFile env s.ticks s.file with
      | .error e => (s, .error e)
      | .ok s => (s, .ok .done)

end State

/-- A call and its answer. -/
abbrev Event := Action × Except PagerError Answer

/-- The live pages and what was last written to them. A page that was never written is empty. -/
def pagesOf : List Event → Pages
  | [] => fun _ => none
  | (.allocate pageType, .ok (.allocated v)) :: trace =>
    update (pagesOf trace) v (some ⟨pageType, []⟩)
  | (.write page, .ok _) :: trace =>
    update (pagesOf trace) page.header.pageId ((pagesOf trace page.header.pageId).map fun _ => page.contents)
  | (.free v, .ok _) :: trace => update (pagesOf trace) v none
  | _ :: trace => pagesOf trace

/-! ## The invariant -/

namespace State

variable {env : Surroundings} {pages : Pages} {s : State} {p q v w : ℕ} {page : Page} {c : Contents}

/-- Every live page is in its slot, and in the cache it is no other. -/
structure Stores (env : Surroundings) (pages : Pages) (s : State) : Prop extends s.Intact env where
  live_slot : ∀ v, Live pages v → 2 ≤ s.slotOf v ∧ s.slotOf v < s.superblock.totalPages
  live : ∀ v c, pages v = some c →
    ∃ page, s.Holds env (s.slotOf v) page ∧ page.header.pageId = v ∧ page.contents = c
  agrees : ∀ e, s.Caches e → ∀ c, pages e.1 = some c → e.2.page.contents = c

theorem live_of_eq_some (h : pages v = some c) : Live pages v := by
  rw [Live, h]
  rfl

theorem exists_of_live (h : Live pages v) : ∃ c, pages v = some c := Option.isSome_iff_exists.mp h

/-- **A live page is read as it was last written.** -/
theorem Stores.readPage (h : s.Stores env pages) (hv : pages v = some c) :
    ∃ page, (s.readPage env v).2 = .ok page ∧ page.contents = c := by
  have hslot := h.live_slot v (live_of_eq_some hv)
  obtain ⟨cache, page, hread, hcase⟩ := readPage_spec h.toIntact (by omega) hslot.2
  refine ⟨page, by rw [hread], ?_⟩
  rcases hcase with ⟨entry, hent, rfl, -⟩ | ⟨stored, hholds, rfl, -⟩
  · exact h.agrees _ hent c hv
  · obtain ⟨page, hpage, -, hconts⟩ := h.live v c hv
    rw [hholds.unique hpage]
    exact hconts

/-- A pager that has the live pages and nothing else: the other slots are free, the next numbers are
unused, and page 0 and page 1 describe it. -/
structure Consistent (env : Surroundings) (pages : Pages) (s : State) : Prop extends s.Stores env pages where
  sound : s.toAllocator.Sound (Live pages)
  total : s.superblock.totalPages = s.superblock.nextPageId
  free : ∀ p, 2 ≤ p → p < s.superblock.totalPages → (∀ v, Live pages v → s.slotOf v ≠ p) →
    ∃ page, s.Holds env p page ∧ page.header.pageType = .free ∧ page.header.pageId = p
  cached_lt : ∀ e, s.Caches e → e.1 < s.pageMapper.nextVirtualId
  keyed : s.Keyed
  bound : s.pageMapper.nextVirtualId < 256 ^ 8
  described : s.Described env
  marked : s.superblock.Marked
  persisted : s.pageMapper.dirty = false →
    s.superblock.pageMapper.nextVirtualId = s.pageMapper.nextVirtualId ∧
      s.superblock.pageMapper.mapping = s.pageMapper.mapping

/-! ## Reading -/

/-- Entries that a cache may have. -/
structure Cacheable (env : Surroundings) (pages : Pages) (s : State) (e : ℕ × CacheEntry) : Prop where
  clean : e.2.dirty = false
  storable : s.Storable env e.2.page
  key : e.2.page.header.pageId = e.1
  lt : e.1 < s.pageMapper.nextVirtualId
  contents : ∀ c, pages e.1 = some c → e.2.page.contents = c

section

variable (h : s.Consistent env pages)
include h

theorem Consistent.cacheable {e : ℕ × CacheEntry} (he : s.Caches e) :
    s.Cacheable env pages e :=
  ⟨h.clean e he, (h.cached e he).1, (h.cached e he).2, h.cached_lt e he, h.agrees e he⟩

theorem Consistent.withCache {cache : Option PageCache}
    (hcaches : ∀ e, { s with cache := cache }.Caches e → s.Cacheable env pages e)
    (hkeyed : { s with cache := cache }.Keyed) : { s with cache := cache }.Consistent env pages where
  __ := h
  toIntact := h.toIntact.withCache fun e he =>
    ⟨(hcaches e he).clean, (hcaches e he).storable, (hcaches e he).key⟩
  live v c hv := by
    obtain ⟨page, hholds, hpage⟩ := h.live v c hv
    exact ⟨page, hholds.congr rfl rfl, hpage⟩
  agrees e he := (hcaches e he).contents
  free p htwo hlt hother := by
    obtain ⟨page, hholds, hpage⟩ := h.free p htwo hlt hother
    exact ⟨page, hholds.congr rfl rfl, hpage⟩
  cached_lt e he := (hcaches e he).lt
  keyed := hkeyed
  described := h.described.congr rfl rfl rfl fun _ _ => rfl

/-- **What is in a slot**: the live page it belongs to, or a free page. -/
theorem Consistent.stored_cases (hv : 2 ≤ v)
    (hlt : s.slotOf v < s.superblock.totalPages) (hholds : s.Holds env (s.slotOf v) page) :
    (∃ w, pages w = some page.contents ∧ s.slotOf w = s.slotOf v ∧ page.header.pageId = w) ∨
      ¬ Live pages v ∧ page.header.pageType = .free ∧ page.header.pageId = v := by
  by_cases hslot : ∃ w, Live pages w ∧ s.slotOf w = s.slotOf v
  · obtain ⟨w, hw, heq⟩ := hslot
    obtain ⟨c, hc⟩ := exists_of_live hw
    obtain ⟨page', hholds', hid, hconts⟩ := h.live w c hc
    rw [heq] at hholds'
    obtain rfl := hholds.unique hholds'
    exact .inl ⟨w, hconts ▸ hc, heq, hid⟩
  · have hdead : ¬ Live pages v := fun hlive => hslot ⟨v, hlive, rfl⟩
    have hself : s.slotOf v = v := h.sound.slotOf_of_not_live hdead
    obtain ⟨page', hholds', htype, hid⟩ :=
      h.free _ (by omega) hlt fun w hw heq => hslot ⟨w, hw, heq⟩
    obtain rfl := hholds.unique hholds'
    exact .inr ⟨hdead, htype, hid.trans hself⟩

theorem Consistent.cacheable_stored (hv : v ≠ 0)
    (hlt : s.slotOf v < s.superblock.totalPages) (hholds : s.Holds env (s.slotOf v) page) :
    page.header.pageId < s.pageMapper.nextVirtualId ∧
      ∀ c, pages page.header.pageId = some c → page.contents = c := by
  have hnext := h.sound.next_le
  have htot := h.total
  by_cases hone : v = 1
  · -- the superblock
    have hdead := h.sound.not_live_one
    obtain ⟨page', -, hholds', hid, -⟩ := h.described.superblock
    rw [hone, h.sound.slotOf_of_not_live hdead] at hholds
    obtain rfl := hholds.unique hholds'
    rw [hid]
    refine ⟨by have := h.sound.two_le; omega, fun c hc => absurd (live_of_eq_some hc) hdead⟩
  · rcases h.stored_cases (by omega) hlt hholds with ⟨w, hw, -, hid⟩ | ⟨hdead, -, hid⟩
    · rw [hid]
      refine ⟨(h.sound.live_lt w (live_of_eq_some hw)).2, fun c hc => ?_⟩
      exact Option.some.inj (hw.symm.trans hc)
    · have hself : s.slotOf v = v := h.sound.slotOf_of_not_live hdead
      rw [hid]
      exact ⟨by omega, fun c hc => absurd (live_of_eq_some hc) hdead⟩

/-- **A read keeps the pages.** -/
theorem Consistent.readPage (hv : v ≠ 0) :
    (s.readPage env v).1.Consistent env pages := by
  by_cases hlt : s.slotOf v < s.superblock.totalPages
  · have hpos : 1 ≤ s.slotOf v := by
      by_cases hvlive : Live pages v
      · have htwo := (h.live_slot v hvlive).1
        omega
      · rw [h.sound.slotOf_of_not_live hvlive]
        omega
    have hvlt : v < 256 ^ 8 := by
      have hbound := h.bound
      have hnext := h.sound.next_le
      have htot := h.total
      by_cases hvlive : Live pages v
      · have := (h.sound.live_lt v hvlive).2
        omega
      · rw [h.sound.slotOf_of_not_live hvlive] at hlt
        omega
    obtain ⟨cache, page, hread, hcase⟩ := readPage_spec h.toIntact hpos hlt
    rw [hread]
    rcases hcase with ⟨entry, -, -, hsub⟩ | ⟨stored, hholds, rfl, -, hcaches⟩
    · exact h.withCache (fun e he => h.cacheable (hsub e he)) (h.keyed.of_subset hsub)
    · refine h.withCache (fun e he => ?_) (h.keyed.put hcaches)
      rcases hcaches e he with rfl | ⟨hold, -⟩
      · have hstored := h.cacheable_stored hv hlt hholds
        exact ⟨rfl, storable_readAs hholds.storable hvlt, rfl, hstored.1, hstored.2⟩
      · exact h.cacheable hold
  · have htot : s.superblock.totalPages ≤ s.pageMapper.translate v := Nat.not_lt.mp hlt
    rw [State.readPage, if_pos htot]
    exact h

end

/-! ## Writing -/

/-- What has to be seen for a pager to be consistent: where the live pages are, that the other slots are
free, and what is cached. -/
theorem consistent_of (hkey : s.config.encryption ≠ .none → s.config.encryptionKey ≠ none)
    (hdescr : s.Described env) (hlen : s.file.length = s.superblock.totalPages * s.pageSize)
    (htot : s.superblock.totalPages = s.superblock.nextPageId) (hsound : s.toAllocator.Sound (Live pages))
    (hlive : ∀ v c, pages v = some c →
      ∃ page, s.Holds env (s.slotOf v) page ∧ page.header.pageId = v ∧ page.contents = c)
    (hfree : ∀ p, 2 ≤ p → p < s.superblock.totalPages → (∀ v, Live pages v → s.slotOf v ≠ p) →
      ∃ page, s.Holds env p page ∧ page.header.pageType = .free ∧ page.header.pageId = p)
    (hcaches : ∀ e, s.Caches e → s.Cacheable env pages e) (hkeyed : s.Keyed)
    (hbound : s.pageMapper.nextVirtualId < 256 ^ 8) (hmarked : s.superblock.Marked)
    (hpers : s.pageMapper.dirty = false → s.superblock.pageMapper.nextVirtualId = s.pageMapper.nextVirtualId ∧
        s.superblock.pageMapper.mapping = s.pageMapper.mapping) : s.Consistent env pages where
  key := hkey
  two_le := htot ▸ hsound.two_le
  length := hlen
  slots p hpos hlt := by
    by_cases hone : p = 1
    · obtain ⟨page, -, hholds, -⟩ := hdescr.superblock
      exact ⟨page, hone ▸ hholds⟩
    · by_cases hslot : ∃ v, Live pages v ∧ s.slotOf v = p
      · obtain ⟨v, hv, rfl⟩ := hslot
        obtain ⟨c, hc⟩ := exists_of_live hv
        obtain ⟨page, hholds, -⟩ := hlive v c hc
        exact ⟨page, hholds⟩
      · obtain ⟨page, hholds, -⟩ := hfree p (by omega) hlt fun v hv heq => hslot ⟨v, hv, heq⟩
        exact ⟨page, hholds⟩
  clean e he := (hcaches e he).clean
  cached e he := ⟨(hcaches e he).storable, (hcaches e he).key⟩
  live_slot v hv := htot ▸ hsound.slot_lt v hv
  live := hlive
  agrees e he := (hcaches e he).contents
  sound := hsound
  total := htot
  free := hfree
  cached_lt e he := (hcaches e he).lt
  keyed := hkeyed
  bound := hbound
  described := hdescr
  marked := hmarked
  persisted := hpers

theorem live_update_some {c : Contents} : Live (update pages v (some c)) w ↔ w = v ∨ Live pages w := by
  by_cases hw : w = v
  · subst hw
    simp [Live]
  · simp [Live, hw]

/-- **A live page is written, and the others stay.** -/
theorem Consistent.writePage (h : s.Consistent env pages) (hlive : Live pages page.header.pageId)
    (hpage : s.Storable env page) : ∃ s', s.writePage env page = (s', .ok ()) ∧
      s'.Consistent env (update pages page.header.pageId (some page.contents)) := by
  obtain ⟨file, cache, stored, hwrite, hwrote, hholds, hcaches⟩ := writePage_spec h.toIntact hpage
  have hslot := h.live_slot _ hlive
  have hsame : ∀ v, Live (update pages page.header.pageId (some page.contents)) v ↔
      Live pages v := by
    intro v
    rw [live_update_some]
    exact ⟨fun hv => hv.elim (fun heq => heq ▸ hlive) id, .inr⟩
  have hend := h.slot_le hslot.2
  have hlen := hwrote.length
  refine ⟨_, hwrite, consistent_of h.key ?_ ?_ h.total ?_ ?_ ?_ ?_ (h.keyed.put hcaches) h.bound h.marked
    h.persisted⟩
  · refine h.described.congr rfl rfl rfl fun q hq => hwrote.other q (by omega) ?_
    exact h.slot_le (by have := h.two_le; omega)
  · have hkept : file.length = s.file.length := by omega
    exact hkept.trans h.length
  · exact h.sound.congr hsame
  · intro v c hv
    by_cases heq : v = page.header.pageId
    · subst heq
      rw [update_self] at hv
      cases hv
      exact ⟨page.withSizes stored, hholds, rfl, rfl⟩
    · rw [update_of_ne heq] at hv
      obtain ⟨page', hholds', hpage'⟩ := h.live v c hv
      have hvlive := live_of_eq_some hv
      have hne : s.slotOf v ≠ s.slotOf page.header.pageId := fun hslots =>
        heq (h.sound.slot_injective v _ hvlive hlive hslots)
      exact ⟨page', hholds'.congr rfl (hwrote.other _ hne (h.slot_le (h.live_slot v hvlive).2)), hpage'⟩
  · intro p htwo hlt hother
    obtain ⟨page', hholds', hpage'⟩ := h.free p htwo hlt fun v hv => hother v ((hsame v).mpr hv)
    have hne : p ≠ s.slotOf page.header.pageId := (hother _ ((hsame _).mpr hlive)).symm
    exact ⟨page', hholds'.congr rfl (hwrote.other _ hne (h.slot_le hlt)), hpage'⟩
  · intro e he
    rcases hcaches e he with rfl | ⟨hold, hne⟩
    · refine ⟨rfl, hpage, rfl, (h.sound.live_lt _ hlive).2, fun c hc => ?_⟩
      rw [update_self] at hc
      exact Option.some.inj hc
    · refine { h.cacheable hold with contents := fun c hc => ?_ }
      rw [update_of_ne hne] at hc
      exact h.agrees e hold c hc

/-! ## Allocating and freeing -/

/-- The state after a page and the metadata are written. -/
def rewritten (s : State) (a : Allocator) (header : FileHeader) (file : Bytes) : State :=
  { s with toAllocator := a, header := header, file := file, ticks := s.ticks + 1 + 1 + 1 }

/-- The slot holds the page, the other slots stay, and the metadata are those of the new state. -/
structure Rewrote (env : Surroundings) (s : State) (p : ℕ) (page : Page) (a : Allocator)
    (header : FileHeader) (file : Bytes) : Prop where
  length : file.length = max s.file.length ((p + 1) * s.pageSize)
  holds : ∃ stored, (s.rewritten a header file).Holds env p (page.withSizes stored)
  kept : ∀ q, 2 ≤ q → q ≠ p → q < s.superblock.totalPages → slot s.pageSize file q = slot s.pageSize s.file q
  described : (s.rewritten a header file).Described env

/-- A page is written to a slot, the numbers change, and the metadata are written. -/
theorem Consistent.storePage_writeMetadata (h : s.Consistent env pages) (a : Allocator)
    (hpage : s.Storable env page) (hp : 2 ≤ p) : ∃ file₁ file header,
      s.storePage env p page = ({ s with file := file₁, ticks := s.ticks + 1 }, .ok ()) ∧
      { s with toAllocator := a, file := file₁, ticks := s.ticks + 1 }.writeMetadata env =
        (s.rewritten a header file, .ok ()) ∧
      s.Rewrote env p page a header file := by
  obtain ⟨file₁, stored, hstore, hwrote, hholds⟩ := storePage_of_storable hpage p
  have hlen₁ := hwrote.length
  have htwo : 2 * s.pageSize ≤ s.file.length := by
    rw [h.length]
    exact Nat.mul_le_mul_right _ h.two_le
  have hfile₁ : 2 * s.pageSize ≤ file₁.length := by omega
  obtain ⟨header, file, hmeta, hlen, hslots, hdescr⟩ :=
    writeMetadata_spec { s with toAllocator := a, file := file₁, ticks := s.ticks + 1 } h.key
      (h.described.fitting.congr rfl) hfile₁
  have hslots₁ : ∀ q, 2 ≤ q → (q + 1) * s.pageSize ≤ file₁.length →
      slot s.pageSize file q = slot s.pageSize file₁ q := hslots
  refine ⟨file₁, file, header, hstore, hmeta, hlen.trans hlen₁, ⟨stored, ?_⟩, ?_, hdescr⟩
  · exact hholds.congr rfl (hslots₁ p hp (by omega))
  · intro q hq hne hlt
    have hin := h.slot_le hlt
    rw [hslots₁ q hq (by omega), hwrote.other q hne hin]

variable {pageType : PageType}

theorem Consistent.allocatePage_spec (h : s.Consistent env pages) (hknown : pageType.Known)
    (hroom : s.pageMapper.nextVirtualId + 1 < 256 ^ 8) {a : Allocator}
    (halloc : s.toAllocator.allocate = (a, v, p)) :
    ∃ file header, s.allocatePage env pageType = (s.rewritten a header file, .ok v) ∧
      s.Rewrote env p (readAs (s.newPage v pageType []) v) a header file := by
  have hgrant := h.sound.granted
  rw [halloc] at hgrant
  dsimp only at hgrant
  obtain rfl := hgrant.virtual
  have hpage : s.Storable env (readAs (s.newPage s.pageMapper.nextVirtualId pageType [])
      s.pageMapper.nextVirtualId) :=
    storable_readAs (storable_newPage h.key (by omega) hknown (Nat.zero_le _)) (by omega)
  obtain ⟨file₁, file, header, hstore, hmeta, hrewrote⟩ :=
    h.storePage_writeMetadata a hpage hgrant.two_le
  refine ⟨file, header, ?_, hrewrote⟩
  have hfst : { s with toAllocator := a }.storePage env p
      (readAs (s.newPage s.pageMapper.nextVirtualId pageType []) s.pageMapper.nextVirtualId) =
      ({ s with toAllocator := a, file := file₁, ticks := s.ticks + 1 }, .ok ()) := by
    rw [storePage_withAllocator, hstore]
  rw [State.allocatePage, halloc]
  show andThen ({ s with toAllocator := a }.storePage env p
    (readAs (s.newPage s.pageMapper.nextVirtualId pageType []) s.pageMapper.nextVirtualId)) _ = _
  rw [hfst, andThen_ok, hmeta, andThen_ok]

/-- **A new page is empty, and the others stay.** -/
theorem Consistent.allocatePage (h : s.Consistent env pages) (hknown : pageType.Known)
    (hroom : s.pageMapper.nextVirtualId + 1 < 256 ^ 8) :
    ∃ s', s.allocatePage env pageType = (s', .ok s.pageMapper.nextVirtualId) ∧
      s'.Consistent env (update pages s.pageMapper.nextVirtualId (some ⟨pageType, []⟩)) ∧
      s'.config = s.config ∧ s'.cache = s.cache ∧ s'.toAllocator = s.toAllocator.allocate.1 := by
  have hgrant := h.sound.granted
  have hmarked := Allocator.marked_allocate h.marked
  rcases halloc : s.toAllocator.allocate with ⟨a, v, p⟩
  obtain ⟨file, header, hres, hlen, ⟨stored, hholds⟩, hkept, hdescr⟩ :=
    h.allocatePage_spec hknown hroom halloc
  rw [halloc] at hgrant hmarked
  dsimp only at hgrant hmarked
  obtain rfl := hgrant.virtual
  have htot := h.total
  have hlen' := h.length
  -- only the slot of the new page is new
  have hold : ∀ q, q < a.superblock.totalPages → q ≠ p → q < s.superblock.totalPages := by
    intro q hq hne
    have hnext := hgrant.next
    omega
  have hlive : ∀ w, Live (update pages s.pageMapper.nextVirtualId (some ⟨pageType, []⟩)) w ↔
      w = s.pageMapper.nextVirtualId ∨ Live pages w := fun w => live_update_some
  refine ⟨_, hres, consistent_of h.key hdescr ?_ ?_ ?_ ?_ ?_ ?_
    (h.keyed.of_subset fun _ he => he) ?_ hmarked ?_, rfl, rfl, rfl⟩
  · have hgoal : file.length = a.superblock.totalPages * s.pageSize := by
      rcases hgrant.next with ⟨hlt, -, htot'⟩ | ⟨heq, -, htot'⟩
      · have hin := h.slot_le (htot ▸ hlt)
        rw [htot']
        omega
      · have hmul := Nat.mul_le_mul_right s.pageSize (Nat.le_add_right s.superblock.totalPages 1)
        rw [heq, ← htot] at hlen
        rw [htot']
        omega
    exact hgoal
  · have hnext := hgrant.next
    dsimp only [rewritten]
    omega
  · exact hgrant.sound.congr hlive
  · intro w c hw
    by_cases heq : w = s.pageMapper.nextVirtualId
    · subst heq
      rw [update_self] at hw
      cases hw
      rw [← hgrant.self] at hholds
      exact ⟨(readAs (s.newPage s.pageMapper.nextVirtualId pageType [])
        s.pageMapper.nextVirtualId).withSizes stored, hholds, rfl, rfl⟩
    · rw [update_of_ne heq] at hw
      obtain ⟨page, hholds', hpage'⟩ := h.live w c hw
      have hslot := h.live_slot w (live_of_eq_some hw)
      have hslotne := hgrant.slot_ne w (live_of_eq_some hw)
      have hsame : a.slotOf w = s.slotOf w := hgrant.other w heq
      rw [← hsame] at hholds' hslot hslotne
      exact ⟨page, hholds'.congr rfl (hkept _ hslot.1 hslotne hslot.2), hpage'⟩
  · intro q htwo hlt hother
    have hqp : q ≠ p := by
      have hself := hother _ ((hlive _).mpr (.inl rfl))
      exact fun heq => hself (hgrant.self.trans heq.symm)
    have hfree : ∀ w, Live pages w → s.slotOf w ≠ q := by
      intro w hw heq
      have hsame : a.slotOf w = s.slotOf w := hgrant.other w (Nat.ne_of_lt (h.sound.live_lt w hw).2)
      exact hother w ((hlive w).mpr (.inr hw)) (hsame.trans heq)
    obtain ⟨page, hholds', hpage'⟩ := h.free q htwo (hold q hlt hqp) hfree
    exact ⟨page, hholds'.congr rfl (hkept q htwo hqp (hold q hlt hqp)), hpage'⟩
  · intro e he
    have hlt := h.cached_lt e he
    refine { h.cacheable he with lt := ?_, contents := fun c hc => ?_ }
    · have hnext := hgrant.nextVirtualId
      dsimp only [rewritten]
      omega
    · rw [update_of_ne (Nat.ne_of_lt hlt)] at hc
      exact h.agrees e he c hc
  · have hnext := hgrant.nextVirtualId
    dsimp only [rewritten]
    omega
  · intro hclean
    have hdirty := hgrant.dirty
    dsimp only [rewritten] at hclean
    rw [hdirty] at hclean
    cases hclean

theorem live_update_none : Live (update pages v none) w ↔ Live pages w ∧ w ≠ v := by
  by_cases hw : w = v
  · subst hw
    simp [Live]
  · simp [Live, hw]

/-- **A slot that is in use is freed**: it is overwritten by a free page, and the number is given back. -/
theorem Consistent.freePage_of_used (h : s.Consistent env pages) (hreserved : ¬ (v = 0 ∨ v = 1))
    (htwo : 2 ≤ s.slotOf v) (hlt : s.slotOf v < s.superblock.totalPages)
    (hholds : s.Holds env (s.slotOf v) page) (hused : page.isUsed = true) : ∃ file header,
      s.freePage env v = (s.rewritten (s.toAllocator.release v) header file, .ok ()) ∧
      s.Rewrote env (s.slotOf v) (s.newPage (s.slotOf v) .free []) (s.toAllocator.release v) header
        file := by
  have hload : s.loadPage env (s.pageMapper.translate v) = .ok page := hholds.loadPage (h.slot_le hlt)
  have hnext := h.sound.next_le
  have hbound := h.bound
  have htot := h.total
  have hpage : s.Storable env (s.newPage (s.slotOf v) .free []) :=
    storable_newPage h.key (by omega) (by decide) (Nat.zero_le _)
  obtain ⟨file₁, file, header, hstore, hmeta, hrewrote⟩ :=
    h.storePage_writeMetadata (s.toAllocator.release v) hpage htwo
  refine ⟨file, header, ?_, hrewrote⟩
  rw [State.freePage, if_neg hreserved]
  simp only [hload, hused, if_true]
  rw [hstore, andThen_ok]
  exact hmeta

theorem freePage_of_not_used (hreserved : ¬ (v = 0 ∨ v = 1))
    (hload : s.loadPage env (s.slotOf v) = .ok page) (hused : page.isUsed ≠ true) :
    s.freePage env v = (s, .error (.pageAlreadyFree (s.slotOf v))) := by
  have hload' : s.loadPage env (s.pageMapper.translate v) = .ok page := hload
  rw [State.freePage, if_neg hreserved]
  simp only [hload', hused]
  rfl

section

variable (h : s.Consistent env pages)
include h

/-- **A live page is freed, and the others stay.** -/
theorem Consistent.freePage_live (hc : pages v = some c)
    (hused : c.pageType ≠ .free ∧ c.pageType ≠ .freeList) :
    ∃ s', s.freePage env v = (s', .ok ()) ∧ s'.Consistent env (update pages v none) ∧
      s'.config = s.config ∧ s'.cache = s.cache ∧ s'.toAllocator = s.toAllocator.release v := by
  have hv := live_of_eq_some hc
  have hvtwo := (h.sound.live_lt v hv).1
  have hslot := h.live_slot v hv
  obtain ⟨stored, hstored, -, hconts⟩ := h.live v c hc
  have hpage : stored.isUsed = true := by
    rw [← hconts] at hused
    exact decide_eq_true hused
  obtain ⟨file, header, hres, hlen, ⟨image, hholds⟩, hkept, hdescr⟩ :=
    h.freePage_of_used (by omega) hslot.1 hslot.2 hstored hpage
  have hother : ∀ w, w ≠ v → (s.toAllocator.release v).slotOf w = s.slotOf w :=
    fun w hw => PageMapper.translate_unmap_of_ne hw
  refine ⟨_, hres, consistent_of h.key hdescr ?_ h.total ?_ ?_ ?_ ?_
    (h.keyed.of_subset fun _ he => he) h.bound ?_ ?_, rfl, rfl, rfl⟩
  · have hin := h.slot_le hslot.2
    have hkeptLength : file.length = s.file.length := by omega
    exact hkeptLength.trans h.length
  · exact (h.sound.release hv).congr fun w => live_update_none
  · intro w c hw
    have hwv : w ≠ v := by
      rintro rfl
      rw [update_self] at hw
      cases hw
    rw [update_of_ne hwv] at hw
    have hwlive := live_of_eq_some hw
    obtain ⟨page, hholds', hpage'⟩ := h.live w c hw
    have hwslot := h.live_slot w hwlive
    have hne : s.slotOf w ≠ s.slotOf v := fun heq => hwv (h.sound.slot_injective w v hwlive hv heq)
    rw [← hother w hwv] at hholds' hwslot hne
    exact ⟨page, hholds'.congr rfl (hkept _ hwslot.1 hne hwslot.2), hpage'⟩
  · intro q htwo hlt hfree
    by_cases hq : q = s.slotOf v
    · subst hq
      exact ⟨(s.newPage (s.slotOf v) .free []).withSizes image, hholds, rfl, rfl⟩
    · have hfree' : ∀ w, Live pages w → s.slotOf w ≠ q := by
        intro w hw heq
        by_cases hwv : w = v
        · exact hq (hwv ▸ heq.symm)
        · exact hfree w (live_update_none.mpr ⟨hw, hwv⟩) ((hother w hwv).trans heq)
      obtain ⟨page, hholds', hpage'⟩ := h.free q htwo hlt hfree'
      exact ⟨page, hholds'.congr rfl (hkept q htwo hq hlt), hpage'⟩
  · intro e he
    refine { h.cacheable he with contents := fun c hc => h.agrees e he c ?_ }
    by_cases hev : e.1 = v
    · rw [hev, update_self] at hc
      cases hc
    · rwa [update_of_ne hev] at hc
  · exact { h.marked with }
  · intro hclean
    cases hclean

theorem Consistent.freePage (hv : Live pages v) :
    s.freePage env v = (s, .error (.pageAlreadyFree (s.slotOf v))) ∨
      ∃ s', s.freePage env v = (s', .ok ()) ∧ s'.Consistent env (update pages v none) := by
  obtain ⟨c, hc⟩ := exists_of_live hv
  by_cases hused : c.pageType ≠ .free ∧ c.pageType ≠ .freeList
  · obtain ⟨s', hres, h', -⟩ := h.freePage_live hc hused
    exact .inr ⟨s', hres, h'⟩
  · have hvtwo := (h.sound.live_lt v hv).1
    obtain ⟨stored, hstored, -, hconts⟩ := h.live v c hc
    refine .inl (freePage_of_not_used (by omega) (hstored.loadPage (h.slot_le (h.live_slot v hv).2)) ?_)
    rw [← hconts] at hused
    exact fun htrue => hused (of_decide_eq_true htrue)

/-! ## Flushing and syncing -/

theorem Consistent.flushCache : s.flushCache env = (s, .ok ()) := by
  rw [State.flushCache]
  cases hcache : s.cache with
  | none => rfl
  | some cache =>
    dsimp only
    rw [(h.cacheClean hcache).getDirtyPages, forEach_nil]

theorem Consistent.clearCache :
    (s.clearCache env).2 = .ok () ∧ (s.clearCache env).1.Consistent env pages := by
  rw [State.clearCache]
  cases hcache : s.cache with
  | none => exact ⟨rfl, h⟩
  | some cache =>
    have hnil : cache.clear.2 = [] := (h.cacheClean hcache).getDirtyPages
    dsimp only
    rw [hnil, forEach_nil]
    have hemp : ∀ e, ¬ { s with cache := some cache.clear.1 }.Caches e := by
      rintro e ⟨cache', hsome, he⟩
      cases hsome
      cases he
    exact ⟨rfl, h.withCache (fun e he => absurd he (hemp e)) fun e _ he => absurd he (hemp e)⟩

/-- **The superblock gets the mapper**, and is written. -/
theorem Consistent.persistPageMapper :
    ∃ s', s.persistPageMapper env = (s', .ok ()) ∧ s'.Consistent env pages ∧ s'.config = s.config ∧
      s'.pageMapper.mapping = s.pageMapper.mapping ∧ s'.pageMapper.dirty = false ∧
      (s.pageMapper.dirty = true →
        ∃ page, s'.Holds env 1 page ∧ page.header.encryption = s.config.encryption) := by
  by_cases hdirty : s.pageMapper.dirty = true
  · let s₁ := { s with superblock := { s.superblock with pageMapper := s.pageMapper } }
    have h₁ : s₁.Intact env := by
      refine { h.toIntact with slots := fun p hpos hlt => ?_ }
      obtain ⟨page, hholds⟩ := h.slots p hpos hlt
      exact ⟨page, hholds.congr rfl rfl⟩
    have hpage : s₁.Storable env (s₁.superblockPage s₁.superblock) :=
      storable_newPage h.key (by omega) (by decide) (le_of_eq (Superblock.length_toBytes _))
    obtain ⟨file, cache, stored, hwrite, hwrote, hholds, hcaches⟩ := writePage_spec h₁ hpage
    have htwo := h.two_le
    have hone := h.sound.not_live_one
    have hslot : s₁.slotOf (s₁.superblockPage s₁.superblock).header.pageId = 1 :=
      h.sound.slotOf_of_not_live hone
    rw [hslot] at hwrote hholds
    have hwrote₁ : Wrote s.pageSize s.file 1 file := hwrote
    have hlen := hwrote₁.length
    have hin : (1 + 1) * s.pageSize ≤ s.file.length := h.slot_le (by omega)
    let s₂ := { s₁ with file := file, cache := cache, ticks := s₁.ticks + 1 }
    let s₃ := { s₂ with pageMapper := { s₂.pageMapper with dirty := false } }
    refine ⟨s₃, ?_, ?_, rfl, rfl, rfl, fun _ => ⟨_, hholds.congr rfl rfl, rfl⟩⟩
    · rw [State.persistPageMapper, if_pos hdirty]
      exact congrArg (andThen · _) hwrite
    · refine consistent_of h.key ?_ ?_ h.total ?_ ?_ ?_ ?_ (h.keyed.put hcaches) h.bound ?_
        fun _ => ⟨rfl, rfl⟩
      · obtain ⟨header, hfitting, hbytes⟩ := h.described.header
        refine ⟨h.described.fitting.congr rfl, ⟨header, hfitting.congr rfl, ?_⟩,
          _, s₁.superblock, hholds.congr rfl rfl, rfl, rfl, .refl⟩
        exact (hwrote₁.other 0 (by omega) (h.slot_le (by omega))).trans hbytes
      · have hkept : file.length = s.file.length := by omega
        exact hkept.trans h.length
      · exact { h.sound with }
      · intro v c hv
        obtain ⟨page, hholds', hpage'⟩ := h.live v c hv
        have hvslot := h.live_slot v (live_of_eq_some hv)
        exact ⟨page, hholds'.congr rfl (hwrote₁.other _ (by omega) (h.slot_le hvslot.2)), hpage'⟩
      · intro q hq hlt hfree
        obtain ⟨page, hholds', hpage'⟩ := h.free q hq hlt hfree
        exact ⟨page, hholds'.congr rfl (hwrote₁.other _ (by omega) (h.slot_le hlt)), hpage'⟩
      · intro e he
        rcases hcaches e he with rfl | ⟨hold, -⟩
        · refine ⟨rfl, hpage, rfl, ?_, fun c hc => absurd (live_of_eq_some hc) hone⟩
          have hnext := h.sound.next_le
          have htwo' := h.sound.two_le
          exact Nat.lt_of_lt_of_le (Nat.lt_of_lt_of_le Nat.one_lt_two htwo') hnext
        · exact { h.cacheable hold with }
      · exact { h.marked with }
  · rw [State.persistPageMapper, if_neg hdirty]
    exact ⟨s, rfl, h, rfl, rfl, Bool.not_eq_true _ ▸ hdirty, fun htrue => absurd htrue hdirty⟩

end

end State

end NanoStore.Pager
