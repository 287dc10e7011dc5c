import NanoStore.Pager.Runs
/-!
# Pager — compaction

`compact_and_truncate` looks for the highest page in use, reading the
pages by their numbers from the last one down, and cuts the file behind
it. Numbers and slots are taken for one another on the way, and the pages
that are to move are looked for only behind the highest page in use,
where there is none. What is left to see is whether a live page or a free
slot lies behind the cut.
-/

namespace NanoStore.Pager

open Steps InPlace List

/-- A page with these contents is in use. -/
def Contents.InUse (c : Contents) : Prop := c.pageType ≠ .free ∧ c.pageType ≠ .freeList

instance (c : Contents) : Decidable c.InUse := inferInstanceAs (Decidable (_ ∧ _))

variable {page : Page}

theorem isUsed_iff : page.isUsed = true ↔ page.contents.InUse := decide_eq_true_iff

namespace State

variable {env : Surroundings} {s s₀ : State} {trace : List Event} {config : PagerConfig} {v w k r : ℕ}
  {c : Contents} {pages : Pages}

/-! ## Freeing a page that is not allocated

A number that is not mapped is taken for its own slot. Freeing a page that
is not live therefore frees whatever page is in the slot of that number:
nothing happens if the slot is free, reserved or behind the end, and a
live page loses its slot if it is there.
-/

/-- The live pages are there, and no later allocation gives the slot of one of them. -/
structure Keeps (env : Surroundings) (pages : Pages) (s : State) : Prop where
  read : ∀ w c, pages w = some c → ∃ page, (s.readPage env w).2 = .ok page ∧ page.contents = c
  apart : ∀ n, ∀ g ∈ s.toAllocator.grants n, ∀ w, Live pages w → s.slotOf w ≠ g.2

section

variable (h : s.Consistent env pages)
include h

theorem Consistent.keeps : s.Keeps env pages :=
  ⟨fun _ _ hw => h.toStores.readPage hw, fun _ g hg => (h.sound.grants g hg).2⟩

theorem Consistent.freePage_unused (hv : ¬ Live pages v)
    (hunused : ∀ w c, pages w = some c → s.slotOf w = v → ¬ (c.pageType ≠ .free ∧ c.pageType ≠ .freeList)) :
    (s.freePage env v).1 = s := by
  have hself : s.slotOf v = v := h.sound.slotOf_of_not_live hv
  by_cases hreserved : v = 0 ∨ v = 1
  · rw [State.freePage, if_pos hreserved]
  · -- whatever is read from the slot is not in use
    have hfree : ∀ page, s.loadPage env (s.slotOf v) = .ok page → page.isUsed ≠ true := by
      intro page hload htrue
      have hpage : page.header.pageType ≠ .free ∧ page.header.pageType ≠ .freeList := of_decide_eq_true htrue
      by_cases hlt : s.slotOf v < s.superblock.totalPages
      · by_cases hslot : ∃ w, Live pages w ∧ s.slotOf w = s.slotOf v
        · obtain ⟨w, hw, heq⟩ := hslot
          obtain ⟨c, hc⟩ := exists_of_live hw
          obtain ⟨stored, hstored, -, hconts⟩ := h.live w c hc
          rw [heq] at hstored
          rw [hstored.loadPage (h.slot_le hlt)] at hload
          cases hload
          refine hunused w c hc (heq.trans hself) ?_
          rw [← hconts]
          exact hpage
        · obtain ⟨stored, hstored, htype, -⟩ := h.free (s.slotOf v) (by omega) hlt fun w hw heq =>
            hslot ⟨w, hw, heq⟩
          rw [hstored.loadPage (h.slot_le hlt)] at hload
          cases hload
          exact hpage.1 htype
      · have hend : s.file.length ≤ s.slotOf v * s.pageSize := by
          rw [h.length]
          exact Nat.mul_le_mul_right _ (Nat.not_lt.mp hlt)
        have hsize := s.le_pageSize
        rw [loadPage, readAt_of_length_le hend] at hload
        exact hpage.1 (Page.isFree_of_fromBytes_zeros (by omega) hload)
    cases hload : s.loadPage env (s.slotOf v) with
    | error e =>
      have hload' : s.loadPage env (s.pageMapper.translate v) = .error e := hload
      rw [State.freePage, if_neg hreserved]
      simp [hload']
    | ok page => rw [freePage_of_not_used hreserved hload (hfree page hload)]

/-- **A live page in the slot loses it**: the slot is free, and is given out again. -/
theorem Consistent.not_keeps_freePage (hv : ¬ Live pages v)
    (hw : pages w = some c) (hslot : s.slotOf w = v) (hused : c.pageType ≠ .free ∧ c.pageType ≠ .freeList) :
    ¬ (s.freePage env v).1.Keeps env pages := by
  have hself : s.slotOf v = v := h.sound.slotOf_of_not_live hv
  have hwlive := live_of_eq_some hw
  have hwslot := h.live_slot w hwlive
  obtain ⟨stored, hstored, -, hconts⟩ := h.live w c hw
  have hpage : stored.isUsed = true := by
    rw [← hconts] at hused
    exact decide_eq_true hused
  rw [hslot, ← hself] at hstored hwslot
  obtain ⟨file, header, hres, -⟩ :=
    h.freePage_of_used (by omega) hwslot.1 hwslot.2 hstored hpage
  intro hkeeps
  have hmem : s.slotOf v ∈ (s.toAllocator.release v).freeList.freePages :=
    List.mem_append_right _ (List.mem_singleton_self _)
  obtain ⟨n, g, hg, hgrant⟩ := Allocator.exists_grant_of_mem hmem
  have hwv : w ≠ v := fun heq => hv (heq ▸ hwlive)
  have hkept : (s.toAllocator.release v).slotOf w = s.slotOf w := PageMapper.translate_unmap_of_ne hwv
  rw [hres] at hkeeps
  refine hkeeps.apart n g hg w hwlive ?_
  show (s.toAllocator.release v).slotOf w = g.2
  rw [hkept, hgrant, hslot, hself]

end

/-- **Freeing a page that is not allocated is harmless exactly if no live page in use is in the slot of
that number.** -/
theorem freePage_stray_iff (hcreate : create env config = .ok s₀)
    (hrun : Run (State.exec env) (Careful env) s₀ trace s) (hv : ¬ Live (pagesOf trace) v) :
    (s.freePage env v).1.Keeps env (pagesOf trace) ↔ ∀ w c, pagesOf trace w = some c → s.slotOf w = v →
        c.pageType = .free ∨ c.pageType = .freeList := by
  have h := consistent_of_run hcreate hrun
  constructor
  · intro hkeeps w c hw hslot
    by_contra hused
    rw [not_or] at hused
    exact h.not_keeps_freePage hv hw hslot hused hkeeps
  · intro hunused
    rw [h.freePage_unused hv fun w c hw hslot hused => (hunused w c hw hslot).elim hused.1 hused.2]
    exact h.keeps

/-- Freeing a number that was never given out. -/
theorem freePage_stray_iff_unknown : ∃ s₀ s, create .plain (smallConfig .none none) = .ok s₀ ∧
    Run (State.exec .plain) (Careful .plain) s₀ [(.allocate .bTreeLeaf, .ok (.allocated 2))] s ∧
    (s.freePage .plain 7).1.Keeps .plain (pagesOf [(.allocate .bTreeLeaf, .ok (.allocated 2))]) := by
  obtain ⟨s₀, s, hcreate, hrun, -, -, halloc⟩ := allocate_first (smallConfig .none none) rfl
  refine ⟨s₀, s, hcreate, hrun, (freePage_stray_iff hcreate hrun (by decide)).mpr fun w c hw hslot => ?_⟩
  have hwlive : Live (pagesOf [(.allocate .bTreeLeaf, .ok (.allocated 2))]) w := live_of_eq_some hw
  rw [pagesOf, live_update_some] at hwlive
  rcases hwlive with rfl | hnone
  · rw [halloc] at hslot
    exact absurd hslot (by decide)
  · cases hnone

/-- Page 2 is freed, page 3 gets its slot, and page 2 is freed once more. -/
theorem freePage_twice : ∃ s₀ s trace, create .plain (smallConfig .none none) = .ok s₀ ∧
    Run (State.exec .plain) (Careful .plain) s₀ trace s ∧
    trace = [(.allocate .bTreeLeaf, .ok (.allocated 3)), (.free 2, .ok .done),
      (.allocate .bTreeLeaf, .ok (.allocated 2))] ∧ ¬ Live (pagesOf trace) 2 ∧ Live (pagesOf trace) 3 ∧
    ¬ (s.freePage .plain 2).1.Keeps .plain (pagesOf trace) := by
  obtain ⟨s₀, s₁, hcreate, hrun₁, -, -, halloc₁⟩ := allocate_first (smallConfig .none none) rfl
  obtain ⟨s₂, hrun₂, -, -, halloc₂⟩ := run_free hcreate hrun₁ (v := 2) (c := ⟨.bTreeLeaf, []⟩) rfl (by decide)
  rw [halloc₁] at halloc₂
  obtain ⟨s₃, hrun₃, -, -, halloc₃⟩ := run_allocate hcreate hrun₂ halloc₂ (by decide)
  have hslot : s₃.slotOf 3 = 2 := by
    rw [halloc₃]
    decide
  refine ⟨s₀, s₃, _, hcreate, hrun₃, rfl, by decide, by decide, ?_⟩
  exact (consistent_of_run hcreate hrun₃).not_keeps_freePage (w := 3) (c := ⟨.bTreeLeaf, []⟩) (by decide) rfl
    hslot (by decide)

/-! ## Looking for the highest page in use -/

/-- From a number on, no live page is in use, and none is cached as one in use. -/
structure Quiet (pages : Pages) (k : ℕ) (s : State) : Prop where
  cached : ∀ m entry, k ≤ m → m < s.superblock.totalPages → s.Caches (m, entry) → entry.page.isUsed ≠ true
  live : ∀ m c, k ≤ m → m < s.superblock.totalPages → pages m = some c → ¬ c.InUse

theorem Consistent.slotOf_lt (h : s.Consistent env pages) (hr : 2 ≤ r) (hlt : r < s.superblock.totalPages) :
    1 ≤ s.slotOf r ∧ s.slotOf r < s.superblock.totalPages := by
  by_cases hlive : Live pages r
  · have hslot := h.live_slot r hlive
    omega
  · rw [h.sound.slotOf_of_not_live hlive]
    omega

/-- **A read on the way down.** What was quiet stays so; if the page that is read is not in use, its number
is quiet as well; and if it was quiet before and no live page is in a slot that high, the page is not in
use. -/
theorem Consistent.readPage_quiet (h : s.Consistent env pages) (hquiet : s.Quiet pages k) (hr : 2 ≤ r)
    (hlt : r < s.superblock.totalPages) :
    ∃ cache page, s.readPage env r = ({ s with cache := cache }, .ok page) ∧
      { s with cache := cache }.Consistent env pages ∧ { s with cache := cache }.Quiet pages k ∧
      (page.isUsed ≠ true →
        (∀ entry, { s with cache := cache }.Caches (r, entry) → entry.page.isUsed ≠ true) ∧
          ∀ c, pages r = some c → ¬ c.InUse) ∧
      (k ≤ r → (∀ w, Live pages w → s.slotOf w < k) → page.isUsed ≠ true) := by
  have hslot := h.slotOf_lt hr hlt
  obtain ⟨cache, page, hread, hcase⟩ := readPage_spec h.toIntact hslot.1 hslot.2
  have h' := h.readPage (v := r) (by omega)
  rw [hread] at h'
  refine ⟨cache, page, hread, h', ?_⟩
  rcases hcase with ⟨entry, hent, rfl, hsub⟩ | ⟨stored, hholds, rfl, hmiss, hcaches⟩
  · -- the page was cached
    refine ⟨⟨fun m entry' hk hm he => hquiet.cached m entry' hk hm (hsub _ he), hquiet.live⟩,
      fun hunused => ⟨fun entry' he => ?_, fun c hc hused => ?_⟩, fun hk _ => hquiet.cached r entry hk hlt hent⟩
    · have heq := h.keyed _ _ (hsub _ he) hent rfl
      cases heq
      exact hunused
    · have hconts : entry.page.contents = c := h.agrees _ hent c hc
      rw [← hconts] at hused
      exact hunused (isUsed_iff.mpr hused)
  · -- the page comes from its slot
    have hsame : (readAs stored r).isUsed = stored.isUsed := rfl
    have hcases := h.stored_cases hr hslot.2 hholds
    -- a free page is not in use
    have hfree : stored.header.pageType = .free → stored.isUsed ≠ true := fun hfree hused =>
      (isUsed_iff.mp hused).1 hfree
    refine ⟨⟨fun m entry' hk hm he => ?_, hquiet.live⟩, fun hunused => ⟨fun entry' he => ?_, fun c hc hused => ?_⟩,
      fun hk hlow hused => ?_⟩
    · rcases hcaches _ he with hnew | ⟨hold, -⟩
      · obtain ⟨rfl, rfl⟩ := Prod.mk.inj hnew
        rcases hcases with ⟨w, hw, -, hid⟩ | ⟨-, htype, -⟩
        · rw [← hid] at hw
          exact fun hused => hquiet.live _ _ hk hm hw (isUsed_iff.mp hused)
        · exact hfree htype
      · exact hquiet.cached m entry' hk hm hold
    · rcases hcaches _ he with hnew | ⟨hold, -⟩
      · obtain ⟨-, rfl⟩ := Prod.mk.inj hnew
        exact hunused
      · exact absurd rfl (hmiss _ hold)
    · rcases hcases with ⟨w, hw, heq, -⟩ | ⟨hdead, -⟩
      · obtain rfl := h.sound.slot_injective w r (live_of_eq_some hw) (live_of_eq_some hc) heq
        obtain rfl : stored.contents = c := Option.some.inj (hw.symm.trans hc)
        exact hunused (isUsed_iff.mpr hused)
      · exact hdead (live_of_eq_some hc)
    · rcases hcases with ⟨w, hw, heq, -⟩ | ⟨-, htype, -⟩
      · have hwlive := live_of_eq_some hw
        by_cases hlive : Live pages r
        · obtain rfl := h.sound.slot_injective w r hwlive hlive heq
          exact hquiet.live _ _ hk hlt hw (isUsed_iff.mp hused)
        · have hself := h.sound.slotOf_of_not_live hlive
          have hslotw := hlow w hwlive
          omega
      · exact hfree htype hused

/-- **The highest page in use is found**, and behind it all is quiet. -/
theorem Consistent.findHighestFrom (n : ℕ) (h : s.Consistent env pages)
    (hn : n + 2 ≤ s.superblock.totalPages) (hquiet : s.Quiet pages (n + 2)) :
    ∃ cache found, findHighestFrom env n s = ({ s with cache := cache }, .ok found) ∧
      { s with cache := cache }.Consistent env pages ∧
      ∀ highest, found = some highest →
        2 ≤ highest ∧ highest < n + 2 ∧ { s with cache := cache }.Quiet pages (highest + 1) := by
  -- from the last page down; each page that is not in use is quiet from then on
  induction n generalizing s with
  | zero => exact ⟨s.cache, none, rfl, h, fun highest hfound => by cases hfound⟩
  | succ n ih =>
    obtain ⟨cache, page, hread, h', hquiet', hunused, -⟩ :=
      h.readPage_quiet hquiet (r := n + 2) (by omega) (by omega)
    by_cases hused : page.isUsed = true
    · refine ⟨cache, some (n + 2), ?_, h', ?_⟩
      · rw [findHighestFrom, hread, andThen_ok, if_pos hused]
      · intro highest hfound
        obtain rfl := Option.some.inj hfound
        exact ⟨by omega, by omega, hquiet'⟩
    · have hnext : { s with cache := cache }.Quiet pages (n + 2) := by
        obtain ⟨hcached, hlive⟩ := hunused hused
        refine ⟨fun m entry hk hm he => ?_, fun m c hk hm hc => ?_⟩
        · by_cases hm' : m = n + 2
          · subst hm'
            exact hcached entry he
          · exact hquiet'.cached m entry (by omega) hm he
        · by_cases hm' : m = n + 2
          · subst hm'
            exact hlive c hc
          · exact hquiet'.live m c (by omega) hm hc
      have hn' : n + 2 ≤ s.superblock.totalPages := by omega
      obtain ⟨cache', found, hfind, h'', hfound⟩ := ih h' hn' hnext
      refine ⟨cache', found, ?_, h'', fun highest hsome => ?_⟩
      · rw [findHighestFrom, hread, andThen_ok, if_neg hused]
        exact hfind
      · obtain ⟨htwo, hlt, hquiet''⟩ := hfound highest hsome
        exact ⟨htwo, by omega, hquiet''⟩

theorem Consistent.findHighestUsedPage (h : s.Consistent env pages) :
    ∃ cache found, s.findHighestUsedPage env = ({ s with cache := cache }, .ok found) ∧
      { s with cache := cache }.Consistent env pages ∧
      ∀ highest, found = some highest → 2 ≤ highest ∧ highest < s.superblock.totalPages ∧
        { s with cache := cache }.Quiet pages (highest + 1) := by
  have htwo := h.two_le
  obtain ⟨cache, found, hfind, h', hfound⟩ := h.findHighestFrom (s.superblock.totalPages - 2) (by omega)
    ⟨fun m entry hk hm => by omega, fun m c hk hm => by omega⟩
  refine ⟨cache, found, hfind, h', fun highest hsome => ?_⟩
  obtain ⟨hle, hlt, hquiet⟩ := hfound highest hsome
  exact ⟨hle, by omega, hquiet⟩

/-! ## Moving pages -/

variable {highest : ℕ}

theorem Consistent.movePages_quiet (n : ℕ) (freePages : List ℕ) (h : s.Consistent env pages)
    (hquiet : s.Quiet pages (highest + 1)) (hlow : ∀ w, Live pages w → s.slotOf w < highest + 1)
    (htwo : 2 ≤ highest) (hn : highest + 1 + n ≤ s.superblock.totalPages) :
    ∃ cache, movePages env highest n freePages s = ({ s with cache := cache }, .ok 0) ∧
      { s with cache := cache }.Consistent env pages := by
  induction n generalizing s with
  | zero => exact ⟨s.cache, rfl, h⟩
  | succ n ih =>
    obtain ⟨cache, page, hread, h', hquiet', -, hunused⟩ :=
      h.readPage_quiet hquiet (r := highest + 1 + n) (by omega) (by omega)
    have hskip : page.isUsed ≠ true := hunused (by omega) hlow
    have hn' : highest + 1 + n ≤ s.superblock.totalPages := by omega
    obtain ⟨cache', hmove, h''⟩ := ih h' hquiet' hlow hn'
    refine ⟨cache', ?_, h''⟩
    rw [movePages, hread, andThen_ok, if_neg hskip]
    exact hmove

/-- What moving pages can do: the numbers of the pages that moved have slots of the free list, which stays
as it is. -/
structure Moved (env : Surroundings) (s₀ s : State) : Prop where
  intact : s.Intact env
  superblock : s.superblock = s₀.superblock
  freeList : s.freeList = s₀.freeList
  inside : ∀ n, 2 ≤ n → n < s₀.superblock.totalPages → 1 ≤ s.slotOf n ∧ s.slotOf n < s₀.superblock.totalPages
  moved : ∀ v, s.slotOf v = s₀.slotOf v ∨ s.slotOf v ∈ s₀.freeList.freePages

theorem translate_foldl_remap (p : ℕ) (vs : List ℕ) (mapper : PageMapper) (w : ℕ) :
    (vs.foldl (fun mapper v => mapper.remap v p) mapper).translate w = mapper.translate w ∨
      (vs.foldl (fun mapper v => mapper.remap v p) mapper).translate w = p := by
  induction vs generalizing mapper with
  | nil => exact .inl rfl
  | cons v vs ih =>
    rw [foldl_cons]
    rcases ih (mapper.remap v p) with hkept | hmoved
    · by_cases hwv : w = v
      · right
        rw [hkept, hwv, PageMapper.translate_remap_self]
      · left
        rw [hkept, PageMapper.translate_remap_of_ne hwv]
    · exact .inr hmoved

theorem Moved.writePageToDisk (h : Moved env s₀ s) (hpage : s.Storable env page)
    (hslot : s.slotOf page.header.pageId < s₀.superblock.totalPages) :
    ∃ file, s.writePageToDisk env page = ({ s with file := file, ticks := s.ticks + 1 }, .ok ()) ∧
      Moved env s₀ { s with file := file, ticks := s.ticks + 1 } := by
  obtain ⟨file, stored, hstore, hwrote, hholds⟩ :=
    storePage_of_storable hpage (s.slotOf page.header.pageId)
  have hslot' : s.slotOf page.header.pageId < s.superblock.totalPages := by
    rw [h.superblock]
    exact hslot
  refine ⟨file, hstore, { h with intact := ?_ }⟩
  exact h.intact.wrote hslot' hwrote hholds fun e he => ⟨h.intact.clean e he, h.intact.cached e he⟩

variable {p : ℕ}

/-- **A page moves to a free slot.** -/
theorem Moved.movePage (h : Moved env s₀ s) (hbound : s₀.superblock.totalPages ≤ 256 ^ 8) {q : ℕ}
    (hp : 2 ≤ p) (hplt : p < s₀.superblock.totalPages) (hq : 2 ≤ q) (hqlt : q < s₀.superblock.totalPages)
    (hne : p ≠ q) (hfree : q ∈ s₀.freeList.freePages) :
    ∃ s', s.movePage env p q = (s', .ok ()) ∧ Moved env s₀ s' := by
  have hpslot := h.inside p hp hplt
  obtain ⟨cache, page, hread, hpage, hintact⟩ :=
    h.intact.readPage hpslot.1 (by rw [h.superblock]; exact hpslot.2) (by omega)
  have h₁ : Moved env s₀ { s with cache := cache } := { h with intact := hintact }
  -- the page is written under the number of the free slot
  let page' : Page := { page with header := { page.header with pageId := q } }
  have hpage' : { s with cache := cache }.Storable env page' :=
    { hpage with pageId := Nat.lt_of_lt_of_le hqlt hbound }
  obtain ⟨file, hwrite, h₂⟩ := h₁.writePageToDisk hpage' (h.inside q hq hqlt).2
  -- then the mapper is changed
  let mapper := (s.pageMapper.findVirtualPagesForPhysical p).foldl (fun mapper v => mapper.remap v q) s.pageMapper
  let s₃ : State := { s with cache := cache, file := file, ticks := s.ticks + 1, pageMapper := mapper }
  have hmap : ∀ v, s₃.slotOf v = s.slotOf v ∨ s₃.slotOf v = q :=
    translate_foldl_remap q (s.pageMapper.findVirtualPagesForPhysical p) s.pageMapper
  have h₃ : Moved env s₀ s₃ := by
    refine ⟨?_, h.superblock, h.freeList, fun n hn hlt => ?_, fun v => ?_⟩
    · refine { h₂.intact with slots := fun n hpos hlt => ?_ }
      obtain ⟨stored, hholds⟩ := h₂.intact.slots n hpos hlt
      exact ⟨stored, hholds.congr rfl rfl⟩
    · rcases hmap n with heq | heq
      · rw [heq]
        exact h.inside n hn hlt
      · rw [heq]
        omega
    · rcases hmap v with heq | heq
      · rw [heq]
        exact h.moved v
      · rw [heq]
        exact .inr hfree
  -- and the old place gets a free page
  have hemp : s₃.Storable env (s₃.newPage p .free []) :=
    storable_newPage h₃.intact.key (by omega) (by decide) (Nat.zero_le _)
  obtain ⟨file', hwrite', h₄⟩ := h₃.writePageToDisk hemp (h₃.inside p hp hplt).2
  refine ⟨_, ?_, h₄⟩
  rw [State.movePage, if_neg hne, if_neg (by omega), if_neg (by omega)]
  dsimp only
  rw [hread, andThen_ok, hwrite, andThen_ok]
  exact hwrite'

/-- **Moving pages succeeds**, and gives nothing but free slots. -/
theorem Moved.movePages (n : ℕ) (freePages : List ℕ) (h : Moved env s₀ s)
    (hbound : s₀.superblock.totalPages ≤ 256 ^ 8) (htwo : 2 ≤ highest)
    (hn : highest + 1 + n ≤ s₀.superblock.totalPages)
    (hfree : ∀ p ∈ freePages, p ∈ s₀.freeList.freePages ∧ 2 ≤ p ∧ p < highest) :
    ∃ s' moved, movePages env highest n freePages s = (s', .ok moved) ∧ Moved env s₀ s' := by
  induction n generalizing s freePages with
  | zero => exact ⟨s, 0, rfl, h⟩
  | succ n ih =>
    have hslot := h.inside (highest + 1 + n) (by omega) (by omega)
    obtain ⟨cache, page, hread, -, hintact⟩ :=
      h.intact.readPage hslot.1 (by rw [h.superblock]; exact hslot.2) (by omega)
    have h₁ : Moved env s₀ { s with cache := cache } := { h with intact := hintact }
    by_cases hused : page.isUsed = true
    · cases freePages with
      | nil =>
        refine ⟨_, 0, ?_, h₁⟩
        rw [movePages, hread, andThen_ok, if_pos hused]
      | cons q freePages =>
        obtain ⟨hmem, hq, hlt⟩ := hfree q mem_cons_self
        obtain ⟨s₂, hmove, h₂⟩ := h₁.movePage hbound (p := highest + 1 + n) (by omega) (by omega) hq (by omega)
          (by omega) hmem
        obtain ⟨s', moved, hrest, h'⟩ := ih freePages h₂ (by omega) fun p hp => hfree p (mem_cons_of_mem _ hp)
        refine ⟨s', moved + 1, ?_, h'⟩
        rw [movePages, hread, andThen_ok, if_pos hused]
        dsimp only
        rw [hmove, andThen_ok, hrest, andThen_ok]
    · obtain ⟨s', moved, hrest, h'⟩ := ih freePages h₁ (by omega) hfree
      refine ⟨s', moved, ?_, h'⟩
      rw [movePages, hread, andThen_ok, if_neg hused]
      exact hrest

/-! ## Cutting the file -/

/-- The pager after the cut, before the superblock is written. -/
def cut (s : State) (n : ℕ) : State :=
  { s.truncateFile (n * s.pageSize) with superblock := { s.superblock with totalPages := n } }

variable {n : ℕ}

section

variable (h : s.Intact env)
include h

theorem Intact.file_cut (hn : n ≤ s.superblock.totalPages) :
    (s.cut n).file = s.file.take (n * s.pageSize) ∧ (s.cut n).file.length = n * s.pageSize := by
  have hle : n * s.pageSize ≤ s.file.length := by
    rw [h.length]
    exact Nat.mul_le_mul_right _ hn
  have hfile : (s.cut n).file = s.file.take (n * s.pageSize) := by
    show s.file.take (n * s.pageSize) ++ List.replicate (n * s.pageSize - s.file.length) 0 = _
    rw [Nat.sub_eq_zero_of_le hle, replicate_zero, append_nil]
  refine ⟨hfile, ?_⟩
  rw [hfile, length_take, min_eq_left hle]

theorem Intact.holds_cut (hn : n ≤ s.superblock.totalPages)
    (hp : p < n) (hholds : s.Holds env p page) : (s.cut n).Holds env p page := by
  refine hholds.congr rfl ?_
  rw [(h.file_cut hn).1]
  exact slot_take hp

theorem Intact.cut (htwo : 2 ≤ n) (hn : n ≤ s.superblock.totalPages) :
    (s.cut n).Intact env := by
  refine ⟨h.key, htwo, (h.file_cut hn).2, fun p hpos hlt => ?_, h.clean, h.cached⟩
  have hp : p < n := hlt
  obtain ⟨page, hholds⟩ := h.slots p hpos (by omega)
  exact ⟨page, h.holds_cut hn hp hholds⟩

theorem Intact.writeSuperblock {superblock : Superblock} :
    ∃ file cache stored, s.writeSuperblock env superblock =
        ({ s with file := file, cache := cache, ticks := s.ticks + 1 }, .ok ()) ∧
      Wrote s.pageSize s.file (s.slotOf 1) file ∧
      { s with file := file, cache := cache, ticks := s.ticks + 1 }.Holds env (s.slotOf 1)
        ((s.superblockPage superblock).withSizes stored) ∧
      s.Storable env (s.superblockPage superblock) ∧
      ∀ e, { s with file := file, cache := cache, ticks := s.ticks + 1 }.Caches e →
        e = (1, ⟨s.superblockPage superblock, false⟩) ∨ s.Caches e ∧ e.1 ≠ 1 := by
  have hpage : s.Storable env (s.superblockPage superblock) :=
    storable_newPage h.key (by omega) (by decide) (le_of_eq (Superblock.length_toBytes _))
  obtain ⟨file, cache, stored, hwrite, hwrote, hholds, hcaches⟩ := writePage_spec h hpage
  exact ⟨file, cache, stored, hwrite, hwrote, hholds, hpage, hcaches⟩

end

/-! ## The whole call -/

/-- What a compaction should leave: the live pages, apart from all later ones, and no number behind the
end of the file in the free list or in the mapper. -/
structure Compacted (env : Surroundings) (pages : Pages) (s : State) : Prop extends s.Keeps env pages where
  fresh : ∀ n, ∀ g ∈ s.toAllocator.grants n, ¬ Live pages g.1
  free_lt : ∀ p ∈ s.freeList.freePages, p < s.superblock.totalPages
  mapped_lt : ∀ v p, s.pageMapper.mapping.lookup v = some p → p < s.superblock.totalPages

theorem Consistent.compacted (h : s.Consistent env pages) : s.Compacted env pages where
  toKeeps := h.keeps
  fresh n g hg := (h.sound.grants g hg).1
  free_lt p hp := h.total ▸ (h.sound.free_lt p hp).2
  mapped_lt v p hp := by
    have hslot := (h.live_slot v (h.sound.mapped v p hp)).2
    rwa [Allocator.slotOf, PageMapper.translate_of_lookup hp] at hslot

theorem Consistent.snapshot (h : s.Consistent env pages) :
    { s with freeList := s.freeList.snapshotFreePages.1 }.Consistent env pages := by
  refine consistent_of h.key (h.described.congr rfl rfl rfl fun _ _ => rfl) h.length h.total ?_ ?_ ?_ ?_
    (h.keyed.of_subset fun _ he => he) h.bound h.marked h.persisted
  · refine { h.sound with free_nodup := nodup_reverse.mpr h.sound.free_nodup, free_lt := ?_, free_live := ?_ }
    · exact fun p hp => h.sound.free_lt p (mem_reverse.mp hp)
    · exact fun p hp => h.sound.free_live p (mem_reverse.mp hp)
  · intro v c hv
    obtain ⟨page, hholds, hpage⟩ := h.live v c hv
    exact ⟨page, hholds.congr rfl rfl, hpage⟩
  · intro p htwo hlt hfree
    obtain ⟨page, hholds, hpage⟩ := h.free p htwo hlt hfree
    exact ⟨page, hholds.congr rfl rfl, hpage⟩
  · intro e he
    exact { h.cacheable he with }

theorem compactAndTruncate_of_moved {moved : ℕ} {cache : Option PageCache} {s₂ : State}
    (hfind : s.findHighestUsedPage env = ({ s with cache := cache }, .ok (some highest)))
    (hmove : movePages env highest (s.superblock.totalPages - (highest + 1))
      ((s.freeList.freePages.filter fun p => 2 ≤ p ∧ p < highest).mergeSort)
      { s with cache := cache, freeList := s.freeList.snapshotFreePages.1 } = (s₂, .ok moved)) :
    (s.compactAndTruncate env).1 =
      ((s₂.cut (highest + 1)).writeSuperblock env (s₂.cut (highest + 1)).superblock).1 := by
  rw [compactAndTruncate, hfind, andThen_ok]
  dsimp only
  have hmove' : movePages env highest (s.superblock.totalPages - (highest + 1))
      ((s.freeList.snapshotFreePages.2.filter fun p => 2 ≤ p ∧ p < highest).mergeSort)
      { s with cache := cache, freeList := s.freeList.snapshotFreePages.1 } = (s₂, .ok moved) := hmove
  rw [hmove', andThen_ok]
  show (andThen ((s₂.cut (highest + 1)).writeSuperblock env (s₂.cut (highest + 1)).superblock) _).1 = _
  rcases (s₂.cut (highest + 1)).writeSuperblock env (s₂.cut (highest + 1)).superblock with ⟨s', answer⟩
  cases answer with
  | error e | ok u => rfl

/-- **What lies behind the cut is lost**: if the call does what it should, no free slot and no live page is
there. -/
theorem Consistent.low_of_compacted (h : s.Consistent env pages)
    (hfound : (s.findHighestUsedPage env).2 = .ok (some highest))
    (hcomp : (s.compactAndTruncate env).1.Compacted env pages) :
    (∀ p ∈ s.freeList.freePages, p ≤ highest) ∧ ∀ w, Live pages w → s.slotOf w ≤ highest := by
  obtain ⟨cache, found, hfind, h₁, hhighest⟩ := h.findHighestUsedPage
  rw [hfind] at hfound
  cases hfound
  obtain ⟨htwo, hlt, -⟩ := hhighest highest rfl
  let s₁ : State := { s with cache := cache, freeList := s.freeList.snapshotFreePages.1 }
  have hsnap : s₁.Consistent env pages := h₁.snapshot
  have hbound : s₁.superblock.totalPages ≤ 256 ^ 8 := by
    have hnext := hsnap.sound.next_le
    have htot := hsnap.total
    have hbound := hsnap.bound
    omega
  have hstart : Moved env s₁ s₁ :=
    ⟨hsnap.toIntact, rfl, rfl, fun n hn hlt => hsnap.slotOf_lt hn hlt, fun v => .inl rfl⟩
  have hmem : ∀ p, p ∈ s₁.freeList.freePages ↔ p ∈ s.freeList.freePages := fun p => mem_reverse
  have htot : s₁.superblock.totalPages = s.superblock.totalPages := rfl
  obtain ⟨s₂, moved, hmove, h₂⟩ := hstart.movePages (s.superblock.totalPages - (highest + 1))
    ((s.freeList.freePages.filter fun p => 2 ≤ p ∧ p < highest).mergeSort) hbound htwo (by omega)
    fun p hp => by
      rw [mem_mergeSort, mem_filter, decide_eq_true_iff] at hp
      exact ⟨(hmem p).mpr hp.1, hp.2⟩
  have hn : highest + 1 ≤ s₂.superblock.totalPages := by
    rw [h₂.superblock]
    exact hlt
  obtain ⟨file, cache', -, hwrite, -⟩ :=
    (h₂.intact.cut (by omega) hn).writeSuperblock
  rw [compactAndTruncate_of_moved hfind hmove, hwrite] at hcomp
  have hlist : ∀ p, p ∈ s₂.freeList.freePages ↔ p ∈ s.freeList.freePages := fun p => by
    rw [h₂.freeList]
    exact hmem p
  refine ⟨fun p hp => Nat.le_of_lt_succ (hcomp.free_lt p ((hlist p).mpr hp)), fun w hw => ?_⟩
  rcases h₂.moved w with hkept | hmoved
  · -- the page did not move, and can be read
    obtain ⟨c, hc⟩ := exists_of_live hw
    obtain ⟨page, hread, -⟩ := hcomp.read w c hc
    have hslot : s₂.slotOf w < highest + 1 := slotOf_lt_of_readPage hread
    rw [hkept] at hslot
    exact Nat.le_of_lt_succ hslot
  · -- the page moved to a slot that is still free
    rw [← h₂.freeList] at hmoved
    obtain ⟨n, g, hg, hgrant⟩ := Allocator.exists_grant_of_mem (a := { s₂.toAllocator with
      superblock := (s₂.cut (highest + 1)).superblock }) hmoved
    exact absurd hgrant.symm (hcomp.apart n g hg w hw)

/-- **If nothing that matters lies behind the cut, nothing is lost.** -/
theorem Consistent.compacted_of_low (h : s.Consistent env pages)
    (hfound : (s.findHighestUsedPage env).2 = .ok (some highest))
    (hfree : ∀ p ∈ s.freeList.freePages, p ≤ highest) (hlow : ∀ w, Live pages w → s.slotOf w ≤ highest) :
    (s.compactAndTruncate env).1.Compacted env pages := by
  obtain ⟨cache, found, hfind, h₁, hhighest⟩ := h.findHighestUsedPage
  rw [hfind] at hfound
  cases hfound
  obtain ⟨htwo, hlt, hquiet⟩ := hhighest highest rfl
  let s₁ : State := { s with cache := cache, freeList := s.freeList.snapshotFreePages.1 }
  have hsnap : s₁.Consistent env pages := h₁.snapshot
  have hquiet₁ : s₁.Quiet pages (highest + 1) := ⟨hquiet.cached, hquiet.live⟩
  have htot : s₁.superblock.totalPages = s.superblock.totalPages := rfl
  obtain ⟨cache₂, hmove, h₂⟩ := hsnap.movePages_quiet (s.superblock.totalPages - (highest + 1))
    ((s.freeList.freePages.filter fun p => 2 ≤ p ∧ p < highest).mergeSort) hquiet₁
    (fun w hw => Nat.lt_succ_of_le (hlow w hw)) htwo (by omega)
  let s₂ : State := { s₁ with cache := cache₂ }
  have hn : highest + 1 ≤ s₂.superblock.totalPages := hlt
  have hcut := h₂.toIntact.cut (by omega) hn
  obtain ⟨file, cache₃, stored, hwrite, hwrote, hholds, hpage, hcaches⟩ :=
    hcut.writeSuperblock
  rw [compactAndTruncate_of_moved hfind hmove, hwrite]
  have hdead := h.sound.not_live_one
  have hone : s₂.slotOf 1 = 1 := h₂.sound.slotOf_of_not_live hdead
  let s₃ : State := { s₂.cut (highest + 1) with
    file := file, cache := cache₃, ticks := (s₂.cut (highest + 1)).ticks + 1 }
  have hin : (s₂.cut (highest + 1)).slotOf 1 < (s₂.cut (highest + 1)).superblock.totalPages := by
    show s₂.slotOf 1 < highest + 1
    omega
  have hsound : s₃.toAllocator.Sound (Live pages) := { h₂.sound with }
  have hstores : s₃.Stores env pages := by
    refine ⟨hcut.wrote hin hwrote hholds fun e he => ?_, fun v hv => ?_, fun v c hv => ?_, fun e he c hc => ?_⟩
    · rcases hcaches e he with rfl | ⟨hold, -⟩
      · exact ⟨rfl, hpage, rfl⟩
      · exact ⟨hcut.clean e hold, hcut.cached e hold⟩
    · exact ⟨(h₂.live_slot v hv).1, Nat.lt_succ_of_le (hlow v hv)⟩
    · have hvlive := live_of_eq_some hv
      have hslot : 2 ≤ s₂.slotOf v := (h₂.live_slot v hvlive).1
      have hle : s₂.slotOf v < highest + 1 := Nat.lt_succ_of_le (hlow v hvlive)
      obtain ⟨page, hpage', hrest⟩ := h₂.live v c hv
      have hkept := h₂.toIntact.holds_cut hn hle hpage'
      refine ⟨page, hkept.congr rfl (hwrote.other _ ?_ (hcut.slot_le hle)), hrest⟩
      show s₂.slotOf v ≠ s₂.slotOf 1
      omega
    · rcases hcaches e he with rfl | ⟨hold, -⟩
      · exact absurd (live_of_eq_some hc) hdead
      · exact h₂.agrees e hold c hc
  refine ⟨⟨fun w c hw => hstores.readPage hw, fun n g hg => (hsound.grants g hg).2⟩,
    fun n g hg => (hsound.grants g hg).1, fun p hp => ?_, fun v p hp => ?_⟩
  · exact Nat.lt_succ_of_le (hfree p (mem_reverse.mp hp))
  · have hslot := hlow v (h₂.sound.mapped v p hp)
    have heq : s.slotOf v = p := PageMapper.translate_of_lookup hp
    exact Nat.lt_succ_of_le (heq ▸ hslot)

/-- **A compaction does what it should exactly if no free slot and no live page lies behind the highest
page in use**, as the pages are read by their numbers from the last one down. -/
theorem compactAndTruncate_iff (hcreate : create env config = .ok s₀)
    (hrun : Run (exec env) (Careful env) s₀ trace s) :
    (s.compactAndTruncate env).1.Compacted env (pagesOf trace) ↔
      ∀ highest, (s.findHighestUsedPage env).2 = .ok (some highest) →
        (∀ p ∈ s.freeList.freePages, p ≤ highest) ∧ ∀ w, Live (pagesOf trace) w → s.slotOf w ≤ highest := by
  have h := consistent_of_run hcreate hrun
  constructor
  · intro hcomp highest hfound
    exact h.low_of_compacted hfound hcomp
  · intro hlow
    obtain ⟨cache, found, hfind, h₁, -⟩ := h.findHighestUsedPage
    cases found with
    | none =>
      rw [compactAndTruncate, hfind, andThen_ok]
      exact h₁.compacted
    | some highest =>
      obtain ⟨hfree, hslots⟩ := hlow highest (by rw [hfind])
      exact h.compacted_of_low (by rw [hfind]) hfree hslots

/-- Of three pages the one in the middle is freed: its slot lies before the last page, which is in use. -/
theorem compactAndTruncate_iff_hole : ∃ s₀ s trace, create .plain (smallConfig .none none) = .ok s₀ ∧
    trace = [(.free 3, .ok .done), (.allocate .bTreeLeaf, .ok (.allocated 4)),
      (.allocate .bTreeLeaf, .ok (.allocated 3)), (.allocate .bTreeLeaf, .ok (.allocated 2))] ∧
    Run (exec .plain) (Careful .plain) s₀ trace s ∧ s.freeList.freePages = [3] ∧
    (s.compactAndTruncate .plain).1.Compacted .plain (pagesOf trace) := by
  obtain ⟨s₀, s₁, hcreate, hrun₁, -, -, halloc₁⟩ := allocate_first (smallConfig .none none) rfl
  obtain ⟨s₂, hrun₂, -, -, halloc₂⟩ := run_allocate hcreate hrun₁ halloc₁ (by decide)
  obtain ⟨s₃, hrun₃, -, -, halloc₃⟩ := run_allocate hcreate hrun₂ halloc₂ (by decide)
  obtain ⟨s, hrun, -, -, halloc⟩ := run_free hcreate hrun₃ (v := 3) (c := ⟨.bTreeLeaf, []⟩) rfl (by decide)
  rw [halloc₃] at halloc
  have hlist : s.freeList.freePages = [3] := by
    rw [halloc]
    decide
  refine ⟨s₀, s, _, hcreate, rfl, hrun, hlist,
    (compactAndTruncate_iff hcreate hrun).mpr fun highest hfound => ?_⟩
  obtain ⟨cache, found, hfind, -, hhighest⟩ := (consistent_of_run hcreate hrun).findHighestUsedPage
  rw [hfind] at hfound
  cases hfound
  obtain ⟨-, -, hquiet⟩ := hhighest highest rfl
  -- page 4 is in use, so nothing below it is the highest
  have hfour : 4 ≤ highest := by
    by_contra hlt
    exact hquiet.live 4 ⟨.bTreeLeaf, []⟩ (by omega) (by rw [halloc]; decide) rfl (by decide)
  refine ⟨fun p hp => ?_, fun w hw => ?_⟩
  · rw [hlist, mem_singleton] at hp
    omega
  · have hslot : s.slotOf w ≤ 4 := by
      simp only [pagesOf, live_update_none, live_update_some] at hw
      rw [halloc]
      obtain ⟨rfl | rfl | rfl | hnone, hne⟩ := hw
      · decide
      · exact absurd rfl hne
      · decide
      · cases hnone
    omega

/-- Page 3 is freed: its slot stays in the free list, behind the end of the file. -/
theorem compactAndTruncate_free_slot : ∃ s₀ s trace, create .plain (smallConfig .none none) = .ok s₀ ∧
    Run (exec .plain) (Careful .plain) s₀ trace s ∧
    trace = [(.free 3, .ok .done), (.allocate .bTreeLeaf, .ok (.allocated 3)),
      (.allocate .bTreeLeaf, .ok (.allocated 2))] ∧
    ¬ (s.compactAndTruncate .plain).1.Compacted .plain (pagesOf trace) := by
  obtain ⟨s₀, s₁, hcreate, hrun₁, -, hcache₁, halloc₁⟩ :=
    allocate_first (smallConfig .none none) rfl
  obtain ⟨s₂, hrun₂, -, hcache₂, halloc₂⟩ := run_allocate hcreate hrun₁ halloc₁ (by decide)
  obtain ⟨s₃, hrun, -, hcache₃, halloc⟩ := run_free hcreate hrun₂ (v := 3) (c := ⟨.bTreeLeaf, []⟩) rfl (by decide)
  rw [halloc₂] at halloc
  refine ⟨s₀, s₃, _, hcreate, hrun, rfl, ?_⟩
  have h := consistent_of_run hcreate hrun
  have hcache : s₃.cache = none := hcache₃.trans (hcache₂.trans hcache₁)
  have htot : s₃.superblock.totalPages = 4 := by
    rw [halloc]
    rfl
  have hslot₂ : s₃.slotOf 2 = 2 := by
    rw [halloc]
    rfl
  have hslot₃ : s₃.slotOf 3 = 3 := by
    rw [halloc]
    rfl
  have hmem : 3 ∈ s₃.freeList.freePages := by
    rw [halloc]
    decide
  -- slot 3 is free, and page 2 is in use
  obtain ⟨free, hholds₃, htype, -⟩ := h.free 3 (by omega) (by omega) fun w hw hslot =>
    h.sound.free_live 3 hmem w hw hslot
  obtain ⟨used, hholds₂, -, hconts⟩ := h.live 2 ⟨.bTreeLeaf, []⟩ rfl
  have hread₃ := Holds.readPage_uncached (v := 3) (hslot₃.symm ▸ hholds₃) hcache (by omega)
    (h.slot_le (by omega))
  have hread₂ := Holds.readPage_uncached (v := 2) hholds₂ hcache (by omega) (h.slot_le (by omega))
  have hunused : ¬ (readAs free 3).isUsed = true := fun htrue => (isUsed_iff.mp htrue).1 htype
  have hused : (readAs used 2).isUsed = true := by
    refine isUsed_iff.mpr ?_
    show used.contents.InUse
    rw [hconts]
    decide
  have hfound : (s₃.findHighestUsedPage .plain).2 = .ok (some 2) := by
    rw [findHighestUsedPage, htot]
    rw [show 4 - 2 = 1 + 1 from rfl, findHighestFrom, hread₃, andThen_ok, if_neg hunused,
      findHighestFrom, hread₂, andThen_ok, if_pos hused]
  intro hcomp
  have hle := (h.low_of_compacted hfound hcomp).1 3 hmem
  omega

end State

end NanoStore.Pager
