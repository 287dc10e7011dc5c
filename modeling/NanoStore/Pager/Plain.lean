import NanoStore.Pager.Reopen
/-!
# Pager — pages that are neither compressed nor encrypted

A table makes its pages with `Page::new`, whose header asks for no
compression and no encryption, whatever the pager is configured for. A
page that was written so is handed out so, and can be written again with
other data of the same length. The contents of a page do not say how it
was stored, so that is followed here, through the calls that concern other
pages.
-/

namespace NanoStore.Pager

open Steps InPlace

/-- The page is stored as it is. -/
def Page.Plain (page : Page) : Prop := page.header.compression = .none ∧ page.header.encryption = .none

namespace State

variable {env : Surroundings} {pages : Pages} {s : State} {v w : ℕ} {page : Page} {c : Contents}

/-- The page is stored as it is, in its slot and in the cache. -/
def PlainAt (env : Surroundings) (v : ℕ) (s : State) : Prop :=
  (∀ page, s.Holds env (s.slotOf v) page → page.Plain) ∧ ∀ e, s.Caches e → e.1 = v → e.2.page.Plain

theorem storable_of_plain (hplain : page.Plain) (hid : page.header.pageId < 256 ^ 8)
    (hvirt : page.header.virtualPageId < 256 ^ 8) (hknown : page.header.pageType.Known)
    (hlen : page.data.length ≤ s.pageSize - 64) : s.Storable env page := by
  have hle := s.pageSize_le
  have hge := s.le_pageSize
  refine ⟨hid, hvirt, hknown, by omega, page.data, ?_, by omega⟩
  rw [hplain.1, hplain.2]
  rfl

section

variable (h : s.Consistent env pages)
include h

/-- **A page that is stored as it is is written.** -/
theorem Consistent.writePlain (hlive : Live pages page.header.pageId)
    (hplain : page.Plain) (hpage : s.Storable env page) : ∃ s', s.writePage env page = (s', .ok ()) ∧
      s'.Consistent env (Function.update pages page.header.pageId (some page.contents)) ∧
      s'.config = s.config ∧ s'.toAllocator = s.toAllocator ∧ s'.PlainAt env page.header.pageId ∧
      ∀ v, Live pages v → v ≠ page.header.pageId → s.PlainAt env v → s'.PlainAt env v := by
  obtain ⟨s', hwrite, h'⟩ := h.writePage hlive hpage
  obtain ⟨file, cache, stored, hspec, hwrote, hholds, hcaches⟩ := writePage_spec h.toIntact hpage
  obtain rfl : s' = _ := congrArg Prod.fst (hwrite.symm.trans hspec)
  refine ⟨_, hwrite, h', rfl, rfl, ⟨fun page' hpage' => ?_, fun e he hkey => ?_⟩, fun v hv hne hold => ?_⟩
  · obtain rfl := hpage'.unique hholds
    exact hplain
  · rcases hcaches e he with rfl | ⟨-, hother⟩
    · exact hplain
    · exact absurd hkey hother
  · have hslot : s.slotOf v ≠ s.slotOf page.header.pageId := fun heq =>
      hne (h.sound.slot_injective v _ hv hlive heq)
    have hsame := hwrote.other _ hslot (h.slot_le (h.live_slot v hv).2)
    refine ⟨fun page' hpage' => hold.1 page' (hpage'.congr rfl hsame.symm), fun e he hkey => ?_⟩
    rcases hcaches e he with rfl | ⟨hcached, -⟩
    · exact absurd hkey.symm hne
    · exact hold.2 e hcached hkey

/-- **A page that is stored as it is is handed out so.** -/
theorem Consistent.readPlain (hv : pages v = some c) (hplain : s.PlainAt env v) :
    ∃ s' page, s.readPage env v = (s', .ok page) ∧ s'.Consistent env pages ∧ s'.config = s.config ∧
      s'.toAllocator = s.toAllocator ∧ page.header.pageId = v ∧ page.contents = c ∧ page.Plain ∧
      s.Storable env page ∧ ∀ w, s.PlainAt env w → s'.PlainAt env w := by
  have hlive := live_of_eq_some hv
  have htwo := (h.sound.live_lt v hlive).1
  have hslot := h.live_slot v hlive
  have hbound := h.bound
  have hlt := (h.sound.live_lt v hlive).2
  have hcons := h.readPage (show v ≠ 0 by omega)
  obtain ⟨page', hpage', hconts⟩ := h.toStores.readPage hv
  obtain ⟨cache, page, hread, hcase⟩ := readPage_spec h.toIntact (by omega) hslot.2
  rw [hread] at hcons hpage'
  obtain rfl : page = page' := Except.ok.inj hpage'
  refine ⟨_, page, hread, hcons, rfl, rfl, ?_⟩
  rcases hcase with ⟨entry, hent, rfl, hsub⟩ | ⟨stored, hholds, rfl, -, hcaches⟩
  · have hcached := h.cacheable hent
    refine ⟨hcached.key, hconts, hplain.2 _ hent rfl, hcached.storable, fun w hw => ⟨fun page hpage => ?_, ?_⟩⟩
    · exact hw.1 page (hpage.congr rfl rfl)
    · exact fun e he => hw.2 e (hsub e he)
  · obtain ⟨page', hholds', hid, -⟩ := h.live v c hv
    obtain rfl := hholds.unique hholds'
    have hstored : stored.Plain := hplain.1 stored hholds
    refine ⟨hid, hconts, hstored, storable_readAs hholds.storable (by omega), fun w hw =>
      ⟨fun page hpage => hw.1 page (hpage.congr rfl rfl), fun e he hkey => ?_⟩⟩
    rcases hcaches e he with rfl | ⟨hold, -⟩
    · exact hstored
    · exact hw.2 e hold hkey

theorem Consistent.allocatePlain {pageType : PageType} (hknown : pageType.Known)
    (hroom : s.pageMapper.nextVirtualId + 1 < 256 ^ 8) :
    ∃ s', s.allocatePage env pageType = (s', .ok s.pageMapper.nextVirtualId) ∧
      s'.Consistent env (Function.update pages s.pageMapper.nextVirtualId (some ⟨pageType, []⟩)) ∧
      s'.config = s.config ∧ s'.pageMapper.nextVirtualId = s.pageMapper.nextVirtualId + 1 ∧
      ∀ v, Live pages v → s.PlainAt env v → s'.PlainAt env v := by
  obtain ⟨s', hres, h', hcfg, hcache, hallocator⟩ := h.allocatePage hknown hroom
  have hgrant := h.sound.granted
  rcases halloc : s.toAllocator.allocate with ⟨a, v, p⟩
  obtain ⟨file, header, hspec, hrewrote⟩ := h.allocatePage_spec hknown hroom halloc
  obtain rfl : s' = _ := congrArg Prod.fst (hres.symm.trans hspec)
  rw [halloc] at hgrant
  dsimp only at hgrant
  refine ⟨_, hres, h', rfl, hgrant.nextVirtualId, fun w hw hplain => ⟨fun page hpage => ?_, hplain.2⟩⟩
  have hne : w ≠ v := by
    have hlt := (h.sound.live_lt w hw).2
    have hvirt := hgrant.virtual
    omega
  have hslot := h.live_slot w hw
  have hsame : a.slotOf w = s.slotOf w := hgrant.other w hne
  have hholds : (s.rewritten a header file).Holds env (s.slotOf w) page := hsame ▸ hpage
  exact hplain.1 page (hholds.congr rfl (hrewrote.kept _ hslot.1 (hgrant.slot_ne w hw) hslot.2).symm)

end

end State

end NanoStore.Pager
