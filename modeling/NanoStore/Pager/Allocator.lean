import Mathlib.Data.List.AList
import NanoStore.Pager.Page
/-!
# Pager — the numbers of pages

A page has two numbers. The virtual one is given out once and never again;
the physical one is its slot of the file, taken from the free list or from
the end. `PageMapper` remembers the slots of the pages whose two numbers
differ, and every number it does not know stands for itself.

`Sound` says what keeps the pages apart. A call that allocates a page or
frees a live one keeps it (`Sound.allocate`, `Sound.release`), and from it
follows that no allocation gives away the slot of a live page.
-/

namespace NanoStore.Pager

open List

/-! ## Virtual and physical numbers -/

/-- `PageMapper`: the slots of the virtual pages that moved; all others are in their own. -/
structure PageMapper where
  mapping : AList fun _ : ℕ => ℕ
  nextVirtualId : ℕ
  dirty : Bool

variable {v w p : ℕ}

namespace PageMapper

def new : PageMapper := ⟨∅, 2, false⟩

/-- What is read from disk is clean. -/
def fromState (mapping : AList fun _ : ℕ => ℕ) (nextVirtualId : ℕ) : PageMapper :=
  ⟨mapping, nextVirtualId, false⟩

variable (mapper : PageMapper)

/-- The slot of a virtual page. -/
def translate (virtualId : ℕ) : ℕ := (mapper.mapping.lookup virtualId).getD virtualId

def allocateVirtual : PageMapper × ℕ :=
  ({ mapper with nextVirtualId := mapper.nextVirtualId + 1, dirty := true }, mapper.nextVirtualId)

/-- `remap`, which keeps no entry for a page in its own slot. -/
def remap (virtualId newPhysicalId : ℕ) : PageMapper :=
  { mapper with
    mapping :=
      if virtualId = newPhysicalId then mapper.mapping.erase virtualId
      else mapper.mapping.insert virtualId newPhysicalId
    dirty := true }

def unmap (virtualId : ℕ) : PageMapper :=
  { mapper with mapping := mapper.mapping.erase virtualId, dirty := true }

/-- The virtual pages in a slot; a slot no entry names is its own. -/
def findVirtualPagesForPhysical (physicalId : ℕ) : List ℕ :=
  let result := (mapper.mapping.entries.filter fun e => e.2 = physicalId).map Sigma.fst
  if result = [] ∧ mapper.mapping.lookup physicalId = none then [physicalId] else result

variable {mapper}

theorem translate_of_lookup (h : mapper.mapping.lookup v = some p) : mapper.translate v = p := by
  rw [translate, h, Option.getD_some]

/-- A page is where it was moved. -/
theorem translate_remap_self : (mapper.remap v p).translate v = p := by
  rw [translate, remap]
  dsimp only
  split_ifs with heq
  · rw [AList.lookup_erase, Option.getD_none, heq]
  · rw [AList.lookup_insert, Option.getD_some]

theorem lookup_remap_of_ne (h : w ≠ v) : (mapper.remap v p).mapping.lookup w = mapper.mapping.lookup w := by
  rw [remap]
  dsimp only
  split_ifs
  · exact AList.lookup_erase_ne h
  · exact AList.lookup_insert_ne h

theorem lookup_unmap_of_ne (h : w ≠ v) : (mapper.unmap v).mapping.lookup w = mapper.mapping.lookup w :=
  AList.lookup_erase_ne h

/-- No other page moves. -/
theorem translate_remap_of_ne (h : w ≠ v) : (mapper.remap v p).translate w = mapper.translate w := by
  rw [translate, lookup_remap_of_ne h, translate]

theorem translate_unmap_of_ne (h : w ≠ v) : (mapper.unmap v).translate w = mapper.translate w := by
  rw [translate, lookup_unmap_of_ne h, translate]

end PageMapper

open PageMapper

/-! ## Free slots -/

/-- `FreeList`: the slots are taken in the order in which they were freed. -/
structure FreeList where
  firstPage : ℕ
  lastPage : ℕ
  totalFree : ℕ
  freePages : List ℕ
  deriving DecidableEq

namespace FreeList

def new : FreeList := ⟨0, 0, 0, []⟩

def fromState (firstPage lastPage : ℕ) (totalFree : ℕ) : FreeList :=
  ⟨firstPage, lastPage, totalFree, []⟩

variable (list : FreeList)

/-- The page goes to the end of the list. -/
def pushPage (pageId : ℕ) : FreeList :=
  { list with freePages := list.freePages ++ [pageId], totalFree := list.totalFree + 1 }

/-- The page that was pushed first. -/
def popPage : Option (FreeList × ℕ) :=
  match list.freePages with
  | [] => none
  | pageId :: rest =>
    let popped := { list with freePages := rest, totalFree := list.totalFree - 1 }
    some (if list.totalFree = 1 then { popped with firstPage := 0, lastPage := 0 } else popped, pageId)

def setFreePages (freePages : List ℕ) : FreeList :=
  let filled := { list with freePages := freePages.mergeSort, totalFree := freePages.length }
  if freePages.length = 0 then { filled with firstPage := 0, lastPage := 0 } else filled

/-- `snapshot_free_pages`: the queue is left in the reverse order. -/
def snapshotFreePages : FreeList × List ℕ :=
  ({ list with freePages := list.freePages.reverse }, list.freePages)

variable {list}

theorem popPage_of_nil (h : list.freePages = []) : list.popPage = none := by
  rw [popPage, h]

theorem popPage_of_cons {rest : List ℕ} (h : list.freePages = p :: rest) :
    ∃ list', list.popPage = some (list', p) ∧ list'.freePages = rest := by
  rw [popPage, h]
  dsimp only
  split_ifs
  · exact ⟨_, rfl, rfl⟩
  · exact ⟨_, rfl, rfl⟩

end FreeList

/-! ## The superblock -/

/-- `Superblock`. Its copy of the mapper is the one written last. -/
structure Superblock where
  magic : ℕ
  version : ℕ
  totalPages : ℕ
  freePages : ℕ
  firstFreeListPage : ℕ
  lastFreeListPage : ℕ
  nextPageId : ℕ
  transactionCounter : ℕ
  lastCheckpointLsn : ℕ
  rootBtreePage : ℕ
  btreeRowCount : ℕ
  pageMapperPage : ℕ
  pageMapper : PageMapper

namespace Superblock

/-- `Superblock::MAGIC`. -/
def expectedMagic : ℕ := 0x004E4B5355504552

/-- `Superblock::VERSION`. -/
def currentVersion : ℕ := 2

def new : Superblock := ⟨expectedMagic, currentVersion, 2, 0, 0, 0, 2, 0, 0, 0, 0, 0, .new⟩

variable (sb : Superblock)

/-- A page at the end of the file. -/
def allocateNewPage : Superblock × ℕ :=
  ({ sb with nextPageId := sb.nextPageId + 1, totalPages := sb.totalPages + 1 }, sb.nextPageId)

def markPageFreed : Superblock := { sb with freePages := sb.freePages + 1 }

def markPageAllocated : Superblock := { sb with freePages := sb.freePages - 1 }

end Superblock

/-! ## Allocation -/

/-- What allocating and freeing change of a pager in memory. -/
structure Allocator where
  superblock : Superblock
  freeList : FreeList
  pageMapper : PageMapper

namespace Allocator

/-- The first steps of `allocate_page`: a virtual number, a slot, and the mapping of the one to the
other. -/
def allocate (a : Allocator) : Allocator × ℕ × ℕ :=
  let (mapper, virtualId) := a.pageMapper.allocateVirtual
  match a.freeList.popPage with
  | some (freeList, physicalId) =>
    (⟨a.superblock.markPageAllocated, freeList, mapper.remap virtualId physicalId⟩, virtualId, physicalId)
  | none =>
    let (superblock, physicalId) := a.superblock.allocateNewPage
    (⟨superblock, a.freeList, mapper.remap virtualId physicalId⟩, virtualId, physicalId)

/-- What `free_page` does once the slot is overwritten. -/
def release (a : Allocator) (virtualId : ℕ) : Allocator :=
  ⟨a.superblock.markPageFreed, a.freeList.pushPage (a.pageMapper.translate virtualId),
    a.pageMapper.unmap virtualId⟩

/-- The pairs of numbers that the next allocations give out. -/
def grants : ℕ → Allocator → List (ℕ × ℕ)
  | 0, _ => []
  | n + 1, a => a.allocate.2 :: grants n a.allocate.1

/-- Where a virtual page is. -/
abbrev slotOf (a : Allocator) (v : ℕ) : ℕ := a.pageMapper.translate v

/-- The pages `live` are kept apart: each has a slot of its own, none of which is free, and their
numbers and the free slots lie below the counters. -/
structure Sound (live : ℕ → Prop) (a : Allocator) : Prop where
  two_le : 2 ≤ a.superblock.nextPageId
  next_le : a.superblock.nextPageId ≤ a.pageMapper.nextVirtualId
  live_lt : ∀ v, live v → 2 ≤ v ∧ v < a.pageMapper.nextVirtualId
  slot_lt : ∀ v, live v → 2 ≤ a.slotOf v ∧ a.slotOf v < a.superblock.nextPageId
  slot_injective : ∀ v w, live v → live w → a.slotOf v = a.slotOf w → v = w
  mapped : ∀ v p, a.pageMapper.mapping.lookup v = some p → live v
  free_nodup : a.freeList.freePages.Nodup
  free_lt : ∀ p ∈ a.freeList.freePages, 2 ≤ p ∧ p < a.superblock.nextPageId
  free_live : ∀ p ∈ a.freeList.freePages, ∀ v, live v → a.slotOf v ≠ p

variable {a a' : Allocator} {live : ℕ → Prop}

/-- **What an allocation does.** The number is the next one; the slot is the first free one, or a new
one if there is none. -/
theorem allocate_cases (a : Allocator) :
    (∃ p rest freeList, a.freeList.freePages = p :: rest ∧ freeList.freePages = rest ∧
      a.allocate = (⟨a.superblock.markPageAllocated, freeList,
        a.pageMapper.allocateVirtual.1.remap a.pageMapper.nextVirtualId p⟩, a.pageMapper.nextVirtualId, p)) ∨
    (a.freeList.freePages = [] ∧ a.allocate = (⟨a.superblock.allocateNewPage.1, a.freeList,
        a.pageMapper.allocateVirtual.1.remap a.pageMapper.nextVirtualId a.superblock.nextPageId⟩,
        a.pageMapper.nextVirtualId, a.superblock.nextPageId)) := by
  cases hfree : a.freeList.freePages with
  | nil =>
    refine .inr ⟨rfl, ?_⟩
    simp only [allocate, FreeList.popPage_of_nil hfree]
    rfl
  | cons p rest =>
    obtain ⟨freeList, hpop, hrest⟩ := FreeList.popPage_of_cons hfree
    refine .inl ⟨p, rest, freeList, rfl, hrest, ?_⟩
    simp only [allocate, hpop]
    rfl

theorem Sound.congr {live' : ℕ → Prop} (h : a.Sound live) (hiff : ∀ v, live' v ↔ live v) : a.Sound live' := by
  obtain rfl : live' = live := funext fun v => propext (hiff v)
  exact h

/-- Numbers not yet given out are not live. -/
theorem Sound.not_live (h : a.Sound live) (hle : a.pageMapper.nextVirtualId ≤ v) : ¬ live v := by
  intro hlive
  have hlt := (h.live_lt v hlive).2
  omega

theorem Sound.not_live_one (h : a.Sound live) : ¬ live 1 := fun hone =>
  absurd (h.live_lt 1 hone).1 (by decide)

theorem Sound.slotOf_of_not_live (h : a.Sound live) (hv : ¬ live v) : a.slotOf v = v := by
  suffices hnone : a.pageMapper.mapping.lookup v = none by rw [slotOf, PageMapper.translate, hnone, Option.getD_none]
  cases hlook : a.pageMapper.mapping.lookup v with
  | none => rfl
  | some p => exact absurd (h.mapped v p hlook) hv

theorem allocate_virtual : a.allocate.2.1 = a.pageMapper.nextVirtualId := by
  obtain ⟨p, rest, freeList, -, -, heq⟩ | ⟨-, heq⟩ := a.allocate_cases
  · rw [heq]
  · rw [heq]

theorem slotOf_allocate_self : a.allocate.1.slotOf a.allocate.2.1 = a.allocate.2.2 := by
  obtain ⟨p, rest, freeList, -, -, heq⟩ | ⟨-, heq⟩ := a.allocate_cases
  all_goals
    rw [heq]
    exact translate_remap_self

/-- An allocation moves no other page. -/
theorem slotOf_allocate_of_ne (h : w ≠ a.allocate.2.1) : a.allocate.1.slotOf w = a.slotOf w := by
  rw [allocate_virtual] at h
  obtain ⟨p, rest, freeList, -, -, heq⟩ | ⟨-, heq⟩ := a.allocate_cases
  all_goals
    rw [heq]
    exact translate_remap_of_ne h

theorem Sound.place (h : a.Sound live) {superblock : Superblock} {freeList : FreeList}
    (hnext : a.superblock.nextPageId ≤ superblock.nextPageId)
    (hle : superblock.nextPageId ≤ a.pageMapper.nextVirtualId + 1)
    (hp : 2 ≤ p ∧ p < superblock.nextPageId) (hslot : ∀ w, live w → a.slotOf w ≠ p)
    (hnd : freeList.freePages.Nodup) (hfree : ∀ q ∈ freeList.freePages, q ∈ a.freeList.freePages ∧ q ≠ p) :
    Sound (fun w => w = a.pageMapper.nextVirtualId ∨ live w)
      ⟨superblock, freeList, a.pageMapper.allocateVirtual.1.remap a.pageMapper.nextVirtualId p⟩ := by
  have hself : (a.pageMapper.allocateVirtual.1.remap a.pageMapper.nextVirtualId p).translate
      a.pageMapper.nextVirtualId = p := translate_remap_self
  have hother : ∀ w, live w →
      (a.pageMapper.allocateVirtual.1.remap a.pageMapper.nextVirtualId p).translate w = a.slotOf w := by
    intro w hw
    have hne : w ≠ a.pageMapper.nextVirtualId := Nat.ne_of_lt (h.live_lt w hw).2
    exact translate_remap_of_ne hne
  have htwo := h.two_le
  have hbound := h.next_le
  refine ⟨by dsimp only; omega, hle, ?_, ?_, ?_, ?_, hnd, ?_, ?_⟩
  · rintro v (rfl | hv)
    · exact ⟨by omega, Nat.lt_succ_self _⟩
    · have hlt := h.live_lt v hv
      exact ⟨hlt.1, Nat.lt_succ_of_lt hlt.2⟩
  · rintro v (rfl | hv)
    · rwa [slotOf, hself]
    · have hlt := h.slot_lt v hv
      rw [slotOf, hother v hv]
      dsimp only
      omega
  · -- the new page is alone in its slot, the others were apart before
    rintro v w (rfl | hv) (rfl | hw) heq
    · rfl
    · rw [slotOf, slotOf, hself, hother w hw] at heq
      exact absurd heq.symm (hslot w hw)
    · rw [slotOf, slotOf, hself, hother v hv] at heq
      exact absurd heq (hslot v hv)
    · rw [slotOf, slotOf, hother v hv, hother w hw] at heq
      exact h.slot_injective v w hv hw heq
  · intro v q hlook
    by_cases hv : v = a.pageMapper.nextVirtualId
    · exact .inl hv
    · rw [lookup_remap_of_ne hv] at hlook
      exact .inr (h.mapped v q hlook)
  · intro q hq
    have hlt := h.free_lt q (hfree q hq).1
    dsimp only
    omega
  · rintro q hq v (rfl | hv)
    · rw [slotOf, hself]
      exact (hfree q hq).2.symm
    · rw [slotOf, hother v hv]
      exact h.free_live q (hfree q hq).1 v hv

/-- The slot handed out is that of no live page. -/
theorem Sound.allocate_slot (h : a.Sound live) :
    2 ≤ a.allocate.2.2 ∧ a.allocate.2.2 < a.allocate.1.superblock.nextPageId ∧
      ∀ w, live w → a.slotOf w ≠ a.allocate.2.2 := by
  obtain ⟨p, rest, freeList, hfree, -, heq⟩ | ⟨-, heq⟩ := a.allocate_cases
  · have hp : p ∈ a.freeList.freePages := hfree ▸ mem_cons_self
    rw [heq]
    exact ⟨(h.free_lt p hp).1, (h.free_lt p hp).2, h.free_live p hp⟩
  · rw [heq]
    refine ⟨h.two_le, Nat.lt_succ_self _, fun w hw => ?_⟩
    exact Nat.ne_of_lt (h.slot_lt w hw).2

theorem Sound.allocate_next (h : a.Sound live) : (a.allocate.2.2 < a.superblock.nextPageId ∧
      a.allocate.1.superblock.nextPageId = a.superblock.nextPageId ∧
      a.allocate.1.superblock.totalPages = a.superblock.totalPages) ∨
    (a.allocate.2.2 = a.superblock.nextPageId ∧
      a.allocate.1.superblock.nextPageId = a.superblock.nextPageId + 1 ∧
      a.allocate.1.superblock.totalPages = a.superblock.totalPages + 1) := by
  obtain ⟨p, rest, freeList, hfree, -, heq⟩ | ⟨-, heq⟩ := a.allocate_cases
  · have hp : p ∈ a.freeList.freePages := hfree ▸ mem_cons_self
    rw [heq]
    exact .inl ⟨(h.free_lt p hp).2, rfl, rfl⟩
  · rw [heq]
    exact .inr ⟨rfl, rfl, rfl⟩

theorem allocate_mapper :
    a.allocate.1.pageMapper.nextVirtualId = a.pageMapper.nextVirtualId + 1 ∧
      a.allocate.1.pageMapper.dirty = true := by
  obtain ⟨p, rest, freeList, -, -, heq⟩ | ⟨-, heq⟩ := a.allocate_cases
  all_goals
    rw [heq]
    exact ⟨rfl, rfl⟩

/-- **An allocation keeps the pages apart.** -/
theorem Sound.allocate (h : a.Sound live) :
    a.allocate.1.Sound fun w => w = a.pageMapper.nextVirtualId ∨ live w := by
  have hbound := h.next_le
  have hslot := h.allocate_slot
  obtain ⟨p, rest, freeList, hfree, hrest, heq⟩ | ⟨hfree, heq⟩ := a.allocate_cases
  · rw [heq] at hslot ⊢
    have hnd := h.free_nodup
    rw [hfree, nodup_cons] at hnd
    refine h.place (le_refl _) (by dsimp only [Superblock.markPageAllocated]; omega)
      ⟨hslot.1, hslot.2.1⟩ hslot.2.2 (hrest ▸ hnd.2) fun q hq => ?_
    rw [hrest] at hq
    rw [hfree]
    exact ⟨mem_cons_of_mem _ hq, fun hqp => hnd.1 (hqp ▸ hq)⟩
  · rw [heq] at hslot ⊢
    refine h.place (Nat.le_succ _) (Nat.succ_le_succ hbound) ⟨hslot.1, hslot.2.1⟩ hslot.2.2
      h.free_nodup fun q hq => ?_
    rw [hfree] at hq
    cases hq

/-- What an allocation gives: a number that is not live, in a slot that no live page has. -/
structure Granted (live : ℕ → Prop) (a a' : Allocator) (v p : ℕ) : Prop where
  virtual : v = a.pageMapper.nextVirtualId
  two_le : 2 ≤ p
  slot_ne : ∀ w, live w → a.slotOf w ≠ p
  self : a'.slotOf v = p
  other : ∀ w, w ≠ v → a'.slotOf w = a.slotOf w
  sound : a'.Sound fun w => w = v ∨ live w
  next : (p < a.superblock.nextPageId ∧ a'.superblock.nextPageId = a.superblock.nextPageId ∧
      a'.superblock.totalPages = a.superblock.totalPages) ∨
    (p = a.superblock.nextPageId ∧ a'.superblock.nextPageId = a.superblock.nextPageId + 1 ∧
      a'.superblock.totalPages = a.superblock.totalPages + 1)
  nextVirtualId : a'.pageMapper.nextVirtualId = a.pageMapper.nextVirtualId + 1
  dirty : a'.pageMapper.dirty = true

/-- **What an allocation from a sound allocator gives.** -/
theorem Sound.granted (h : a.Sound live) : Granted live a a.allocate.1 a.allocate.2.1 a.allocate.2.2 where
  virtual := allocate_virtual
  two_le := h.allocate_slot.1
  slot_ne := h.allocate_slot.2.2
  self := slotOf_allocate_self
  other w hw := slotOf_allocate_of_ne hw
  sound := by
    rw [allocate_virtual]
    exact h.allocate
  next := h.allocate_next
  nextVirtualId := allocate_mapper.1
  dirty := allocate_mapper.2

/-- **Freeing a live page keeps the others apart.** -/
theorem Sound.release (h : a.Sound live) (hv : live v) : (a.release v).Sound fun w => live w ∧ w ≠ v := by
  have hslotv := h.slot_lt v hv
  have hother : ∀ w, w ≠ v → (a.release v).slotOf w = a.slotOf w :=
    fun w hw => translate_unmap_of_ne hw
  have hnew : ∀ q ∈ (a.release v).freeList.freePages, q ∈ a.freeList.freePages ∨ q = a.slotOf v := by
    intro q hq
    rcases mem_append.mp hq with hq | hq
    · exact .inl hq
    · exact .inr (mem_singleton.mp hq)
  refine ⟨h.two_le, h.next_le, fun w hw => h.live_lt w hw.1, ?_, ?_, ?_, ?_, ?_, ?_⟩
  · intro w hw
    rw [hother w hw.2]
    exact h.slot_lt w hw.1
  · intro w w' hw hw' heq
    rw [hother w hw.2, hother w' hw'.2] at heq
    exact h.slot_injective w w' hw.1 hw'.1 heq
  · intro w q hlook
    by_cases hw : w = v
    · subst hw
      rw [Allocator.release, unmap, AList.lookup_erase] at hlook
      cases hlook
    · rw [Allocator.release, lookup_unmap_of_ne hw] at hlook
      exact ⟨h.mapped w q hlook, hw⟩
  · refine nodup_append.mpr ⟨h.free_nodup, nodup_singleton _, fun q hq q' hq' heq => ?_⟩
    rw [mem_singleton] at hq'
    exact h.free_live q hq v hv (heq ▸ hq'.symm)
  · intro q hq
    rcases hnew q hq with hq | rfl
    · exact h.free_lt q hq
    · exact hslotv
  · intro q hq w hw heq
    rw [hother w hw.2] at heq
    rcases hnew q hq with hq | rfl
    · exact h.free_live q hq w hw.1 heq
    · exact hw.2 (h.slot_injective w v hw.1 hv heq)

/-- **No allocation gives out the number or the slot of a live page.** -/
theorem Sound.grants (h : a.Sound live) {n : ℕ} :
    ∀ g ∈ grants n a, ¬ live g.1 ∧ ∀ w, live w → a.slotOf w ≠ g.2 := by
  -- later allocations are apart from the live pages and from those allocated meanwhile
  induction n generalizing a live with
  | zero =>
    intro g hg
    cases hg
  | succ n ih =>
    intro g hg
    rw [Allocator.grants, mem_cons] at hg
    rcases hg with rfl | hg
    · refine ⟨?_, h.allocate_slot.2.2⟩
      rw [allocate_virtual]
      exact h.not_live (le_refl _)
    · have hlater := ih h.allocate g hg
      refine ⟨fun hlive => hlater.1 (.inr hlive), fun w hw => ?_⟩
      have hne : w ≠ a.allocate.2.1 := by
        rw [allocate_virtual]
        exact Nat.ne_of_lt (h.live_lt w hw).2
      rw [← slotOf_allocate_of_ne hne]
      exact hlater.2 w (.inr hw)

/-- **Every free slot is given out** by one of the next allocations. -/
theorem exists_grant_of_mem (hp : p ∈ a.freeList.freePages) : ∃ n, ∃ g ∈ grants n a, g.2 = p := by
  -- each allocation takes the first of the free slots
  induction hfree : a.freeList.freePages generalizing a with
  | nil =>
    rw [hfree] at hp
    cases hp
  | cons q rest ih =>
    obtain ⟨q', rest', freeList, hfree', hrest, heq⟩ | ⟨hnil, -⟩ := a.allocate_cases
    · rw [hfree] at hfree' hp
      obtain ⟨rfl, rfl⟩ : q = q' ∧ rest = rest' := List.cons.inj hfree'
      rcases mem_cons.mp hp with rfl | hp
      · refine ⟨1, a.allocate.2, mem_cons_self, ?_⟩
        rw [heq]
      · have hlater : a.allocate.1.freeList.freePages = rest := by
          rw [heq]
          exact hrest
        obtain ⟨n, g, hg, hslot⟩ := ih (hlater ▸ hp) hlater
        exact ⟨n + 1, g, mem_cons_of_mem _ hg, hslot⟩
    · rw [hfree] at hnil
      cases hnil

end Allocator

end NanoStore.Pager
