import NanoStore.Pager.Runs
/-!
# Pager — runs of allocations

`FreeList` counts its pages apart from the queue that holds them. The two
agree in every run in which a list is restored with the count zero and the
count is not changed by itself (`yields_totalFree`); a pager that opens a
file restores the count alone.

Over every run of allocations and of frees of live pages, whatever the
types of the pages and whichever calls fail, the pages are kept apart
(`apart_of_run`).
-/

namespace NanoStore.Pager

open Steps

/-! ## The count of free pages -/

namespace FreeList

variable (list : FreeList)

def setFirstPage (pageId : ℕ) : FreeList :=
  { list with firstPage := pageId, lastPage := if list.lastPage = 0 then pageId else list.lastPage }

def setLastPage (pageId : ℕ) : FreeList :=
  { list with lastPage := pageId, firstPage := if list.firstPage = 0 then pageId else list.firstPage }

def incrementFree : FreeList := { list with totalFree := list.totalFree + 1 }

/-- `decrement_free`: the counter of 64 bits wraps around. -/
def decrementFree : FreeList :=
  let counted := { list with totalFree := (list.totalFree + (2 ^ 64 - 1)) % 2 ^ 64 }
  if list.totalFree = 1 then { counted with firstPage := 0, lastPage := 0 } else counted

/-- The operations of a free list. `restore` is `from_state`, and `load` what `open` does if the file has
pages of a free list: `from_state` and then `set_free_pages`. -/
inductive Operation
  | restore (firstPage lastPage totalFree : ℕ)
  | load (firstPage lastPage totalFree : ℕ) (freePages : List ℕ)
  | pushPage (pageId : ℕ)
  | popPage
  | setFreePages (freePages : List ℕ)
  | snapshotFreePages
  | setFirstPage (pageId : ℕ)
  | setLastPage (pageId : ℕ)
  | incrementFree
  | decrementFree

/-- One call of a free list, with the page it hands out. -/
def exec : Operation → FreeList × Option ℕ
  | .restore firstPage lastPage totalFree => (.fromState firstPage lastPage totalFree, none)
  | .load firstPage lastPage totalFree freePages =>
    ((FreeList.fromState firstPage lastPage totalFree).setFreePages freePages, none)
  | .pushPage pageId => (list.pushPage pageId, none)
  | .popPage =>
    match list.popPage with
    | none => (list, none)
    | some (list, pageId) => (list, some pageId)
  | .setFreePages freePages => (list.setFreePages freePages, none)
  | .snapshotFreePages => (list.snapshotFreePages.1, none)
  | .setFirstPage pageId => (list.setFirstPage pageId, none)
  | .setLastPage pageId => (list.setLastPage pageId, none)
  | .incrementFree => (list.incrementFree, none)
  | .decrementFree => (list.decrementFree, none)

/-- So many pages are popped before the list is found empty. -/
def Yields : ℕ → FreeList → Prop
  | 0, list => list.popPage = none
  | n + 1, list => ∃ list' pageId, list.popPage = some (list', pageId) ∧ Yields n list'

/-- The count is right. -/
def Counted : Prop := list.totalFree = list.freePages.length

/-- The operations that keep the count right. -/
def Counts (_ : List (Operation × Option ℕ)) (_ : FreeList) : Operation → Prop
  | .restore _ _ totalFree => totalFree = 0
  | .incrementFree | .decrementFree => False
  | _ => True

variable {list} {trace : List (Operation × Option ℕ)}

theorem yields_iff {n : ℕ} : Yields n list ↔ n = list.freePages.length := by
  induction n generalizing list with
  | zero =>
    cases hfree : list.freePages with
    | nil => simp [Yields, popPage_of_nil hfree]
    | cons p rest =>
      obtain ⟨list', hpop, -⟩ := popPage_of_cons hfree
      simp [Yields, hpop]
  | succ n ih =>
    cases hfree : list.freePages with
    | nil => simp [Yields, popPage_of_nil hfree]
    | cons p rest =>
      obtain ⟨list', hpop, hrest⟩ := popPage_of_cons hfree
      simp [Yields, hpop, ih, hrest]

theorem counted_setFreePages {freePages : List ℕ} : (list.setFreePages freePages).Counted := by
  unfold Counted setFreePages
  split_ifs <;> simp

/-- **What an operation does to a right count**: the operations that are left out are the ones that spoil
it. -/
theorem counted_exec_iff (h : list.Counted) {op : Operation} :
    (list.exec op).1.Counted ↔ Counts trace list op := by
  unfold Counted at h
  cases op with
  | restore firstPage lastPage totalFree => exact Iff.rfl
  | load | setFreePages => exact iff_of_true counted_setFreePages trivial
  | pushPage pageId => simp [exec, pushPage, Counted, Counts, h]
  | popPage =>
    refine iff_of_true ?_ trivial
    cases hfree : list.freePages with
    | nil => simpa only [exec, popPage_of_nil hfree, Counted] using h
    | cons p rest =>
      rw [hfree, List.length_cons] at h
      simp only [exec, popPage, hfree, Counted]
      split_ifs <;> simp [h]
  | snapshotFreePages => simp [exec, snapshotFreePages, Counted, Counts, h]
  | setFirstPage | setLastPage => exact iff_of_true h trivial
  | incrementFree => simp [exec, incrementFree, Counted, Counts, h]
  | decrementFree =>
    refine iff_of_false ?_ id
    simp only [exec, decrementFree, Counted]
    split_ifs <;> dsimp only <;> omega

/-- **In every run of such operations the count is the number of pages that can be popped.** -/
theorem yields_totalFree (hrun : Run exec Counts .new trace list) : Yields list.totalFree list :=
  yields_iff.mpr <| hrun.invariant (P := fun _ list => list.Counted) rfl
    fun _ _ _ h hcounts => (counted_exec_iff h).mpr hcounts

/-- Two pages are freed and one is taken. -/
theorem yields_totalFree_two : ∃ list, Run exec Counts .new
    [(.popPage, some 5), (.pushPage 6, none), (.pushPage 5, none)] list ∧ Yields list.totalFree list := by
  have hpushed : Run exec Counts .new [(.pushPage 6, none), (.pushPage 5, none)] ⟨0, 0, 2, [5, 6]⟩ :=
    .call_of_eq (.call_of_eq .nil trivial rfl) trivial rfl
  have hrun : Run exec Counts .new [(.popPage, some 5), (.pushPage 6, none), (.pushPage 5, none)] ⟨0, 0, 1, [6]⟩ :=
    hpushed.call_of_eq trivial rfl
  exact ⟨_, hrun, yields_totalFree hrun⟩

/-- A count of one is restored, and there is no page to pop. -/
theorem restored_not_yields : ∃ list,
    Run exec anyCall .new [(.restore 0 0 1, none)] list ∧ ¬ Yields list.totalFree list :=
  ⟨.fromState 0 0 1, .call_of_eq .nil trivial rfl, fun h => absurd (yields_iff.mp h) (by decide)⟩

end FreeList

/-! ## The pages of a run -/

namespace State

variable {env : Surroundings} {s s₀ : State} {config : PagerConfig} {trace : List Event} {v w : ℕ}

/-- The encryption that is asked for has a key. -/
def HasKey (s : State) : Prop := s.config.encryption ≠ .none → s.config.encryptionKey ≠ none

theorem storePage_short (h : s.HasKey) {page : Page}
    (hcompr : page.header.compression = s.config.compression)
    (henc : page.header.encryption = s.config.encryption) (hdata : page.data.length ≤ 352) {p : ℕ} :
    ∃ s', s.storePage env p page = (s', .ok ()) ∧ s'.toAllocator = s.toAllocator ∧ s'.config = s.config := by
  obtain ⟨packed, hpacked, -⟩ := env.compress_short s.config.compression page.data hdata
  obtain ⟨stored, hstored, -⟩ : ∃ stored, env.crates.encrypt s.config.encryptionKey (env.nonce s.ticks)
      s.config.encryption packed = .ok stored ∧ stored.length ≤ packed.length + 28 :=
    Crates.encrypt_of_key h (env.length_nonce _) packed
  have hseal : env.crates.sealData s.config.encryptionKey (env.nonce s.ticks) page.header.compression
      page.header.encryption page.data = .ok stored := by
    rw [Crates.sealData, hcompr, henc, hpacked]
    exact hstored
  rw [storePage, Page.toBytes, hseal]
  exact ⟨_, rfl, rfl, rfl⟩

theorem writeMetadata_short (h : s.HasKey) :
    ∃ s', s.writeMetadata env = (s', .ok ()) ∧ s'.toAllocator = s.toAllocator ∧ s'.config = s.config := by
  rw [writeMetadata]
  refine storePage_short ?_ rfl rfl ?_
  · exact h
  · exact le_of_eq (Superblock.length_toBytes s.superblock)

/-- **What an allocation does to the numbers**, whatever the type of the page. -/
theorem allocatePage_numbers (h : s.HasKey) {pageType : PageType} :
    ∃ s', s.allocatePage env pageType = (s', .ok s.toAllocator.allocate.2.1) ∧
      s'.toAllocator = s.toAllocator.allocate.1 ∧ s'.config = s.config := by
  rcases halloc : s.toAllocator.allocate with ⟨a, v, p⟩
  obtain ⟨s₁, hstore, hallocator, hcfg⟩ := storePage_short (show HasKey { s with toAllocator := a } from h)
    (show (readAs (s.newPage v pageType []) v).header.compression = _ from rfl) rfl (Nat.zero_le _)
  have hkey : s₁.HasKey := by
    rw [HasKey, hcfg]
    exact h
  obtain ⟨s₂, hmeta, hallocator', hcfg'⟩ := writeMetadata_short hkey
  refine ⟨s₂, ?_, hallocator'.trans hallocator, hcfg'.trans hcfg⟩
  rw [allocatePage, halloc]
  show andThen ({ s with toAllocator := a }.storePage env p (readAs (s.newPage v pageType []) v)) _ = _
  rw [hstore, andThen_ok, hmeta, andThen_ok]

/-- **A free either fails and changes nothing, or gives the slot back.** -/
theorem freePage_numbers (h : s.HasKey) :
    (∃ e, s.freePage env v = (s, .error e)) ∨ ∃ s', s.freePage env v = (s', .ok ()) ∧
      s'.toAllocator = s.toAllocator.release v ∧ s'.config = s.config := by
  unfold freePage
  split_ifs
  · exact .inl ⟨_, rfl⟩
  · dsimp only
    split
    · exact .inl ⟨_, rfl⟩
    · split_ifs
      · obtain ⟨s₁, hstore, hallocator, hcfg⟩ := storePage_short h
          (show (s.newPage (s.slotOf v) .free []).header.compression = _ from rfl) rfl (Nat.zero_le _)
        have hkey : HasKey { s₁ with toAllocator := s₁.toAllocator.release v } := by
          rw [HasKey, hcfg]
          exact h
        obtain ⟨s₂, hmeta, hallocator', hcfg'⟩ := writeMetadata_short hkey
        refine .inr ⟨s₂, ?_, by rw [hallocator', hallocator], hcfg'.trans hcfg⟩
        rw [hstore, andThen_ok, hmeta]
      · exact .inl ⟨_, rfl⟩

/-- Pages are allocated, and only live ones are freed. -/
def FreesLive (trace : List Event) (_ : State) : Action → Prop
  | .allocate _ => True
  | .free v => Live (pagesOf trace) v
  | _ => False

theorem sound_exec {a : Action} (hkey : s.HasKey) (h : s.toAllocator.Sound (Live (pagesOf trace)))
    (hfrees : FreesLive trace s a) : (s.exec env a).1.HasKey ∧
      (s.exec env a).1.toAllocator.Sound (Live (pagesOf ((a, (s.exec env a).2) :: trace))) := by
  cases a with
  | allocate pageType =>
    obtain ⟨s', hres, hallocator, hcfg⟩ := allocatePage_numbers hkey
    rw [exec, hres, andThen_ok, HasKey, hcfg, hallocator]
    exact ⟨hkey, h.granted.sound.congr fun v => live_update_some⟩
  | free v =>
    rcases freePage_numbers hkey with ⟨e, hres⟩ | ⟨s', hres, hallocator, hcfg⟩
    · rw [exec, hres, andThen_error]
      exact ⟨hkey, h⟩
    · rw [exec, hres, andThen_ok, HasKey, hcfg, hallocator]
      exact ⟨hkey, (h.release hfrees).congr fun v => live_update_none⟩
  | write | read | flush | clear | sync | reopen => exact hfrees.elim

/-- **In every run of allocations and of frees of live pages** the live pages have slots of their own, none
of which is free, no slot is free twice, and the next allocation gives a slot that no live page has. -/
theorem apart_of_run (hcreate : create env config = .ok s₀) (hrun : Run (exec env) FreesLive s₀ trace s) :
    (∀ v w, Live (pagesOf trace) v → Live (pagesOf trace) w → s.slotOf v = s.slotOf w → v = w) ∧
      (∀ v, Live (pagesOf trace) v → s.slotOf v ∉ s.freeList.freePages) ∧ s.freeList.freePages.Nodup ∧
      ∀ pageType v s', s.allocatePage env pageType = (s', .ok v) →
        ¬ Live (pagesOf trace) v ∧ ∀ w, Live (pagesOf trace) w → s'.slotOf v ≠ s.slotOf w := by
  have hnew := consistent_create hcreate
  obtain ⟨hkey, hsound⟩ := hrun.invariant
    (P := fun trace s => s.HasKey ∧ s.toAllocator.Sound (Live (pagesOf trace))) ⟨hnew.key, hnew.sound⟩
    fun _ _ _ h hfrees => sound_exec h.1 h.2 hfrees
  refine ⟨hsound.slot_injective, fun v hv hfree => hsound.free_live _ hfree v hv rfl, hsound.free_nodup, ?_⟩
  intro pageType v s' hres
  obtain ⟨s₁, hallocate, hallocator, -⟩ := allocatePage_numbers hkey
  obtain ⟨rfl, hv⟩ := Prod.mk.inj (hallocate.symm.trans hres)
  obtain rfl := Except.ok.inj hv
  have hgrant := hsound.granted
  refine ⟨hsound.not_live hgrant.virtual.ge, fun w hw => ?_⟩
  rw [hallocator, hgrant.self]
  exact (hgrant.slot_ne w hw).symm

/-- Of three pages two are freed, and a fourth page gets the slot of the first. The slot of the second is
still free, and no other page has the slot that was given out again. -/
theorem apart_of_run_reused : ∃ s₀ s trace, create .plain (smallConfig .none none) = .ok s₀ ∧
    trace = [(.allocate .bTreeLeaf, .ok (.allocated 5)), (.free 3, .ok .done), (.free 2, .ok .done),
      (.allocate .bTreeLeaf, .ok (.allocated 4)), (.allocate .bTreeLeaf, .ok (.allocated 3)),
      (.allocate .bTreeLeaf, .ok (.allocated 2))] ∧
    Run (exec .plain) FreesLive s₀ trace s ∧ s.slotOf 5 = 2 ∧ s.freeList.freePages = [3] ∧
    s.slotOf 4 ∉ s.freeList.freePages ∧ (s.slotOf 5 = s.slotOf 4 → 5 = 4) ∧
    ∀ s', s.allocatePage .plain .bTreeLeaf = (s', .ok 6) → s'.slotOf 6 ≠ s.slotOf 5 := by
  obtain ⟨s₀, s₁, hcreate, hrun₁, -, -, halloc₁⟩ := allocate_first (smallConfig .none none) rfl
  obtain ⟨s₂, hrun₂, -, -, halloc₂⟩ := run_allocate hcreate hrun₁ halloc₁ (by decide)
  obtain ⟨s₃, hrun₃, -, -, halloc₃⟩ := run_allocate hcreate hrun₂ halloc₂ (by decide)
  obtain ⟨s₄, hrun₄, -, -, halloc₄⟩ := run_free hcreate hrun₃ (v := 2) (c := ⟨.bTreeLeaf, []⟩) rfl (by decide)
  obtain ⟨s₅, hrun₅, -, -, halloc₅⟩ := run_free hcreate hrun₄ (v := 3) (c := ⟨.bTreeLeaf, []⟩) rfl (by decide)
  rw [halloc₄, halloc₃] at halloc₅
  obtain ⟨s, hrun, -, -, halloc⟩ := run_allocate hcreate hrun₅ halloc₅ (by decide)
  have hfrees : Run (exec .plain) FreesLive s₀ _ s := hrun.mono_of_forall
    (p := fun | .allocate _ | .free _ => True | _ => False)
    (fun trace s a ha hcare => by
      cases a with
      | allocate pageType => trivial
      | free v => exact hcare
      | write | read | flush | clear | sync | reopen => exact ha.elim)
    (by simp)
  obtain ⟨hinjective, hbusy, -, hnext⟩ := apart_of_run hcreate hfrees
  refine ⟨s₀, s, _, hcreate, rfl, hfrees, by rw [halloc]; decide, by rw [halloc]; decide, hbusy 4 (by decide),
    hinjective 5 4 (by decide) (by decide), fun s' hres => ?_⟩
  exact (hnext .bTreeLeaf 6 s' hres).2 5 (by decide)

end State

end NanoStore.Pager
