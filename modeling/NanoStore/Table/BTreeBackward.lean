import NanoStore.Table.BTreeCursor
/-!
# The paged B-tree — a cursor moved backward

`last` and `prev` stay on the rightmost leaf: there is no link to the leaf
before it. They also give up where the last entry of the tree is out of
bounds, because the cursor stays exhausted from then on. So the two
directions show the same keys only if these are what is left to show.
-/

namespace NanoStore.Table

open Wal Steps Txn List
open Prod (fst)

namespace Scan

variable {scan : Scan} {c : BTreeCursor} {leaves : List LeafPage} {leaf : LeafPage}
  {entries : List LeafEntry} {e : LeafEntry}

/-! ## Moving backward -/

/-- The cursor has these items behind it on the leaf: it is at the first of them, or over. -/
inductive Behind (scan : Scan) (leaf : LeafPage) : BTreeCursor → List (Key × Option Bytes) → Prop
  | ended {c : BTreeCursor} (hover : c.item = none) : Behind scan leaf c []
  | placed {c : BTreeCursor} {e : LeafEntry} {value : Bytes} (hinit : c.initialized = true)
      (hgoing : c.exhausted = false) (hpage : c.currentPageId = leaf.page)
      (hpos : c.currentPosition ≤ leaf.entries.length)
      (hkey : c.currentKey = some e.key) (hval : c.currentValue = some value) :
      Behind scan leaf c ((e.key, some value) :: scan.ahead (leaf.entries.take c.currentPosition).reverse)

theorem loadCurrentEntry_exhausted (h : c.exhausted = true) :
    (scan.loadCurrentEntry c).1.exhausted = true := by
  rw [loadCurrentEntry]
  split
  · exact h
  · exact h
  · rw [loadEntry]
    split
    · exact h
    · split
      · split <;> exact h
      · rfl

theorem loadCurrentEntry_position (scan : Scan) (c : BTreeCursor) :
    (scan.loadCurrentEntry c).1.currentPosition = c.currentPosition := by
  rw [loadCurrentEntry]
  split
  · rfl
  · rfl
  · rw [loadEntry]
    split
    · rfl
    · split
      · split <;> rfl
      · rfl

variable {n : ℕ}

/-- **Once exhausted, the cursor shows nothing more.** -/
theorem retreatFrom_exhausted (h : c.exhausted = true) :
    (scan.retreatFrom n c).1.exhausted = true := by
  induction n generalizing c with
  | zero => rfl
  | succ n ih =>
    rw [retreatFrom]
    refine andThen_fst (P := fun c : BTreeCursor => c.exhausted = true)
      (loadCurrentEntry_exhausted (c := { c with currentPosition := n }) h) fun c' _ _ hc' => ?_
    split
    · exact hc'
    · exact ih hc'

/-- **Down the leaf** the cursor comes to have behind it what was before its position. -/
theorem retreatFrom_behind (hpage : scan.file.pages leaf.page = some (.leaf leaf.entries leaf.nextLeaf))
    (hat : c.currentPageId = leaf.page) (hgoing : c.exhausted = false) (hinit : c.initialized = true)
    (hn : n ≤ leaf.entries.length) :
    Behind scan leaf (scan.retreatFrom n c).1 (scan.ahead (leaf.entries.take n).reverse) := by
  induction n generalizing c with
  | zero => exact .ended (item_of_exhausted rfl)
  | succ n ih =>
    have hn' : n < leaf.entries.length := hn
    have hdrop := drop_eq_getElem_cons hn'
    obtain ⟨e, he⟩ : ∃ e, e = leaf.entries[n] := ⟨_, rfl⟩
    rw [← he] at hdrop
    have htake : (leaf.entries.take (n + 1)).reverse = e :: (leaf.entries.take n).reverse := by
      rw [take_succ_eq_append_getElem hn', ← he, reverse_append, reverse_singleton, singleton_append]
    rw [← hat] at hpage
    have hload := loadCurrentEntry_eq (c := { c with currentPosition := n }) hpage hdrop
    rw [hat] at hpage
    rw [retreatFrom, hload, andThen_ok, htake]
    by_cases hin : scan.bounds.contains e.key = true
    · rw [if_pos hin]
      cases hvis : scan.visible e with
      | none =>
        rw [ahead_cons_of_hidden hin hvis]
        exact ih (c := { c.clear with currentPosition := n }) hat hgoing hinit hn'.le
      | some value =>
        rw [ahead_cons_of_visible hin hvis]
        exact .placed (c := { c with currentPosition := n, currentKey := some e.key, currentValue := some value })
          hinit hgoing hat hn'.le rfl rfl
    · -- out of bounds: the loop goes on, and nothing is shown any more
      have hout : scan.bounds.contains e.key = false := by simpa using hin
      rw [if_neg hin, ahead_cons_of_out hout]
      exact .ended (item_of_exhausted (retreatFrom_exhausted rfl))

variable {items : List (Key × Option Bytes)}

/-- **One step**: the cursor shows the first item behind, and `prev` leaves the others. -/
theorem Behind.step (hpage : scan.file.pages leaf.page = some (.leaf leaf.entries leaf.nextLeaf))
    (h : Behind scan leaf c items) : c.item = none ∧ items = [] ∨
      ∃ a rest, c.item = some a ∧ items = a :: rest ∧ Behind scan leaf (scan.prev c).1 rest := by
  cases h with
  | ended hover => exact .inl ⟨hover, rfl⟩
  | @placed e value hinit hgoing hat hpos hkey hval =>
    refine .inr ⟨(e.key, some value), _, ?_, rfl, ?_⟩
    · simp [BTreeCursor.item, BTreeCursor.valid, hgoing, hkey, hval]
    · have hon : ¬ c.exhausted = true := by simp [hgoing]
      rw [prev, if_pos hinit, if_neg hon]
      exact retreatFrom_behind hpage hat hgoing hinit hpos

/-! ## Where it starts -/

/-- The rightmost leaf is found: it is the last one. -/
theorem findRightmostLeafFrom_eq {file : PageFile} {height fuel : ℕ} {lo : WithBot Key}
    {hi : WithTop Key} {page : PageId} {used : Multiset PageId}
    (h : Subtree file.pages height lo hi page leaves used) (hfuel : height < fuel) :
    ∃ before leaf, leaves = before ++ [leaf] ∧ file.findRightmostLeafFrom fuel page = .ok leaf.page := by
  induction height generalizing lo hi page leaves used fuel with
  | zero =>
    obtain ⟨fuel, rfl⟩ : ∃ n, fuel = n + 1 := ⟨fuel - 1, by omega⟩
    obtain ⟨entries, nextLeaf, hpage, -, -, rfl, -⟩ := h
    refine ⟨[], _, rfl, ?_⟩
    simp [PageFile.findRightmostLeafFrom, PageFile.readNode, hpage]
  | succ height ih =>
    obtain ⟨fuel, rfl⟩ : ∃ n, fuel = n + 1 := ⟨fuel - 1, by omega⟩
    obtain ⟨entries, rightmost, below, hpage, hkids, rfl⟩ := h
    have hfuel : height < fuel := by omega
    simp only [PageFile.findRightmostLeafFrom, PageFile.readNode, hpage]
    clear hpage
    -- past the children before the rightmost one
    induction hkids with
    | last h => exact ih h hfuel
    | @cons _ _ _ _ _ leaves leaves' _ _ _ _ _ hrest =>
      obtain ⟨before, leaf, rfl, hfound⟩ := hrest
      exact ⟨leaves ++ before, leaf, (append_assoc _ _ _).symm, hfound⟩

/-- The entries of the leaf `last` starts from. -/
def rightmost (scan : Scan) : List LeafEntry :=
  match scan.file.findRightmostLeaf scan.root with
  | .ok page =>
    match scan.file.pages page with
    | some (.leaf entries _) => entries
    | _ => []
  | .error _ => []

theorem last_behind (htree : Tree scan.file scan.root leaves) (c : BTreeCursor) :
    ∃ leaf ∈ leaves, scan.rightmost = leaf.entries ∧
      Behind scan leaf (scan.last c).1 (scan.ahead leaf.entries.reverse) := by
  obtain ⟨height, used, hsub, halloc⟩ := htree.shape
  have hfuel : height < scan.file.nextPage + 1 :=
    Nat.lt_succ_of_le (hsub.height_lt.le.trans halloc.card_le)
  obtain ⟨before, leaf, rfl, hfind⟩ := findRightmostLeafFrom_eq hsub hfuel
  have hfind : scan.file.findRightmostLeaf scan.root = .ok leaf.page := hfind
  have hleaf : leaf ∈ before ++ [leaf] := by simp
  have hpage := (htree.walk.pages leaf hleaf).2
  refine ⟨leaf, hleaf, by simp [rightmost, hfind, hpage], ?_⟩
  -- `last` is the loop of `prev` from behind the last entry
  have hlast : (scan.last c).1 = (scan.retreatFrom leaf.entries.length
      { c with initialized := true, exhausted := false, currentPageId := leaf.page }).1 := by
    rw [last]
    cases hents : leaf.entries with
    | nil =>
      rw [hents] at hpage
      simp only [hfind, PageFile.readNode, hpage]
      rfl
    | cons e rest =>
      rw [hents] at hpage
      obtain ⟨c₀, hc₀⟩ : ∃ c₀ : BTreeCursor, c₀ = { c with
        initialized := true, exhausted := false, currentPageId := leaf.page,
        currentPosition := rest.length } := ⟨_, rfl⟩
      have hpage₀ : scan.file.pages c₀.currentPageId = some (.leaf (e :: rest) leaf.nextLeaf) := by
        rw [hc₀]
        exact hpage
      obtain ⟨c', hload⟩ : ∃ c', scan.loadCurrentEntry c₀ = (c', .ok ()) := by
        rw [loadCurrentEntry, PageFile.readNode, hpage₀]
        exact ⟨_, rfl⟩
      have hpos : c'.currentPosition = rest.length := by
        have hsame := scan.loadCurrentEntry_position c₀
        rw [hload] at hsame
        rw [hsame, hc₀]
      simp only [hfind, PageFile.readNode, hpage, length_cons, retreatFrom, ← hc₀, hload,
        andThen_ok, retreatToPrevVisible, hpos]
      cases c'.currentKey <;> rfl
  have hbehind := retreatFrom_behind
    (c := { c with initialized := true, exhausted := false, currentPageId := leaf.page })
    hpage rfl rfl rfl le_rfl
  rw [take_length] at hbehind
  rw [hlast]
  exact hbehind

/-- The entry is on the rightmost leaf, and the last entry of that leaf is in bounds. -/
def Within (scan : Scan) (e : LeafEntry) : Prop :=
  e ∈ scan.rightmost ∧ ∀ last, scan.rightmost.getLast? = some last → scan.bounds.contains last.key = true

theorem mem_ahead_reverse {a : Key × Option Bytes} (hsort : Ascending entries) :
    a ∈ scan.ahead entries.reverse ↔ ∃ e ∈ entries, scan.bounds.contains e.key = true ∧
      (∀ last, entries.getLast? = some last → scan.bounds.contains last.key = true) ∧
      scan.shown e = some a := by
  constructor
  · intro ha
    obtain ⟨e, he, hin, hshown⟩ := exists_of_mem_ahead ha
    refine ⟨e, mem_reverse.mp he, hin, fun last hlast => ?_, hshown⟩
    rw [getLast?_eq_head?_reverse] at hlast
    obtain ⟨rest, hrest⟩ := head?_eq_some_iff.mp hlast
    by_contra hout
    rw [hrest, ahead_cons_of_out (by simpa using hout)] at ha
    cases ha
  · rintro ⟨e, he, hin, hlast, hshown⟩
    obtain ⟨before, after, hsplit⟩ := append_of_mem (mem_reverse.mpr he)
    have hdesc : (before ++ e :: after).Pairwise fun e e' => e'.key < e.key := by
      rw [← hsplit]
      exact pairwise_reverse.mpr hsort
    rw [getLast?_eq_head?_reverse, hsplit] at hlast
    rw [hsplit]
    refine mem_ahead_append (fun e' he' => ?_) hin hshown
    -- between `e` and the last entry, which are both in bounds
    have hlt : e.key < e'.key := (pairwise_append.mp hdesc).2.2 e' he' e mem_cons_self
    have hstarts := ScanBounds.starts_mono (ScanBounds.starts_of_contains hin) hlt.le
    obtain ⟨top, before', rfl⟩ := exists_cons_of_ne_nil (ne_nil_of_mem he')
    have htop : scan.bounds.contains top.key = true := hlast top rfl
    have hle : e'.key ≤ top.key := by
      rcases mem_cons.mp he' with rfl | hrest
      · exact le_rfl
      · exact (rel_of_pairwise_cons hdesc (mem_append_left _ hrest)).le
    exact ScanBounds.contains_of_starts hstarts hle htop

/-- **What the cursor shows backward**: in descending order, the visible entries in bounds of the
rightmost leaf, if its last entry is in bounds. -/
theorem backward_shows (scan : Scan) (htree : Tree scan.file scan.root leaves) :
    ∃ items, (∃ fuel, scan.backward fuel = some items) ∧ items.Pairwise (fun a b => b.1 < a.1) ∧
      ∀ a, a ∈ items ↔ ∃ e ∈ contents leaves, scan.bounds.contains e.key = true ∧
        scan.Within e ∧ scan.shown e = some a := by
  obtain ⟨leaf, hleaf, hrightmost, hbehind⟩ := last_behind htree scan.newCursor
  have hpage := (htree.walk.pages leaf hleaf).2
  have hsub : leaf.entries.Sublist (contents leaves) := by
    obtain ⟨before, after, rfl⟩ := append_of_mem hleaf
    rw [contents_append, contents_cons]
    exact (sublist_append_left _ _).trans (sublist_append_right _ _)
  have hsort : Ascending leaf.entries := htree.ascending.sublist hsub
  refine ⟨_, ⟨_, Stream.collect_eq (fun _ _ h => h.step hpage) hbehind (Nat.lt_succ_self _)⟩, ?_, fun a => ?_⟩
  · exact ahead_pairwise (R := fun k k' => k' < k) (pairwise_reverse.mpr hsort)
  · rw [mem_ahead_reverse hsort]
    simp only [Within, hrightmost]
    constructor
    · rintro ⟨e, he, hin, hlast, hshown⟩
      exact ⟨e, hsub.subset he, hin, ⟨he, hlast⟩, hshown⟩
    · rintro ⟨e, -, hin, ⟨he, hlast⟩, hshown⟩
      exact ⟨e, he, hin, hlast, hshown⟩

theorem mem_keys {P : LeafEntry → Prop}
    (hmem : ∀ a, a ∈ items ↔ ∃ e ∈ entries, scan.bounds.contains e.key = true ∧ P e ∧
      scan.shown e = some a) (k : Key) :
    k ∈ items.map fst ↔ ∃ e ∈ entries, e.key = k ∧ scan.bounds.contains e.key = true ∧
      (scan.visible e).isSome = true ∧ P e := by
  rw [mem_map]
  constructor
  · rintro ⟨a, ha, rfl⟩
    obtain ⟨e, he, hin, hP, hshown⟩ := (hmem a).mp ha
    have hvis : (scan.visible e).isSome = true := by
      obtain ⟨value, hval, -⟩ := Option.map_eq_some_iff.mp hshown
      simp [hval]
    exact ⟨e, he, (key_of_shown hshown).symm, hin, hvis, hP⟩
  · rintro ⟨e, he, rfl, hin, hvis, hP⟩
    obtain ⟨value, hval⟩ := Option.isSome_iff_exists.mp hvis
    exact ⟨(e.key, some value), (hmem _).mpr ⟨e, he, hin, hP, by simp [shown, hval]⟩, rfl⟩

end Scan

/-! ## Both directions -/

namespace BTreeTable

/-- **Backward is the reverse of forward** if and only if the visible entries in bounds that are not
overlooked are those on the rightmost leaf, with its last entry in bounds if there are any. Both ways
come to an end. -/
theorem backward_reverses_iff (table : BTreeTable) (entries : List LeafEntry)
    (hholds : table.Holds entries) (bounds : ScanBounds) (s : ℕ) : let scan := table.scan bounds s
    ∃ items itemsBack, (∃ fuel, scan.forward fuel = some items) ∧
      (∃ fuel, scan.backward fuel = some itemsBack) ∧
      (itemsBack.map fst = (items.map fst).reverse ↔
        ∀ e ∈ entries, bounds.contains e.key = true → (scan.visible e).isSome = true →
          (scan.Within e ↔ ¬ scan.Overlooked e.key)) := by
  intro scan
  obtain ⟨leaves, htree, rfl⟩ := hholds
  obtain ⟨items, hfwd, hasc, hmem⟩ := scan.forward_shows htree
  obtain ⟨itemsBack, hbackward, hdesc, hmemBack⟩ := scan.backward_shows htree
  refine ⟨items, itemsBack, hfwd, hbackward, ?_⟩
  have hkey := Scan.mem_keys (P := fun e => ¬ scan.Overlooked e.key) hmem
  have hkeyBack := Scan.mem_keys (P := scan.Within) hmemBack
  constructor
  · intro heq e he hin hvis
    have hback : e.key ∈ itemsBack.map fst ↔ e.key ∈ items.map fst := by
      rw [heq, mem_reverse]
    rw [hkey, hkeyBack] at hback
    constructor
    · intro hwithin
      obtain ⟨e', he', hk, -, -, hseen⟩ := hback.mp ⟨e, he, rfl, hin, hvis, hwithin⟩
      exact hk ▸ hseen
    · intro hseen
      obtain ⟨e', he', hk, -, -, hwithin⟩ := hback.mpr ⟨e, he, rfl, hin, hvis, hseen⟩
      exact htree.ascending.eq_of_key he' he hk ▸ hwithin
  · intro hcond
    have hsame : ∀ k, k ∈ itemsBack.map fst ↔ k ∈ (items.map fst).reverse := by
      intro k
      rw [mem_reverse, hkey, hkeyBack]
      constructor
      · rintro ⟨e, he, hk, hin, hvis, hwithin⟩
        exact ⟨e, he, hk, hin, hvis, (hcond e he hin hvis).mp hwithin⟩
      · rintro ⟨e, he, hk, hin, hvis, hseen⟩
        exact ⟨e, he, hk, hin, hvis, (hcond e he hin hvis).mpr hseen⟩
    have hleft : (itemsBack.map fst).Pairwise fun k k' => k' < k :=
      pairwise_map.mpr hdesc
    have hright : (items.map fst).reverse.Pairwise fun k k' => k' < k :=
      pairwise_reverse.mpr (pairwise_map.mpr hasc)
    exact hleft.sortedGT.eq_of_mem_iff hright.sortedGT hsame

/-- Above key 3, on the right one of two leaves. -/
theorem backward_reverses_split : let table := (execute (exec smallPages) (new emptyVolume) splittingCalls).2
    let scan := table.scan (.range (.included [3]) .unbounded) 10
    ∃ items itemsBack, (∃ fuel, scan.forward fuel = some items) ∧
      (∃ fuel, scan.backward fuel = some itemsBack) ∧
      itemsBack.map fst = (items.map fst).reverse := by
  intro table scan
  have hholds : table.Holds (splittingCalls.foldl onEntries []) :=
    (holds_new (by decide)).execute
  obtain ⟨items, itemsBack, hfwd, hbackward, hiff⟩ :=
    backward_reverses_iff table _ hholds (.range (.included [3]) .unbounded) 10
  refine ⟨items, itemsBack, hfwd, hbackward, hiff.mpr fun e he hin _ => ⟨fun _ => id, fun _ => ?_⟩⟩
  have hright : ∀ e ∈ splittingCalls.foldl onEntries [],
      (ScanBounds.range (.included [3]) .unbounded).contains e.key = true → e ∈ scan.rightmost := by
    decide
  have hlast : scan.rightmost.getLast?.all (fun last => scan.bounds.contains last.key) = true := by
    decide
  refine ⟨hright e he hin, fun last hsome => ?_⟩
  have hsome' : scan.rightmost.getLast? = some last := hsome
  rw [hsome'] at hlast
  exact hlast

/-- Four keys on two leaves, of which one is deleted: three are shown forward, one backward. -/
theorem backward_stops : let table := (execute (exec smallPages) (new emptyVolume) splittingCalls).2
    let scan := table.scan .all 20
    scan.forward 4 = some [([1], some [5]), ([2], some [6]), ([4], some [8])] ∧
      scan.backward 2 = some [([4], some [8])] ∧
      ¬ ∃ fuel items fuelBack itemsBack, scan.forward fuel = some items ∧
        scan.backward fuelBack = some itemsBack ∧
        itemsBack.map fst = (items.map fst).reverse := by
  intro table scan
  have hfwd : scan.forward 4 = some [([1], some [5]), ([2], some [6]), ([4], some [8])] := by
    decide
  have hbackward : scan.backward 2 = some [([4], some [8])] := by decide
  refine ⟨hfwd, hbackward, ?_⟩
  rintro ⟨fuel, items, fuelBack, itemsBack, hfwd', hbackward', heq⟩
  obtain rfl := Stream.collect_unique hfwd hfwd'
  obtain rfl := Stream.collect_unique hbackward hbackward'
  exact absurd heq (by decide)

end BTreeTable

end NanoStore.Table
