import Mathlib.Tactic
/-!
# Merging sorted lists

Several lists, each sorted by key and without a key twice, are merged into
one. Taken next is the entry with the least key at the front of a list; of
several lists with that key at their front the first one counts, and the
others skip it. The merged list has every key that is held by a list, with
the entry of the first list that holds it.
-/

namespace Merge

open List

variable {K E : Type*} [LinearOrder K] (key : E → K)

/-- The list is sorted by key, and no key is in it twice. -/
def Ascends (l : List E) : Prop := l.Pairwise fun e e' => key e < key e'

/-- The least key at the front of a list. -/
def leastKey (sources : List (List E)) : Option K :=
  (sources.filterMap fun l => l.head?.map key).min?

/-- The entry for a key at the front of the first list that has one there. -/
def front (k : K) (sources : List (List E)) : Option E :=
  sources.findSome? fun l => l.head?.filter fun e => key e = k

/-- The lists with a key taken off their fronts. -/
def skip (k : K) (sources : List (List E)) : List (List E) :=
  sources.map fun l => l.dropWhile fun e => key e = k

/-- The next entry, and what is left of the lists. -/
def pop (sources : List (List E)) : Option (E × List (List E)) :=
  match leastKey key sources with
  | none => none
  | some k => (front key k sources).map fun e => (e, skip key k sources)

/-- The entry for a key in the first list that holds one. -/
def held (k : K) (sources : List (List E)) : Option E :=
  sources.findSome? fun l => l.find? fun e => key e = k

/-- Every source from a key on. -/
def seek (k : K) (sources : List (List E)) : List (List E) :=
  sources.map fun l => l.dropWhile fun e => key e < k

/-- The number of entries. -/
def size (sources : List (List E)) : ℕ := (sources.map List.length).sum

/-- The first `n` entries of the merged list. -/
def take : ℕ → List (List E) → List E
  | 0, _ => []
  | n + 1, sources =>
    match pop key sources with
    | none => []
    | some (e, rest) => e :: take n rest

/-- All of the merge. -/
def merged (sources : List (List E)) : List E := take key (size sources) sources

/-! ## One list -/

variable {key} {l : List E} {k k' : K}

theorem Ascends.of_cons {e : E} (h : Ascends key (e :: l)) : Ascends key l :=
  List.Pairwise.of_cons h

theorem Ascends.lt_of_mem {e e' : E} (h : Ascends key (e :: l)) (he' : e' ∈ l) : key e < key e' :=
  rel_of_pairwise_cons h he'

theorem mem_dropWhile_of_not {p : E → Bool} {e : E} (he : e ∈ l) (hp : p e = false) : e ∈ l.dropWhile p := by
  rw [← takeWhile_append_dropWhile (p := p) (l := l), mem_append] at he
  refine he.resolve_left fun htake => ?_
  have htrue := all_eq_true.mp all_takeWhile e htake
  rw [hp] at htrue
  cases htrue

section

variable (h : Ascends key l)
include h

theorem Ascends.dropWhile {p : E → Bool} : Ascends key (l.dropWhile p) :=
  h.sublist (dropWhile_sublist p)

theorem Ascends.head?_filter (hleast : ∀ e ∈ l, k ≤ key e) :
    l.head?.filter (fun e => key e = k) = l.find? fun e => key e = k := by
  cases l with
  | nil => rfl
  | cons e l =>
    by_cases he : key e = k
    · simp [he]
    · have hnone : l.find? (fun e => key e = k) = none := by
        refine find?_eq_none.mpr fun e' he' => ?_
        have hlt := h.lt_of_mem he'
        have hle := hleast e mem_cons_self
        simpa using (hle.trans_lt hlt).ne'
      simp [he, hnone]

/-- A skip loses the key and no other. -/
theorem Ascends.find?_skip (hleast : ∀ e ∈ l, k ≤ key e) :
    (l.dropWhile fun e => key e = k).find? (fun e => key e = k') =
      if k' = k then none else l.find? fun e => key e = k' := by
  cases l with
  | nil => simp
  | cons e l =>
    by_cases he : key e = k
    · have hrest : (e :: l).dropWhile (fun e => key e = k) = l := by
        rw [dropWhile_cons_of_pos (by simpa using he)]
        cases l with
        | nil => rfl
        | cons e' l =>
          have hlt := h.lt_of_mem mem_cons_self
          rw [dropWhile_cons_of_neg (by simpa using (he ▸ hlt).ne')]
      rw [hrest]
      split_ifs with hk
      · refine find?_eq_none.mpr fun e' he' => ?_
        have hlt := h.lt_of_mem he'
        simpa [hk, ← he] using hlt.ne'
      · rw [find?_cons_of_neg (by simpa [he] using Ne.symm hk)]
    · rw [dropWhile_cons_of_neg (by simpa using he)]
      split_ifs with hk
      · refine find?_eq_none.mpr fun e' he' => ?_
        have hne : k < key e := lt_of_le_of_ne (hleast e mem_cons_self) (Ne.symm he)
        rcases mem_cons.mp he' with rfl | he'
        · simpa [hk] using hne.ne'
        · simpa [hk] using (hne.trans (h.lt_of_mem he')).ne'
      · rfl

/-- Behind a skip all keys are greater. -/
theorem Ascends.lt_of_mem_skip {e : E} (hleast : ∀ e ∈ l, k ≤ key e)
    (he : e ∈ l.dropWhile fun e => key e = k) : k < key e := by
  refine lt_of_le_of_ne (hleast e ((dropWhile_sublist _).subset he)) fun hkey => ?_
  have hnone : (l.dropWhile fun e => key e = k).find? (fun e => key e = k) = none :=
    (h.find?_skip hleast).trans (if_pos rfl)
  exact find?_eq_none.mp hnone e he (by simpa using hkey.symm)

/-- A seek loses the keys before its own. -/
theorem Ascends.find?_seek :
    (l.dropWhile fun e => key e < k).find? (fun e => key e = k') =
      if k' < k then none else l.find? fun e => key e = k' := by
  induction l with
  | nil => simp
  | cons e l ih =>
    by_cases he : key e < k
    · rw [dropWhile_cons_of_pos (by simpa using he), ih h.of_cons]
      split_ifs with hk
      · rfl
      · have hne : key e ≠ k' := fun heq => hk (heq ▸ he)
        rw [find?_cons_of_neg (by simpa using hne)]
    · rw [dropWhile_cons_of_neg (by simpa using he)]
      split_ifs with hk
      · refine find?_eq_none.mpr fun e' he' => ?_
        have hle : k ≤ key e' := by
          rcases mem_cons.mp he' with rfl | he'
          · exact not_lt.mp he
          · exact (not_lt.mp he).trans (h.lt_of_mem he').le
        simpa using (hk.trans_le hle).ne'
      · rfl

end

/-! ## All lists -/

variable {sources rest : List (List E)} {e : E}

/-- What is held is in a source. -/
theorem mem_of_held (h : held key k sources = some e) : (∃ l ∈ sources, e ∈ l) ∧ key e = k := by
  obtain ⟨l, hl, hfind⟩ := exists_of_findSome?_eq_some h
  exact ⟨⟨l, hl, mem_of_find?_eq_some hfind⟩, by simpa using find?_some hfind⟩

theorem leastKey_eq_none : leastKey key sources = none ↔ ∀ l ∈ sources, l = [] := by
  rw [leastKey, min?_eq_none_iff, filterMap_eq_nil_iff]
  simp

/-- No source has a key below the least one. -/
theorem leastKey_le (hs : ∀ l ∈ sources, Ascends key l) (h : leastKey key sources = some k) :
    ∀ l ∈ sources, ∀ e ∈ l, k ≤ key e := by
  intro l hl e he
  have hmin := (min?_eq_some_iff.mp h).2
  cases l with
  | nil => cases he
  | cons e₀ l =>
    have hfront : k ≤ key e₀ := hmin _ (mem_filterMap.mpr ⟨e₀ :: l, hl, rfl⟩)
    rcases mem_cons.mp he with rfl | he
    · exact hfront
    · exact hfront.trans ((hs _ hl).lt_of_mem he).le

/-- The least key is at the front of a source. -/
theorem front_of_leastKey (h : leastKey key sources = some k) :
    ∃ e, front key k sources = some e ∧ key e = k := by
  obtain ⟨l, hl, hfront⟩ := mem_filterMap.mp (min?_eq_some_iff.mp h).1
  obtain ⟨e₀, he₀, hkey₀⟩ := Option.map_eq_some_iff.mp hfront
  cases hfind : front key k sources with
  | none =>
    have hnone := findSome?_eq_none_iff.mp hfind l hl
    rw [he₀] at hnone
    simp [hkey₀] at hnone
  | some e =>
    obtain ⟨l', -, he⟩ := exists_of_findSome?_eq_some hfind
    exact ⟨e, rfl, by simpa using (Option.filter_eq_some_iff.mp he).2⟩

theorem pop_eq_none (h : pop key sources = none) : ∀ l ∈ sources, l = [] := by
  have hnone : leastKey key sources = none := by
    unfold pop at h
    cases hleast : leastKey key sources with
    | none => rfl
    | some k =>
      obtain ⟨e, he, -⟩ := front_of_leastKey hleast
      simp [hleast, he] at h
  exact leastKey_eq_none.mp hnone

/-- A pop takes the least key out of every source. -/
theorem pop_cases (h : pop key sources = some (e, rest)) :
    leastKey key sources = some (key e) ∧ front key (key e) sources = some e ∧
      rest = skip key (key e) sources := by
  unfold pop at h
  cases hleast : leastKey key sources with
  | none =>
    rw [hleast] at h
    cases h
  | some k =>
    obtain ⟨e', he', rfl⟩ := front_of_leastKey hleast
    simp only [hleast, he', Option.map_some, Option.some.injEq, Prod.mk.injEq] at h
    obtain ⟨rfl, rfl⟩ := h
    exact ⟨rfl, he', rfl⟩

theorem findSome?_congr {f g : List E → Option E} (h : ∀ l ∈ sources, f l = g l) :
    sources.findSome? f = sources.findSome? g := by
  induction sources with
  | nil => rfl
  | cons l sources ih =>
    rw [findSome?_cons, findSome?_cons, h l mem_cons_self, ih fun l hl => h l (mem_cons_of_mem _ hl)]

/-- **What is taken next** has the least key, and the first list that holds the key has it. -/
theorem pop_eq_some (hs : ∀ l ∈ sources, Ascends key l) (h : pop key sources = some (e, rest)) :
    held key (key e) sources = some e ∧ (∀ l ∈ sources, ∀ e' ∈ l, key e ≤ key e') ∧
      rest = skip key (key e) sources := by
  obtain ⟨hleast, hfront, hrest⟩ := pop_cases h
  have hle := leastKey_le hs hleast
  refine ⟨?_, hle, hrest⟩
  rw [← hfront]
  exact findSome?_congr fun l hl => ((hs l hl).head?_filter (hle l hl)).symm

theorem ascends_skip (hs : ∀ l ∈ sources, Ascends key l) :
    ∀ l ∈ skip key k sources, Ascends key l := by
  intro l hl
  obtain ⟨l₀, hl₀, rfl⟩ := mem_map.mp hl
  exact (hs l₀ hl₀).dropWhile

theorem findSome?_ite {p : Prop} [Decidable p] {f : List E → Option E} :
    (sources.findSome? fun l => if p then none else f l) =
      if p then none else sources.findSome? f := by
  split_ifs
  · simp
  · rfl

/-- What sources hold from a key on. -/
theorem held_seek (hs : ∀ l ∈ sources, Ascends key l) :
    held key k' (seek key k sources) = if k' < k then none else held key k' sources := by
  rw [held, seek, findSome?_map, held, ← findSome?_ite]
  exact findSome?_congr fun l hl => (hs l hl).find?_seek

variable (key k sources) in
theorem size_skip_le :
    size (skip key k sources) ≤ size sources := by
  rw [size, size, skip, map_map]
  exact sum_le_sum fun l _ => (dropWhile_sublist _).length_le

variable (key k sources) in
theorem size_seek_le :
    size (seek key k sources) ≤ size sources := by
  rw [size, size, seek, map_map]
  exact sum_le_sum fun l _ => (dropWhile_sublist _).length_le

/-- A pop makes the sources smaller. -/
theorem size_lt_of_pop (h : pop key sources = some (e, rest)) : size rest < size sources := by
  obtain ⟨-, hfront, rfl⟩ := pop_cases h
  clear h
  induction sources with
  | nil => cases hfront
  | cons l sources ih =>
    have htail := size_skip_le key (key e) sources
    simp only [size, skip, map_cons, sum_cons] at htail ih ⊢
    rw [front, findSome?_cons] at hfront
    have hl : (l.dropWhile fun e' => key e' = key e).length ≤ l.length :=
      (dropWhile_sublist _).length_le
    cases hhead : l.head?.filter fun e' => key e' = key e with
    | some e' =>
      obtain ⟨hmem, hkey⟩ := Option.filter_eq_some_iff.mp hhead
      obtain ⟨l', rfl⟩ := head?_eq_some_iff.mp hmem
      have hdrop : ((e' :: l').dropWhile fun e' => key e' = key e).length ≤ l'.length := by
        rw [dropWhile_cons_of_pos (by simpa using hkey)]
        exact (dropWhile_sublist _).length_le
      rw [length_cons]
      omega
    | none =>
      rw [hhead] at hfront
      have hlt := ih hfront
      omega

theorem length_take_le (n : ℕ) (sources : List (List E)) : (take key n sources).length ≤ n := by
  induction n generalizing sources with
  | zero => exact le_rfl
  | succ n ih =>
    rw [take]
    cases pop key sources with
    | none => exact Nat.zero_le _
    | some taken =>
      have hrest := ih taken.2
      simp only [length_cons]
      omega

theorem take_succ {n : ℕ} (hn : size sources ≤ n) : take key (n + 1) sources = take key n sources := by
  induction n generalizing sources with
  | zero =>
    rw [take, take]
    cases hpop : pop key sources with
    | none => rfl
    | some taken =>
      obtain ⟨e, rest⟩ := taken
      have hlt := size_lt_of_pop hpop
      omega
  | succ n ih =>
    rw [take, take]
    cases hpop : pop key sources with
    | none => rfl
    | some taken =>
      obtain ⟨e, rest⟩ := taken
      have hlt := size_lt_of_pop hpop
      simp [ih (show size rest ≤ n by omega)]

/-- Enough fuel takes all of the merge. -/
theorem take_of_le {n : ℕ} (hn : size sources ≤ n) : take key n sources = merged key sources := by
  induction n, hn using Nat.le_induction with
  | base => rfl
  | succ n hn ih => rw [take_succ hn, ih]

theorem merged_of_none (h : pop key sources = none) : merged key sources = [] := by
  rw [← take_of_le (Nat.le_succ (size sources)), take, h]

/-- The merge is what is popped, then the merge of the rest. -/
theorem merged_of_some (h : pop key sources = some (e, rest)) :
    merged key sources = e :: merged key rest := by
  have hlt := size_lt_of_pop h
  rw [← take_of_le (Nat.le_succ (size sources)), take, h]
  simp [take_of_le (show size rest ≤ size sources by omega)]

/-- **The merged list is sorted and has, for every key that is held, the entry of the first list that
holds it.** -/
theorem merged_spec (hs : ∀ l ∈ sources, Ascends key l) : Ascends key (merged key sources) ∧
    ∀ e, e ∈ merged key sources ↔ held key (key e) sources = some e := by
  induction hn : size sources using Nat.strong_induction_on generalizing sources with
  | _ n ih =>
    cases hpop : pop key sources with
    | none =>
      have hemp := pop_eq_none hpop
      rw [merged_of_none hpop]
      refine ⟨.nil, fun e => ⟨nofun, fun hheld => ?_⟩⟩
      obtain ⟨⟨l, hl, he⟩, -⟩ := mem_of_held hheld
      rw [hemp l hl] at he
      cases he
    | some taken =>
      obtain ⟨e₀, rest⟩ := taken
      obtain ⟨hheld, hle, hrest⟩ := pop_eq_some hs hpop
      have hskip : ∀ k, held key k rest = if k = key e₀ then none else held key k sources := by
        intro k
        rw [hrest, held, skip, findSome?_map, held, ← findSome?_ite]
        exact findSome?_congr fun l hl => (hs l hl).find?_skip (hle l hl)
      obtain ⟨hsort, hmem⟩ := ih (size rest) (hn ▸ size_lt_of_pop hpop) (hrest ▸ ascends_skip hs) rfl
      rw [merged_of_some hpop]
      refine ⟨pairwise_cons.mpr ⟨fun e he => ?_, hsort⟩, fun e => ?_⟩
      · -- what comes later is another key, and none is below the one taken
        have hlater := (hmem e).mp he
        rw [hskip] at hlater
        split_ifs at hlater with hkey
        obtain ⟨⟨l, hl, hel⟩, -⟩ := mem_of_held hlater
        exact lt_of_le_of_ne (hle l hl e hel) (Ne.symm hkey)
      · rw [mem_cons, hmem, hskip]
        by_cases hkey : key e = key e₀
        · rw [if_pos hkey, hkey, hheld]
          simp [eq_comm]
        · rw [if_neg hkey]
          have hne : e ≠ e₀ := fun heq => hkey (heq ▸ rfl)
          simp [hne]

end Merge
