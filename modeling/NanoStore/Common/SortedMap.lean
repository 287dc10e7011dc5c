import Mathlib.Tactic
/-!
# Sorted maps

A map kept as the list of its entries in the order of their keys. A range
of it is the part of the list whose keys are in the range. The entries
before a key, the entry of the key and the entries behind it make up the
list.

Whether the tree behind the map has a root node shows in one place: a
range that ends before it starts is refused only if there is one.
-/

/-- A map as its entries, in ascending order of the keys. It is `rooted` from the first insert on, and stays
so when its entries are gone. -/
structure SortedMap (K V : Type*) [LinearOrder K] where
  entries : List (K × V)
  ascends : entries.Pairwise fun e e' => e.1 < e'.1
  rooted : Bool

namespace SortedMap

open List

variable {K V : Type*} [LinearOrder K]

/-- No entry. -/
def empty : SortedMap K V := ⟨[], .nil, false⟩

variable (m : SortedMap K V) (k k' : K) (v : V)

/-- The value of a key. -/
def lookup : Option V := (m.entries.find? fun e => e.1 = k).map Prod.snd

/-- The entries with keys from a key on. -/
def since : List (K × V) := m.entries.filter fun e => k ≤ e.1

/-- The entries with keys before a key. -/
def before : List (K × V) := m.entries.filter fun e => e.1 < k

/-- The entries with keys behind a key. -/
def behind : List (K × V) := m.entries.filter fun e => k < e.1

/-- The map with a value for a key. -/
def insert : SortedMap K V where
  rooted := true
  entries := m.before k ++ (k, v) :: m.behind k
  ascends := by
    refine List.pairwise_append.mpr ⟨m.ascends.filter _, List.pairwise_cons.mpr ⟨?_, m.ascends.filter _⟩, ?_⟩
    · intro e he
      exact of_decide_eq_true (List.mem_filter.mp he).2
    · intro e he e' he'
      have hlt : e.1 < k := of_decide_eq_true (List.mem_filter.mp he).2
      rcases List.mem_cons.mp he' with rfl | he'
      · exact hlt
      · exact hlt.trans (of_decide_eq_true (List.mem_filter.mp he').2)

/-- The map without a key. -/
def erase : SortedMap K V := ⟨m.entries.filter fun e => e.1 ≠ k, m.ascends.filter _, m.rooted⟩

/-- Every value changed. -/
def mapValues (f : V → V) : SortedMap K V :=
  ⟨m.entries.map fun e => (e.1, f e.2), List.pairwise_map.mpr m.ascends, m.rooted⟩

/-- The entries that meet a condition. -/
def retain (p : K × V → Bool) : SortedMap K V := ⟨m.entries.filter p, m.ascends.filter _, m.rooted⟩

/-- `BTreeMap::range` panics if there is a root to search from and the range is inverted. -/
def rangePanics (inverted : Bool) : Bool := m.rooted && inverted

variable {m k k' v} {e : K × V}

/-- A key has one entry. -/
theorem eq_of_mem {e' : K × V} (he : e ∈ m.entries) (he' : e' ∈ m.entries) (hkey : e.1 = e'.1) : e = e' := by
  have hnd : (m.entries.map Prod.fst).Nodup := pairwise_map.mpr (m.ascends.imp fun hlt => hlt.ne)
  exact inj_on_of_nodup_map hnd he he' hkey

/-- A range of two keys that panics is inverted. -/
theorem lt_of_rangePanics {α : Type*} [LinearOrder α] {a b : α} (h : m.rangePanics (b < a) = true) : b < a := by
  rw [rangePanics, Bool.and_eq_true, decide_eq_true_iff] at h
  exact h.2

/-- **A key has the value of its entry.** -/
theorem lookup_eq_some : m.lookup k = some v ↔ (k, v) ∈ m.entries := by
  rw [lookup, Option.map_eq_some_iff]
  constructor
  · rintro ⟨e, he, rfl⟩
    have hkey := find?_some he
    rw [decide_eq_true_iff] at hkey
    rw [← hkey]
    exact mem_of_find?_eq_some he
  · intro hmem
    cases hfind : m.entries.find? fun e => e.1 = k with
    | none => exact absurd (decide_eq_true rfl) (find?_eq_none.mp hfind (k, v) hmem)
    | some e =>
      have hkey := find?_some hfind
      rw [decide_eq_true_iff] at hkey
      refine ⟨e, rfl, ?_⟩
      rw [m.eq_of_mem (mem_of_find?_eq_some hfind) hmem hkey]

@[simp] theorem lookup_empty : (empty : SortedMap K V).lookup k = none := rfl

theorem lookup_insert : (m.insert k v).lookup k' = if k' = k then some v else m.lookup k' := by
  ext w
  rw [lookup_eq_some, insert, mem_append, mem_cons, before, behind, mem_filter, mem_filter]
  split_ifs with hk
  · subst hk
    simp [eq_comm]
  · rw [lookup_eq_some]
    have hcases := lt_or_gt_of_ne hk
    grind

theorem mem_insert (he : e ∈ (m.insert k v).entries) : e = (k, v) ∨ e ∈ m.entries := by
  have hlook := lookup_eq_some.mpr he
  rw [lookup_insert] at hlook
  split_ifs at hlook with hk
  · exact .inl (Prod.ext hk (Option.some.inj hlook).symm)
  · exact .inr (lookup_eq_some.mp hlook)

theorem lookup_erase : (m.erase k).lookup k' = if k' = k then none else m.lookup k' := by
  ext w
  rw [lookup_eq_some, erase, mem_filter]
  split_ifs with hk
  · simp [hk]
  · rw [lookup_eq_some]
    simp [hk]

theorem lookup_mapValues (f : V → V) : (m.mapValues f).lookup k = (m.lookup k).map f := by
  ext w
  rw [lookup_eq_some, Option.map_eq_some_iff, mapValues, mem_map]
  constructor
  · rintro ⟨e, he, heq⟩
    obtain ⟨rfl, rfl⟩ := Prod.mk.inj heq
    exact ⟨e.2, lookup_eq_some.mpr he, rfl⟩
  · rintro ⟨u, hu, rfl⟩
    exact ⟨(k, u), lookup_eq_some.mp hu, rfl⟩

theorem lookup_retain (p : K × V → Bool) : (m.retain p).lookup k = (m.lookup k).filter fun u => p (k, u) := by
  ext w
  rw [lookup_eq_some, Option.filter_eq_some_iff, retain, mem_filter, lookup_eq_some]

/-! ## Ranges -/

theorem mem_before : e ∈ m.before k ↔ e ∈ m.entries ∧ e.1 < k := by
  rw [before, mem_filter, decide_eq_true_iff]

theorem mem_since : e ∈ m.since k ↔ e ∈ m.entries ∧ k ≤ e.1 := by
  rw [since, mem_filter, decide_eq_true_iff]

variable {front back : List (K × V)}

section

variable (h : m.entries = front ++ (k, v) :: back)
include h

theorem lt_of_split :
    (∀ e ∈ front, e.1 < k) ∧ ∀ e ∈ back, k < e.1 := by
  have hasc := m.ascends
  rw [h, pairwise_append, pairwise_cons] at hasc
  exact ⟨fun e he => hasc.2.2 e he _ mem_cons_self, hasc.2.1.1⟩

/-- **The entries before a key of the map** are those that stand before its entry. -/
theorem before_of_split : m.before k = front := by
  obtain ⟨hfront, hback⟩ := lt_of_split h
  have hkept : front.filter (fun e => e.1 < k) = front :=
    filter_eq_self.mpr fun e he => decide_eq_true (hfront e he)
  have hdropped : back.filter (fun e => e.1 < k) = [] :=
    filter_eq_nil_iff.mpr fun e he => by simpa using (hback e he).le
  rw [before, h, filter_append, filter_cons_of_neg (by simp), hkept, hdropped, append_nil]

/-- **The entries from a key of the map on** are its entry and those that stand behind it. -/
theorem since_of_split : m.since k = (k, v) :: back := by
  obtain ⟨hfront, hback⟩ := lt_of_split h
  have hdropped : front.filter (fun e => k ≤ e.1) = [] :=
    filter_eq_nil_iff.mpr fun e he => by simpa using hfront e he
  have hkept : back.filter (fun e => k ≤ e.1) = back :=
    filter_eq_self.mpr fun e he => decide_eq_true (hback e he).le
  rw [since, h, filter_append, filter_cons_of_pos (by simp), hkept, hdropped, nil_append]

end

/-- A map is what is before a key, and the rest. -/
theorem before_append_since : m.before k ++ m.since k = m.entries := by
  obtain ⟨entries, ascends⟩ := m
  show entries.filter _ ++ entries.filter _ = entries
  induction entries with
  | nil => rfl
  | cons e entries ih =>
    obtain ⟨hfst, hrest⟩ := pairwise_cons.mp ascends
    by_cases hlt : e.1 < k
    · rw [filter_cons_of_pos (by simpa using hlt), filter_cons_of_neg (by simpa using hlt),
        cons_append, ih hrest]
    · have hbefore : entries.filter (fun e => e.1 < k) = [] := by
        refine filter_eq_nil_iff.mpr fun e' he' => ?_
        have hgt := (not_lt.mp hlt).trans_lt (hfst e' he')
        simpa using hgt.le
      have hsince : entries.filter (fun e => k ≤ e.1) = entries := by
        refine filter_eq_self.mpr fun e' he' => ?_
        have hgt := (not_lt.mp hlt).trans_lt (hfst e' he')
        simpa using hgt.le
      rw [filter_cons_of_neg (by simpa using hlt), filter_cons_of_pos (by simpa using hlt), hbefore,
        hsince, nil_append]

/-- **The last entry of an ascending list** is the one that none is above. -/
theorem getLast?_eq_some {l : List (K × V)} (hasc : l.Pairwise fun e e' => e.1 < e'.1) :
    l.getLast? = some e ↔ e ∈ l ∧ ∀ e' ∈ l, ¬ e.1 < e'.1 := by
  rw [getLast?_eq_some_iff]
  constructor
  · rintro ⟨earlier, rfl⟩
    refine ⟨by simp, fun e' he' hlt => ?_⟩
    rcases mem_append.mp he' with he' | he'
    · exact hlt.asymm ((pairwise_append.mp hasc).2.2 e' he' e mem_cons_self)
    · rw [mem_singleton.mp he'] at hlt
      exact lt_irrefl _ hlt
  · rintro ⟨he, hlast⟩
    obtain ⟨earlier, later, rfl⟩ := append_of_mem he
    have hbehind := (pairwise_cons.mp (pairwise_append.mp hasc).2.1).1
    obtain rfl : later = [] :=
      eq_nil_iff_forall_not_mem.mpr fun e' he' => hlast e' (by simp [he']) (hbehind e' he')
    exact ⟨earlier, rfl⟩

end SortedMap
