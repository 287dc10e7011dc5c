import Mathlib.Data.List.AList
import Mathlib.Tactic
/-!
# Association lists — every value at once

`AList` has operations on one key. A pass over a whole map, which
changes each value or drops its key, is `filterMapValues`. A map is also
built from a list of its entries, one `insert` after the other.
-/


namespace AList

open List

universe u v

variable {α : Type u} {β : α → Type v}

/-- Each value replaced by what `f` makes of it, or its key dropped. -/
def filterMapValues (f : ∀ a, β a → Option (β a)) (m : AList β) : AList β where
  entries := m.entries.filterMap fun e => (f e.1 e.2).map (Sigma.mk e.1)
  nodupKeys := by
    rw [List.nodupKeys_iff_pairwise, List.pairwise_filterMap]
    refine (List.nodupKeys_iff_pairwise.mp m.nodupKeys).imp fun {e e'} hne b hb b' hb' => ?_
    obtain ⟨x, -, rfl⟩ := Option.map_eq_some_iff.mp hb
    obtain ⟨x', -, rfl⟩ := Option.map_eq_some_iff.mp hb'
    exact hne

variable [DecidableEq α]

/-- **Entries with different keys are all found** after they were inserted one after the other. -/
theorem lookup_foldl_insert {entries : List (Sigma β)} (h : entries.NodupKeys) (m : AList β) (a : α) :
    (entries.foldl (fun m e => m.insert e.1 e.2) m).lookup a = (entries.dlookup a).or (m.lookup a) := by
  induction entries generalizing m with
  | nil => rfl
  | cons e entries ih =>
    obtain ⟨a', b⟩ := e
    rw [nodupKeys_cons] at h
    rw [foldl_cons, ih h.2]
    by_cases ha : a = a'
    · subst ha
      have hnone : List.dlookup a entries = none := dlookup_eq_none.mpr h.1
      rw [hnone, Option.none_or, lookup_insert, dlookup_cons_eq, Option.some_or]
    · rw [lookup_insert_ne ha, dlookup_cons_ne _ _ ha]

end AList
