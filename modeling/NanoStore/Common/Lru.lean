import Mathlib.Tactic
/-!
# Least recently used

Entries with a key, the one used last in front. A new entry in a full list
takes the place of the last. No operation makes an entry up: what is in
the list afterwards was there before, or is the entry that was put there,
which is then the only one under its key.
-/


namespace Lru

open List

variable {κ ν : Type*} [DecidableEq κ]

/-- The entry under a key. -/
def find (k : κ) (entries : List (κ × ν)) : Option ν := (entries.find? fun e => e.1 = k).map Prod.snd

/-- The entry under a key becomes `v`, and the first. -/
def toFront (k : κ) (v : ν) (entries : List (κ × ν)) : List (κ × ν) :=
  (k, v) :: entries.filter fun e => e.1 ≠ k

/-- A new entry in a list of at most `capacity` entries, and the entry it evicts. -/
def insert (capacity : ℕ) (k : κ) (v : ν) (entries : List (κ × ν)) : List (κ × ν) × Option (κ × ν) :=
  if capacity ≤ entries.length then ((k, v) :: entries.dropLast, entries.getLast?)
  else ((k, v) :: entries, none)

variable {k : κ} {v : ν} {entries : List (κ × ν)} {e : κ × ν} {capacity : ℕ}

/-- What is found is held. -/
theorem mem_of_find (h : find k entries = some v) : (k, v) ∈ entries := by
  obtain ⟨e, he, rfl⟩ := Option.map_eq_some_iff.mp h
  have hkey : e.1 = k := by simpa using find?_some he
  subst hkey
  exact mem_of_find?_eq_some he

theorem ne_of_find_eq_none (h : find k entries = none) (he : e ∈ entries) : e.1 ≠ k := by
  have hnone := find?_eq_none.mp (Option.map_eq_none_iff.mp h) e he
  simpa using hnone

/-- An entry moved to the front takes the place of its key. -/
theorem mem_toFront : e ∈ toFront k v entries ↔ e = (k, v) ∨ e ∈ entries ∧ e.1 ≠ k := by
  simp [toFront]

omit [DecidableEq κ] in
theorem mem_of_mem_insert (h : e ∈ (insert capacity k v entries).1) : e = (k, v) ∨ e ∈ entries := by
  rw [insert] at h
  split_ifs at h
  · exact (mem_cons.mp h).imp_right mem_of_mem_dropLast
  · exact mem_cons.mp h

omit [DecidableEq κ] in
/-- What is evicted was held. -/
theorem mem_of_insert_evicted (h : (insert capacity k v entries).2 = some e) : e ∈ entries := by
  rw [insert] at h
  split_ifs at h
  exact mem_of_getLast? h

end Lru
