import NanoStore.Common.MultiVersion
import NanoStore.Table.Chains
/-!
# The reference map of a versioned table

What the tables with version chains are meant to answer: a multi-version
map. A chain tracks the history of its key if it holds the history's
writes; deletions of a key that had no chain yet were not recorded, and a
reader cannot tell.
-/

namespace NanoStore.Table

open Wal Steps Txn MultiVersion List

/-- The multi-version map a versioned table stands for. -/
abbrev Reference := Map Key TransactionId Bytes

/-- The value of a version; the empty value stands for a deletion. -/
def Version.recorded (v : Version) : Option Bytes :=
  match v.value with
  | .inline [] => none
  | .inline data => some data
  | .external _ => none

/-- A version as a write of the reference map. -/
def Version.toWrite (v : Version) : Write TransactionId Bytes :=
  ⟨v.createdBy, v.commitLsn, Version.recorded v⟩

open Version (toWrite)

/-- The chain holds the writes of the history, but for the oldest ones, which are deletions. -/
structure Tracks (chain : VersionChain) (history : History TransactionId Bytes) : Prop where
  recorded : ∃ lost, history = chain.map toWrite ++ lost ∧ ∀ w ∈ lost, w.value = none
  inline : ∀ v ∈ chain, ∃ data, v.value = .inline data

variable {chain : VersionChain} {history : History TransactionId Bytes} {t : TransactionId}
  {lsn s : ℕ} {value : Bytes}

theorem seenAt_toWrite (v : Version) : (toWrite v).seenAt s = Version.visible (.atLsn s) v := by
  unfold Write.seenAt Version.visible toWrite
  cases v.commitLsn <;> simp

/-- To the table an empty value is none. -/
theorem hideEmpty_shows (h : ∀ v ∈ chain, ∃ data, v.value = .inline data) : hideEmpty (shows chain s) =
    ((chain.map toWrite).find? (Write.seenAt s)).bind Write.value := by
  have hseen : (Write.seenAt s ∘ toWrite) = Version.visible (.atLsn s) :=
    funext seenAt_toWrite
  rw [find?_map, hseen]
  rw [shows_eq]
  cases hfind : chain.find? (Version.visible (.atLsn s)) with
  | none => simp [hideEmpty]
  | some v =>
    obtain ⟨data, hdata⟩ := h v (mem_of_find?_eq_some hfind)
    cases data with
    | nil | cons b data => simp [hideEmpty, toWrite, Version.recorded, VersionValue.inline?, hdata]

section

variable (h : Tracks chain history)
include h

/-- **A chain answers what the history it tracks does.** -/
theorem Tracks.read (hord : Ordered history) :
    hideEmpty (shows chain s) = history.read s := by
  obtain ⟨lost, rfl, hlost⟩ := h.recorded
  rw [hideEmpty_shows h.inline, hord.read_eq, find?_append]
  cases (chain.map toWrite).find? (Write.seenAt s) with
  | some w => rfl
  | none =>
    -- only a lost write is left, and that is a deletion
    cases hfound : lost.find? (Write.seenAt s) with
    | none => rfl
    | some w => simp [hlost w (mem_of_find?_eq_some hfound)]

/-- A put is tracked. -/
theorem Tracks.put (hval : value ≠ []) :
    Tracks (.new value t :: chain) (history.write t (some value)) := by
  obtain ⟨lost, rfl, hlost⟩ := h.recorded
  refine ⟨⟨lost, ?_, hlost⟩, fun v hv => ?_⟩
  · have hnew : toWrite (.new value t) = ⟨t, none, some value⟩ := by
      cases value with
      | nil => exact absurd rfl hval
      | cons b value => rfl
    rw [History.write, map_cons, hnew, cons_append]
  · rcases mem_cons.mp hv with rfl | hv
    · exact ⟨value, rfl⟩
    · exact h.inline v hv

theorem Tracks.delete : Tracks (.new [] t :: chain) (history.write t none) := by
  obtain ⟨lost, rfl, hlost⟩ := h.recorded
  refine ⟨⟨lost, rfl, hlost⟩, fun v hv => ?_⟩
  rcases mem_cons.mp hv with rfl | hv
  · exact ⟨[], rfl⟩
  · exact h.inline v hv

end

theorem Tracks.delete_nil (h : Tracks [] history) : Tracks [] (history.write t none) := by
  obtain ⟨lost, hhist, hlost⟩ := h.recorded
  rw [map_nil, nil_append] at hhist
  subst hhist
  refine ⟨⟨⟨t, none, none⟩ :: history, rfl, fun w hw => ?_⟩, by simp⟩
  rcases mem_cons.mp hw with rfl | hw
  · rfl
  · exact hlost w hw

/-- A commit is tracked. -/
theorem Tracks.commit (h : Tracks chain history) :
    Tracks (VersionChain.stamp t lsn chain) (history.commit t lsn) := by
  obtain ⟨lost, rfl, hlost⟩ := h.recorded
  refine ⟨⟨History.commit t lsn lost, ?_, fun w hw => ?_⟩, fun v hv => ?_⟩
  · have hstamp : ∀ v : Version, toWrite
        (if v.createdBy = t ∧ v.commitLsn = none then { v with commitLsn := some lsn } else v) =
        if (toWrite v).writer = t ∧ (toWrite v).committedAt = none then
          { toWrite v with committedAt := some lsn }
        else toWrite v := by
      intro v
      by_cases hv : v.createdBy = t ∧ v.commitLsn = none
      · have hw : (toWrite v).writer = t ∧ (toWrite v).committedAt = none := hv
        rw [if_pos hv, if_pos hw]
        rfl
      · have hw : ¬ ((toWrite v).writer = t ∧ (toWrite v).committedAt = none) := hv
        rw [if_neg hv, if_neg hw]
    simp [History.commit, VersionChain.stamp, Function.comp_def, hstamp]
  · obtain ⟨w₀, hw₀, rfl⟩ := mem_map.mp hw
    split_ifs
    · exact hlost w₀ hw₀
    · exact hlost w₀ hw₀
  · obtain ⟨v₀, hv₀, rfl⟩ := mem_map.mp hv
    obtain ⟨data, hdata⟩ := h.inline v₀ hv₀
    refine ⟨data, ?_⟩
    split_ifs
    · exact hdata
    · exact hdata

end NanoStore.Table
