import NanoStore.Txn.Version
/-!
# Version chains — what vacuum leaves to a reader

`VersionChain::vacuum` keeps the newest version and drops, below each
obsolete version that is not the last of its kind, the version that
follows it. A reader at or above the watermark never notices.
-/

namespace NanoStore.Txn

open List Version

namespace VersionChain

variable {w s : ℕ} {chain older : VersionChain} {v : Version}

/-! ## The versions that stay -/

/-- The chain without the versions `vacuum` drops: each one that is directly below an obsolete
version which is not the oldest obsolete one. -/
def thin (w : ℕ) : VersionChain → VersionChain
  | [] => []
  | v :: older =>
    if v.obsolete w && older.any (obsolete w) then v :: (thin w older).tail else v :: thin w older

theorem thin_cons (v : Version) (older : VersionChain) :
    thin w (v :: older) = v :: (thin w (v :: older)).tail := by
  rw [thin]
  split_ifs <;> rfl

/-- `retain_obsolete_versions` with a budget of one: the oldest obsolete version takes it. -/
theorem retainObsoleteVersions_one :
    (retainObsoleteVersions w chain 1).1 = thin w chain ∧
      (retainObsoleteVersions w chain 1).2.1 = if chain.any (obsolete w) then 0 else 1 := by
  induction chain with
  | nil => exact ⟨rfl, rfl⟩
  | cons v older ih =>
    obtain ⟨hchain, hbudget⟩ := ih
    generalize hx : retainObsoleteVersions w older 1 = x at hchain hbudget
    obtain ⟨rebuilt, budget, freed⟩ := x
    simp only at hchain hbudget
    rw [retainObsoleteVersions, hx, thin]
    by_cases hv : v.obsolete w
    · by_cases hany : older.any (obsolete w)
      · simp [hv, hany, hchain, hbudget]
      · simp [hv, hany, hchain, hbudget]
    · simp [hv, hchain, hbudget]

theorem thin_of_countP_le_one (h : chain.countP (obsolete w) ≤ 1) : thin w chain = chain := by
  induction chain with
  | nil => rfl
  | cons v older ih =>
    have hle : older.countP (obsolete w) ≤ 1 := by
      rw [countP_cons] at h
      omega
    have hlast : (v.obsolete w && older.any (obsolete w)) = false := by
      by_contra hboth
      simp only [Bool.not_eq_false, Bool.and_eq_true, any_eq_true] at hboth
      obtain ⟨hv, u, hu, hobs⟩ := hboth
      have hpos : 0 < older.countP (obsolete w) :=
        countP_pos_iff.mpr ⟨u, hu, hobs⟩
      rw [countP_cons, if_pos hv] at h
      omega
    rw [thin, hlast, ih hle]
    rfl

/-- **What `vacuum` leaves of a chain.** -/
theorem vacuum_fst : (vacuum w chain).1 = thin w chain := by
  unfold vacuum
  dsimp only
  split_ifs with hremoved
  · have hle : chain.countP (obsolete w) ≤ 1 := by omega
    exact (thin_of_countP_le_one hle).symm
  · exact retainObsoleteVersions_one.1

@[simp] theorem head?_thin : (thin w chain).head? = chain.head? := by
  cases chain with
  | nil => rfl
  | cons v older =>
    rw [thin]
    split_ifs <;> rfl

theorem thin_sublist (w : ℕ) (chain : VersionChain) : (thin w chain).Sublist chain := by
  induction chain with
  | nil => exact List.Sublist.refl _
  | cons v older ih =>
    rw [thin]
    split_ifs
    · exact ((tail_sublist _).trans ih).cons_cons v
    · exact ih.cons_cons v

/-- The versions not committed. -/
def uncommitted (chain : VersionChain) : VersionChain := chain.filter fun v => v.commitLsn.isNone

/-- No uncommitted version stands directly below an obsolete one that is not the oldest. -/
def KeepsOpen (w : ℕ) : VersionChain → Prop
  | a :: v :: older =>
    (a.obsolete w = true → older.any (obsolete w) = true → v.commitLsn ≠ none) ∧ KeepsOpen w (v :: older)
  | _ => True

/-- **Vacuum keeps the uncommitted versions** exactly if none stands where it drops one. -/
theorem uncommitted_thin_iff : uncommitted (thin w chain) = uncommitted chain ↔ KeepsOpen w chain := by
  induction chain with
  | nil => simp [thin, KeepsOpen]
  | cons a rest ih =>
    cases rest with
    | nil => simp [thin, KeepsOpen]
    | cons v older =>
      have hcons : ∀ u : Version, ∀ chain chain' : VersionChain,
          uncommitted (u :: chain) = uncommitted (u :: chain') ↔ uncommitted chain = uncommitted chain' := by
        intro u chain chain'
        unfold uncommitted
        rw [filter_cons, filter_cons]
        split_ifs <;> simp
      rw [KeepsOpen, thin]
      by_cases hdrop : (a.obsolete w && (v :: older).any (obsolete w)) = true
      · rw [if_pos hdrop, hcons]
        rw [Bool.and_eq_true] at hdrop
        cases hv : v.commitLsn with
        | none =>
          -- the version that goes is uncommitted, and what stays below it cannot make up for it
          have hany : older.any (obsolete w) = true := by
            have hself : v.obsolete w = false := by simp [obsolete, hv]
            simpa [hself] using hdrop.2
          have hlen : (uncommitted (thin w (v :: older)).tail).length ≤ (uncommitted older).length := by
            refine List.Sublist.length_le (List.Sublist.filter _ ?_)
            have hsub := thin_sublist w (v :: older)
            rw [thin_cons] at hsub
            exact cons_sublist_cons.mp hsub
          constructor
          · intro heq
            rw [heq] at hlen
            simp [uncommitted, hv] at hlen
          · intro hsafe
            exact absurd rfl (hsafe.1 hdrop.1 hany)
        | some l =>
          have htail : uncommitted (thin w (v :: older)).tail = uncommitted (thin w (v :: older)) := by
            conv_rhs => rw [thin_cons]
            simp [uncommitted, hv]
          rw [htail, ih]
          simp
      · rw [if_neg hdrop, hcons, ih]
        have hfree : a.obsolete w = true → older.any (obsolete w) = true →
            v.commitLsn ≠ none := by
          intro ha hany
          rw [any_cons, ha, hany] at hdrop
          simp at hdrop
        exact ⟨fun h => ⟨hfree, h⟩, fun h => h.2⟩

/-! ## Readers -/

theorem visible_atLsn :
    v.visible (.atLsn s) = true ↔ ∃ l, v.commitLsn = some l ∧ l ≤ s := by
  unfold visible
  cases v.commitLsn with
  | none | some l => simp

theorem obsolete_iff (w : ℕ) (v : Version) : v.obsolete w = true ↔ ∃ l, v.commitLsn = some l ∧ l < w := by
  unfold obsolete
  cases v.commitLsn with
  | none | some l => simp

/-- **A reader at or above the watermark finds what it found.** -/
theorem find?_thin_of_le (hs : w ≤ s) : (thin w chain).find? (visible (.atLsn s)) =
    chain.find? (visible (.atLsn s)) := by
  induction chain with
  | nil => rfl
  | cons v older ih =>
    by_cases hv : v.visible (.atLsn s)
    · rw [thin]
      split_ifs <;> simp [hv]
    · -- a version the reader does not see is not obsolete
      have hobs : v.obsolete w = false := by
        by_contra hno
        obtain ⟨l, hl, hlt⟩ := (obsolete_iff w v).mp (by simpa using hno)
        exact hv (visible_atLsn.mpr ⟨l, hl, by omega⟩)
      rw [thin, hobs]
      simp [hv, ih]

end VersionChain

end NanoStore.Txn
