import NanoStore.Txn.Vacuum
/-!
# Version chains — what vacuum promises

The documentation of `VersionChain::vacuum` promises to keep the versions
that are not committed, those committed at or above the watermark, and the
newest one below it; and to return the external values of the versions it
removed. The code counts the versions it is to remove from the oldest one
up, but takes out the version below each of them. So it removes the right
ones only if the versions below the watermark stand together, and it
returns the right values only if the versions with external values among
them are those that stand below one it counts.
-/

namespace NanoStore.Txn

open List Version

namespace VersionChain

variable {w : ℕ} {chain older : VersionChain} {v : Version}

/-! ## The versions that stay -/

/-- What the documentation promises: of the versions below the watermark the newest stays. -/
def promised (w : ℕ) : VersionChain → VersionChain
  | [] => []
  | v :: older => if v.obsolete w then v :: older.filter (fun u => !u.obsolete w) else v :: promised w older

/-- The positions of the committed versions do not go up. -/
def Falls (chain : VersionChain) : Prop := (chain.filterMap commitLsn).Pairwise fun l l' => l' ≤ l

theorem uncommitted_promised : uncommitted (promised w chain) = uncommitted chain := by
  have hfilter : ∀ older : VersionChain, uncommitted (older.filter fun u => !u.obsolete w) = uncommitted older := by
    intro older
    rw [uncommitted, filter_filter]
    refine filter_congr fun u _ => ?_
    cases hu : u.commitLsn <;> simp [obsolete, hu]
  induction chain with
  | nil => rfl
  | cons v older ih =>
    rw [promised]
    unfold uncommitted at ih hfilter ⊢
    split_ifs
    · rw [filter_cons, filter_cons, hfilter]
    · rw [filter_cons, filter_cons, ih]

theorem Falls.of_cons (h : Falls (v :: older)) : Falls older := by
  rw [Falls, filterMap_cons] at h
  split at h
  · exact h
  · exact (pairwise_cons.mp h).2

variable {u : Version}

theorem Falls.obsolete_of_mem (h : Falls (v :: older)) (hv : v.obsolete w = true) (hu : u ∈ older)
    (hcomm : u.commitLsn ≠ none) : u.obsolete w = true := by
  obtain ⟨l, hl, hlt⟩ := (obsolete_iff w v).mp hv
  obtain ⟨l', hl'⟩ := Option.ne_none_iff_exists'.mp hcomm
  have hle := (pairwise_cons.mp (pairwise_filterMap.mp h)).1 u hu l hl l' hl'
  exact (obsolete_iff w u).mpr ⟨l', hl', hle.trans_lt hlt⟩

/-- Below a version under the watermark `vacuum` keeps what it promises, if it keeps what is not committed. -/
theorem thin_of_keepsOpen (hfalls : Falls (v :: older)) (hv : v.obsolete w = true)
    (h : KeepsOpen w (v :: older)) : thin w (v :: older) = v :: older.filter fun u => !u.obsolete w := by
  induction older generalizing v with
  | nil => simp [thin]
  | cons u older ih =>
    by_cases hany : (u :: older).any (obsolete w) = true
    · rw [thin, if_pos (by rw [hv, hany]; rfl)]
      have hu : u.obsolete w = true := by
        by_contra hnot
        have hbelow : older.any (obsolete w) = true := by
          rw [any_cons, Bool.or_eq_true] at hany
          exact hany.resolve_left hnot
        exact hnot (hfalls.obsolete_of_mem hv mem_cons_self (h.1 hv hbelow))
      rw [ih hfalls.of_cons hu h.2, tail_cons, filter_cons_of_neg (by simp [hu])]
    · have hnone : ∀ x ∈ u :: older, x.obsolete w = false := by
        simpa using hany
      rw [thin, if_neg (by simp [hany]), thin_of_countP_le_one, filter_eq_self.mpr]
      · intro x hx
        rw [hnone x hx]
        rfl
      · rw [countP_eq_zero.mpr]
        · exact Nat.zero_le 1
        · intro x hx
          rw [hnone x hx]
          exact Bool.false_ne_true

/-- **`vacuum` keeps what it promises exactly if it keeps what is not committed.** -/
theorem thin_eq_promised_iff (hfalls : Falls chain) : thin w chain = promised w chain ↔ KeepsOpen w chain := by
  constructor
  · intro heq
    rw [← uncommitted_thin_iff, heq, uncommitted_promised]
  · intro h
    induction chain with
    | nil => rfl
    | cons v older ih =>
      rw [promised]
      split_ifs with hv
      · exact thin_of_keepsOpen hfalls hv h
      · have hrest : KeepsOpen w older := by
          cases older with
          | nil => trivial
          | cons u older => exact h.2
        rw [thin, if_neg (by simp [hv]), ih hfalls.of_cons hrest]

/-! ## Readers -/

/-- A version below the newest one under the watermark was made by a transaction that made a version above
it, at or under the watermark: a snapshot that hides the one hides the other. -/
def Shaded (w : ℕ) (chain : VersionChain) : Prop :=
  ∀ front d back, chain = front ++ d :: back → d.obsolete w = true → front.any (obsolete w) = true →
    ∃ u ∈ front, (∃ l, u.commitLsn = some l ∧ l ≤ w) ∧ u.createdBy = d.createdBy

theorem promised_of_forall (h : ∀ x ∈ chain, x.obsolete w = false) : promised w chain = chain := by
  induction chain with
  | nil => rfl
  | cons v older ih =>
    obtain ⟨hv, holder⟩ := forall_mem_cons.mp h
    rw [promised, hv, if_neg Bool.false_ne_true, ih holder]

variable {front rest : VersionChain}

theorem promised_append_cons (hfront : ∀ x ∈ front, x.obsolete w = false) (hv : v.obsolete w = true) :
    promised w (front ++ v :: rest) = front ++ v :: rest.filter fun u => !u.obsolete w := by
  induction front with
  | nil => rw [nil_append, promised, if_pos hv, nil_append]
  | cons x front ih =>
    obtain ⟨hx, hfront'⟩ := forall_mem_cons.mp hfront
    rw [cons_append, promised, hx, if_neg Bool.false_ne_true, ih hfront', cons_append]

theorem exists_first_obsolete (h : chain.any (obsolete w) = true) :
    ∃ front o rest, chain = front ++ o :: rest ∧ (∀ x ∈ front, x.obsolete w = false) ∧ o.obsolete w = true := by
  obtain ⟨o, ho⟩ := find?_isSome.mpr (any_eq_true.mp h) |> Option.isSome_iff_exists.mp
  obtain ⟨hobs, front, rest, heq, hfront⟩ := find?_eq_some_iff_append.mp ho
  exact ⟨front, o, rest, heq, fun x hx => by simpa using hfront x hx, hobs⟩

theorem Falls.obsolete_of_append (h : Falls (front ++ v :: rest))
    (hv : v.obsolete w = true) (hu : u ∈ rest) (hcomm : u.commitLsn ≠ none) : u.obsolete w = true := by
  have hsuffix : Falls (v :: rest) := by
    rw [Falls, filterMap_append, pairwise_append] at h
    exact h.2.1
  exact hsuffix.obsolete_of_mem hv hu hcomm

/-- **What the documentation promises serves every snapshot at or above the watermark** exactly if the
versions it gives up are hidden by others. -/
theorem findVisibleVersion_promised_iff (hfalls : Falls chain) :
    (∀ s : Snapshot, w ≤ s.lsn → (promised w chain).findVisibleVersion s = chain.findVisibleVersion s) ↔
      Shaded w chain := by
  constructor
  · rintro hsame front d back rfl hd hany
    by_contra hbare
    -- the snapshot at the watermark to which every maker of a version above is active
    let active := (front.filter fun u => u.commitLsn.any fun l => l ≤ w).map createdBy
    let s : Snapshot := ⟨w, active⟩
    have hhidden : ∀ u ∈ front, u.visible s = false := by
      intro u hu
      rw [← Bool.not_eq_true, visible_iff]
      rintro ⟨l, hl, hle, hfree⟩
      refine hfree (mem_map.mpr ⟨u, mem_filter.mpr ⟨hu, ?_⟩, rfl⟩)
      rw [hl]
      exact decide_eq_true hle
    have hseen : d.visible s = true := by
      obtain ⟨l, hl, hlt⟩ := (obsolete_iff w d).mp hd
      refine visible_iff.mpr ⟨l, hl, hlt.le, fun hact => hbare ?_⟩
      obtain ⟨u, hu, hmaker⟩ := mem_map.mp hact
      obtain ⟨hmem, hle⟩ := mem_filter.mp hu
      cases hl' : u.commitLsn with
      | none =>
        rw [hl'] at hle
        cases hle
      | some l' =>
        rw [hl'] at hle
        exact ⟨u, hmem, ⟨l', hl', of_decide_eq_true hle⟩, hmaker⟩
    have hfound : (front ++ d :: back).find? (visible s) = some d :=
      find?_eq_some_iff_append.mpr ⟨hseen, front, back, rfl, fun u hu => by rw [hhidden u hu]; rfl⟩
    obtain ⟨first, o, rest, rfl, hfst, ho⟩ := exists_first_obsolete hany
    have hmissed : (promised w ((first ++ o :: rest) ++ d :: back)).find? (visible s) = none := by
      rw [append_assoc, cons_append] at hfalls ⊢
      rw [promised_append_cons hfst ho, find?_eq_none]
      intro u hu hvis
      have hcomm : u.commitLsn ≠ none := by
        obtain ⟨l, hl, -⟩ := visible_iff.mp hvis
        rw [hl]
        exact Option.some_ne_none l
      rcases mem_append.mp hu with hu | hu
      · rw [hhidden u (by simp [hu])] at hvis
        cases hvis
      rcases mem_cons.mp hu with rfl | hu
      · rw [hhidden u (by simp)] at hvis
        cases hvis
      · obtain ⟨hmem, hkept⟩ := mem_filter.mp hu
        rw [hfalls.obsolete_of_append ho hmem hcomm] at hkept
        cases hkept
    have hval := hsame s le_rfl
    rw [findVisibleVersion, findVisibleVersion, hmissed, hfound] at hval
    cases hval
  · intro hshaded s hs
    by_cases hany : chain.any (obsolete w) = true
    · obtain ⟨front, o, rest, rfl, hfront, ho⟩ := exists_first_obsolete hany
      rw [promised_append_cons hfront ho, findVisibleVersion, findVisibleVersion]
      refine congrArg _ ?_
      rw [find?_append, find?_append, find?_cons, find?_cons, find?_filter]
      cases hfst : front.find? (visible s) with
      | some v => rfl
      | none =>
        cases hvo : o.visible s with
        | true => rfl
        | false =>
          -- nothing that was given up is seen: what hides it is seen as well
          have hnone : rest.find? (fun u => u.obsolete w && u.visible s) = none := by
            by_contra hsome
            obtain ⟨d, hd⟩ := Option.ne_none_iff_exists'.mp hsome
            obtain ⟨hboth, above, back, rfl, habove⟩ := find?_eq_some_iff_append.mp hd
            rw [Bool.and_eq_true] at hboth
            obtain ⟨u, hu, ⟨l, hl, hle⟩, hmaker⟩ :=
              hshaded (front ++ o :: above) d back (by simp) hboth.1 (by simp [ho])
            obtain ⟨-, -, -, hfree⟩ := visible_iff.mp hboth.2
            have hseen : u.visible s = true := visible_iff.mpr ⟨l, hl, hle.trans hs, hmaker ▸ hfree⟩
            rcases mem_append.mp hu with hu | hu
            · exact absurd hseen (find?_eq_none.mp hfst u hu)
            rcases mem_cons.mp hu with rfl | hu
            · rw [hvo] at hseen
              cases hseen
            · have hobs := hfalls.obsolete_of_append (u := u) ho (by simp [hu]) (by simp [hl])
              have hunseen := habove u hu
              rw [hobs, hseen] at hunseen
              cases hunseen
          refine congrArg _ (find?_congr fun u hu => ?_)
          have hnot := find?_eq_none.mp hnone u hu
          cases hobs : u.obsolete w <;> simp_all
    · have hnone : ∀ x ∈ chain, x.obsolete w = false := by simpa using hany
      rw [promised_of_forall hnone]

/-- **What `vacuum` keeps of its promise.** The chain it leaves is the promised one, and readers at or
above the watermark find what they found, exactly if no uncommitted version stands directly below one under
the watermark that is not the oldest such; and for snapshots with active transactions if also the versions
it gives up are hidden by others. -/
theorem vacuum_keeps_promise_iff (hfalls : Falls chain) : ((vacuum w chain).1 = promised w chain ∧
      (∀ s, w ≤ s → (vacuum w chain).1.findVisibleVersion (.atLsn s) = chain.findVisibleVersion (.atLsn s)) ↔
    KeepsOpen w chain) ∧ ((vacuum w chain).1 = promised w chain ∧
      (∀ s : Snapshot, w ≤ s.lsn → (vacuum w chain).1.findVisibleVersion s = chain.findVisibleVersion s) ↔
    KeepsOpen w chain ∧ Shaded w chain) := by
  rw [vacuum_fst, thin_eq_promised_iff hfalls]
  refine ⟨⟨And.left, fun hkeeps => ⟨hkeeps, fun s hs => ?_⟩⟩, ?_⟩
  · rw [findVisibleVersion, findVisibleVersion, find?_thin_of_le hs]
  · refine and_congr_right fun hkeeps => ?_
    rw [(thin_eq_promised_iff hfalls).mpr hkeeps]
    exact findVisibleVersion_promised_iff hfalls

/-- Versions under the watermark that stand together: the promise is kept. -/
theorem vacuum_keeps_promise_together :
    ∃ chain : VersionChain, Falls chain ∧ KeepsOpen 25 chain ∧ (vacuum 25 chain).1 = promised 25 chain := by
  have hfalls : Falls [⟨.inline [3], 3, some 30⟩, ⟨.inline [2], 2, some 20⟩, ⟨.inline [1], 1, some 10⟩] := by
    simp [Falls]
  have hkeeps : KeepsOpen 25 [⟨.inline [3], 3, some 30⟩, ⟨.inline [2], 2, some 20⟩, ⟨.inline [1], 1, some 10⟩] := by
    simp [KeepsOpen]
  exact ⟨_, hfalls, hkeeps, ((vacuum_keeps_promise_iff hfalls).1.mpr hkeeps).1⟩

/-- **An uncommitted version between two that are under the watermark is lost**, and the older of the two
stays in its place. -/
theorem vacuum_keeps_promise_fails :
    ∃ chain : VersionChain, Falls chain ∧ (vacuum 25 chain).1 ≠ promised 25 chain := by
  refine ⟨[⟨.inline [3], 2, some 20⟩, ⟨.inline [2], 3, none⟩, ⟨.inline [1], 1, some 10⟩], ?_, by decide⟩
  simp [Falls]

/-! ## The values that are freed -/

def collectExternalRefs (chain : VersionChain) : List ValueRef :=
  chain.filterMap fun v => match v.value with
    | .external ref => some ref
    | .inline _ => none

variable {ref : ValueRef}

theorem mem_collectExternalRefs : ref ∈ collectExternalRefs chain ↔ ∃ v ∈ chain, v.value = .external ref := by
  rw [collectExternalRefs, mem_filterMap]
  refine exists_congr fun v => and_congr_right fun _ => ?_
  cases v.value <;> simp

/-- The versions `vacuum` counts as removed: each one under the watermark but the oldest. -/
def counted (w : ℕ) : VersionChain → VersionChain
  | [] => []
  | v :: older =>
    if v.obsolete w && older.any (obsolete w) then counted w older ++ [v] else counted w older

/-- The versions `vacuum` takes out: each one directly below a counted one. -/
def dropped (w : ℕ) : VersionChain → VersionChain
  | [] => []
  | v :: older =>
    if v.obsolete w && older.any (obsolete w) then older.head?.toList ++ dropped w older else dropped w older

theorem countP_cons_of_counts (h : (v.obsolete w && older.any (obsolete w)) = true) :
    (v :: older).countP (obsolete w) = older.countP (obsolete w) + 1 ∧ 0 < older.countP (obsolete w) := by
  rw [Bool.and_eq_true] at h
  exact ⟨countP_cons_of_pos h.1, countP_pos_iff.mpr (any_eq_true.mp h.2)⟩

theorem countP_cons_of_not_counts (h : ¬ (v.obsolete w && older.any (obsolete w)) = true) :
    (v :: older).countP (obsolete w) - 1 = older.countP (obsolete w) - 1 := by
  by_cases hv : v.obsolete w = true
  · have hzero : older.countP (obsolete w) = 0 := by
      rw [hv, Bool.true_and, Bool.not_eq_true, any_eq_false] at h
      exact countP_eq_zero.mpr h
    rw [countP_cons_of_pos hv, hzero]
  · rw [countP_cons_of_neg hv]

theorem length_counted :
    (counted w chain).length = chain.countP (obsolete w) - 1 := by
  induction chain with
  | nil => rfl
  | cons v older ih =>
    rw [counted]
    split_ifs with h
    · obtain ⟨hcount, hpos⟩ := countP_cons_of_counts h
      rw [length_append, ih, length_singleton, hcount]
      omega
    · rw [ih, countP_cons_of_not_counts h]

/-- `vacuum` takes out as many versions as it counts. -/
theorem length_dropped :
    (dropped w chain).length = chain.countP (obsolete w) - 1 := by
  induction chain with
  | nil => rfl
  | cons v older ih =>
    rw [dropped]
    split_ifs with h
    · obtain ⟨hcount, hpos⟩ := countP_cons_of_counts h
      cases older with
      | nil => cases hpos
      | cons u older =>
        rw [length_append, ih, hcount, head?_cons, Option.toList_some, length_singleton]
        omega
    · rw [ih, countP_cons_of_not_counts h]

theorem thin_append_dropped (w : ℕ) (chain : VersionChain) : (thin w chain ++ dropped w chain).Perm chain := by
  induction chain with
  | nil => exact .nil
  | cons v older ih =>
    rw [thin, dropped]
    split_ifs with h
    · cases older with
      | nil =>
        rw [any_nil, Bool.and_false] at h
        cases h
      | cons u older =>
        rw [thin_cons, cons_append] at ih
        exact (perm_middle.trans ih).cons v
    · exact ih.cons v

/-- The values `retain_obsolete_versions` collects are those of the counted versions. -/
theorem retainObsoleteVersions_freed :
    (retainObsoleteVersions w chain 1).2.2 = collectExternalRefs (counted w chain) := by
  induction chain with
  | nil => rfl
  | cons v older ih =>
    obtain ⟨-, hbudget⟩ := retainObsoleteVersions_one
    generalize hx : retainObsoleteVersions w older 1 = x at hbudget ih
    obtain ⟨rebuilt, budget, freed⟩ := x
    simp only at hbudget ih
    rw [retainObsoleteVersions, hx, counted]
    by_cases hv : v.obsolete w = true
    · by_cases hany : older.any (obsolete w) = true
      · rw [if_pos hany] at hbudget
        have hlast : collectExternalRefs (counted w older ++ [v]) =
            collectExternalRefs (counted w older) ++ collectExternalRefs [v] := filterMap_append
        simp only [hv, hany, hbudget, Bool.and_self, if_true, lt_irrefl, if_false, hlast, ← ih]
        cases hval : v.value <;> simp [collectExternalRefs, hval]
      · rw [if_neg hany] at hbudget
        simp [hv, hany, hbudget, ih]
    · simp [hv, ih]

/-- The values `vacuum` returns are those of the versions it counts. -/
theorem vacuum_freed :
    (vacuum w chain).2.2 = collectExternalRefs (counted w chain) := by
  unfold vacuum
  dsimp only
  split_ifs with hremoved
  · have hnone : counted w chain = [] := length_eq_zero_iff.mp ((length_counted).trans hremoved)
    rw [hnone]
    rfl
  · exact retainObsoleteVersions_freed

theorem vacuum_count :
    (vacuum w chain).2.1 = chain.countP (obsolete w) - 1 := by
  unfold vacuum
  dsimp only
  split_ifs with hremoved
  · exact hremoved.symm
  · rfl

/-- The places of a version in a chain: the first, or one of the rest. -/
theorem exists_split_cons {P : VersionChain → Version → VersionChain → Prop} :
    (∃ front back, v :: older = front ++ u :: back ∧ P front u back) ↔
      (v = u ∧ P [] u older) ∨ ∃ front back, older = front ++ u :: back ∧ P (v :: front) u back := by
  constructor
  · rintro ⟨front, back, heq, hp⟩
    cases front with
    | nil =>
      obtain ⟨rfl, rfl⟩ := cons.inj heq
      exact .inl ⟨rfl, hp⟩
    | cons x front =>
      obtain ⟨rfl, rfl⟩ := cons.inj heq
      exact .inr ⟨front, back, rfl, hp⟩
  · rintro (⟨rfl, hp⟩ | ⟨front, back, rfl, hp⟩)
    · exact ⟨[], older, rfl, hp⟩
    · exact ⟨v :: front, back, rfl, hp⟩

theorem mem_counted : u ∈ counted w chain ↔ ∃ front back, chain = front ++ u :: back ∧
    (u.obsolete w && back.any (obsolete w)) = true := by
  induction chain with
  | nil => simp [counted]
  | cons v older ih =>
    rw [exists_split_cons (P := fun _ u back => (u.obsolete w && back.any (obsolete w)) = true), ← ih,
      counted]
    split_ifs with h
    · rw [mem_append, mem_singleton, or_comm]
      refine or_congr_left ⟨fun heq => ⟨heq.symm, heq ▸ h⟩, fun hfst => hfst.1.symm⟩
    · refine ⟨.inr, fun hplace => hplace.resolve_left ?_⟩
      rintro ⟨rfl, hcounts⟩
      exact h hcounts

theorem mem_dropped : u ∈ dropped w chain ↔ ∃ a front back, chain = front ++ a :: back ∧
    back.head? = some u ∧ (a.obsolete w && back.any (obsolete w)) = true := by
  induction chain with
  | nil => simp [dropped]
  | cons v older ih =>
    simp only [exists_split_cons (P := fun _ a back => back.head? = some u ∧
      (a.obsolete w && back.any (obsolete w)) = true), exists_or, ← ih, exists_eq_left']
    rw [dropped]
    split_ifs with h
    · rw [mem_append, Option.mem_toList, and_iff_left h]
    · exact ⟨.inr, fun hplace => hplace.resolve_left fun hfst => h hfst.2⟩

theorem split_unique {front' back back' : VersionChain}
    (hnodup : (collectExternalRefs (front ++ v :: back)).Nodup) (heq : front ++ v :: back = front' ++ u :: back')
    (hv : v.value = .external ref) (hu : u.value = .external ref) : front = front' ∧ v = u ∧ back = back' := by
  have hagain : ∀ {x : Version} {older before behind : VersionChain} {y : Version}, x.value = .external ref →
      y.value = .external ref → (collectExternalRefs (x :: older)).Nodup → older ≠ before ++ y :: behind := by
    rintro x older before behind y hx hy hnodup rfl
    have hcons : collectExternalRefs (x :: (before ++ y :: behind)) =
        ref :: collectExternalRefs (before ++ y :: behind) := filterMap_cons_some (by rw [hx])
    rw [hcons, nodup_cons] at hnodup
    exact hnodup.1 (mem_collectExternalRefs.mpr ⟨y, by simp, hy⟩)
  induction front generalizing front' with
  | nil =>
    cases front' with
    | nil =>
      obtain ⟨hvu, hback⟩ := cons.inj heq
      exact ⟨rfl, hvu, hback⟩
    | cons x front' => exact absurd (cons.inj heq).2 (hagain hv hu hnodup)
  | cons x front ih =>
    cases front' with
    | nil =>
      obtain ⟨rfl, rfl⟩ := cons.inj heq
      exact absurd rfl (hagain hu hv hnodup)
    | cons x' front' =>
      obtain ⟨rfl, hrest⟩ := cons.inj heq
      have hnodup' : (collectExternalRefs (front ++ v :: back)).Nodup :=
        hnodup.sublist ((sublist_cons_self _ _).filterMap _)
      obtain ⟨rfl, hvu, hback⟩ := ih hnodup' hrest
      exact ⟨rfl, hvu, hback⟩

/-- A version with an external value is counted as removed exactly if the version directly above it is. -/
def FreesDropped (w : ℕ) (chain : VersionChain) : Prop :=
  ∀ front v back ref, chain = front ++ v :: back → v.value = .external ref →
    ((v.obsolete w && back.any (obsolete w)) = true ↔
      ∃ a ∈ front.getLast?, (a.obsolete w && (v :: back).any (obsolete w)) = true)

/-- **The values of the counted versions are those of the versions taken out** exactly if each version with
an external value is both or neither. -/
theorem mem_refs_counted_iff (hnodup : (collectExternalRefs chain).Nodup) :
    (∀ ref, ref ∈ collectExternalRefs (counted w chain) ↔ ref ∈ collectExternalRefs (dropped w chain)) ↔
      FreesDropped w chain := by
  simp only [mem_collectExternalRefs, mem_counted, mem_dropped]
  constructor
  · rintro hsame front v back ref rfl hv
    constructor
    · intro hcounts
      obtain ⟨u, ⟨a, front', back', heq, hhead, habove⟩, hu⟩ := (hsame ref).mp ⟨v, ⟨front, back, rfl, hcounts⟩, hv⟩
      obtain ⟨behind, rfl⟩ : ∃ behind, back' = u :: behind := ⟨back'.tail, eq_cons_of_mem_head? hhead⟩
      have hsplit : front ++ v :: back = (front' ++ [a]) ++ u :: behind := by simpa using heq
      obtain ⟨rfl, rfl, rfl⟩ := split_unique hnodup hsplit hv hu
      exact ⟨a, by simp, habove⟩
    · rintro ⟨a, ha, habove⟩
      obtain ⟨front', rfl⟩ := getLast?_eq_some_iff.mp ha
      obtain ⟨u, ⟨front'', back', heq, hcounts⟩, hu⟩ :=
        (hsame ref).mpr ⟨v, ⟨a, front', v :: back, by simp, rfl, habove⟩, hv⟩
      obtain ⟨-, rfl, rfl⟩ := split_unique hnodup heq hv hu
      exact hcounts
  · intro hfrees ref
    constructor
    · rintro ⟨v, ⟨front, back, rfl, hcounts⟩, hv⟩
      obtain ⟨a, ha, habove⟩ := (hfrees front v back ref rfl hv).mp hcounts
      obtain ⟨front', rfl⟩ := getLast?_eq_some_iff.mp ha
      exact ⟨v, ⟨a, front', v :: back, by simp, rfl, habove⟩, hv⟩
    · rintro ⟨v, ⟨a, front, back', rfl, hhead, habove⟩, hv⟩
      obtain ⟨back, rfl⟩ : ∃ back, back' = v :: back := ⟨back'.tail, eq_cons_of_mem_head? hhead⟩
      refine ⟨v, ⟨front ++ [a], back, by simp, ?_⟩, hv⟩
      exact (hfrees (front ++ [a]) v back ref (by simp) hv).mpr ⟨a, by simp, habove⟩

/-- **What `vacuum` returns.** The values are exactly those of the versions that are gone if and only if
each version with an external value is counted as removed exactly if the version directly above it is. The
count is the decrease of the chain in any case. -/
theorem vacuum_freed_iff (hnodup : (collectExternalRefs chain).Nodup) : ((∀ ref, ref ∈ (vacuum w chain).2.2 ↔
      ref ∈ collectExternalRefs chain ∧ ref ∉ collectExternalRefs (vacuum w chain).1) ∧
    (vacuum w chain).2.1 + (vacuum w chain).1.length = chain.length) ↔ FreesDropped w chain := by
  have hperm := thin_append_dropped w chain
  have hrefs : (collectExternalRefs (thin w chain) ++ collectExternalRefs (dropped w chain)).Perm
      (collectExternalRefs chain) := by
    rw [collectExternalRefs, collectExternalRefs, ← filterMap_append]
    exact hperm.filterMap _
  have hgone : ∀ ref, ref ∈ collectExternalRefs chain ∧ ref ∉ collectExternalRefs (thin w chain) ↔
      ref ∈ collectExternalRefs (dropped w chain) := by
    intro ref
    have hdisj := (nodup_append.mp (hrefs.nodup_iff.mpr hnodup)).2.2
    rw [← hrefs.mem_iff, mem_append]
    constructor
    · rintro ⟨hmem, hnot⟩
      exact hmem.resolve_left hnot
    · intro hmem
      exact ⟨.inr hmem, fun hstays => hdisj ref hstays ref hmem rfl⟩
  have hcount : (vacuum w chain).2.1 + (vacuum w chain).1.length = chain.length := by
    rw [vacuum_count, vacuum_fst, ← length_dropped, ← hperm.length_eq, length_append, Nat.add_comm]
  rw [and_iff_left hcount, vacuum_freed, vacuum_fst]
  simp only [hgone]
  exact mem_refs_counted_iff hnodup

/-- Three versions under the watermark: the one in the middle is counted and is taken out. -/
theorem vacuum_freed_iff_middle :
    ∃ chain : VersionChain, (collectExternalRefs chain).Nodup ∧ FreesDropped 25 chain ∧
      ∀ ref, ref ∈ (vacuum 25 chain).2.2 ↔
        ref ∈ collectExternalRefs chain ∧ ref ∉ collectExternalRefs (vacuum 25 chain).1 := by
  let chain : VersionChain :=
    [⟨.inline [3], 3, some 24⟩, ⟨.external (.singlePage 1 0 9), 2, some 22⟩, ⟨.inline [1], 1, some 10⟩]
  have hnodup : (collectExternalRefs chain).Nodup := by decide
  have hfrees : FreesDropped 25 chain := by
    intro front v back ref heq hv
    rcases front with _ | ⟨x, _ | ⟨y, _ | ⟨z, front⟩⟩⟩
    · obtain ⟨rfl, -⟩ := cons.inj heq
      cases hv
    · simp only [chain, cons_append, nil_append, cons.injEq] at heq
      obtain ⟨rfl, rfl, rfl⟩ := heq
      simp [obsolete]
    · simp only [chain, cons_append, nil_append, cons.injEq] at heq
      obtain ⟨-, -, rfl, -⟩ := heq
      cases hv
    · simp [chain] at heq
  exact ⟨chain, hnodup, hfrees, ((vacuum_freed_iff hnodup).mpr hfrees).1⟩

/-- **The value of the newest of two versions under the watermark is freed while the version stays**, and
that of the one that is gone is not. -/
theorem vacuum_freed_fails : ∃ chain : VersionChain, (collectExternalRefs chain).Nodup ∧
    ¬ ∀ ref, ref ∈ (vacuum 25 chain).2.2 ↔
      ref ∈ collectExternalRefs chain ∧ ref ∉ collectExternalRefs (vacuum 25 chain).1 := by
  refine ⟨[⟨.external (.singlePage 2 0 9), 2, some 20⟩, ⟨.external (.singlePage 1 0 9), 1, some 10⟩], by decide, ?_⟩
  intro hsame
  have hfreed := (hsame (.singlePage 2 0 9)).mp (by decide)
  exact hfreed.2 (by decide)

end VersionChain

end NanoStore.Txn
