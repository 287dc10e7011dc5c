import Mathlib.Tactic
/-!
# Depth-first search for a cycle

A search through a directed graph that keeps the nodes it has visited, and
the path from the node it started at to the one it is at. A neighbour that
was visited and is on the path closes a cycle. A node that was visited and
is not on the path is done: its neighbours are done, and it is on no cycle
(`Searching`), and this is what makes the search complete.

The search is a recursion of unbounded depth. It is bounded by a number
here, and above the number of nodes the number has no effect
(`search_spec`, `search_mono`).
-/

namespace CycleSearch

open Relation List

/-- What the search has visited, and the path it is on, as a set and as a list. -/
structure State (α : Type*) where
  visited : Finset α
  recStack : Finset α
  path : List α

/-- The outcome of a search that came to an end: its state, and the cycle if it found one. -/
abbrev Outcome (α : Type*) := Option (State α × Option (List α))

variable {α : Type*} [DecidableEq α]

namespace State

/-- Nothing is visited. -/
def start : State α := ⟨∅, ∅, []⟩

/-- The search comes to a node. -/
def enter (s : State α) (u : α) : State α := ⟨insert u s.visited, insert u s.recStack, s.path ++ [u]⟩

/-- The search goes back from a node. -/
def leave (s : State α) (u : α) : State α := ⟨s.visited, s.recStack.erase u, s.path.dropLast⟩

/-- The node was visited, and the search went back from it. -/
def Done (s : State α) (u : α) : Prop := u ∈ s.visited ∧ u ∉ s.path

end State

/-- The neighbours of a node in turn. -/
def visitAll (visit : α → State α → Outcome α) : List α → State α → Outcome α
  | [], s => some (s, none)
  | u :: us, s =>
    if u ∉ s.visited then
      match visit u s with
      | none => none
      | some (s, some cycle) => some (s, some cycle)
      | some (s, none) => visitAll visit us s else if u ∈ s.recStack then
      match s.path.findIdx? fun v => v = u with
      | none => none
      | some i => some (s, some (s.path.drop i)) else visitAll visit us s

/-- The search from a node that was not visited. -/
def dfs (next : α → List α) : ℕ → α → State α → Outcome α
  | 0, _, _ => none
  | depth + 1, current, s =>
    match visitAll (dfs next depth) (next current) (s.enter current) with
    | none => none
    | some (s, some cycle) => some (s, some cycle)
    | some (s, none) => some (s.leave current, none)

/-- The search from each node of a list in turn. -/
def search (next : α → List α) (depth : ℕ) : List α → State α → Option (Option (List α))
  | [], _ => some none
  | u :: us, s =>
    if u ∉ s.visited then
      match dfs next depth u s with
      | none => none
      | some (_, some cycle) => some (some cycle)
      | some (s, none) => search next depth us s else search next depth us s

/-! ## Cycles -/

/-- One node leads to the other. -/
def Edge (next : α → List α) (u v : α) : Prop := v ∈ next u

/-- Each node of the list leads to the one behind it, and the last leads to the first. -/
structure IsCycle (next : α → List α) (cycle : List α) : Prop where
  chain : cycle.IsChain (Edge next)
  closes : ∃ first ∈ cycle.head?, ∃ last ∈ cycle.getLast?, Edge next last first

variable {s : State α} {next : α → List α} {s' : State α} {u v current : α}

omit [DecidableEq α] in
theorem reflTransGen_getLast {first last : α} {path : List α} (h : (first :: path).IsChain (Edge next))
    (hlast : last ∈ (first :: path).getLast?) : ReflTransGen (Edge next) first last := by
  induction path generalizing first with
  | nil =>
    obtain rfl : first = last := Option.some.inj hlast
    exact .refl
  | cons second path ih =>
    obtain ⟨hedge, hrest⟩ := isChain_cons_cons.mp h
    exact .head hedge (ih hrest hlast)

omit [DecidableEq α] in
/-- **A node of a cycle leads back to itself.** -/
theorem IsCycle.exists_transGen {cycle : List α} (h : IsCycle next cycle) : ∃ u, TransGen (Edge next) u u := by
  obtain ⟨first, hfst, last, hlast, hedge⟩ := h.closes
  cases cycle with
  | nil => cases hfst
  | cons x path =>
    obtain rfl : x = first := Option.some.inj hfst
    exact ⟨last, .head' hedge (reflTransGen_getLast h.chain hlast)⟩

/-! ## The invariant -/

/-- **The state of a search**: the path is a path, and what is done leads only to what is done, and is on
no cycle. -/
structure Searching (next : α → List α) (s : State α) : Prop where
  chain : s.path.IsChain (Edge next)
  stack : ∀ u, u ∈ s.recStack ↔ u ∈ s.path
  visited : ∀ u ∈ s.path, u ∈ s.visited
  closed : ∀ u v, s.Done u → Edge next u v → s.Done v
  acyclic : ∀ u, s.Done u → ¬ TransGen (Edge next) u u

/-- The search went on and came back: what was done is done. -/
structure Returned (next : α → List α) (s s' : State α) : Prop where
  searching : Searching next s'
  path : s'.path = s.path
  grows : s.visited ⊆ s'.visited

section

omit [DecidableEq α]

theorem Returned.done (h : Returned next s s') (hdone : s.Done u) : s'.Done u :=
  ⟨h.grows hdone.1, h.path ▸ hdone.2⟩

theorem Returned.trans {s'' : State α} (h : Returned next s s') (h' : Returned next s' s'') :
    Returned next s s'' :=
  ⟨h'.searching, h'.path.trans h.path, h.grows.trans h'.grows⟩

theorem searching_start : Searching next State.start where
  chain := .nil
  stack u := by simp [State.start]
  visited u hu := by cases hu
  closed u v hdone := by simp [State.Done, State.start] at hdone
  acyclic u hdone := by simp [State.Done, State.start] at hdone

theorem Searching.done_of_reflTransGen (h : Searching next s) (hdone : s.Done u)
    (hpath : ReflTransGen (Edge next) u v) : s.Done v := by
  induction hpath with
  | refl => exact hdone
  | tail _ hedge ih => exact h.closed _ _ ih hedge

end

theorem done_enter (hnew : current ∉ s.visited) : (s.enter current).Done u ↔ s.Done u := by
  have hne : u ∈ s.visited → u ≠ current := fun hu heq => hnew (heq ▸ hu)
  simp only [State.Done, State.enter, Finset.mem_insert, mem_append, mem_singleton, not_or]
  tauto

theorem Searching.enter (h : Searching next s) (hnew : current ∉ s.visited)
    (hedge : ∀ last ∈ s.path.getLast?, Edge next last current) : Searching next (s.enter current) where
  chain := isChain_append.mpr ⟨h.chain, .singleton current, by simpa using hedge⟩
  stack u := by simp [State.enter, h.stack u, or_comm]
  visited u hu := by
    rcases mem_append.mp hu with hu | hu
    · exact Finset.mem_insert_of_mem (h.visited u hu)
    · rw [mem_singleton.mp hu]
      exact Finset.mem_insert_self current s.visited
  closed u v hdone hedge := (done_enter hnew).mpr (h.closed u v ((done_enter hnew).mp hdone) hedge)
  acyclic u hdone := h.acyclic u ((done_enter hnew).mp hdone)

/-- **The search goes back from a node whose neighbours are done**: the node is done. -/
theorem Searching.leave (h : Searching next s') (hnew : current ∉ s.path) (hpath : s'.path = s.path ++ [current])
    (hnext : ∀ v ∈ next current, s'.Done v) :
    Searching next (s'.leave current) ∧ (s'.leave current).path = s.path ∧ (s'.leave current).Done current := by
  have hback : (s'.leave current).path = s.path := by rw [State.leave, hpath, dropLast_concat]
  have hon : current ∈ s'.path := by simp [hpath]
  have hdone : ∀ u, (s'.leave current).Done u ↔ u = current ∨ s'.Done u := by
    intro u
    rw [State.Done, hback, State.Done, hpath]
    by_cases hu : u = current
    · subst hu
      exact iff_of_true ⟨h.visited u hon, hnew⟩ (.inl rfl)
    · simp [State.leave, hu]
  refine ⟨⟨?_, ?_, ?_, ?_, ?_⟩, hback, (hdone current).mpr (.inl rfl)⟩
  · rw [hback]
    have hchain := h.chain
    rw [hpath] at hchain
    exact (isChain_append.mp hchain).1
  · intro u
    rw [hback, State.leave, Finset.mem_erase, h.stack, hpath, mem_append, mem_singleton]
    constructor
    · rintro ⟨hne, hu⟩
      exact hu.resolve_right hne
    · intro hu
      exact ⟨fun heq => hnew (heq ▸ hu), .inl hu⟩
  · intro u hu
    rw [hback] at hu
    exact h.visited u (by simp [hpath, hu])
  · intro u v hu hedge
    rcases (hdone u).mp hu with rfl | hu
    · exact (hdone v).mpr (.inr (hnext v hedge))
    · exact (hdone v).mpr (.inr (h.closed u v hu hedge))
  · intro u hu hcycle
    rcases (hdone u).mp hu with rfl | hu
    · -- a cycle through the node goes through a neighbour, which leads only to what is done
      obtain ⟨v, hedge, hrest⟩ := TransGen.head'_iff.mp hcycle
      exact (h.done_of_reflTransGen (hnext v hedge) hrest).2 hon
    · exact h.acyclic u hu hcycle

/-- **A neighbour on the path closes a cycle.** -/
theorem Searching.isCycle (h : Searching next s) (hlast : current ∈ s.path.getLast?) (hedge : Edge next current u)
    {i : ℕ} (hi : s.path.findIdx? (fun v => v = u) = some i) : IsCycle next (s.path.drop i) := by
  obtain ⟨hlt, hfst, -⟩ := findIdx?_eq_some_iff_getElem.mp hi
  refine ⟨h.chain.drop i, u, ?_, current, ?_, hedge⟩
  · rw [head?_drop, getElem?_eq_getElem hlt, of_decide_eq_true hfst]
    rfl
  · rw [getLast?_drop, if_neg (by omega)]
    exact hlast

/-! ## The search -/

/-- What a search from a node that was not visited comes to: a cycle, or the node is done. -/
def Comes (next : α → List α) (s : State α) (nodes : List α) (outcome : Outcome α) : Prop :=
  ∃ s' found, outcome = some (s', found) ∧ (∀ cycle ∈ found, IsCycle next cycle) ∧
    (found = none → Returned next s s' ∧ ∀ u ∈ nodes, s'.Done u)

variable {nodes : Finset α} {depth : ℕ} {visit : α → State α → Outcome α} {us : List α}

theorem comes_visitAll
    (hvisit : ∀ u s, Searching next s → u ∉ s.visited → u ∈ nodes → (∀ last ∈ s.path.getLast?, Edge next last u) →
      (nodes \ s.visited).card < depth → Comes next s [u] (visit u s))
    (hnodes : ∀ u ∈ us, u ∈ nodes) (hedges : ∀ u ∈ us, Edge next current u)
    (h : Searching next s) (hlast : current ∈ s.path.getLast?) (hdepth : (nodes \ s.visited).card < depth) :
    Comes next s us (visitAll visit us s) := by
  induction us generalizing s with
  | nil => exact ⟨s, none, rfl, by simp, fun _ => ⟨⟨h, rfl, Finset.Subset.refl _⟩, by simp⟩⟩
  | cons u us ih =>
    obtain ⟨hu, hus⟩ := forall_mem_cons.mp hnodes
    obtain ⟨hedge, hedges'⟩ := forall_mem_cons.mp hedges
    rw [visitAll]
    by_cases hnew : u ∉ s.visited
    · rw [if_pos hnew]
      have hout : ∀ last ∈ s.path.getLast?, Edge next last u := by
        intro last hlast'
        rwa [Option.mem_unique hlast' hlast]
      obtain ⟨s₁, found, heq, hcycle, hret⟩ := hvisit u s h hnew hu hout hdepth
      rw [heq]
      cases found with
      | some cycle => exact ⟨s₁, some cycle, rfl, hcycle, fun hnone => by cases hnone⟩
      | none =>
        obtain ⟨hback, hdone⟩ := hret rfl
        have hfewer : (nodes \ s₁.visited).card < depth :=
          (Finset.card_le_card (Finset.sdiff_subset_sdiff le_rfl hback.grows)).trans_lt hdepth
        obtain ⟨s₂, found, heq₂, hcycle₂, hret₂⟩ :=
          ih hus hedges' hback.searching (hback.path ▸ hlast) hfewer
        refine ⟨s₂, found, heq₂, hcycle₂, fun hnone => ?_⟩
        obtain ⟨hback₂, hdone₂⟩ := hret₂ hnone
        exact ⟨hback.trans hback₂, forall_mem_cons.mpr ⟨hback₂.done (hdone u mem_cons_self), hdone₂⟩⟩
    rw [if_neg hnew]
    by_cases hon : u ∈ s.recStack
    · rw [if_pos hon]
      cases hi : s.path.findIdx? (fun v => v = u) with
      | none =>
        -- the set and the list of the path agree, so the position is found
        have habsent := findIdx?_eq_none_iff.mp hi u ((h.stack u).mp hon)
        simp at habsent
      | some i =>
        refine ⟨s, some (s.path.drop i), rfl, ?_, fun hnone => by cases hnone⟩
        rintro cycle ⟨⟩
        exact h.isCycle hlast hedge hi
    · rw [if_neg hon]
      have hdone : s.Done u := ⟨not_not.mp hnew, fun hpath => hon ((h.stack u).mpr hpath)⟩
      obtain ⟨s₁, found, heq, hcycle, hret⟩ := ih hus hedges' h hlast hdepth
      refine ⟨s₁, found, heq, hcycle, fun hnone => ?_⟩
      obtain ⟨hback, hdone'⟩ := hret hnone
      exact ⟨hback, forall_mem_cons.mpr ⟨hback.done hdone, hdone'⟩⟩

/-- **The search from a node comes to an end** if its depth exceeds the number of nodes not visited. -/
theorem comes_dfs (hclosed : ∀ u ∈ nodes, ∀ v ∈ next u, v ∈ nodes) :
    ∀ (depth : ℕ) (u : α) (s : State α), Searching next s → u ∉ s.visited → u ∈ nodes →
      (∀ last ∈ s.path.getLast?, Edge next last u) → (nodes \ s.visited).card < depth →
      Comes next s [u] (dfs next depth u s) := by
  intro depth
  induction depth with
  | zero =>
    intro u s h hnew hu hedge hdepth
    exact absurd hdepth (Nat.not_lt_zero _)
  | succ depth ih =>
    intro u s h hnew hu hedge hdepth
    have hfewer : (nodes \ (s.enter u).visited).card < depth := by
      have hsub : nodes \ (s.enter u).visited ⊂ nodes \ s.visited := by
        refine Finset.ssubset_iff_of_subset (Finset.sdiff_subset_sdiff le_rfl (Finset.subset_insert u _)) |>.mpr ?_
        exact ⟨u, by simp [hu, hnew], by simp⟩
      have hcard := Finset.card_lt_card hsub
      omega
    have hpath : u ∈ (s.enter u).path.getLast? := by simp [State.enter]
    obtain ⟨s₁, found, heq, hcycle, hret⟩ := comes_visitAll ih (hclosed u hu) (fun v hv => hv)
      (h.enter hnew hedge) hpath hfewer
    rw [dfs, heq]
    cases found with
    | some cycle => exact ⟨s₁, some cycle, rfl, hcycle, fun hnone => by cases hnone⟩
    | none =>
      obtain ⟨hback, hdone⟩ := hret rfl
      obtain ⟨hsearching, hpath', hdone'⟩ :=
        hback.searching.leave (fun hmem => hnew (h.visited u hmem)) hback.path hdone
      refine ⟨s₁.leave u, none, rfl, by simp, fun _ => ⟨⟨hsearching, hpath', ?_⟩, by simpa using hdone'⟩⟩
      exact (Finset.subset_insert u s.visited).trans hback.grows

/-- **The search finds a cycle, or no node it starts from is on one.** -/
theorem search_spec (hclosed : ∀ u ∈ nodes, ∀ v ∈ next u, v ∈ nodes) (hdepth : nodes.card < depth)
    (hus : ∀ u ∈ us, u ∈ nodes) :
    ∃ found, search next depth us State.start = some found ∧ (∀ cycle ∈ found, IsCycle next cycle) ∧
      (found = none → ∀ u ∈ us, ¬ TransGen (Edge next) u u) := by
  suffices hfrom : ∀ s, Searching next s → s.path = [] →
      ∃ found, search next depth us s = some found ∧ (∀ cycle ∈ found, IsCycle next cycle) ∧
        (found = none → ∀ u ∈ us, ¬ TransGen (Edge next) u u) from hfrom State.start searching_start rfl
  induction us with
  | nil => exact fun s h hpath => ⟨none, rfl, by simp, by simp⟩
  | cons u us ih =>
    intro s h hpath
    obtain ⟨hu, hus'⟩ := forall_mem_cons.mp hus
    rw [search]
    by_cases hnew : u ∉ s.visited
    · rw [if_pos hnew]
      have hfewer : (nodes \ s.visited).card < depth := (Finset.card_le_card Finset.sdiff_subset).trans_lt hdepth
      obtain ⟨s₁, found, heq, hcycle, hret⟩ := comes_dfs hclosed depth u s h hnew hu (by simp [hpath]) hfewer
      rw [heq]
      cases found with
      | some cycle => exact ⟨some cycle, rfl, hcycle, fun hnone => by cases hnone⟩
      | none =>
        obtain ⟨hback, hdone⟩ := hret rfl
        obtain ⟨found, heq', hcycle', hnone'⟩ := ih hus' s₁ hback.searching (hback.path.trans hpath)
        refine ⟨found, heq', hcycle', fun hnone => forall_mem_cons.mpr ⟨?_, hnone' hnone⟩⟩
        exact hback.searching.acyclic u (hdone u mem_cons_self)
    · rw [if_neg hnew]
      obtain ⟨found, heq', hcycle', hnone'⟩ := ih hus' s h hpath
      refine ⟨found, heq', hcycle', fun hnone => forall_mem_cons.mpr ⟨?_, hnone' hnone⟩⟩
      exact h.acyclic u ⟨not_not.mp hnew, by simp [hpath]⟩

/-! ## The depth -/

variable {outcome : State α × Option (List α)}

theorem visitAll_mono {visit' : α → State α → Outcome α}
    (hle : ∀ u s outcome, visit u s = some outcome → visit' u s = some outcome) (us : List α) (s : State α)
    (h : visitAll visit us s = some outcome) :
    visitAll visit' us s = some outcome := by
  induction us generalizing s with
  | nil => exact h
  | cons u us ih =>
    rw [visitAll] at h ⊢
    by_cases hnew : u ∉ s.visited
    · rw [if_pos hnew] at h ⊢
      cases hvisit : visit u s with
      | none =>
        rw [hvisit] at h
        cases h
      | some result =>
        obtain ⟨s₁, found⟩ := result
        rw [hle u s _ hvisit]
        rw [hvisit] at h
        cases found with
        | none => exact ih s₁ h
        | some cycle => exact h
    · rw [if_neg hnew] at h ⊢
      split at h
      next hon =>
        rw [if_pos hon]
        exact h
      next hoff =>
        rw [if_neg hoff]
        exact ih s h

theorem dfs_mono (depth : ℕ) (u : α) (s : State α)
    (h : dfs next depth u s = some outcome) : dfs next (depth + 1) u s = some outcome := by
  induction depth generalizing u s outcome with
  | zero => cases h
  | succ depth ih =>
    rw [dfs] at h ⊢
    cases hall : visitAll (dfs next depth) (next u) (s.enter u) with
    | none =>
      rw [hall] at h
      cases h
    | some result =>
      rw [hall] at h
      rw [visitAll_mono (fun v s' outcome' => ih v s') _ _ hall]
      exact h

/-- **Above the depth it needs, a search does not depend on the depth.** -/
theorem search_mono {found : Option (List α)} {depth' : ℕ} (hle : depth ≤ depth')
    (h : search next depth us s = some found) : search next depth' us s = some found := by
  induction us generalizing s with
  | nil => exact h
  | cons u us ih =>
    rw [search] at h ⊢
    by_cases hnew : u ∉ s.visited
    · rw [if_pos hnew] at h ⊢
      cases hdfs : dfs next depth u s with
      | none =>
        rw [hdfs] at h
        cases h
      | some result =>
        obtain ⟨s₁, cycle⟩ := result
        have hdeeper : dfs next depth' u s = some (s₁, cycle) :=
          Nat.le_induction hdfs (fun d _ hd => dfs_mono d u s hd) depth' hle
        rw [hdeeper]
        rw [hdfs] at h
        cases cycle with
        | none => exact ih h
        | some cycle => exact h
    · rw [if_neg hnew] at h ⊢
      exact ih h

end CycleSearch
