import NanoStore.Types
/-!
# The search in one layer of an HNSW graph

`search_layer` of `table/hnsw/paged.rs`, with distances in any linear
order. The candidates to be explored and the results are kept in two
binary heaps. Both are ordered nearest first: what the search takes for
its furthest result is the nearest one. So once the results are full they
stay what they are: a neighbour that is nearer than all of them is put in
and taken out again, and every other one is not put in. The search returns
the nodes it has visited first.

It returns at all only if it never finds a node in the cache. `load_node`
asks for the write lock of the cache while it still has the read lock, and
waits for itself. The search that gives the read lock back is modelled
beside the one of the source (`locks`), to say which of the two comes to
an end.

A heap is a list with a rule that says what is taken next; which of
several equally near candidates comes first is left open.
-/

namespace NanoStore.Table

open List

/-- The number of a node, which is the number of its page. -/
abbrev NodeId := ℕ

/-- What the search reads of an `HnswNode`. -/
structure HnswNode (V : Type) where
  vector : V
  neighbors : List (List NodeId)

/-- The nodes that can be loaded. -/
structure HnswGraph (V : Type) where
  nodes : List (NodeId × HnswNode V)

/-- A node and its distance from the query. -/
structure Candidate (D : Type) where
  nodeId : NodeId
  distance : D
  deriving DecidableEq

/-- `BinaryHeap<Candidate>`: one of the nearest candidates is taken, as `Ord for Candidate` is reversed. -/
structure CandidateHeap (D : Type) [LinearOrder D] where
  pop : List (Candidate D) → Option (Candidate D × List (Candidate D))
  nil_of_pop : ∀ {heap}, pop heap = none → heap = []
  perm_of_pop : ∀ {heap c rest}, pop heap = some (c, rest) → (c :: rest).Perm heap
  le_of_pop : ∀ {heap c rest}, pop heap = some (c, rest) → ∀ c' ∈ heap, c.distance ≤ c'.distance

/-- The heap that takes the first of the nearest candidates. -/
def CandidateHeap.first (D : Type) [LinearOrder D] : CandidateHeap D where
  pop heap := (heap.argmin Candidate.distance).map fun c => (c, heap.erase c)
  nil_of_pop := fun h => List.argmin_eq_none.mp (Option.map_eq_none_iff.mp h)
  perm_of_pop := by
    intro heap c rest h
    obtain ⟨c', hc', heq⟩ := Option.map_eq_some_iff.mp h
    rw [Prod.mk.injEq] at heq
    obtain ⟨rfl, rfl⟩ := heq
    exact (List.perm_cons_erase (List.argmin_mem hc')).symm
  le_of_pop := by
    intro heap c rest h
    obtain ⟨c', hc', heq⟩ := Option.map_eq_some_iff.mp h
    rw [Prod.mk.injEq] at heq
    obtain ⟨rfl, -⟩ := heq
    exact fun _ hmem => List.le_of_mem_argmin hmem hc'

/-- `NodeCache`: the nodes it has and how often one was found. A node that is found is never used, so
that its contents are left out. -/
structure NodeCache where
  nodes : Finset NodeId
  capacity : ℕ
  preloaded : Bool
  hits : ℕ
  deriving DecidableEq

namespace NodeCache

variable (cache : NodeCache) (nodeId : NodeId)

/-- `NodeCache::insert`: a cache that is full is emptied before, unless it was preloaded. -/
def insert : NodeCache :=
  if cache.preloaded = false ∧ cache.capacity ≤ cache.nodes.card ∧ nodeId ∉ cache.nodes then
    { cache with nodes := {nodeId} }
  else { cache with nodes := Insert.insert nodeId cache.nodes }

/-- `NodeCache::record_hit`. -/
def recordHit : NodeCache := { cache with hits := cache.hits + 1 }

/-- Nothing has to leave the cache for the nodes of a graph. -/
def Roomy {V : Type} (graph : HnswGraph V) : Prop :=
  cache.preloaded = true ∨ (cache.nodes ∪ (graph.nodes.map Prod.fst).toFinset).card ≤ cache.capacity

variable {cache nodeId} {V : Type} {graph : HnswGraph V}

theorem hits_insert : (cache.insert nodeId).hits = cache.hits := by
  unfold insert
  split_ifs <;> rfl

/-- **A cache with room takes a node and keeps the others.** -/
theorem Roomy.insert (h : cache.Roomy graph) (hn : nodeId ∈ graph.nodes.map Prod.fst) :
    (cache.insert nodeId).Roomy graph ∧ (cache.insert nodeId).nodes = Insert.insert nodeId cache.nodes := by
  have hkept : ¬ (cache.preloaded = false ∧ cache.capacity ≤ cache.nodes.card ∧ nodeId ∉ cache.nodes) := by
    rintro ⟨hload, hfull, hnew⟩
    rcases h with hpre | hroom
    · rw [hload] at hpre
      cases hpre
    · have hlt : cache.nodes.card < (cache.nodes ∪ (graph.nodes.map Prod.fst).toFinset).card := by
        refine Finset.card_lt_card (Finset.ssubset_iff_of_subset Finset.subset_union_left |>.mpr ?_)
        exact ⟨nodeId, Finset.mem_union_right _ (List.mem_toFinset.mpr hn), hnew⟩
      omega
  rw [NodeCache.insert, if_neg hkept]
  refine ⟨h.imp id fun hroom => ?_, rfl⟩
  rwa [Finset.insert_union, Finset.insert_eq_of_mem
    (Finset.mem_union_right _ (List.mem_toFinset.mpr hn))]

end NodeCache

/-- The page of a node cannot be read. -/
inductive HnswError
  | readNode (nodeId : NodeId)
  deriving DecidableEq

/-- What keeps a search from returning a result: an error, a panic, or a lock that is never granted. -/
inductive SearchFailure
  | error (e : HnswError)
  | panicked
  | waits
  deriving DecidableEq

/-- The variables of `search_layer`, and the cache. -/
structure SearchState (D : Type) where
  visited : List NodeId
  candidates : List (Candidate D)
  results : List (Candidate D)
  cache : NodeCache

namespace Hnsw

variable {V D : Type} [LinearOrder D] (locks : Bool) (heap : CandidateHeap D) (metric : V → V → D)
  (graph : HnswGraph V) (query : V) (ef layer : ℕ)

/-- `BinaryHeap::peek`. -/
def peek (results : List (Candidate D)) : Option (Candidate D) := (heap.pop results).map Prod.fst

/-- `load_node`, and the cache it leaves. On a node of the cache the write lock is asked for under the read
lock; with `locks = false` the read lock is given back before. -/
def loadNode (cache : NodeCache) (nodeId : NodeId) : Except SearchFailure (NodeCache × HnswNode V) :=
  if locks ∧ nodeId ∈ cache.nodes then .error .waits
  else match graph.nodes.lookup nodeId with
    | none => .error (.error (.readNode nodeId))
    | some node => .ok (if nodeId ∈ cache.nodes then cache.recordHit else cache.insert nodeId, node)

/-- An entry point. -/
def enter (s : SearchState D) (ep : NodeId) : Except SearchFailure (SearchState D) :=
  if ep ∈ s.visited then .ok s
  else (loadNode locks graph s.cache ep).bind fun loaded =>
    let c : Candidate D := ⟨ep, metric query loaded.2.vector⟩
    .ok ⟨ep :: s.visited, c :: s.candidates, c :: s.results, loaded.1⟩

/-- `results.pop()` if there are more than `ef` results. -/
def prune (results : List (Candidate D)) : List (Candidate D) :=
  if ef < results.length then ((heap.pop results).map Prod.snd).getD results else results

/-- A neighbour with its distance is put to the candidates and the results. Without results, which needs
`ef = 0`, the `unwrap` of the source panics. -/
def weigh (s : SearchState D) (c : Candidate D) : Except SearchFailure (SearchState D) :=
  let candidates :=
    if s.results.length < ef ∨ (peek heap s.results).all (c.distance < ·.distance) = true then
      c :: s.candidates
    else s.candidates
  if s.results.length < ef then .ok { s with candidates, results := prune heap ef (c :: s.results) }
  else
    match peek heap s.results with
    | none => .error .panicked
    | some furthest =>
      if c.distance < furthest.distance then
        .ok { s with candidates, results := prune heap ef (c :: s.results) }
      else .ok { s with candidates }

/-- A neighbour of the node that is explored. -/
def visit (s : SearchState D) (neighborId : NodeId) : Except SearchFailure (SearchState D) :=
  if neighborId ∈ s.visited then .ok s
  else (loadNode locks graph s.cache neighborId).bind fun loaded =>
    weigh heap ef { s with visited := neighborId :: s.visited, cache := loaded.1 }
      ⟨neighborId, metric query loaded.2.vector⟩

/-- The neighbours of a node in the layer. -/
def neighborsOf (node : HnswNode V) : List NodeId :=
  if layer < node.neighbors.length then node.neighbors.getD layer [] else []

/-- The candidate that was taken is loaded once more, and its neighbours are visited. -/
def explore (s : SearchState D) (current : Candidate D) : Except SearchFailure (SearchState D) :=
  (loadNode locks graph s.cache current.nodeId).bind fun loaded =>
    (neighborsOf layer loaded.2).foldlM (visit locks heap metric graph query ef) { s with cache := loaded.1 }

/-- The early termination of the loop. -/
def stops (s : SearchState D) (current : Candidate D) : Bool :=
  ef ≤ s.results.length ∧ (peek heap s.results).any (·.distance < current.distance) = true

/-- A failure ends the search. -/
def onward (x : Except SearchFailure (SearchState D))
    (next : SearchState D → Option (Except SearchFailure (SearchState D))) :
    Option (Except SearchFailure (SearchState D)) :=
  match x with
  | .error e => some (.error e)
  | .ok s => next s

/-- The `while` loop, which ends after at most `fuel` steps. -/
def searchLoop : ℕ → SearchState D → Option (Except SearchFailure (SearchState D))
  | 0, _ => none
  | fuel + 1, s =>
    match heap.pop s.candidates with
    | none => some (.ok s)
    | some (current, candidates) =>
      if stops heap ef s current then some (.ok s)
      else onward (explore locks heap metric graph query ef layer { s with candidates } current) (searchLoop fuel)

/-- The search up to its last state. No node is explored twice, so the loop ends after as many steps as
there are nodes (`searchLoop_spec`). -/
def search (cache : NodeCache) (entryPoints : List NodeId) : Option (Except SearchFailure (SearchState D)) :=
  onward (entryPoints.foldlM (enter locks metric graph query) ⟨[], [], [], cache⟩)
    (searchLoop locks heap metric graph query ef layer (graph.nodes.length + 1))

/-- The results in order, closest first. -/
def ranked (s : SearchState D) : List (Candidate D) :=
  s.results.mergeSort fun a b => a.distance ≤ b.distance

/-- `search_layer` of the source. -/
def searchLayer (cache : NodeCache) (entryPoints : List NodeId) :
    Option (Except SearchFailure (List (Candidate D))) :=
  (search true heap metric graph query ef layer cache entryPoints).map (Except.map ranked)

/-- The distance of a node. -/
def distanceTo (n : NodeId) : Option D := (graph.nodes.lookup n).map fun node => metric query node.vector

variable {locks heap metric graph query ef layer} {s s' : SearchState D} {n : NodeId} {c : Candidate D}

/-! ## The search that waits and the one that does not -/

section Follows

variable {α β : Type} {k : ℕ} {count : α → ℕ} {count' : β → ℕ} {x y : Except SearchFailure α}

/-- `x` is what `y` becomes if a hit is waited for: `y` counts the hits, and has counted `k` before. -/
def Follows (count : α → ℕ) (k : ℕ) (x y : Except SearchFailure α) : Prop :=
  match y with
  | .ok a => k ≤ count a ∧ x = if count a = k then .ok a else .error .waits
  | .error e => x = .error e ∨ x = .error .waits

/-- Where nothing is loaded the two do the same. -/
theorem follows_refl (h : ∀ a, y = .ok a → count a = k) : Follows count k y y := by
  cases y with
  | error e => exact .inl rfl
  | ok a =>
    have hcount := h a rfl
    exact ⟨hcount.ge, (if_pos hcount).symm⟩

/-- **One step after the other.** -/
theorem Follows.bind {f g : α → Except SearchFailure β} (h : Follows count k x y)
    (hstep : ∀ a, Follows count' (count a) (f a) (g a)) : Follows count' k (x.bind f) (y.bind g) := by
  cases y with
  | error e =>
    rcases h with rfl | rfl
    · exact .inl rfl
    · exact .inr rfl
  | ok a =>
    obtain ⟨hle, rfl⟩ := h
    have hnext := hstep a
    show Follows count' k _ (g a)
    cases hg : g a with
    | error e =>
      rw [hg] at hnext
      split_ifs
      · exact hnext
      · exact .inr rfl
    | ok b =>
      rw [hg] at hnext
      obtain ⟨hle', hf⟩ := hnext
      refine ⟨hle.trans hle', ?_⟩
      split_ifs with hcount hcount' hcount'
      · rw [Except.bind, hf, if_pos (hcount'.trans hcount.symm)]
      · rw [Except.bind, hf, if_neg fun heq => hcount' (heq.trans hcount)]
      · omega
      · rfl

variable (count) in
/-- **A list of steps.** -/
theorem follows_foldlM {f g : α → β → Except SearchFailure α} (hstep : ∀ a b, Follows count (count a) (f a b) (g a b))
    (bs : List β) (a : α) : Follows count (count a) (bs.foldlM f a) (bs.foldlM g a) := by
  induction bs generalizing a with
  | nil => exact follows_refl fun a' ha' => by cases ha'; rfl
  | cons b bs ih =>
    rw [foldlM_cons, foldlM_cons]
    exact (hstep a b).bind fun a' => ih a'

end Follows

/-- The hits a state has counted. -/
def hits (s : SearchState D) : ℕ := s.cache.hits

theorem cache_weigh (h : weigh heap ef s c = .ok s') : s'.cache = s.cache := by
  unfold weigh at h
  dsimp only at h
  by_cases hroom : s.results.length < ef
  · rw [if_pos hroom] at h
    cases h
    rfl
  · rw [if_neg hroom] at h
    split at h
    · cases h
    · split_ifs at h <;> cases h <;> rfl

section

variable (heap metric graph query ef layer)

theorem follows_loadNode (cache : NodeCache) (n : NodeId) :
    Follows (·.1.hits) cache.hits (loadNode true graph cache n) (loadNode false graph cache n) := by
  unfold loadNode
  by_cases hhit : n ∈ cache.nodes
  · cases graph.nodes.lookup n with
    | none => simp [hhit, Follows]
    | some node => simp [hhit, Follows, NodeCache.recordHit]
  · simp only [hhit, and_false, if_false]
    refine follows_refl fun loaded hloaded => ?_
    split at hloaded
    · cases hloaded
    · cases hloaded
      exact NodeCache.hits_insert

omit [LinearOrder D] in
theorem follows_enter (s : SearchState D) (ep : NodeId) :
    Follows hits (hits s) (enter true metric graph query s ep) (enter false metric graph query s ep) := by
  unfold enter
  split_ifs
  · exact follows_refl fun _ h => by cases h; rfl
  · exact (follows_loadNode graph s.cache ep).bind fun _ => follows_refl fun _ h => by cases h; rfl

theorem follows_visit (s : SearchState D) (n : NodeId) : Follows hits (hits s)
    (visit true heap metric graph query ef s n) (visit false heap metric graph query ef s n) := by
  unfold visit
  split_ifs
  · exact follows_refl fun _ h => by cases h; rfl
  · exact (follows_loadNode graph s.cache n).bind fun _ =>
      follows_refl fun _ h => congrArg NodeCache.hits (cache_weigh h)

theorem follows_explore (s : SearchState D) (current : Candidate D) : Follows hits (hits s)
    (explore true heap metric graph query ef layer s current)
    (explore false heap metric graph query ef layer s current) :=
  (follows_loadNode graph s.cache current.nodeId).bind fun loaded =>
    follows_foldlM hits (follows_visit heap metric graph query ef) _ { s with cache := loaded.1 }

omit [LinearOrder D] in
/-- A search that goes on behind a step. -/
theorem follows_onward {x₁ y₁ y : Except SearchFailure (SearchState D)} {k : ℕ} (h : Follows hits k x₁ y₁)
    {next next' : SearchState D → Option (Except SearchFailure (SearchState D))}
    (hnext : ∀ s y, next' s = some y → ∃ x, next s = some x ∧ Follows hits (hits s) x y)
    (hy : onward y₁ next' = some y) : ∃ x, onward x₁ next = some x ∧ Follows hits k x y := by
  cases y₁ with
  | error e =>
    cases hy
    rcases h with rfl | rfl
    · exact ⟨_, rfl, .inl rfl⟩
    · exact ⟨_, rfl, .inr rfl⟩
  | ok s =>
    obtain ⟨hle, rfl⟩ := h
    obtain ⟨x, hx, hlast⟩ := hnext s y hy
    by_cases hcount : hits s = k
    · rw [if_pos hcount, ← hcount]
      exact ⟨x, hx, hlast⟩
    · -- the first step has waited, and the hits it saw are counted to the end
      rw [if_neg hcount]
      refine ⟨_, rfl, ?_⟩
      cases y with
      | error e => exact .inr rfl
      | ok last =>
        have hmore : hits s ≤ hits last := hlast.1
        exact ⟨by omega, (if_neg (by omega)).symm⟩

theorem follows_searchLoop (fuel : ℕ) (s : SearchState D) (y : Except SearchFailure (SearchState D))
    (h : searchLoop false heap metric graph query ef layer fuel s = some y) :
    ∃ x, searchLoop true heap metric graph query ef layer fuel s = some x ∧ Follows hits (hits s) x y := by
  induction fuel generalizing s y with
  | zero => cases h
  | succ fuel ih =>
    rw [searchLoop] at h ⊢
    cases hpop : heap.pop s.candidates with
    | none =>
      rw [hpop] at h
      cases h
      exact ⟨_, rfl, follows_refl fun _ h => by cases h; rfl⟩
    | some popped =>
      rw [hpop] at h
      simp only at h ⊢
      split_ifs at h ⊢
      · cases h
        exact ⟨_, rfl, follows_refl fun _ h => by cases h; rfl⟩
      · have hstep : Follows hits (hits s) _ _ :=
          follows_explore heap metric graph query ef layer { s with candidates := popped.2 } popped.1
        exact follows_onward hstep ih h

/-- **The search of the source waits at the first hit**, and is the other one up to there. -/
theorem follows_search {cache : NodeCache} {entryPoints : List NodeId}
    {y : Except SearchFailure (SearchState D)}
    (h : search false heap metric graph query ef layer cache entryPoints = some y) :
    ∃ x, search true heap metric graph query ef layer cache entryPoints = some x ∧
      Follows hits cache.hits x y :=
  follows_onward (follows_foldlM hits (follows_enter metric graph query) entryPoints
    ⟨[], [], [], cache⟩) (follows_searchLoop heap metric graph query ef layer _) h

end

/-! ## Steps -/

/-- A search that fails does so at a missing node. -/
def Missing (graph : HnswGraph V) (e : SearchFailure) : Prop :=
  ∃ n, graph.nodes.lookup n = none ∧ e = .error (.readNode n)

variable (graph) in
/-- A node is loaded, unless it is missing. -/
theorem loadNode_cases (cache : NodeCache) (n : NodeId) :
    (∃ e, loadNode false graph cache n = .error e ∧ Missing graph e) ∨
      ∃ cache' node, loadNode false graph cache n = .ok (cache', node) ∧ graph.nodes.lookup n = some node := by
  unfold loadNode
  cases hlook : graph.nodes.lookup n with
  | none => exact .inl ⟨_, by simp, n, hlook, rfl⟩
  | some node =>
    exact .inr ⟨if n ∈ cache.nodes then cache.recordHit else cache.insert n, node, by simp, rfl⟩

/-- **What is put before nearer results is taken out again**: the heap gives the nearest first. -/
theorem perm_pop_cons {results : List (Candidate D)} {nearest : Candidate D}
    (hpeek : peek heap results = some nearest) (hlt : c.distance < nearest.distance) :
    ∃ rest, heap.pop (c :: results) = some (c, rest) ∧ rest.Perm results := by
  obtain ⟨⟨top, others⟩, htop, rfl⟩ := Option.map_eq_some_iff.mp hpeek
  cases hpop : heap.pop (c :: results) with
  | none => exact absurd (heap.nil_of_pop hpop) (cons_ne_nil c results)
  | some popped =>
    obtain ⟨first, rest⟩ := popped
    have hperm := heap.perm_of_pop hpop
    have hle := heap.le_of_pop hpop c mem_cons_self
    rcases mem_cons.mp (hperm.subset mem_cons_self) with rfl | hmem
    · exact ⟨rest, rfl, (perm_cons _).mp hperm⟩
    · have hnear := heap.le_of_pop htop first hmem
      exact absurd (hlt.trans_le (hnear.trans hle)) (lt_irrefl _)

/-- What a neighbour that is weighed comes to: one more result if there are less than `ef`, and the same
results otherwise. -/
def Weighed (ef : ℕ) (s : SearchState D) (c : Candidate D) (s' : SearchState D) : Prop :=
  s'.visited = s.visited ∧ (s'.candidates = s.candidates ∨ s'.candidates = c :: s.candidates) ∧
    ((s.results.length < ef ∧ s'.results = c :: s.results) ∨
      (ef ≤ s.results.length ∧ s'.results.Perm s.results))

variable (heap s c) in
theorem weigh_spec (hef : 1 ≤ ef) : ∃ s', weigh heap ef s c = .ok s' ∧ Weighed ef s c s' := by
  have hcands : ∀ p : Prop, [Decidable p] →
      (if p then c :: s.candidates else s.candidates) = s.candidates ∨
        (if p then c :: s.candidates else s.candidates) = c :: s.candidates := by
    intro p _
    split_ifs
    · exact .inr rfl
    · exact .inl rfl
  unfold weigh
  by_cases hroom : s.results.length < ef
  · simp only [if_pos hroom]
    have hkept : prune heap ef (c :: s.results) = c :: s.results := if_neg (by simpa using hroom)
    exact ⟨_, rfl, rfl, hcands _, .inl ⟨hroom, hkept⟩⟩
  · simp only [if_neg hroom]
    have hfull := not_lt.mp hroom
    cases hpeek : peek heap s.results with
    | none =>
      -- there is a result, so there is one to look at
      have hnil := heap.nil_of_pop (Option.map_eq_none_iff.mp hpeek)
      rw [hnil, length_nil] at hfull
      omega
    | some nearest =>
      by_cases hlt : c.distance < nearest.distance
      · simp only [if_pos hlt]
        obtain ⟨rest, hpop, hperm⟩ := perm_pop_cons hpeek hlt
        have hpruned : prune heap ef (c :: s.results) = rest := by
          unfold prune
          rw [if_pos (by rw [length_cons]; omega), hpop]
          rfl
        exact ⟨_, rfl, rfl, hcands _, .inr ⟨hfull, hpruned ▸ hperm⟩⟩
      · simp only [if_neg hlt]
        exact ⟨_, rfl, rfl, hcands _, .inr ⟨hfull, .refl _⟩⟩

/-! ## What a search keeps -/

open Candidate (nodeId)

section Keeps

variable (metric graph query ef)

/-- The results are the first `m` nodes that were visited. -/
structure Keeps (m : ℕ) (s : SearchState D) : Prop where
  distinct : s.visited.Nodup
  loaded : ∀ v ∈ s.visited, (graph.nodes.lookup v).isSome = true
  measured : ∀ c ∈ s.results, distanceTo metric graph query c.nodeId = some c.distance
  first : (s.results.map nodeId).Perm (s.visited.reverse.take m)
  candidates : ∀ c ∈ s.candidates, c.nodeId ∈ s.visited
  room : ef ≤ m ∧ (m ≤ s.visited.length ∨ m = ef)

end Keeps

variable {m : ℕ}

omit [LinearOrder D] in
theorem Keeps.length_results (h : Keeps metric graph query ef m s) :
    s.results.length = min m s.visited.length := by
  have hlen := h.first.length_eq
  rwa [length_map, length_take, length_reverse] at hlen

omit [LinearOrder D] in
/-- A neighbour is visited for the first time. -/
theorem Keeps.weighed (h : Keeps metric graph query ef m s) (hn : n ∉ s.visited)
    (hsome : (graph.nodes.lookup n).isSome = true) (hid : c.nodeId = n)
    (hdist : distanceTo metric graph query n = some c.distance) {cache : NodeCache}
    (hs' : Weighed ef { s with visited := n :: s.visited, cache } c s') : Keeps metric graph query ef m s' := by
  obtain ⟨hvis, hcands, hresults⟩ := hs'
  dsimp only at hvis hcands hresults
  have hlen := h.length_results
  have hroom := h.room
  subst hid
  refine ⟨?_, ?_, ?_, ?_, ?_, ?_⟩
  · rw [hvis]
    exact nodup_cons.mpr ⟨hn, h.distinct⟩
  · rw [hvis]
    exact forall_mem_cons.mpr ⟨hsome, h.loaded⟩
  · rcases hresults with ⟨-, hnew⟩ | ⟨-, hperm⟩
    · rw [hnew]
      exact forall_mem_cons.mpr ⟨hdist, h.measured⟩
    · exact fun r hr => h.measured r (hperm.subset hr)
  · rw [hvis, reverse_cons]
    rcases hresults with ⟨hless, hnew⟩ | ⟨hfull, hperm⟩
    · -- all nodes are among the first ones so far
      have hall : s.visited.reverse.take m = s.visited.reverse :=
        take_of_length_le (by rw [length_reverse]; omega)
      have hfirst := h.first
      rw [hall] at hfirst
      rw [hnew, map_cons, take_of_length_le (by rw [length_append, length_reverse, length_singleton]; omega)]
      exact (hfirst.cons _).trans (perm_append_singleton _ _).symm
    · have hkept : (s.visited.reverse ++ [c.nodeId]).take m = s.visited.reverse.take m :=
        take_append_of_le_length (by rw [length_reverse]; omega)
      rw [hkept]
      exact (hperm.map nodeId).trans h.first
  · have hold : ∀ c' ∈ s.candidates, c'.nodeId ∈ c.nodeId :: s.visited :=
      fun c' hc' => mem_cons_of_mem _ (h.candidates c' hc')
    rw [hvis]
    rcases hcands with heq | heq
    · rw [heq]
      exact hold
    · rw [heq]
      exact forall_mem_cons.mpr ⟨mem_cons_self, hold⟩
  · rw [hvis, length_cons]
    omega

theorem mem_of_lookup (h : (graph.nodes.lookup n).isSome = true) : n ∈ graph.nodes.map Prod.fst := by
  by_contra hout
  have hnone : graph.nodes.lookup n = none := by
    refine lookup_eq_none_iff.mpr fun entry hent => ?_
    have hne : entry.1 ≠ n := fun heq => hout (heq ▸ mem_map_of_mem hent)
    simpa using Ne.symm hne
  rw [hnone] at h
  cases h

/-- The candidates and the nodes that were not visited: what the loop can still take. -/
def potential (graph : HnswGraph V) (s : SearchState D) : ℕ :=
  s.candidates.length + ((graph.nodes.map Prod.fst).filter (· ∉ s.visited)).length

omit [LinearOrder D] in
theorem length_unvisited_cons (hn : n ∉ s.visited) (hsome : (graph.nodes.lookup n).isSome = true) :
    ((graph.nodes.map Prod.fst).filter (· ∉ n :: s.visited)).length + 1 ≤
      ((graph.nodes.map Prod.fst).filter (· ∉ s.visited)).length := by
  have hmem := mem_of_lookup hsome
  have hsplit : (graph.nodes.map Prod.fst).filter (· ∉ n :: s.visited) =
      ((graph.nodes.map Prod.fst).filter (· ∉ s.visited)).filter (· ≠ n) := by
    rw [filter_filter]
    refine filter_congr fun v _ => ?_
    simp [mem_cons, not_or, Bool.decide_and]
  rw [hsplit]
  refine length_filter_lt_length_iff_exists.mpr ⟨n, mem_filter.mpr ⟨hmem, ?_⟩, ?_⟩
  · simpa using hn
  · simp

/-- **One neighbour**: it is missing, or the first nodes stay the results and no more steps are left. -/
theorem Keeps.visit (heap : CandidateHeap D) (hef : 1 ≤ ef) (h : Keeps metric graph query ef m s) (n : NodeId) :
    (∃ e, visit false heap metric graph query ef s n = .error e ∧ Missing graph e) ∨
      ∃ s', visit false heap metric graph query ef s n = .ok s' ∧ Keeps metric graph query ef m s' ∧
        potential graph s' ≤ potential graph s := by
  unfold Hnsw.visit
  by_cases hseen : n ∈ s.visited
  · rw [if_pos hseen]
    exact .inr ⟨s, rfl, h, le_rfl⟩
  · rw [if_neg hseen]
    rcases loadNode_cases graph s.cache n with ⟨e, he, hmiss⟩ | ⟨cache, node, hload, hlook⟩
    · rw [he]
      exact .inl ⟨e, rfl, hmiss⟩
    · rw [hload]
      have hsome : (graph.nodes.lookup n).isSome = true := by rw [hlook]; rfl
      have hdist : distanceTo metric graph query n = some (metric query node.vector) := by
        rw [distanceTo, hlook, Option.map_some]
      obtain ⟨s', hs', hweighed⟩ := weigh_spec heap
        { s with visited := n :: s.visited, cache } ⟨n, metric query node.vector⟩ hef
      refine .inr ⟨s', hs', h.weighed hseen hsome rfl hdist hweighed, ?_⟩
      obtain ⟨hvis, hcands, -⟩ := hweighed
      have hless := length_unvisited_cons hseen hsome
      have hlen : s'.candidates.length ≤ s.candidates.length + 1 := by
        rcases hcands with heq | heq
        · rw [heq]
          exact Nat.le_succ _
        · rw [heq, length_cons]
      unfold potential
      rw [hvis]
      dsimp only
      omega

/-- **The neighbours of a node, one after the other.** -/
theorem Keeps.foldlM_visit (heap : CandidateHeap D) (hef : 1 ≤ ef) (neighbors : List NodeId)
    (h : Keeps metric graph query ef m s) :
    (∃ e, neighbors.foldlM (Hnsw.visit false heap metric graph query ef) s = .error e ∧ Missing graph e) ∨
      ∃ s', neighbors.foldlM (Hnsw.visit false heap metric graph query ef) s = .ok s' ∧
        Keeps metric graph query ef m s' ∧ potential graph s' ≤ potential graph s := by
  induction neighbors generalizing s with
  | nil => exact .inr ⟨s, rfl, h, le_rfl⟩
  | cons n rest ih =>
    rw [foldlM_cons]
    rcases h.visit heap hef n with ⟨e, he, hmiss⟩ | ⟨next, hnext, hkeeps, hless⟩
    · rw [he]
      exact .inl ⟨e, rfl, hmiss⟩
    · rw [hnext]
      rcases ih hkeeps with ⟨e, he, hmiss⟩ | ⟨s', hs', hkeeps', hless'⟩
      · exact .inl ⟨e, he, hmiss⟩
      · exact .inr ⟨s', hs', hkeeps', hless'.trans hless⟩

/-- **The loop ends**, at a missing node or with the first nodes as its results. -/
theorem searchLoop_spec (heap : CandidateHeap D) (layer : ℕ) (hef : 1 ≤ ef) (fuel : ℕ)
    (h : Keeps metric graph query ef m s) (hfuel : potential graph s < fuel) :
    (∃ e, searchLoop false heap metric graph query ef layer fuel s = some (.error e) ∧ Missing graph e) ∨
      ∃ s', searchLoop false heap metric graph query ef layer fuel s = some (.ok s') ∧
        Keeps metric graph query ef m s' := by
  induction fuel generalizing s with
  | zero => omega
  | succ fuel ih =>
    rw [searchLoop]
    cases hpop : heap.pop s.candidates with
    | none => exact .inr ⟨s, rfl, h⟩
    | some popped =>
      obtain ⟨current, candidates⟩ := popped
      dsimp only
      split_ifs
      · exact .inr ⟨s, rfl, h⟩
      · have hperm := heap.perm_of_pop hpop
        have hlen := hperm.length_eq
        rw [length_cons] at hlen
        unfold explore
        -- a candidate was visited, so its node can be loaded
        rcases loadNode_cases graph s.cache current.nodeId with ⟨e, he, hmiss⟩ | ⟨cache, node, hload, -⟩
        · rw [he]
          exact .inl ⟨e, rfl, hmiss⟩
        · have htaken : Keeps metric graph query ef m { s with candidates, cache } :=
            { h with candidates := fun c hc => h.candidates c (hperm.subset (mem_cons_of_mem _ hc)) }
          have hpot : potential graph { s with candidates, cache } + 1 = potential graph s := by
            simp only [potential]
            omega
          rw [hload]
          rcases htaken.foldlM_visit heap hef (neighborsOf layer node) with
            ⟨e, he, hmiss⟩ | ⟨next, hnext, hkeeps, hless⟩
          · exact .inl ⟨e, congrArg (onward · _) he, hmiss⟩
          · have hgoes : onward ((Except.ok (cache, node)).bind fun loaded =>
                (neighborsOf layer loaded.2).foldlM (Hnsw.visit false heap metric graph query ef)
                  { s with candidates, cache := loaded.1 })
                (searchLoop false heap metric graph query ef layer fuel) =
                  searchLoop false heap metric graph query ef layer fuel next := congrArg (onward · _) hnext
            rw [hgoes]
            exact ih hkeeps (by omega)

/-! ## Entry points -/

/-- The entry points are visited, and are the candidates and the results. -/
structure Entered (metric : V → V → D) (graph : HnswGraph V) (query : V) (entered : List NodeId)
    (s : SearchState D) : Prop where
  visited : s.results.map nodeId = s.visited
  candidates : s.candidates = s.results
  distinct : s.visited.Nodup
  loaded : ∀ v ∈ s.visited, (graph.nodes.lookup v).isSome = true
  measured : ∀ c ∈ s.results, distanceTo metric graph query c.nodeId = some c.distance
  same : ∀ v, v ∈ s.visited ↔ v ∈ entered
  potential : potential graph s ≤ graph.nodes.length

omit [LinearOrder D] in
/-- **One entry point.** -/
theorem Entered.enter {entered : List NodeId} (h : Entered metric graph query entered s) (ep : NodeId) :
    (∃ e, enter false metric graph query s ep = .error e ∧ Missing graph e) ∨
      ∃ s', enter false metric graph query s ep = .ok s' ∧ Entered metric graph query (ep :: entered) s' := by
  unfold Hnsw.enter
  by_cases hseen : ep ∈ s.visited
  · rw [if_pos hseen]
    refine .inr ⟨s, rfl, { h with same := fun v => ?_ }⟩
    rw [mem_cons, ← h.same]
    exact ⟨.inr, fun hv => hv.elim (fun heq => heq ▸ hseen) id⟩
  · rw [if_neg hseen]
    rcases loadNode_cases graph s.cache ep with ⟨e, he, hmiss⟩ | ⟨cache, node, hload, hlook⟩
    · rw [he]
      exact .inl ⟨e, rfl, hmiss⟩
    · rw [hload]
      have hsome : (graph.nodes.lookup ep).isSome = true := by rw [hlook]; rfl
      have hdist : distanceTo metric graph query ep = some (metric query node.vector) := by
        rw [distanceTo, hlook, Option.map_some]
      refine .inr ⟨_, rfl, congrArg (ep :: ·) h.visited, congrArg (_ :: ·) h.candidates,
        nodup_cons.mpr ⟨hseen, h.distinct⟩, forall_mem_cons.mpr ⟨hsome, h.loaded⟩,
        forall_mem_cons.mpr ⟨hdist, h.measured⟩, fun v => ?_, ?_⟩
      · rw [mem_cons, mem_cons, h.same]
      · have hless := length_unvisited_cons hseen hsome
        have hpot := h.potential
        simp only [Hnsw.potential, length_cons] at hpot ⊢
        omega

omit [LinearOrder D] in
/-- **All entry points.** -/
theorem Entered.foldlM_enter {entered : List NodeId} (h : Entered metric graph query entered s)
    (entryPoints : List NodeId) :
    (∃ e, entryPoints.foldlM (Hnsw.enter false metric graph query) s = .error e ∧ Missing graph e) ∨
      ∃ s', entryPoints.foldlM (Hnsw.enter false metric graph query) s = .ok s' ∧
        Entered metric graph query (entryPoints.reverse ++ entered) s' := by
  induction entryPoints generalizing s entered with
  | nil => exact .inr ⟨s, rfl, h⟩
  | cons ep rest ih =>
    rw [foldlM_cons, reverse_cons, append_assoc, singleton_append]
    rcases h.enter ep with ⟨e, he, hmiss⟩ | ⟨next, hnext, hentered⟩
    · rw [he]
      exact .inl ⟨e, rfl, hmiss⟩
    · rw [hnext]
      exact ih hentered

omit [LinearOrder D] in
theorem entered_nil (cache : NodeCache) :
    Entered metric graph query [] (⟨[], [], [], cache⟩ : SearchState D) := by
  refine ⟨rfl, rfl, nodup_nil, nofun, nofun, fun v => Iff.rfl, ?_⟩
  simp [potential]

/-- The number of results a search comes to: `ef`, or the number of different entry points if there are
more of these. -/
def capacity (ef : ℕ) (entryPoints : List NodeId) : ℕ := max ef entryPoints.dedup.length

omit [LinearOrder D] in
/-- The loop starts with the first nodes as its results. -/
theorem Entered.keeps {entryPoints : List NodeId} (h : Entered metric graph query entryPoints.reverse s) :
    Keeps metric graph query ef (capacity ef entryPoints) s := by
  have hlen : s.visited.length = entryPoints.dedup.length := by
    refine ((perm_ext_iff_of_nodup h.distinct (nodup_dedup _)).mpr fun v => ?_).length_eq
    rw [h.same, mem_reverse, mem_dedup]
  refine ⟨h.distinct, h.loaded, h.measured, ?_, fun c hc => ?_, le_max_left _ _, ?_⟩
  · rw [h.visited, take_of_length_le (by rw [length_reverse, hlen]; exact le_max_right _ _)]
    exact (reverse_perm _).symm
  · rw [h.candidates] at hc
    exact h.visited ▸ mem_map_of_mem hc
  · unfold capacity
    omega

/-! ## A cache with room -/

/-- A node that is loaded is cached, with those that were. -/
theorem loadNode_roomy {cache cache' : NodeCache} {node : HnswNode V} (h : cache.Roomy graph)
    (hload : loadNode false graph cache n = .ok (cache', node)) :
    cache'.Roomy graph ∧ n ∈ cache'.nodes ∧ cache.nodes ⊆ cache'.nodes := by
  unfold loadNode at hload
  cases hlook : graph.nodes.lookup n with
  | none => simp [hlook] at hload
  | some found =>
    simp only [hlook, Bool.false_eq_true, false_and, if_false, Except.ok.injEq, Prod.mk.injEq] at hload
    obtain ⟨rfl, -⟩ := hload
    split_ifs with hhit
    · exact ⟨h, hhit, fun _ hv => hv⟩
    · obtain ⟨hroomy, hnodes⟩ := h.insert (mem_of_lookup (n := n) (by rw [hlook]; rfl))
      rw [hnodes]
      exact ⟨hroomy, Finset.mem_insert_self _ _, Finset.subset_insert _ _⟩

omit [LinearOrder D] in
/-- **After the entry points** the nodes visited are cached. -/
theorem cached_of_enter {entryPoints : List NodeId} (hroomy : s.cache.Roomy graph)
    (hcached : ∀ v ∈ s.visited, v ∈ s.cache.nodes)
    (h : entryPoints.foldlM (enter false metric graph query) s = .ok s') :
    ∀ v ∈ s'.visited, v ∈ s'.cache.nodes := by
  induction entryPoints generalizing s with
  | nil =>
    cases h
    exact hcached
  | cons ep rest ih =>
    rw [foldlM_cons] at h
    unfold enter at h
    by_cases hseen : ep ∈ s.visited
    · rw [if_pos hseen] at h
      exact ih hroomy hcached h
    · rw [if_neg hseen] at h
      cases hload : loadNode false graph s.cache ep with
      | error e =>
        rw [hload] at h
        cases h
      | ok loaded =>
        rw [hload] at h
        obtain ⟨hroomy', hmem, hsub⟩ := loadNode_roomy hroomy hload
        refine ih hroomy' ?_ h
        exact forall_mem_cons.mpr ⟨hmem, fun v hv => hsub (hcached v hv)⟩

/-- **The first candidate is found in the cache**: it was loaded as an entry point. -/
theorem hits_lt {entered : List NodeId} {fuel : ℕ} (h : Entered metric graph query entered s)
    (hcached : ∀ v ∈ s.visited, v ∈ s.cache.nodes) (hne : s.visited ≠ [])
    (hloop : searchLoop false heap metric graph query ef layer fuel s = some (.ok s')) : hits s < hits s' := by
  cases fuel with
  | zero => cases hloop
  | succ fuel =>
    rw [searchLoop] at hloop
    cases hpop : heap.pop s.candidates with
    | none =>
      have hnil := heap.nil_of_pop hpop
      rw [h.candidates] at hnil
      rw [← h.visited, hnil] at hne
      exact absurd rfl hne
    | some popped =>
      obtain ⟨current, candidates⟩ := popped
      have hcurrent : current ∈ s.results := h.candidates ▸ (heap.perm_of_pop hpop).subset mem_cons_self
      have hgoes : ¬ stops heap ef s current = true := by
        intro hstop
        obtain ⟨-, hany⟩ := of_decide_eq_true hstop
        obtain ⟨nearest, hpeek, hlt⟩ := (Option.any_eq_true _ _).mp hany
        obtain ⟨⟨_, others⟩, hpeeked, rfl⟩ := Option.map_eq_some_iff.mp hpeek
        have hmem := (heap.perm_of_pop hpeeked).subset mem_cons_self
        have hle := heap.le_of_pop hpop _ (h.candidates ▸ hmem)
        exact absurd (of_decide_eq_true hlt) (not_lt.mpr hle)
      have hhit := hcached current.nodeId (h.visited ▸ mem_map_of_mem hcurrent)
      rw [hpop] at hloop
      simp only [hgoes, Bool.false_eq_true, if_false] at hloop
      rcases loadNode_cases graph s.cache current.nodeId with ⟨e, he, -⟩ | ⟨cache, node, hload, hlook⟩
      · rw [explore, he] at hloop
        cases hloop
      · have hcache : cache = s.cache.recordHit := by
          simp only [loadNode, hlook, hhit, Bool.false_eq_true, false_and, if_false, if_true, Except.ok.injEq,
            Prod.mk.injEq] at hload
          exact hload.1.symm
        subst hcache
        rw [explore, hload] at hloop
        have hstep := follows_foldlM hits (follows_visit heap metric graph query ef)
          (neighborsOf layer node) { s with candidates, cache := s.cache.recordHit }
        cases hnext : (neighborsOf layer node).foldlM (visit false heap metric graph query ef)
            { s with candidates, cache := s.cache.recordHit } with
        | error e =>
          have hend : onward (.error e) (searchLoop false heap metric graph query ef layer fuel) =
              some (.ok s') := hnext ▸ hloop
          cases hend
        | ok next =>
          rw [hnext] at hstep
          have hrest : searchLoop false heap metric graph query ef layer fuel next = some (.ok s') :=
            (congrArg (onward · _) hnext).symm.trans hloop
          obtain ⟨-, -, hmore, -⟩ := follows_searchLoop heap metric graph query ef layer fuel next _ hrest
          have hfirst : s.cache.hits + 1 ≤ hits next := hstep.1
          exact Nat.lt_of_lt_of_le hfirst hmore

/-- **In a cache with room something is found, unless there is no entry point.** -/
theorem hits_eq_iff {cache : NodeCache} {entryPoints : List NodeId} {fuel : ℕ} (hroomy : cache.Roomy graph)
    (henter : entryPoints.foldlM (enter false metric graph query) ⟨[], [], [], cache⟩ = .ok s)
    (h : Entered metric graph query entryPoints.reverse s)
    (hloop : searchLoop false heap metric graph query ef layer (fuel + 1) s = some (.ok s')) :
    hits s' = cache.hits ↔ entryPoints = [] := by
  constructor
  · intro hsame
    by_contra hne
    obtain ⟨ep, hep⟩ := exists_mem_of_ne_nil _ hne
    have hvisited : s.visited ≠ [] := ne_nil_of_mem ((h.same ep).mpr (mem_reverse.mpr hep))
    have hstart := follows_foldlM hits (follows_enter metric graph query) entryPoints ⟨[], [], [], cache⟩
    rw [henter] at hstart
    have hless : cache.hits ≤ hits s := hstart.1
    have hmore := hits_lt h (cached_of_enter hroomy (fun _ hv => absurd hv not_mem_nil) henter) hvisited hloop
    omega
  · rintro rfl
    cases henter
    rw [searchLoop] at hloop
    cases hpop : heap.pop ([] : List (Candidate D)) with
    | none =>
      simp only [hpop] at hloop
      cases hloop
      rfl
    | some popped => exact absurd (heap.perm_of_pop hpop).length_eq (by simp)

/-! ## Whole searches -/

/-- What a search is to return: visited nodes with their distances, sorted; all of them or at least `ef`;
and none left out that is nearer than one returned. -/
structure Right (metric : V → V → D) (graph : HnswGraph V) (query : V) (ef : ℕ) (visited : List NodeId)
    (out : List (Candidate D)) : Prop where
  found : ∀ c ∈ out, c.nodeId ∈ visited ∧ distanceTo metric graph query c.nodeId = some c.distance
  distinct : (out.map nodeId).Nodup
  sorted : out.Pairwise fun a b => a.distance ≤ b.distance
  enough : (∀ v ∈ visited, v ∈ out.map nodeId) ∨ ef ≤ out.length
  closest : ∀ v ∈ visited, v ∉ out.map nodeId →
    ∀ d ∈ distanceTo metric graph query v, ∀ r ∈ out, r.distance ≤ d

/-- None of the nodes that were visited later is nearer than one of the first `m`. -/
def FirstNearest (metric : V → V → D) (graph : HnswGraph V) (query : V) (m : ℕ) (visited : List NodeId) : Prop :=
  ∀ v ∈ visited.reverse.drop m, ∀ d ∈ distanceTo metric graph query v,
    ∀ u ∈ visited.reverse.take m, ∀ d' ∈ distanceTo metric graph query u, d' ≤ d

theorem ranked_perm (s : SearchState D) : (ranked s).Perm s.results := mergeSort_perm _ _

theorem ranked_sorted : (ranked s).Pairwise fun a b => a.distance ≤ b.distance := by
  have hsort : (ranked s).Pairwise fun a b => decide (a.distance ≤ b.distance) :=
    pairwise_mergeSort (by simpa using fun a b c hab hbc => le_trans hab hbc)
      (by simpa using fun a b => le_total _ _) s.results
  exact hsort.imp fun h => of_decide_eq_true h

/-- **The first nodes are right exactly if they are the nearest.** -/
theorem Keeps.right_iff (h : Keeps metric graph query ef m s) :
    Right metric graph query ef s.visited (ranked s) ↔ FirstNearest metric graph query m s.visited := by
  have hperm := ranked_perm s
  have hids : ((ranked s).map nodeId).Perm (s.visited.reverse.take m) := (hperm.map nodeId).trans h.first
  have hsplit : s.visited.reverse.take m ++ s.visited.reverse.drop m = s.visited.reverse := take_append_drop _ _
  have hnd : (s.visited.reverse.take m ++ s.visited.reverse.drop m).Nodup := by
    rw [hsplit]
    exact nodup_reverse.mpr h.distinct
  have hapart := (nodup_append'.mp hnd).2.2
  have hmeasured : ∀ c ∈ ranked s, distanceTo metric graph query c.nodeId = some c.distance :=
    fun c hc => h.measured c (hperm.subset hc)
  constructor
  · intro hright v hv d hd u hu d' hd'
    obtain ⟨r, hr, rfl⟩ := mem_map.mp (hids.mem_iff.mpr hu)
    rw [hmeasured r hr] at hd'
    cases hd'
    refine hright.closest v (mem_reverse.mp (mem_of_mem_drop hv)) (fun hout => ?_) d hd r hr
    exact hapart (hids.mem_iff.mp hout) hv
  · intro hnear
    refine ⟨fun c hc => ⟨?_, hmeasured c hc⟩, hids.nodup_iff.mpr (nodup_append'.mp hnd).1, ranked_sorted, ?_, ?_⟩
    · exact mem_reverse.mp (mem_of_mem_take (hids.mem_iff.mp (mem_map_of_mem hc)))
    · rcases Nat.le_total s.visited.length m with hall | hmore
      · refine .inl fun v hv => hids.mem_iff.mpr ?_
        rw [take_of_length_le (by rwa [length_reverse])]
        exact mem_reverse.mpr hv
      · refine .inr ?_
        have hroom := h.room
        rw [hperm.length_eq, h.length_results]
        omega
    · intro v hv hout d hd r hr
      have hlate : v ∈ s.visited.reverse.drop m := by
        rw [← mem_reverse, ← hsplit] at hv
        exact (mem_append.mp hv).resolve_left fun hfirst => hout (hids.mem_iff.mpr hfirst)
      exact hnear v hlate d hd r.nodeId (hids.mem_iff.mp (mem_map_of_mem hr)) r.distance (hmeasured r hr)

/-- The distance of two numbers. -/
def gap (a b : ℕ) : ℕ := (a - b) + (b - a)

/-- Four nodes, of which the first has the last two as its neighbours. -/
def four (u v w : ℕ) : HnswGraph ℕ := ⟨[(1, ⟨u, [[3, 4]]⟩), (2, ⟨v, [[]]⟩), (3, ⟨w, [[]]⟩), (4, ⟨20, [[]]⟩)]⟩

/-- A cache with room for one node. -/
def oneNode : NodeCache := ⟨∅, 1, false, 0⟩

end Hnsw

end NanoStore.Table
