import NanoStore.Common.CycleSearch
import NanoStore.Common.SortedMap
import NanoStore.Types
/-!
# Transactions — deadlock detection

`DeadlockDetector` of `txn/conflict.rs`: for each waiting transaction the
transactions it waits for, and a depth-first search for a cycle. The keys
of the hash map are searched in some order, which is a parameter.
-/

namespace NanoStore.Txn

open CycleSearch Relation List

/-- `DeadlockDetector`: who waits for whom. -/
structure DeadlockDetector where
  waitForGraph : SortedMap TransactionId (List TransactionId)

namespace DeadlockDetector

def new : DeadlockDetector := ⟨.empty⟩

variable (detector : DeadlockDetector)

/-- Whom a transaction waits for. -/
def neighbors (t : TransactionId) : List TransactionId := (detector.waitForGraph.lookup t).getD []

def addWait (waiter holder : TransactionId) : DeadlockDetector :=
  ⟨detector.waitForGraph.insert waiter (detector.neighbors waiter ++ [holder])⟩

/-- A transaction waits for none. -/
def removeWait (waiter : TransactionId) : DeadlockDetector := ⟨detector.waitForGraph.erase waiter⟩

/-- `detect_cycle`, with the keys of the map in the order of its iterator and a bound on the depth of
`dfs_detect_cycle`, which is `CycleSearch.dfs`. -/
def detectCycle (keys : List TransactionId) (depth : ℕ) : Option (Option (List TransactionId)) :=
  search detector.neighbors depth keys .start

/-! ## Calls -/

/-- A call that changes the graph. -/
inductive WaitCall
  | addWait (waiter holder : TransactionId)
  | removeWait (waiter : TransactionId)

/-- The detector after calls, the latest one first. -/
def build : List WaitCall → DeadlockDetector
  | [] => new
  | .addWait waiter holder :: calls => (build calls).addWait waiter holder
  | .removeWait waiter :: calls => (build calls).removeWait waiter

/-- The first transaction waits for the second: this was added, and not removed since. -/
def Waits : List WaitCall → TransactionId → TransactionId → Prop
  | [], _, _ => False
  | .addWait waiter holder :: calls, t, u => (t = waiter ∧ u = holder) ∨ Waits calls t u
  | .removeWait waiter :: calls, t, u => t ≠ waiter ∧ Waits calls t u

variable {t u : TransactionId}

/-- **The graph holds the waits.** -/
theorem mem_neighbors_build {calls : List WaitCall} :
    u ∈ (build calls).neighbors t ↔ Waits calls t u := by
  induction calls with
  | nil => simp [build, new, neighbors, Waits]
  | cons call calls ih =>
    cases call with
    | addWait waiter holder =>
      rw [build, neighbors, addWait, SortedMap.lookup_insert, Waits, ← ih]
      split_ifs with hwaiter
      · subst hwaiter
        simp [or_comm]
      · simp [hwaiter, neighbors]
    | removeWait waiter =>
      rw [build, neighbors, removeWait, SortedMap.lookup_erase, Waits, ← ih]
      split_ifs with hwaiter
      · simp [hwaiter]
      · simp [hwaiter, neighbors]

/-- All that wait or are waited for. -/
def nodes : Finset TransactionId := (detector.waitForGraph.entries.flatMap fun e => e.1 :: e.2).toFinset

variable {detector}

theorem exists_entry_of_mem_neighbors (h : u ∈ detector.neighbors t) :
    ∃ holders, (t, holders) ∈ detector.waitForGraph.entries ∧ u ∈ holders := by
  cases hlook : detector.waitForGraph.lookup t with
  | none =>
    rw [neighbors, hlook] at h
    cases h
  | some holders =>
    rw [neighbors, hlook] at h
    exact ⟨holders, SortedMap.lookup_eq_some.mp hlook, h⟩

theorem mem_nodes_of_neighbor (h : u ∈ detector.neighbors t) : u ∈ detector.nodes := by
  obtain ⟨holders, hent, hu⟩ := exists_entry_of_mem_neighbors h
  exact mem_toFinset.mpr (mem_flatMap.mpr ⟨_, hent, mem_cons_of_mem _ hu⟩)

/-- **Deadlock detection.** For every graph built by calls and every order of its keys the search comes to
an end, finds a cycle exactly if some transaction waits for itself through others, and what it returns is
a cycle: each transaction waits for the one behind it, and the last for the first. -/
theorem detectCycle_spec (calls : List WaitCall) {keys : List TransactionId}
    (hkeys : keys.Perm ((build calls).waitForGraph.entries.map Prod.fst)) :
    ∃ depth found, (∀ depth', depth ≤ depth' → (build calls).detectCycle keys depth' = some found) ∧
      (found.isSome ↔ ∃ t, TransGen (Waits calls) t t) ∧ ∀ cycle ∈ found, cycle.IsChain (Waits calls) ∧
        ∃ first ∈ cycle.head?, ∃ last ∈ cycle.getLast?, Waits calls last first := by
  have hedge : Edge (build calls).neighbors = Waits calls :=
    funext fun t => funext fun u => propext mem_neighbors_build
  obtain ⟨found, hfound, hcycle, hnone⟩ := search_spec
    (fun t _ u hu => mem_nodes_of_neighbor hu) (Nat.lt_succ_self _)
    fun t ht => by
      obtain ⟨e, he, rfl⟩ := mem_map.mp (hkeys.mem_iff.mp ht)
      exact mem_toFinset.mpr (mem_flatMap.mpr ⟨e, he, mem_cons_self⟩)
  refine ⟨_, found, fun depth' hle => search_mono hle hfound, ?_, ?_⟩
  · cases found with
    | some cycle =>
      have hexists := (hcycle cycle rfl).exists_transGen
      rw [hedge] at hexists
      exact iff_of_true rfl hexists
    | none =>
      refine iff_of_false Bool.false_ne_true ?_
      rintro ⟨t, hloop⟩
      -- a transaction on a cycle waits for another one, so it is a key
      obtain ⟨u, hwaits, -⟩ := TransGen.head'_iff.mp hloop
      obtain ⟨holders, hent, -⟩ := exists_entry_of_mem_neighbors (mem_neighbors_build.mpr hwaits)
      have hkey : t ∈ keys := hkeys.mem_iff.mpr (mem_map.mpr ⟨_, hent, rfl⟩)
      rw [← hedge] at hloop
      exact hnone rfl t hkey hloop
  · intro cycle hmem
    rw [← hedge]
    exact ⟨(hcycle cycle hmem).chain, (hcycle cycle hmem).closes⟩

/-- Three transactions in a ring, and a fourth that waits for one of them. -/
def ring : List WaitCall := [.addWait 4 1, .addWait 3 1, .addWait 2 3, .addWait 1 2]

theorem detectCycle_spec_ring :
    ∃ depth found, (∀ depth', depth ≤ depth' → (build ring).detectCycle [4, 2, 3, 1] depth' = some found) ∧
      (found.isSome ↔ ∃ t, TransGen (Waits ring) t t) := by
  have hkeys : List.Perm [4, 2, 3, 1] ((build ring).waitForGraph.entries.map Prod.fst) := by decide
  obtain ⟨depth, found, hfound, hsome, -⟩ := detectCycle_spec ring hkeys
  exact ⟨depth, found, hfound, hsome⟩

example : (build ring).detectCycle [4, 2, 3, 1] 5 = some (some [1, 2, 3]) := by decide

end DeadlockDetector

end NanoStore.Txn
