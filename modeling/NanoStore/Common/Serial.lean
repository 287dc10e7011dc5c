import Mathlib.Tactic
/-!
# Serial executions of a key-value store

Programs of reads and writes, each with the answers it was given, run
one after the other. A program reads its own writes and otherwise the
contents it starts from; when it ends, its writes are installed. What a
program reads from the contents is its dependencies, and contents that
agree on these give the same run.
-/


namespace Serial

open List

variable {K V ι : Type*} [DecidableEq K]

/-- An operation with its answer: the value read, or whether the deleted key was found. -/
inductive Op (K V : Type*)
  | get (k : K) (result : Option V)
  | put (k : K) (value : V)
  | delete (k : K) (existed : Bool)

/-- The value of every key. -/
abbrev Contents (K V : Type*) := K → Option V

/-- What a program has written: a value, a deletion, or nothing. -/
abbrev Overlay (K V : Type*) := K → Option (Option V)

/-- The overlay of a program that has not written. -/
def Overlay.none : Overlay K V := fun _ => Option.none

/-- The answer is what the operation finds. A key the program has written counts as found by a
delete, a deletion too. -/
def Op.Agrees (S : Contents K V) (ws : Overlay K V) : Op K V → Prop
  | .get k result => result = (ws k).getD (S k)
  | .put _ _ => True
  | .delete k existed => existed = ((ws k).isSome || (S k).isSome)

/-- What the operation leaves in the overlay. -/
def Op.record (ws : Overlay K V) : Op K V → Overlay K V
  | .get _ _ => ws
  | .put k value => Function.update ws k (some (some value))
  | .delete k _ => Function.update ws k (some Option.none)

/-- The program runs on the contents with the answers it has, from one overlay to another. -/
def Replay (S : Contents K V) : List (Op K V) → Overlay K V → Overlay K V → Prop
  | [], ws, ws' => ws = ws'
  | op :: ops, ws, ws' => op.Agrees S ws ∧ Replay S ops (op.record ws) ws'

variable {ops : List (Op K V)} {ws ws' : Overlay K V} {S : Contents K V}

theorem replay_snoc {op : Op K V} (h : Replay S ops ws ws') (hop : op.Agrees S ws') :
    Replay S (ops ++ [op]) ws (op.record ws') := by
  induction ops generalizing ws with
  | nil =>
    obtain rfl : ws = ws' := h
    exact ⟨hop, rfl⟩
  | cons first ops ih => exact ⟨h.1, ih h.2⟩

/-! ## Dependencies -/

/-- The keys whose contents a program depends on, given those it has written: the keys it reads
without having written them, and the keys it deletes. -/
def dependencies : List (Op K V) → List K → List K
  | [], _ => []
  | .get k _ :: ops, own => if k ∈ own then dependencies ops own else k :: dependencies ops own
  | .put k _ :: ops, own => dependencies ops (k :: own)
  | .delete k _ :: ops, own => k :: dependencies ops (k :: own)

omit [DecidableEq K] in
theorem isSome_getD {o : Option (Option V)} (h : o.isSome) {x y : Option V} : o.getD x = o.getD y := by
  obtain ⟨v, rfl⟩ := Option.isSome_iff_exists.mp h
  rfl

variable {own : List K}

/-- **Contents that agree on its dependencies give a program the same run.** -/
theorem replay_congr {S' : Contents K V} (hown : ∀ k, k ∈ own ↔ (ws k).isSome)
    (hS : ∀ k ∈ dependencies ops own, S k = S' k) (h : Replay S ops ws ws') : Replay S' ops ws ws' := by
  -- the keys written so far are those of the overlay, after each operation
  have hcons : ∀ (ws : Overlay K V) (own : List K) (k : K) (value : Option V),
      (∀ k, k ∈ own ↔ (ws k).isSome) →
      ∀ k', k' ∈ k :: own ↔ (Function.update ws k (some value) k').isSome := by
    intro ws own k value hown k'
    by_cases hk : k' = k
    · subst hk
      simp
    · simp [hk, hown k']
  induction ops generalizing ws own with
  | nil => exact h
  | cons op ops ih =>
    obtain ⟨hagrees, h⟩ := h
    cases op with
    | get k result =>
      rw [dependencies] at hS
      split_ifs at hS with hk
      · refine ⟨?_, ih hown hS h⟩
        exact hagrees.trans (isSome_getD ((hown k).mp hk))
      · refine ⟨?_, ih hown (fun k' hk' => hS k' (mem_cons_of_mem _ hk')) h⟩
        show result = (ws k).getD (S' k)
        rw [← hS k mem_cons_self]
        exact hagrees
    | put k value => exact ⟨trivial, ih (hcons ws own k (some value) hown) hS h⟩
    | delete k existed =>
      rw [dependencies] at hS
      refine ⟨?_, ih (hcons ws own k Option.none hown) (fun k' hk' => hS k' (mem_cons_of_mem _ hk')) h⟩
      show existed = ((ws k).isSome || (S' k).isSome)
      rw [← hS k mem_cons_self]
      exact hagrees

variable {k : K}

theorem mem_dependencies_of_delete {existed : Bool}
    (h : .delete k existed ∈ ops) : k ∈ dependencies ops own := by
  induction ops generalizing own with
  | nil => cases h
  | cons op ops ih =>
    rcases mem_cons.mp h with rfl | hmem
    · exact mem_cons_self
    · cases op with
      | get k' result =>
        rw [dependencies]
        split_ifs
        · exact ih hmem
        · exact mem_cons_of_mem _ (ih hmem)
      | put k' value => exact ih hmem
      | delete k' existed' => exact mem_cons_of_mem _ (ih hmem)

theorem delete_of_replay (h : Replay S ops ws ws') (hk : ws' k = some Option.none) :
    ws k = some Option.none ∨ ∃ existed, .delete k existed ∈ ops := by
  induction ops generalizing ws with
  | nil =>
    obtain rfl : ws = ws' := h
    exact .inl hk
  | cons op ops ih =>
    rcases ih h.2 with hop | ⟨existed, hmem⟩
    · cases op with
      | get k' result => exact .inl hop
      | put k' value =>
        by_cases hkk : k = k'
        · subst hkk
          simp [Op.record] at hop
        · exact .inl (by simpa [Op.record, hkk] using hop)
      | delete k' existed =>
        by_cases hkk : k = k'
        · subst hkk
          exact .inr ⟨existed, mem_cons_self⟩
        · exact .inl (by simpa [Op.record, hkk] using hop)
    · exact .inr ⟨existed, mem_cons_of_mem _ hmem⟩

/-! ## Serial executions -/

/-- The contents a finished program leaves; a value the store does not keep reads as none. -/
def install (keep : V → Bool) (S : Contents K V) (ws : Overlay K V) : Contents K V :=
  fun k => match ws k with
    | some value => value.filter keep
    | Option.none => S k

/-- The programs run one after the other, in the given order, and lead from one contents to
another. -/
inductive Execution (keep : V → Bool) (program : ι → List (Op K V)) :
    List ι → Contents K V → Contents K V → Prop
  | nil (S : Contents K V) : Execution keep program [] S S
  | cons {i : ι} {order : List ι} {S S' : Contents K V} {ws : Overlay K V}
      (hrun : Replay S (program i) Overlay.none ws)
      (hrest : Execution keep program order (install keep S ws) S') :
      Execution keep program (i :: order) S S'

variable {keep : V → Bool} {program program' : ι → List (Op K V)} {order : List ι} {S S' : Contents K V}
  {i : ι}

theorem Execution.snoc (h : Execution keep program order S S')
    (hrun : Replay S' (program i) Overlay.none ws) :
    Execution keep program (order ++ [i]) S (install keep S' ws) := by
  induction h with
  | nil S => exact .cons hrun (.nil _)
  | cons hfst _ ih => exact .cons hfst (ih hrun)

theorem Execution.congr (h : Execution keep program order S S')
    (heq : ∀ i ∈ order, program i = program' i) : Execution keep program' order S S' := by
  induction h with
  | nil S => exact .nil S
  | cons hrun _ ih =>
    refine .cons (heq _ mem_cons_self ▸ hrun) (ih fun i hi => ?_)
    exact heq i (mem_cons_of_mem _ hi)

/-- **Write skew is not serial**: of two programs that find a key absent and put the key of the
other, the second cannot find its key absent. -/
theorem Execution.not_skewed {j : ι} {x y : K} {a b : V} (hi : program i = [.get x Option.none, .put y a])
    (hj : program j = [.get y Option.none, .put x b]) (ha : keep a = true) :
    ¬Execution keep program [i, j] S S' := by
  intro h
  obtain _ | ⟨hfst, _ | ⟨hsecond, -⟩⟩ := h
  rw [hi] at hfst
  rw [hj] at hsecond
  obtain ⟨-, -, rfl⟩ := hfst
  have hread : Option.none = _ := hsecond.1
  simp [install, Op.record, Overlay.none, Option.filter, ha] at hread

end Serial
