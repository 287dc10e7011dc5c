import Mathlib.Tactic
/-!
# Fallible steps that keep their state, and runs of calls

A step may fail and still leave its mark: its outcome is the state it
leaves together with its result. Steps are chained until the first
failure, over one list or one after the other, and what every step keeps
the chain keeps. A system answers calls one after the other; what one
answered call keeps, every run keeps.
-/

namespace Steps

open List

variable {σ ε α β γ : Type*}

/-- The outcome of a fallible step: the state it leaves and its result. -/
abbrev Outcome (σ ε α : Type*) := σ × Except ε α

/-! ## Chains -/

/-- Continue with `f` if the step succeeded. -/
def andThen (x : Outcome σ ε α) (f : σ → α → Outcome σ ε β) : Outcome σ ε β :=
  match x with
  | (s, .error e) => (s, .error e)
  | (s, .ok a) => f s a

variable {s : σ}

@[simp] theorem andThen_error {e : ε} {f : σ → α → Outcome σ ε β} :
    andThen (s, .error e) f = (s, .error e) := rfl

@[simp] theorem andThen_ok (s : σ) (a : α) (f : σ → α → Outcome σ ε β) : andThen (s, .ok a) f = f s a := rfl

theorem andThen_assoc (x : Outcome σ ε α) (f : σ → α → Outcome σ ε β) (g : σ → β → Outcome σ ε γ) :
    andThen (andThen x f) g = andThen x fun s a => andThen (f s a) g := by
  obtain ⟨s, e | a⟩ := x
  · rfl
  · rfl

theorem andThen_done (x : Outcome σ ε Unit) : (andThen x fun s _ => (s, .ok ())) = x := by
  obtain ⟨s, e | _⟩ := x
  · rfl
  · rfl

variable {x : Outcome σ ε α} {f : σ → α → Outcome σ ε β} {b : β}

/-- **A chain succeeds by succeeding in both parts.** -/
theorem andThen_eq_ok : andThen x f = (s, .ok b) ↔ ∃ s' a, x = (s', .ok a) ∧ f s' a = (s, .ok b) := by
  obtain ⟨s', e | a⟩ := x
  · simp
  · simp

/-- The second step runs, or the first failed. -/
theorem andThen_cases {y : Outcome σ ε β} (h : andThen x f = y) :
    (∃ s e, x = (s, .error e) ∧ y = (s, .error e)) ∨ ∃ s a, x = (s, .ok a) ∧ f s a = y := by
  obtain ⟨s, e | a⟩ := x
  · exact .inl ⟨s, e, rfl, h.symm⟩
  · exact .inr ⟨s, a, rfl, h⟩

variable {P : σ → Prop}

/-- A property of states that both steps keep. -/
theorem andThen_fst (hx : P x.1) (hf : ∀ s a, x = (s, .ok a) → P s → P (f s a).1) : P (andThen x f).1 := by
  obtain ⟨s, e | a⟩ := x
  · exact hx
  · exact hf s a rfl hx

/-- One step for each entry of a list, up to the first failure. -/
def forEach (step : σ → α → Outcome σ ε Unit) : σ → List α → Outcome σ ε Unit
  | s, [] => (s, .ok ())
  | s, a :: as => andThen (step s a) fun s' _ => forEach step s' as

@[simp] theorem forEach_nil (step : σ → α → Outcome σ ε Unit) : forEach step s [] = (s, .ok ()) := rfl

theorem forEach_cons (step : σ → α → Outcome σ ε Unit) (a : α) (as : List α) :
    forEach step s (a :: as) = andThen (step s a) fun s' _ => forEach step s' as := rfl

theorem forEach_singleton (step : σ → α → Outcome σ ε Unit) (a : α) :
    forEach step s [a] = step s a := andThen_done _

variable {step : σ → α → Outcome σ ε Unit} {as : List α}

/-- A loop whose steps do not fail is a fold. -/
theorem forEach_of_ok {f : σ → α → σ} (hstep : ∀ s a, step s a = (f s a, .ok ())) :
    forEach step s as = (as.foldl f s, .ok ()) := by
  induction as generalizing s with
  | nil => rfl
  | cons a as ih => rw [forEach_cons, hstep, andThen_ok, ih, foldl_cons]

/-- **What each step keeps the loop keeps**, failed or not. -/
theorem forEach_fst
    (hstep : ∀ s, ∀ a ∈ as, P s → P (step s a).1) (hs : P s) : P (forEach step s as).1 := by
  induction as generalizing s with
  | nil => exact hs
  | cons a as ih =>
    rw [forEach_cons]
    refine andThen_fst (hstep s a mem_cons_self hs) fun s' _ _ hs' => ?_
    exact ih (fun s b hb => hstep s b (mem_cons_of_mem _ hb)) hs'

variable (step) in
theorem forEach_append (s : σ) (as bs : List α) :
    forEach step s (as ++ bs) = andThen (forEach step s as) fun s' _ => forEach step s' bs := by
  induction as generalizing s with
  | nil => rfl
  | cons a as ih =>
    rw [cons_append, forEach_cons, forEach_cons, andThen_assoc]
    exact congrArg _ (funext fun s' => funext fun _ => ih s')

theorem forEach_flatMap (step : σ → β → Outcome σ ε Unit) (f : α → List β) (s : σ) (as : List α) :
    forEach step s (as.flatMap f) = forEach (fun s a => forEach step s (f a)) s as := by
  induction as generalizing s with
  | nil => rfl
  | cons a as ih =>
    rw [flatMap_cons, forEach_append, forEach_cons]
    exact congrArg _ (funext fun s' => funext fun _ => ih s')

/-! ## Loops that go together -/

variable {τ ε' : Type*} {R : σ → τ → Prop}

/-- Two outcomes go together: their states are related, and both steps succeeded or both failed. -/
def Together (R : σ → τ → Prop) (x : Outcome σ ε α) (y : Outcome τ ε' β) : Prop :=
  R x.1 y.1 ∧ x.2.isOk = y.2.isOk

theorem Together.andThen {y : Outcome τ ε' α} {f : σ → α → Outcome σ ε Unit}
    {g : τ → α → Outcome τ ε' Unit} (h : Together R x y)
    (hnext : ∀ s t a b, R s t → Together R (f s a) (g t b)) : Together R (andThen x f) (andThen y g) := by
  obtain ⟨s, e | a⟩ := x
  · obtain ⟨t, e' | b⟩ := y
    · exact h
    · exact absurd h.2 Bool.false_ne_true
  · obtain ⟨t, e' | b⟩ := y
    · exact absurd h.2.symm Bool.false_ne_true
    · exact hnext s t a b h.1

/-- **Steps that go together make loops that go together.** -/
theorem Together.forEach {step : σ → α → Outcome σ ε Unit} {step' : τ → α → Outcome τ ε' Unit}
    (hstep : ∀ s t a, R s t → Together R (step s a) (step' t a)) {t : τ} (h : R s t) (as : List α) :
    Together R (forEach step s as) (forEach step' t as) := by
  induction as generalizing s t with
  | nil => exact ⟨h, rfl⟩
  | cons a as ih => exact (hstep s t a h).andThen fun s' t' _ _ h' => ih h'

/-! ## Runs -/

/-- A run of a system that answers every call: the calls with their answers, latest first,
and the state they leave. Every call meets the guard, which is about the calls before it and
the state it finds. -/
inductive Run (exec : σ → α → σ × β) (guard : List (α × β) → σ → α → Prop) (init : σ) :
    List (α × β) → σ → Prop
  | nil : Run exec guard init [] init
  | call {trace : List (α × β)} {s : σ} (h : Run exec guard init trace s) (a : α) (hguard : guard trace s a) :
      Run exec guard init ((a, (exec s a).2) :: trace) (exec s a).1

/-- No condition on the calls. -/
def anyCall : List (α × β) → σ → α → Prop := fun _ _ _ => True

variable {exec : σ → α → σ × β} {guard guard' : List (α × β) → σ → α → Prop} {init : σ}
  {trace : List (α × β)}

theorem Run.call_of_eq {s' : σ} {a : α} (h : Run exec guard init trace s)
    (hguard : guard trace s a) (hexec : exec s a = (s', b)) : Run exec guard init ((a, b) :: trace) s' := by
  have hcall := h.call a hguard
  rwa [hexec] at hcall

/-- **What every guarded call keeps holds after every run.** -/
@[elab_as_elim]
theorem Run.invariant {P : List (α × β) → σ → Prop} (hinit : P [] init)
    (hcall : ∀ trace s a, P trace s → guard trace s a → P ((a, (exec s a).2) :: trace) (exec s a).1)
    (h : Run exec guard init trace s) : P trace s := by
  induction h with
  | nil => exact hinit
  | call _ a hguard ih => exact hcall _ _ a ih hguard

/-- A run is one under another guard if the calls it makes meet that one as well. -/
theorem Run.mono_of_forall {p : α → Prop} (hle : ∀ trace s a, p a → guard trace s a → guard' trace s a)
    (hp : ∀ e ∈ trace, p e.1) (h : Run exec guard init trace s) : Run exec guard' init trace s := by
  induction h with
  | nil => exact .nil
  | call _ a hguard ih =>
    exact .call (ih fun e he => hp e (.tail _ he)) a (hle _ _ _ (hp _ (.head _)) hguard)

/-- A weaker guard admits more runs. -/
theorem Run.mono (hle : ∀ trace s a, guard trace s a → guard' trace s a) (h : Run exec guard init trace s) :
    Run exec guard' init trace s :=
  h.mono_of_forall (p := fun _ => True) (fun trace s a _ => hle trace s a) fun _ _ => trivial

/-- The run that makes the calls of a list in turn. -/
def execute (exec : σ → α → σ × β) (init : σ) (calls : List α) : List (α × β) × σ :=
  calls.foldl (fun r a => ((a, (exec r.2 a).2) :: r.1, (exec r.2 a).1)) ([], init)

variable (exec init) in
theorem run_execute (calls : List α) :
    Run exec anyCall init (execute exec init calls).1 (execute exec init calls).2 := by
  -- from the last call back: the calls before it are a run
  induction calls using List.reverseRecOn with
  | nil => exact .nil
  | append_singleton calls a ih =>
    simp only [execute, foldl_append, foldl_cons, foldl_nil]
    exact .call ih a trivial

/-- Every call of a list meets the guard when its turn comes. -/
def Guarded (exec : σ → α → σ × β) (guard : List (α × β) → σ → α → Prop) : List (α × β) → σ → List α → Prop
  | _, _, [] => True
  | trace, s, a :: calls =>
    guard trace s a ∧ Guarded exec guard ((a, (exec s a).2) :: trace) (exec s a).1 calls

instance Guarded.decidable [∀ trace s a, Decidable (guard trace s a)] :
    ∀ trace s calls, Decidable (Guarded exec guard trace s calls)
  | _, _, [] => .isTrue trivial
  | trace, s, a :: calls =>
    have := Guarded.decidable ((a, (exec s a).2) :: trace) (exec s a).1 calls
    inferInstanceAs (Decidable (_ ∧ _))

theorem Guarded.run {calls : List α} (h : Guarded exec guard [] init calls) :
    Run exec guard init (execute exec init calls).1 (execute exec init calls).2 := by
  suffices hfrom : ∀ r : List (α × β) × σ, Run exec guard init r.1 r.2 → Guarded exec guard r.1 r.2 calls →
      Run exec guard init (calls.foldl (fun r a => ((a, (exec r.2 a).2) :: r.1, (exec r.2 a).1)) r).1
        (calls.foldl (fun r a => ((a, (exec r.2 a).2) :: r.1, (exec r.2 a).1)) r).2 from
    hfrom ([], init) .nil h
  clear h
  induction calls with
  | nil => exact fun r hrun _ => hrun
  | cons a calls ih => exact fun r hrun hguarded => ih _ (.call hrun a hguarded.1) hguarded.2

end Steps
