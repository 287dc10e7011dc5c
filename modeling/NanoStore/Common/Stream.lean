import Mathlib.Tactic
/-!
# Streams read to their end

A stream hands out a piece at each read, and the empty piece says that it
is over. Reading it to the end joins the pieces. A stream over what is
left of a list returns what is left, whatever the pieces are.

A cursor shows one item at a time and is moved from one to the next until
it shows none.
-/

namespace Stream

variable {σ ε α : Type*}

/-- The pieces of a stream joined, for at most `fuel` reads; no value stands for a stream that
goes on. -/
def drain (read : σ → Except ε (List α × σ)) : ℕ → σ → Option (Except ε (List α))
  | 0, _ => none
  | fuel + 1, s =>
    match read s with
    | .error e => some (.error e)
    | .ok ([], _) => some (.ok [])
    | .ok (a :: piece, s') => (drain read fuel s').map (·.map ((a :: piece) ++ ·))

variable {fuel : ℕ} {s : σ}

/-- **A stream over what is left returns it**: every read takes a piece off the front, and only
a stream with nothing left returns the empty one. -/
theorem drain_eq {read : σ → Except ε (List α × σ)} {P : σ → Prop} (left : σ → List α)
    (hread : ∀ s, P s → ∃ piece s', read s = .ok (piece, s') ∧ P s' ∧ left s = piece ++ left s' ∧
      (piece = [] → left s = [])) (hs : P s) (hfuel : (left s).length < fuel) :
    drain read fuel s = some (.ok (left s)) := by
  induction fuel generalizing s with
  | zero => exact absurd hfuel (Nat.not_lt_zero _)
  | succ fuel ih =>
    obtain ⟨piece, s', hpiece, hs', hleft, hover⟩ := hread s hs
    rw [drain, hpiece]
    cases piece with
    | nil => rw [hover rfl]
    | cons a piece =>
      have hlen : (left s).length = piece.length + 1 + (left s').length := by
        rw [hleft, List.length_append, List.length_cons]
      simp only [ih hs' (show (left s').length < fuel by omega), hleft]
      rfl

/-! ## Cursors -/

/-- The items a cursor shows until it shows none, for at most `fuel` positions; no value stands for
a cursor that goes on. -/
def collect (item : σ → Option α) (next : σ → σ) : ℕ → σ → Option (List α)
  | 0, _ => none
  | fuel + 1, s =>
    match item s with
    | none => some []
    | some a => (collect item next fuel (next s)).map (a :: ·)

variable {item : σ → Option α} {next : σ → σ} {l : List α}

/-- **A cursor with a list ahead shows it**: it shows the head, and moving it leaves the tail. -/
theorem collect_eq {P : σ → List α → Prop} (hstep : ∀ s l, P s l → item s = none ∧ l = [] ∨
      ∃ a l', item s = some a ∧ l = a :: l' ∧ P (next s) l')
    (h : P s l) (hfuel : l.length < fuel) :
    collect item next fuel s = some l := by
  induction fuel generalizing s l with
  | zero => exact absurd hfuel (Nat.not_lt_zero _)
  | succ fuel ih =>
    rcases hstep s l h with ⟨hnone, rfl⟩ | ⟨a, l', hsome, rfl, hnext⟩
    · rw [collect, hnone]
    · have hlen : l'.length < fuel := by simpa using hfuel
      rw [collect, hsome]
      simp [ih hnext hlen, Option.map_some]

theorem collect_unique {fuel' : ℕ} {l' : List α}
    (h : collect item next fuel s = some l) (h' : collect item next fuel' s = some l') : l = l' := by
  induction fuel generalizing fuel' s l l' with
  | zero => cases h
  | succ fuel ih =>
    cases fuel' with
    | zero => cases h'
    | succ fuel' =>
      rw [collect] at h h'
      cases hitem : item s with
      | none =>
        rw [hitem] at h h'
        cases h
        cases h'
        rfl
      | some a =>
        rw [hitem] at h h'
        obtain ⟨l, hl, rfl⟩ := Option.map_eq_some_iff.mp h
        obtain ⟨l', hl', rfl⟩ := Option.map_eq_some_iff.mp h'
        rw [ih hl hl']

end Stream
