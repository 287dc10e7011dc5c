import NanoStore.Common.Steps
/-!
# Frames one behind the other

A reader takes one item after the other off the front of its input and
hands each to a step that may fail, until it finds the end or an error. If
the input is made of frames that are read wherever they stand, the items
are those of the frames, and what stands behind them is read next. Cut off
anywhere, the frames are some whole ones and a piece of the next.
-/

namespace Frames

open List

variable {α β ε σ : Type*}

/-- What a reader finds at the front of its input: the end, an error, or an item and how much of the
input it takes. -/
inductive Next (α ε : Type*)
  | done
  | failed (e : ε)
  | item (a : α) (size : ℕ)

/-- The items of an input, each handed to the step; the reader is told how far it has come. Without
fuel there is no answer. -/
def feed (next : ℕ → List β → Next α ε) (step : σ → α → Except ε σ) : ℕ → σ → ℕ → List β → Option (Except ε σ)
  | 0, _, _, _ => none
  | fuel + 1, s, offset, input =>
    match next offset input with
    | .done => some (.ok s)
    | .failed e => some (.error e)
    | .item a size =>
      match step s a with
      | .error e => some (.error e)
      | .ok s => feed next step fuel s (offset + size) (input.drop size)

/-- The items of an input, with as much fuel as it has elements. -/
def run (next : ℕ → List β → Next α ε) (step : σ → α → Except ε σ) (s : σ) (offset : ℕ)
    (input : List β) : Except ε σ :=
  (feed next step (input.length + 1) s offset input).getD (.ok s)

/-- The step that collects the items. -/
def collect (items : List α) (a : α) : Except ε (List α) := .ok (items ++ [a])

/-- The frame is read as the item wherever it stands, and takes its whole length. -/
structure IsFrame (next : ℕ → List β → Next α ε) (frame : List β) (a : α) : Prop where
  reads : ∀ offset behind, next offset (frame ++ behind) = .item a frame.length
  nonempty : frame ≠ []

/-- A reader makes progress: it finds the end of an empty input, and every item takes something. -/
structure Progresses (next : ℕ → List β → Next α ε) : Prop where
  nil : ∀ offset, next offset [] = .done
  item : ∀ offset input a size, next offset input = .item a size → 0 < size

variable {next : ℕ → List β → Next α ε} {step : σ → α → Except ε σ} {s : σ} {offset size : ℕ}
  {input : List β} {a : α}

theorem feed_of_item (h : next offset input = .item a size) (fuel : ℕ) :
    feed next step (fuel + 1) s offset input =
      match step s a with
      | .error e => some (.error e)
      | .ok s => feed next step fuel s (offset + size) (input.drop size) := by
  simp [feed, h]

/-- More fuel gives the same answer. -/
theorem feed_of_le {fuel fuel' : ℕ} (hle : fuel ≤ fuel') {answer : Except ε σ}
    (h : feed next step fuel s offset input = some answer) :
    feed next step fuel' s offset input = some answer := by
  induction fuel generalizing fuel' s offset input with
  | zero => cases h
  | succ fuel ih =>
    obtain ⟨more, rfl⟩ := Nat.exists_eq_add_of_le hle
    rw [Nat.add_right_comm]
    cases hnext : next offset input with
    | done | failed e => simpa only [feed, hnext] using h
    | item a size =>
      rw [feed_of_item hnext] at h ⊢
      cases hstep : step s a with
      | error e => simpa only [hstep] using h
      | ok s' =>
        simp only [hstep] at h ⊢
        exact ih (Nat.le_add_right _ _) h

section

variable (hnext : Progresses next)
include hnext

theorem Progresses.length_drop_lt (h : next offset input = .item a size) :
    (input.drop size).length < input.length := by
  have hsize := hnext.item offset input a size h
  have hne : input ≠ [] := by
    rintro rfl
    rw [hnext.nil] at h
    cases h
  have hpos := length_pos_iff.mpr hne
  rw [length_drop]
  omega

/-- **The fuel is enough.** -/
theorem exists_feed (step : σ → α → Except ε σ) (s : σ) (offset : ℕ)
    {fuel : ℕ} (hfuel : input.length < fuel) :
    ∃ answer, feed next step fuel s offset input = some answer := by
  induction fuel generalizing s offset input with
  | zero => exact absurd hfuel (Nat.not_lt_zero _)
  | succ fuel ih =>
    cases hfound : next offset input with
    | done => exact ⟨.ok s, by simp [feed, hfound]⟩
    | failed e => exact ⟨.error e, by simp [feed, hfound]⟩
    | item a size =>
      rw [feed_of_item hfound]
      cases hstep : step s a with
      | error e => exact ⟨_, rfl⟩
      | ok s' =>
        have hshorter := hnext.length_drop_lt hfound
        exact ih s' (offset + size) (by omega)

theorem run_eq_of_feed (fuel : ℕ) {answer : Except ε σ}
    (h : feed next step fuel s offset input = some answer) : run next step s offset input = answer := by
  obtain ⟨found, hfound⟩ := exists_feed hnext step s offset (Nat.lt_succ_self input.length)
  have hsame := feed_of_le (le_max_left fuel (input.length + 1)) h
  rw [feed_of_le (le_max_right fuel (input.length + 1)) hfound] at hsame
  rw [run, hfound, Option.some.inj hsame]
  rfl

theorem run_of_done (h : next offset input = .done) :
    run next step s offset input = .ok s :=
  run_eq_of_feed hnext 1 (by simp [feed, h])

theorem run_of_failed {e : ε} (h : next offset input = .failed e) :
    run next step s offset input = .error e :=
  run_eq_of_feed hnext 1 (by simp [feed, h])

/-- A run goes on behind the item it took. -/
theorem run_of_item (h : next offset input = .item a size) :
    run next step s offset input =
      (step s a).bind fun s => run next step s (offset + size) (input.drop size) := by
  cases hstep : step s a with
  | error e =>
    refine run_eq_of_feed hnext 1 ?_
    rw [feed_of_item h, hstep]
    rfl
  | ok s' =>
    obtain ⟨answer, hans⟩ :=
      exists_feed hnext step s' (offset + size) (Nat.lt_succ_self (input.drop size).length)
    rw [Except.bind, run_eq_of_feed hnext _ hans]
    refine run_eq_of_feed hnext ((input.drop size).length + 2) ?_
    rw [feed_of_item h, hstep]
    exact hans

/-- **Frames are read one after the other**, and then what stands behind them. -/
theorem run_frames {φ : Type*} {bytes : φ → List β} {item : φ → α}
    {frames : List φ} (hframes : ∀ f ∈ frames, IsFrame next (bytes f) (item f))
    (step : σ → α → Except ε σ) (s : σ) (offset : ℕ) (behind : List β) :
    run next step s offset (frames.flatMap bytes ++ behind) =
      ((frames.map item).foldlM step s).bind fun s =>
        run next step s (offset + (frames.flatMap bytes).length) behind := by
  induction frames generalizing s offset with
  | nil => rfl
  | cons f frames ih =>
    obtain ⟨hhead, htail⟩ := forall_mem_cons.mp hframes
    rw [flatMap_cons, append_assoc, run_of_item hnext (hhead.reads offset _), drop_left,
      map_cons, foldlM_cons]
    cases hstep : step s (item f) with
    | error e => rfl
    | ok s' =>
      rw [Except.bind, ih htail, length_append, Nat.add_assoc]
      rfl

end

theorem foldlM_collect (items before : List α) :
    items.foldlM (collect : List α → α → Except ε (List α)) before = .ok (before ++ items) := by
  induction items generalizing before with
  | nil => simp [pure, Except.pure]
  | cons a items ih =>
    rw [foldlM_cons, collect]
    show items.foldlM collect (before ++ [a]) = _
    rw [ih, append_assoc, singleton_append]

theorem run_collect (hnext : Progresses next) (before : List α) (offset : ℕ) (input : List β) :
    run next collect before offset input =
      (run next collect [] offset input).map (before ++ ·) := by
  -- by how much is left to read
  induction hlen : input.length using Nat.strong_induction_on generalizing before offset input with
  | h n ih =>
    cases hfound : next offset input with
    | done =>
      rw [run_of_done hnext hfound, run_of_done hnext hfound, Except.map, append_nil]
    | failed e => rw [run_of_failed hnext hfound, run_of_failed hnext hfound, Except.map]
    | item a size =>
      have hshorter : (input.drop size).length < n := hlen ▸ hnext.length_drop_lt hfound
      have hrest := fun before => ih _ hshorter before (offset + size) (input.drop size) rfl
      rw [run_of_item hnext hfound, run_of_item hnext hfound, collect, collect, Except.bind, Except.bind,
        hrest (before ++ [a]), hrest ([] ++ [a])]
      cases run next collect [] (offset + size) (input.drop size) with
      | error e => rfl
      | ok items =>
        rw [Except.map, Except.map, Except.map, append_assoc, nil_append]

/-! ## Cuts -/

variable {φ : Type*} (bytes : φ → List β)

/-- The frames that lie completely in the first `n` elements. -/
def whole : ℕ → List φ → List φ
  | _, [] => []
  | n, f :: frames =>
    if (bytes f).length ≤ n then f :: whole (n - (bytes f).length) frames else []

/-- The piece of a frame at the end of the first `n` elements. -/
def torn : ℕ → List φ → List β
  | _, [] => []
  | n, f :: frames =>
    if (bytes f).length ≤ n then torn (n - (bytes f).length) frames else (bytes f).take n

/-- **A cut leaves whole frames and a piece.** -/
theorem take_flatMap {n : ℕ} {frames : List φ} :
    (frames.flatMap bytes).take n = (whole bytes n frames).flatMap bytes ++ torn bytes n frames := by
  induction frames generalizing n with
  | nil => simp [whole, torn]
  | cons f frames ih =>
    rw [flatMap_cons, whole, torn]
    split_ifs with hle
    · rw [take_append, take_of_length_le hle, ih, flatMap_cons, append_assoc]
    · rw [take_append_of_le_length (Nat.le_of_lt (Nat.lt_of_not_le hle))]
      rfl

/-- A cut leaves nothing behind the whole frames, or part of one. -/
theorem torn_cases (n : ℕ) (frames : List φ) : torn bytes n frames = [] ∨
    ∃ f ∈ frames, ∃ m < (bytes f).length, torn bytes n frames = (bytes f).take m := by
  induction frames generalizing n with
  | nil => exact .inl rfl
  | cons f frames ih =>
    rw [torn]
    split_ifs with hle
    · refine (ih (n - (bytes f).length)).imp_right ?_
      rintro ⟨g, hg, m, hm, hpiece⟩
      exact ⟨g, mem_cons_of_mem _ hg, m, hm, hpiece⟩
    · exact .inr ⟨f, mem_cons_self, n, Nat.lt_of_not_le hle, rfl⟩

end Frames
