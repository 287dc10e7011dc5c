import Mathlib.Tactic
/-!
# Shared vocabulary — identifiers, bytes, isolation levels

The identifiers are 64-bit counters in the source. Nothing modelled here
lets one wrap, so they are natural numbers; a log sequence number, a
position of the write-ahead log, is written `ℕ` outright. Keys and values
are byte strings, compared lexicographically as `Vec<u8>` is.
-/


namespace NanoStore

open List

/-- A byte. `Fin 256` rather than `UInt8`: it carries the linear order keys are compared by. -/
abbrev Byte := Fin 256

/-- The literals of bytes rest on this instance. -/
instance byteNeZero : NeZero 256 := ⟨by decide⟩

/-- `Vec<u8>`. -/
abbrev Bytes := List Byte

/-- A key of a table. -/
abbrev Key := Bytes

abbrev TransactionId := ℕ

abbrev TableId := ℕ

/-- A key of a named table: what locks, read sets and write sets are indexed by. -/
abbrev TableKey := TableId × Key

/-- The texts `Display` gives the identifiers. -/
def displayTransactionId (txnId : TransactionId) : String := s!"TransactionId({txnId})"

/-- A bound of a range. -/
inductive Bound
  | included (k : Key)
  | excluded (k : Key)
  | unbounded
  deriving DecidableEq

/-- `ScanBounds`; `startingWith` is its `Prefix`. -/
inductive ScanBounds
  | all
  | startingWith (p : Key)
  | range (start finish : Bound)
  deriving DecidableEq

/-- The key is at or after the lower end of a range. -/
def Bound.below : Bound → Key → Bool
  | .included k, key => k ≤ key
  | .excluded k, key => k < key
  | .unbounded, _ => true

/-- The key is at or before the upper end of a range. -/
def Bound.above : Bound → Key → Bool
  | .included k, key => key ≤ k
  | .excluded k, key => key < k
  | .unbounded, _ => true

/-- `is_in_bounds`. -/
def ScanBounds.contains : ScanBounds → Key → Bool
  | .all, _ => true
  | .startingWith p, key => p.isPrefixOf key
  | .range start finish, key => start.below key && finish.above key

/-- The key is at or after the lower end of the bounds. -/
def ScanBounds.starts : ScanBounds → Key → Bool
  | .all, _ => true
  | .startingWith p, key => p ≤ key
  | .range start _, key => start.below key

variable {k k' : Key}

theorem Key.cons_le_cons {b b' : Byte} : (b :: k : Key) ≤ b' :: k' ↔ b < b' ∨ b = b' ∧ k ≤ k' := by
  simp only [← not_lt, cons_lt_cons_iff]
  grind

variable {p : Key}

theorem Key.le_of_isPrefix (h : p <+: k) : p ≤ k := by
  induction p generalizing k with
  | nil => exact not_lt.mp (not_lt_nil k)
  | cons b p ih =>
    obtain ⟨k, rfl⟩ := h
    exact Key.cons_le_cons.mpr (.inr ⟨rfl, ih (prefix_append p k)⟩)

theorem Key.isPrefix_of_between (hp : p ≤ k) (hk : k ≤ k') (h : p <+: k') : p <+: k := by
  induction p generalizing k k' with
  | nil => exact nil_prefix
  | cons b p ih =>
    obtain ⟨tail, rfl⟩ := h
    cases k with
    | nil => exact absurd (nil_lt_cons b p) hp.not_gt
    | cons b' k =>
      rcases Key.cons_le_cons.mp hp with hlt | ⟨rfl, hrest⟩
      · rcases Key.cons_le_cons.mp hk with hlt' | ⟨rfl, -⟩
        · exact absurd (hlt.trans hlt') (lt_irrefl _)
        · exact absurd hlt (lt_irrefl _)
      · rcases Key.cons_le_cons.mp hk with hlt | ⟨-, hk⟩
        · exact absurd hlt (lt_irrefl _)
        · exact (prefix_cons_inj b).mpr (ih hrest hk (prefix_append p tail))

variable {bounds : ScanBounds}

theorem ScanBounds.starts_of_contains (h : bounds.contains k = true) : bounds.starts k = true := by
  cases bounds with
  | all => rfl
  | startingWith p =>
    have hpre : p <+: k := isPrefixOf_iff_prefix.mp h
    simpa [starts] using Key.le_of_isPrefix hpre
  | range start finish =>
    rw [contains, Bool.and_eq_true] at h
    exact h.1

theorem ScanBounds.starts_mono (h : bounds.starts k = true) (hle : k ≤ k') : bounds.starts k' = true := by
  cases bounds with
  | all => rfl
  | startingWith p =>
    have hp : p ≤ k := by simpa [starts] using h
    simpa [starts] using hp.trans hle
  | range start finish =>
    cases start with
    | included e =>
      have he : e ≤ k := by simpa [starts, Bound.below] using h
      simpa [starts, Bound.below] using he.trans hle
    | excluded e =>
      have he : e < k := by simpa [starts, Bound.below] using h
      simpa [starts, Bound.below] using he.trans_le hle
    | unbounded => rfl

/-- **Bounds have no gaps**: from the lower end up to a key in bounds all keys are. -/
theorem ScanBounds.contains_of_starts
    (hstarts : bounds.starts k = true) (hle : k ≤ k') (h : bounds.contains k' = true) :
    bounds.contains k = true := by
  cases bounds with
  | all => rfl
  | startingWith p =>
    have hp : p ≤ k := by simpa [starts] using hstarts
    have hpre : p <+: k' := isPrefixOf_iff_prefix.mp h
    exact isPrefixOf_iff_prefix.mpr (Key.isPrefix_of_between hp hle hpre)
  | range start finish =>
    rw [contains, Bool.and_eq_true] at h ⊢
    refine ⟨hstarts, ?_⟩
    cases finish with
    | included e => simpa [Bound.above] using hle.trans (by simpa [Bound.above] using h.2)
    | excluded e => simpa [Bound.above] using hle.trans_lt (by simpa [Bound.above] using h.2)
    | unbounded => rfl

/-- Of ascending keys that are past the lower end, those in bounds come first. -/
theorem ScanBounds.mem_takeWhile {α : Type} {key : α → Key} {l : List α} {a : α}
    (hsort : l.Pairwise fun a b => key a < key b) (hstarts : ∀ a ∈ l, bounds.starts (key a) = true)
    (ha : a ∈ l) (hin : bounds.contains (key a) = true) :
    a ∈ l.takeWhile fun a => bounds.contains (key a) := by
  obtain ⟨before, after, rfl⟩ := append_of_mem ha
  have hbefore : ∀ b ∈ before, bounds.contains (key b) = true := by
    intro b hb
    have hlt := (pairwise_append.mp hsort).2.2 b hb a mem_cons_self
    exact contains_of_starts (hstarts b (mem_append_left _ hb)) hlt.le hin
  rw [takeWhile_append_of_pos hbefore, takeWhile_cons, if_pos hin]
  exact mem_append_right _ mem_cons_self

/-- The levels of isolation. -/
inductive IsolationLevel
  | readUncommitted
  | readCommitted
  | repeatableRead
  | serializable
  | snapshotIsolation
  deriving DecidableEq

/-- When a commit is on disk. -/
inductive Durability
  | memoryOnly
  | walOnly
  | flushOnCommit
  | syncOnCommit
  deriving DecidableEq

/-- How a modelled call can fail to return `Ok`: with the error it returns, or by panicking. -/
inductive Failure (ε : Type)
  | error (e : ε)
  | panicked
  deriving DecidableEq

end NanoStore
