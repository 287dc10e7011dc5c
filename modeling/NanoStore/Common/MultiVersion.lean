import Mathlib.Tactic
/-!
# Multi-version maps

A map that keeps, for every key, the history of what was written to it. A
write is not committed at first; a commit gives all uncommitted writes of
a writer one position. A reader at a position is answered by the newest
write committed at or before it, and finds nothing if that write is a
deletion.

As long as commits come at rising positions and no two writers have
uncommitted writes to one key, the order of the writes is the order of
their positions, and the first committed write of a history that a reader
may see is the newest one.
-/

namespace MultiVersion

open Function List

variable {K W V : Type*}

/-- One write: the writer, the position it is committed at, and the value; no value is a
deletion. -/
structure Write (W V : Type*) where
  writer : W
  committedAt : Option ℕ
  value : Option V

/-- The writes to one key, newest first. -/
abbrev History (W V : Type*) := List (Write W V)

/-- The write is committed at or before a position. -/
def Write.seenAt (s : ℕ) (w : Write W V) : Bool :=
  match w.committedAt with
  | some n => n ≤ s
  | none => false

open Write (seenAt)

namespace History

/-- The newest write committed at or before a position; of several at one position, the latest. -/
def newestAt (s : ℕ) (h : History W V) : Option (Write W V) :=
  (h.filter (seenAt s)).argmax fun w => w.committedAt.getD 0

/-- What a reader at a position is answered. -/
def read (s : ℕ) (h : History W V) : Option V := (newestAt s h).bind Write.value

variable [DecidableEq W]

/-- A write that is not committed yet. -/
def write (t : W) (value : Option V) (h : History W V) : History W V := ⟨t, none, value⟩ :: h

/-- The uncommitted writes of a writer committed at a position. -/
def commit (t : W) (n : ℕ) (h : History W V) : History W V :=
  h.map fun w => if w.writer = t ∧ w.committedAt = none then { w with committedAt := some n } else w

end History

open History

/-! ## Histories in order -/

/-- A write may stand before another: it is uncommitted and by the same writer if the other is
uncommitted, and committed no earlier if both are committed. -/
def Newer (w w' : Write W V) : Prop :=
  (w'.committedAt = none → w.committedAt = none ∧ w.writer = w'.writer) ∧
    ∀ n n', w.committedAt = some n → w'.committedAt = some n' → n' ≤ n

/-- The order of the writes is the order of their positions. -/
def Ordered (h : History W V) : Prop := h.Pairwise Newer

variable {h : History W V} {t : W} {n s : ℕ} {value : Option V}

theorem Ordered.write (hord : Ordered h) (hwriter : ∀ w ∈ h, w.committedAt = none → w.writer = t) :
    Ordered (h.write t value) := by
  refine pairwise_cons.mpr ⟨fun w hw => ⟨fun hnone => ⟨rfl, ?_⟩, nofun⟩, hord⟩
  exact (hwriter w hw hnone).symm

theorem Ordered.commit [DecidableEq W] (hord : Ordered h)
    (hbelow : ∀ w ∈ h, ∀ m, w.committedAt = some m → m ≤ n) : Ordered (h.commit t n) := by
  refine pairwise_map.mpr (hord.imp_of_mem fun {w w'} hw hw' hnewer => ?_)
  obtain ⟨hopen, hle⟩ := hnewer
  have hw' := hbelow w' hw'
  split_ifs with hstamp hstamp' hstamp'
  · -- both are committed now
    refine ⟨nofun, fun m m' hm hm' => ?_⟩
    cases hm
    cases hm'
    exact le_rfl
  · -- only the newer one: whatever is below it has its position already
    refine ⟨fun hnone => ?_, fun m m' hm hm' => ?_⟩
    · have hsame := (hopen hnone).2
      exact absurd ⟨hsame ▸ hstamp.1, hnone⟩ hstamp'
    · cases hm
      exact hw' m' hm'
  · -- the older one is uncommitted only if the newer one is, by the same writer
    have hboth := hopen hstamp'.2
    exact absurd ⟨hboth.2.trans hstamp'.1, hboth.1⟩ hstamp
  · exact ⟨hopen, hle⟩

/-- **In an ordered history the newest write is the first that a reader may see.** -/
theorem Ordered.newestAt_eq (hord : Ordered h) : h.newestAt s = h.find? (seenAt s) := by
  have hseen : (h.filter (seenAt s)).Pairwise Newer := hord.filter _
  have hcomm : ∀ w ∈ h.filter (seenAt s), ∃ m, w.committedAt = some m := by
    intro w hw
    have hw := (mem_filter.mp hw).2
    unfold seenAt at hw
    split at hw
    · exact ⟨_, ‹_›⟩
    · cases hw
  rw [newestAt, ← head?_filter]
  cases hfilter : h.filter (seenAt s) with
  | nil => rfl
  | cons w ws =>
    rw [hfilter] at hseen hcomm
    rw [head?_cons, argmax_cons]
    cases hmax : List.argmax (fun w : Write W V => w.committedAt.getD 0) ws with
    | none => rfl
    | some w' =>
      have hw' : w' ∈ ws := argmax_mem hmax
      obtain ⟨m, hm⟩ := hcomm w mem_cons_self
      obtain ⟨m', hm'⟩ := hcomm w' (mem_cons_of_mem _ hw')
      have hle := (rel_of_pairwise_cons hseen hw').2 m m' hm hm'
      simp only [hm, hm', Option.getD_some]
      exact if_neg hle.not_gt

/-- In order, a read takes the first write that it sees. -/
theorem Ordered.read_eq (hord : Ordered h) : h.read s = (h.find? (seenAt s)).bind Write.value := by
  rw [History.read, hord.newestAt_eq]

/-! ## Histories that answer alike -/

/-- Every reader finds the same write in both. -/
def Alike (h h' : History W V) : Prop := ∀ s, h.find? (seenAt s) = h'.find? (seenAt s)

section Alike

variable {h' : History W V}

/-- Histories alike are read alike. -/
theorem Alike.read (hlike : Alike h h') (hord : Ordered h') :
    (h.find? (seenAt s)).bind Write.value = h'.read s := by
  rw [hlike s, hord.read_eq]

theorem Alike.write (hlike : Alike h h') : Alike (h.write t value) (h'.write t value) := by
  intro s
  have hunseen : seenAt s (⟨t, none, value⟩ : Write W V) = false := rfl
  rw [History.write, History.write, find?_cons_of_neg (by simp [hunseen]),
    find?_cons_of_neg (by simp [hunseen]), hlike s]

theorem alike_of_repeated {repeated older : History W V} (hsub : ∀ w ∈ repeated, w ∈ h) :
    Alike (h ++ (repeated ++ older)) (h ++ older) := by
  intro s
  rw [find?_append, find?_append, find?_append]
  cases hfind : h.find? (seenAt s) with
  | some w => rfl
  | none =>
    have hnone : repeated.find? (seenAt s) = none :=
      find?_eq_none.mpr fun w hw => find?_eq_none.mp hfind w (hsub w hw)
    rw [hnone, Option.none_or, Option.none_or]

theorem Alike.trans {h'' : History W V} (hlike : Alike h h') (hlike' : Alike h' h'') : Alike h h'' :=
  fun s => (hlike s).trans (hlike' s)

variable [DecidableEq W]

/-- The newest write committed at a position, if it is an uncommitted one of the writer. -/
def History.commitNewest (t : W) (n : ℕ) : History W V → History W V
  | [] => []
  | w :: older =>
    if w.writer = t ∧ w.committedAt = none then { w with committedAt := some n } :: older
    else w :: older

theorem History.commit_eq_self (h : ∀ w ∈ h', w.committedAt = none → w.writer ≠ t) : h'.commit t n = h' := by
  have hsame : h'.commit t n = h'.map id :=
    map_congr_left fun w hw => if_neg fun hstamp => h w hw hstamp.2 hstamp.1
  rw [hsame, map_id]

theorem History.find?_commit_of_lt (hlt : s < n) :
    (h.commit t n).find? (seenAt s) = h.find? (seenAt s) := by
  induction h with
  | nil => rfl
  | cons w older ih =>
    rw [commit, map_cons]
    split_ifs with hstamp
    · have hbefore : seenAt s w = false := by simp [seenAt, hstamp.2]
      have hafter : seenAt s { w with committedAt := some n } = false := by
        simp [seenAt, hlt]
      rw [find?_cons_of_neg (by simp [hafter]), find?_cons_of_neg (by simp [hbefore])]
      exact ih
    · simp only [find?_cons]
      rw [← ih]
      rfl

/-- **Committing the newest write is enough**: what the writer wrote before it is hidden behind
it. -/
theorem Alike.commitNewest (hlike : Alike h h') (hord : Ordered h') (hhead : h.head? = h'.head?) :
    Alike (h.commitNewest t n) (h'.commit t n) := by
  cases h' with
  | nil =>
    rw [head?_nil, head?_eq_none_iff] at hhead
    subst hhead
    exact hlike
  | cons w older' =>
    obtain ⟨older, rfl⟩ : ∃ older, h = w :: older := by
      cases h with
      | nil => cases hhead
      | cons w' older =>
        cases hhead
        exact ⟨older, rfl⟩
    by_cases hstamp : w.writer = t ∧ w.committedAt = none
    · intro s
      rw [commitNewest, if_pos hstamp, commit, map_cons, if_pos hstamp]
      by_cases hle : n ≤ s
      · have hseen : seenAt s { w with committedAt := some n } = true := by
          simp [seenAt, hle]
        rw [find?_cons_of_pos hseen, find?_cons_of_pos hseen]
      · have hunseen : seenAt s { w with committedAt := some n } = false := by
          simpa [seenAt] using hle
        have hopen : seenAt s w = false := by simp [seenAt, hstamp.2]
        have htail := hlike s
        rw [find?_cons_of_neg (by simp [hopen]), find?_cons_of_neg (by simp [hopen])] at htail
        rw [find?_cons_of_neg (by simp [hunseen]), find?_cons_of_neg (by simp [hunseen]), htail]
        exact (find?_commit_of_lt (not_le.mp hle)).symm
    · -- what is uncommitted further back is of the writer of the newest write, so not of `t`
      have hself : commit t n (w :: older') = w :: older' := by
        refine commit_eq_self fun w' hw' hnone hwriter => hstamp ?_
        rcases mem_cons.mp hw' with rfl | hw'
        · exact ⟨hwriter, hnone⟩
        · have hboth := (rel_of_pairwise_cons hord hw').1 hnone
          exact ⟨hboth.2.trans hwriter, hboth.1⟩
      rw [commitNewest, if_neg hstamp, hself]
      exact hlike

end Alike

/-- An open write is not read. -/
theorem History.read_write : (h.write t value).read s = h.read s := by
  unfold read newestAt write
  rw [filter_cons_of_neg (by simp [seenAt])]

theorem Ordered.read_commit_of_lt [DecidableEq W] (hord : Ordered h)
    (hord' : Ordered (h.commit t n)) (hlt : s < n) : (h.commit t n).read s = h.read s := by
  rw [hord'.read_eq, hord.read_eq, find?_commit_of_lt hlt]

/-- **The readers from the position of a commit on read the newest write**, if the writer is the only one
with uncommitted writes. -/
theorem Ordered.read_commit_of_le [DecidableEq W]
    (hord' : Ordered (h.commit t n)) (hopen : ∀ w ∈ h, w.committedAt = none → w.writer = t)
    (hbelow : ∀ w ∈ h, ∀ m, w.committedAt = some m → m ≤ n) (hle : n ≤ s) :
    (h.commit t n).read s = h.head?.bind Write.value := by
  rw [hord'.read_eq]
  cases h with
  | nil => rfl
  | cons w older =>
    rw [History.commit, map_cons, head?_cons, Option.bind_some]
    split_ifs with hstamp
    · rw [find?_cons_of_pos (by simpa [seenAt] using hle), Option.bind_some]
    · cases hcomm : w.committedAt with
      | none =>
        have hwriter := hopen w mem_cons_self hcomm
        exact absurd ⟨hwriter, hcomm⟩ hstamp
      | some m =>
        have hm := hbelow w mem_cons_self m hcomm
        rw [find?_cons_of_pos (by simpa [seenAt, hcomm] using hm.trans hle), Option.bind_some]

theorem exists_write_of_read {v : V} (hread : h.read s = some v) : ∃ w ∈ h, w.value = some v := by
  obtain ⟨w, hw, hv⟩ := Option.bind_eq_some_iff.mp hread
  exact ⟨w, mem_of_mem_filter (argmax_mem hw), hv⟩

/-! ## Maps -/

/-- A history for every key. -/
abbrev Map (K W V : Type*) := K → History W V

namespace Map

variable [DecidableEq K] [DecidableEq W]

/-- Nothing has been written. -/
def empty : Map K W V := fun _ => []

/-- A write to a key. -/
def write (map : Map K W V) (t : W) (k : K) (value : Option V) : Map K W V :=
  update map k ((map k).write t value)

/-- A writer commits. -/
def commit (map : Map K W V) (t : W) (n : ℕ) : Map K W V := fun k => (map k).commit t n

/-- What a reader of a key at a position is answered. -/
def get (map : Map K W V) (k : K) (s : ℕ) : Option V := (map k).read s

/-- No writer but `t` has uncommitted writes to the key. -/
def OpenTo (map : Map K W V) (t : W) (k : K) : Prop :=
  ∀ w ∈ map k, w.committedAt = none → w.writer = t

end Map

/-! ## Calls -/

/-- A call on a map. -/
inductive Call (K W V : Type*)
  | write (t : W) (k : K) (value : Option V)
  | commit (t : W) (n : ℕ)

variable [DecidableEq K] [DecidableEq W]

/-- What a call makes of a map. -/
def Map.apply (map : Map K W V) : Call K W V → Map K W V
  | .write t k value => map.write t k value
  | .commit t n => map.commit t n

/-- The map a list of calls leaves, the latest call first. -/
def replay : List (Call K W V) → Map K W V
  | [] => Map.empty
  | call :: earlier => (replay earlier).apply call

def Call.position : Call K W V → Option ℕ
  | .write _ _ _ => none
  | .commit _ n => some n

/-- The call may come after the earlier ones: no other writer has uncommitted writes to its key,
and its position is above all earlier positions. -/
def Call.Allowed (earlier : List (Call K W V)) : Call K W V → Prop
  | .write t k _ => (replay earlier).OpenTo t k
  | .commit _ n => ∀ m ∈ earlier.filterMap Call.position, m < n

instance (earlier : List (Call K W V)) (call : Call K W V) : Decidable (call.Allowed earlier) :=
  match call with
  | .write t k _ => inferInstanceAs (Decidable (∀ w ∈ replay earlier k, w.committedAt = none → w.writer = t))
  | .commit _ n => inferInstanceAs (Decidable (∀ m ∈ earlier.filterMap Call.position, m < n))

/-- The writers that have written since they last committed. -/
def openWriters : List (Call K W V) → List W
  | [] => []
  | .write t _ _ :: earlier => t :: openWriters earlier
  | .commit t _ :: earlier => (openWriters earlier).filter (· ≠ t)

/-- Every call may come after the ones before it. -/
def Orderly : List (Call K W V) → Prop
  | [] => True
  | call :: earlier => call.Allowed earlier ∧ Orderly earlier

variable {w : Write W V} {k : K}

/-- Where a write of a replayed map comes from: the last call wrote it, committed it, or left it. -/
theorem mem_replay_cons {call : Call K W V} {earlier : List (Call K W V)}
    (hw : w ∈ replay (call :: earlier) k) : (∃ t value, call = .write t k value ∧ w = ⟨t, none, value⟩) ∨
      (∃ t m w₀, call = .commit t m ∧ w₀ ∈ replay earlier k ∧ w = { w₀ with committedAt := some m }) ∨
      w ∈ replay earlier k ∧ ∀ t m, call = .commit t m → w.committedAt = none → w.writer ≠ t := by
  cases call with
  | write t k' value =>
    by_cases hk : k = k'
    · subst hk
      simp only [replay, Map.apply, Map.write, update_self] at hw
      rcases mem_cons.mp hw with rfl | hw
      · exact .inl ⟨t, value, rfl, rfl⟩
      · exact .inr (.inr ⟨hw, nofun⟩)
    · simp only [replay, Map.apply, Map.write, update_of_ne hk] at hw
      exact .inr (.inr ⟨hw, nofun⟩)
  | commit t m =>
    obtain ⟨w₀, hw₀, rfl⟩ := mem_map.mp hw
    split_ifs with hopen
    · exact .inr (.inl ⟨t, m, w₀, rfl, hw₀, rfl⟩)
    · refine .inr (.inr ⟨hw₀, ?_⟩)
      rintro _ _ ⟨⟩ hnone hwriter
      exact hopen ⟨hwriter, hnone⟩

variable {calls : List (Call K W V)}

theorem mem_of_committedAt (hw : w ∈ replay calls k) (hn : w.committedAt = some n) :
    n ∈ calls.filterMap Call.position := by
  induction calls generalizing w with
  | nil => cases hw
  | cons call earlier ih =>
    rw [mem_filterMap]
    rcases mem_replay_cons hw with ⟨t, value, rfl, rfl⟩ | ⟨t, m, w₀, rfl, -, rfl⟩ | ⟨hw, -⟩
    · cases hn
    · exact ⟨_, mem_cons_self, hn⟩
    · obtain ⟨call', hmem, hpos⟩ := mem_filterMap.mp (ih hw hn)
      exact ⟨call', mem_cons_of_mem _ hmem, hpos⟩

theorem mem_openWriters
    (hw : w ∈ replay calls k) (hnone : w.committedAt = none) : w.writer ∈ openWriters calls := by
  induction calls generalizing w with
  | nil => cases hw
  | cons call earlier ih =>
    rcases mem_replay_cons hw with ⟨t, value, rfl, rfl⟩ | ⟨t, m, w₀, rfl, -, rfl⟩ | ⟨hw₀, hleft⟩
    · exact mem_cons_self
    · cases hnone
    · cases call with
      | write t k' value => exact mem_cons_of_mem _ (ih hw₀ hnone)
      | commit t m =>
        exact mem_filter.mpr ⟨ih hw₀ hnone, by simpa using hleft t m rfl hnone⟩

/-- **Orderly calls leave ordered histories.** -/
theorem Orderly.ordered (h : Orderly calls) (k : K) : Ordered (replay calls k) := by
  induction calls with
  | nil => exact List.Pairwise.nil
  | cons call earlier ih =>
    have hord := ih h.2
    have hallow := h.1
    cases call with
    | write t k' value =>
      simp only [replay, Map.apply, Map.write]
      by_cases hk : k = k'
      · subst hk
        rw [update_self]
        exact hord.write hallow
      · rw [update_of_ne hk]
        exact hord
    | commit t n =>
      refine hord.commit fun w hw m hm => ?_
      exact (hallow m (mem_of_committedAt hw hm)).le

/-- A value in a history was written by a call. -/
theorem mem_of_value (hw : w ∈ replay calls k) : ∃ t, Call.write t k w.value ∈ calls := by
  induction calls generalizing w with
  | nil => cases hw
  | cons call earlier ih =>
    rcases mem_replay_cons hw with ⟨t, value, rfl, rfl⟩ | ⟨t, m, w₀, rfl, hw₀, rfl⟩ | ⟨hw, -⟩
    · exact ⟨t, mem_cons_self⟩
    · obtain ⟨t', ht'⟩ := ih hw₀
      exact ⟨t', mem_cons_of_mem _ ht'⟩
    · obtain ⟨t', ht'⟩ := ih hw
      exact ⟨t', mem_cons_of_mem _ ht'⟩

end MultiVersion
