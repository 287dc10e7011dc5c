import NanoStore.Txn.Commit
import NanoStore.Txn.Version
/-!
# Versioned tables

Tables that keep a version chain for each key, as the B-tree does: a
write puts an uncommitted version before the chain, `commit_versions`
stamps the versions of its transaction, and a read at a snapshot takes
the newest version committed at or below it. A tombstone is the empty
value. How keys are laid out on pages is not part of this model, so what
a range scan visits is a parameter.
-/

namespace NanoStore.Table

open Wal Steps Txn Function List VersionChain

/-- The version chain of every key; a key without an entry has the empty one. -/
abbrev Versioned := TableKey → VersionChain

namespace Versioned

/-- `get_internal`: the empty value reads as none. -/
def read (tables : Versioned) (k : TableKey) (snapshotLsn : ℕ) : Option Bytes :=
  match findVisibleInline (.atLsn snapshotLsn) (tables k) with
  | some [] => none
  | some value => some value
  | none => none

/-- `insert_internal`: a new version before the others. -/
def insert (tables : Versioned) (t : TransactionId) (k : TableKey) (value : Bytes) : Versioned :=
  update tables k (.new value t :: tables k)

/-- One entry of a write set through the writer of its table: a delete is dropped if the key
cannot be seen at the snapshot. -/
def write (tables : Versioned) (t : TransactionId) (snapshotLsn : ℕ) : TableKey × Option Bytes → Versioned
  | (k, some value) => tables.insert t k value
  | (k, none) => if (tables.read k snapshotLsn).isSome then tables.insert t k [] else tables

/-- `commit_versions` of one table. -/
def commitVersions (tables : Versioned) (t : TransactionId) (lsn : ℕ) (table : TableId) :
    Versioned :=
  fun k => if k.1 = table then stamp t lsn (tables k) else tables k

/-! What a reader sees of these: nothing of an uncommitted version, and of a stamp only from
its position on. -/

variable {tables tables' : Versioned} {k k' : TableKey} {t : TransactionId} {snapshotLsn lsn : ℕ}

theorem read_congr (h : tables' k = tables k) : tables'.read k snapshotLsn = tables.read k snapshotLsn := by
  unfold read
  rw [h]

theorem read_insert {value : Bytes} :
    (tables.insert t k' value).read k snapshotLsn = tables.read k snapshotLsn := by
  by_cases hk : k = k'
  · subst hk
    have hhidden : (Version.new value t).visible (.atLsn snapshotLsn) = false := rfl
    simp [read, insert, Function.update_self, findVisibleInline_of_hidden hhidden]
  · exact read_congr (by simp [insert, hk])

/-- A write not committed is not read. -/
theorem read_write (w : TableKey × Option Bytes) :
    (tables.write t lsn w).read k snapshotLsn = tables.read k snapshotLsn := by
  obtain ⟨k', _ | value⟩ := w
  · simp only [write]
    split_ifs
    · exact read_insert
    · rfl
  · exact read_insert

/-- **A stamp above the snapshot changes no read at it.** -/
theorem findVisibleInline_stamp {chain : VersionChain} (h : snapshotLsn < lsn) :
    findVisibleInline (.atLsn snapshotLsn) (stamp t lsn chain) =
      findVisibleInline (.atLsn snapshotLsn) chain := by
  have hvis : (Version.visible (.atLsn snapshotLsn)) ∘ (fun v : Version =>
      if v.createdBy = t ∧ v.commitLsn = none then { v with commitLsn := some lsn } else v) =
      Version.visible (.atLsn snapshotLsn) := by
    funext v
    by_cases hv : v.createdBy = t ∧ v.commitLsn = none
    · have : ¬lsn ≤ snapshotLsn := by omega
      simp [Version.visible, hv, this]
    · simp [hv]
  rw [findVisibleInline_eq, findVisibleInline_eq, stamp, find?_map, hvis]
  cases chain.find? (Version.visible (.atLsn snapshotLsn)) with
  | none => rfl
  | some v =>
    simp only [Option.map_some, Option.bind_some]
    split_ifs <;> rfl

/-- A commit is not read before its number. -/
theorem read_commitVersions {table : TableId} (h : snapshotLsn < lsn) :
    (tables.commitVersions t lsn table).read k snapshotLsn = tables.read k snapshotLsn := by
  by_cases hk : k.1 = table
  · simp [read, commitVersions, hk, findVisibleInline_stamp h]
  · exact read_congr (by simp [commitVersions, hk])

theorem stamp_eq_self {chain : VersionChain} (h : ∀ v ∈ chain, v.commitLsn = none → v.createdBy ≠ t) :
    stamp t lsn chain = chain := by
  refine (map_congr_left fun v hv => ?_).trans (map_id chain)
  exact if_neg fun hboth => h v hv hboth.2 hboth.1

variable {w : TableKey × Option Bytes} {v : Version}

/-- What a write adds is open and of its key. -/
theorem mem_write (h : v ∈ tables.write t snapshotLsn w k) :
    v ∈ tables k ∨ v.createdBy = t ∧ v.commitLsn = none ∧ k = w.1 := by
  have hins : ∀ value, v ∈ tables.insert t w.1 value k →
      v ∈ tables k ∨ v.createdBy = t ∧ v.commitLsn = none ∧ k = w.1 := by
    intro value hv
    by_cases hk : k = w.1
    · rw [hk, insert, update_self] at hv
      rcases mem_cons.mp hv with rfl | hv
      · exact .inr ⟨rfl, rfl, hk⟩
      · exact .inl (hk ▸ hv)
    · rw [insert, update_of_ne hk] at hv
      exact .inl hv
  obtain ⟨k', _ | value⟩ := w
  · simp only [write] at h
    split_ifs at h
    · exact hins [] h
    · exact .inl h
  · exact hins value h

variable {ws : List (TableKey × Option Bytes)}

theorem mem_foldl_write (h : v ∈ ws.foldl (fun tables w => tables.write t snapshotLsn w) tables k) :
    v ∈ tables k ∨ v.createdBy = t ∧ v.commitLsn = none ∧ k ∈ ws.map Prod.fst := by
  induction ws generalizing tables with
  | nil => exact .inl h
  | cons w ws ih =>
    rcases ih h with h | ⟨hby, hnone, hk⟩
    · rcases mem_write h with h | ⟨hby, hnone, hk⟩
      · exact .inl h
      · exact .inr ⟨hby, hnone, by simp [hk]⟩
    · exact .inr ⟨hby, hnone, mem_cons_of_mem _ hk⟩

/-- Nor are several writes. -/
theorem read_foldl_write {s : ℕ} : (ws.foldl (fun tables w => tables.write t snapshotLsn w) tables).read k s =
    tables.read k s := by
  induction ws generalizing tables with
  | nil => rfl
  | cons w ws ih => rw [foldl_cons, ih, read_write]

variable {ids : List TableId}

theorem read_foldl_commitVersions (h : snapshotLsn < lsn) :
    (ids.foldl (fun tables table => tables.commitVersions t lsn table) tables).read k snapshotLsn =
      tables.read k snapshotLsn := by
  induction ids generalizing tables with
  | nil => rfl
  | cons table ids ih => rw [foldl_cons, ih, read_commitVersions h]

theorem foldl_commitVersions_eq_self (h : ∀ v ∈ tables k, v.commitLsn = none → v.createdBy ≠ t) :
    ids.foldl (fun tables table => tables.commitVersions t lsn table) tables k = tables k := by
  induction ids generalizing tables with
  | nil => rfl
  | cons table ids ih =>
    have hstep : tables.commitVersions t lsn table k = tables k := by
      simp only [commitVersions]
      split_ifs
      · exact stamp_eq_self h
      · rfl
    rw [foldl_cons, ih (by rwa [hstep]), hstep]

/-! A committed write set, key by key. -/

/-- The versions a write puts before the chain of its key. -/
def added (tables : Versioned) (t : TransactionId) (snapshotLsn : ℕ) : TableKey × Option Bytes → VersionChain
  | (_, some value) => [.new value t]
  | (k, none) => if (tables.read k snapshotLsn).isSome then [.new [] t] else []

theorem write_self (value : Option Bytes) :
    tables.write t snapshotLsn (k, value) k = tables.added t snapshotLsn (k, value) ++ tables k := by
  cases value with
  | none =>
    simp only [write, added]
    split_ifs
    · exact update_self _ _ _
    · rfl
  | some value => exact update_self _ _ _

/-- A write is of its key only. -/
theorem write_of_ne (h : k ≠ w.1) : tables.write t snapshotLsn w k = tables k := by
  obtain ⟨k', _ | value⟩ := w
  · simp only [write]
    split_ifs
    · exact update_of_ne h _ _
    · rfl
  · exact update_of_ne h _ _

theorem foldl_write_of_notMem (h : k ∉ ws.map Prod.fst) :
    ws.foldl (fun tables w => tables.write t snapshotLsn w) tables k = tables k := by
  induction ws generalizing tables with
  | nil => rfl
  | cons w ws ih =>
    rw [map_cons, mem_cons, not_or] at h
    rw [foldl_cons, ih h.2, write_of_ne h.1]

/-- **Each key of a write set gets its own versions**, whatever the order. -/
theorem foldl_write_of_mem {value : Option Bytes} (hnd : (ws.map Prod.fst).Nodup) (h : (k, value) ∈ ws) :
    ws.foldl (fun tables w => tables.write t snapshotLsn w) tables k =
      tables.added t snapshotLsn (k, value) ++ tables k := by
  induction ws generalizing tables with
  | nil => cases h
  | cons w ws ih =>
    rw [map_cons, nodup_cons] at hnd
    rw [foldl_cons]
    rcases mem_cons.mp h with rfl | h
    · rw [foldl_write_of_notMem hnd.1, write_self]
    · have hne : k ≠ w.1 := by
        rintro rfl
        exact hnd.1 (mem_map.mpr ⟨_, h, rfl⟩)
      have hadded : (tables.write t snapshotLsn w).added t snapshotLsn (k, value) =
          tables.added t snapshotLsn (k, value) := by
        cases value with
        | none => simp [added, read_write]
        | some value => rfl
      rw [ih hnd.2 h, hadded, write_of_ne hne]

theorem stamp_stamp (chain : VersionChain) : stamp t lsn (stamp t lsn chain) = stamp t lsn chain := by
  refine stamp_eq_self fun v hv hnone hby => ?_
  obtain ⟨v₀, -, rfl⟩ := mem_map.mp hv
  split_ifs at hnone hby with h
  · exact h ⟨hby, hnone⟩

theorem foldl_commitVersions_apply :
    ids.foldl (fun tables table => tables.commitVersions t lsn table) tables k =
      if k.1 ∈ ids then stamp t lsn (tables k) else tables k := by
  induction ids generalizing tables with
  | nil => rfl
  | cons table ids ih =>
    rw [foldl_cons, ih]
    simp only [commitVersions, mem_cons]
    by_cases hk : k.1 = table <;> by_cases hmem : k.1 ∈ ids <;> simp [hk, hmem, stamp_stamp]

theorem mem_foldl_commitVersions
    (h : v ∈ ids.foldl (fun tables table => tables.commitVersions t lsn table) tables k) :
    v ∈ tables k ∨ v.commitLsn = some lsn ∧ ∃ v₀ ∈ tables k, v₀.createdBy = v.createdBy := by
  rw [foldl_commitVersions_apply] at h
  split_ifs at h
  · obtain ⟨v₀, hv₀, rfl⟩ := mem_map.mp h
    split_ifs
    · exact .inr ⟨rfl, v₀, hv₀, rfl⟩
    · exact .inl hv₀
  · exact .inl h

/-- What is committed last is read from its number on; an empty value is none. -/
theorem read_committed {tables' : Versioned} {value : Bytes} (hs : lsn ≤ snapshotLsn)
    (h : tables' k = ⟨.inline value, t, some lsn⟩ :: tables k) :
    tables'.read k snapshotLsn = if value = [] then none else some value := by
  have hvis : Version.visible (.atLsn snapshotLsn) ⟨.inline value, t, some lsn⟩ = true := by
    simpa [Version.visible] using hs
  rw [read, h, findVisibleInline_of_visible hvis]
  cases value <;> rfl

/-- The texts with which `commit` refuses a special operation on such a table. -/
def wrongTable : WriteOpType → String
  | .graphAddEdge | .graphRemoveEdge => "table is not a graph adjacency table"
  | .timeSeriesInsert | .timeSeriesDelete => "table is not a time series table"
  | .vectorInsert | .vectorDelete => "table is not a vector search table"
  | .geoInsert | .geoDelete => "table is not a geospatial R-Tree table"
  | .fullTextIndex | .fullTextUpdate | .fullTextDelete => "table is not a full-text index"
  | _ => "table is not a bloom filter"

/-- Versioned tables under transactions, for any order of scanning. -/
def engines (scan : Versioned → TableId → ScanBounds → ℕ → Except TransactionError (List Key)) :
    Engines Versioned where
  get tables k snapshotLsn := .ok (tables.read k snapshotLsn)
  contains tables k snapshotLsn := .ok (tables.read k snapshotLsn).isSome
  scanKeys := scan
  oldValue tables k snapshotLsn := .ok (some (tables.read k snapshotLsn))
  apply tables t snapshotLsn w := (tables.write t snapshotLsn w, .ok ())
  undo tables t snapshotLsn
    | .restoreValue k old => (tables.write t snapshotLsn (k, old), .ok ())
    | .restoreKey k old => (tables.write t snapshotLsn (k, some old), .ok ())
    | _ => (tables, .ok ())
  applySpecial tables _ _ op := (tables, .error (.other (wrongTable op.opType) .text))
  commitVersions tables t _ lsn table := (tables.commitVersions t lsn table, .ok ())

/-! The phases of a commit on versioned tables: applying and stamping cannot fail, and special
operations change nothing. -/

variable {scan : Versioned → TableId → ScanBounds → ℕ → Except TransactionError (List Key)}
  {txn : Transaction} {choices : CommitChoices}

/-- The writes of a transaction never fail. -/
theorem applyAllChanges_eq : txn.applyAllChanges (engines scan) choices tables =
    (choices.writes.foldl (fun tables w => tables.write txn.txnId txn.snapshotLsn w) tables, .ok ()) :=
  forEach_of_ok (fun _ _ => rfl)

theorem applySpecials_fst {ops : List SpecialOp} :
    (forEach (fun tables op => (engines scan).applySpecial tables txn.txnId lsn op) tables ops).1 = tables :=
  forEach_fst (P := fun tables' => tables' = tables) (fun _ _ _ h => h) rfl

theorem commitVersions_eq :
    forEach (fun tables table => (engines scan).commitVersions tables txn.txnId txn.snapshotLsn lsn
      table) tables choices.tables =
      (choices.tables.foldl (fun tables table => tables.commitVersions txn.txnId lsn table) tables, .ok ()) :=
  forEach_of_ok (fun _ _ => rfl)

/-- Tables without an entry. -/
def empty : Versioned := fun _ => []

/-- The engines with a scan that finds nothing, for runs that do not scan. -/
def unscanned : Engines Versioned := engines fun _ _ _ _ => .ok []

end Versioned

end NanoStore.Table
