import NanoStore.Table.Chains
/-!
# The in-memory hash table — one lookup and many

`MemoryHashTable` of `table/hash/memory.rs` has two lookups. `get` reads
the empty value as no value, since a flushed delete leaves a version with
the empty value before the chain of its key; `batch_get` returns what the
chain shows. They agree on a list of keys unless one of them shows the
empty value (`batchGet_eq_iff`).
-/

namespace NanoStore.Table.MemoryHash

open Wal Txn Entries

variable (data : Entries) (keys : List Key) (t : TransactionId) (lsn s : ℕ)

/-- `MemoryHashTable::get`, which never fails. -/
def get (key : Key) : Option Bytes := hideEmpty (shows (chain data key) s)

/-- `MemoryHashTable::batch_get`, which never fails. -/
def batchGet : List (Option Bytes) := keys.map fun key => shows (chain data key) s

/-- `put` or `delete` of `MemoryHashTableWriter` as its flush applies it: a delete puts a tombstone
before the chain of a key that has an entry. -/
def hashTableWrite (t : TransactionId) (key : Key) (data : Entries) : Option Bytes → Entries
  | some value => prepend data key (.new value t)
  | none => if (data.lookup key).isSome then prepend data key (.new [] t) else data

/-- `flush` of `MemoryHashTableWriter`: the pending changes in the order they were made. -/
def flush (pending : List (Key × Option Bytes)) : Entries :=
  pending.foldl (fun data change => hashTableWrite t change.1 data change.2) data

/-- `MemoryHashTable::commit_versions`. -/
def commitVersions : Entries := data.filterMapValues fun _ chain => some (stampHead t lsn chain)

/-- A value is hidden exactly when it is the empty one. -/
theorem eq_hideEmpty_iff {found : Option Bytes} : found = hideEmpty found ↔ found ≠ some [] := by
  match found with
  | none => simp [hideEmpty]
  | some [] => simp [hideEmpty]
  | some (b :: value) => simp [hideEmpty]

/-- A chain shows the empty value when the newest version visible holds it inline. -/
theorem shows_eq_some_nil {c : VersionChain} :
    shows c s = some [] ↔ ∃ v, c.find? (Version.visible (.atLsn s)) = some v ∧ v.value = .inline [] := by
  rw [shows_eq, Option.bind_eq_some_iff]
  refine exists_congr fun v => and_congr_right fun _ => ?_
  cases v.value with
  | inline value => simp [VersionValue.inline?]
  | external ref => simp [VersionValue.inline?]

/-- **The lookups agree where no key shows the empty value.** -/
theorem batchGet_eq_iff : batchGet data keys s = keys.map (get data s) ↔
    ∀ key ∈ keys, ∀ v, (chain data key).find? (Version.visible (.atLsn s)) = some v →
      v.value ≠ .inline [] := by
  unfold batchGet
  rw [List.map_inj_left]
  refine forall₂_congr fun key _ => ?_
  rw [get, eq_hideEmpty_iff, ne_eq, shows_eq_some_nil]
  push Not
  rfl

/-- A key put and committed at 10, then deleted and committed at 20: at 20 `get` finds no value
and `batch_get` the empty one. -/
theorem batchGet_shows_delete :
    let stored := commitVersions (flush ∅ 1 [([7], some [1])]) 1 10
    let deleted := commitVersions (flush stored 2 [([7], none)]) 2 20
    get deleted 20 [7] = none ∧ batchGet deleted [[7]] 20 = [some []] ∧
      batchGet deleted [[7]] 20 ≠ [[7]].map (get deleted 20) := by
  decide +kernel

end NanoStore.Table.MemoryHash
