import NanoStore.Common.SortedMap
import NanoStore.Common.Stream
import NanoStore.Txn.Version
/-!
# The memory B-tree

`MemoryBTree` of `table/btree/memory.rs`: a version chain for each key, in
the order of the keys. A writer collects its changes and applies them when
it is flushed: a value goes before the chain of its key, a delete takes
the chain away, with all versions older snapshots read. Committing stamps
the first version of every chain that is an uncommitted one of the
transaction.

What a snapshot reads of a key changes through later transactions exactly
if the chain of the key is taken away and the snapshot read something of
it (`get_later_iff`). How much memory is used is not part of the model.
-/

namespace NanoStore.Table

open Txn List

/-- The version chains of a `MemoryBTree`. -/
abbrev MemoryData := SortedMap Key VersionChain

/-- `MemoryBTreeWriter`. -/
structure MemoryWriter where
  txId : TransactionId
  snapshotLsn : ℕ
  pendingChanges : List (Key × Option Bytes)
  deriving DecidableEq

namespace MemoryData

variable (data : MemoryData) (key : Key)

/-- The chain of a key, empty if the key has none. -/
def chain : VersionChain := (data.lookup key).getD []

def get (snapshotLsn : ℕ) : Option Bytes := VersionChain.findVisibleInline (.atLsn snapshotLsn) (data.chain key)

/-- One change of a flush. -/
def applyChange (txId : TransactionId) (data : MemoryData) : Key × Option Bytes → MemoryData
  | (key, some value) => data.insert key (.new value txId :: data.chain key)
  | (key, none) => data.erase key

/-- The first version of a chain, committed if it is an uncommitted one of the transaction. -/
def commitHead (txId : TransactionId) (commitLsn : ℕ) : VersionChain → VersionChain
  | [] => []
  | v :: older =>
    if v.createdBy = txId ∧ v.commitLsn = none then { v with commitLsn := some commitLsn } :: older
    else v :: older

def commitVersions (txId : TransactionId) (commitLsn : ℕ) : MemoryData :=
  data.mapValues (commitHead txId commitLsn)

/-- `insert_entry` of an index: the version is committed at once. -/
def insertEntry (primaryKey : Bytes) (txId : TransactionId) (commitLsn : ℕ) : MemoryData :=
  data.insert key (⟨.inline primaryKey, txId, some commitLsn⟩ :: data.chain key)

/-- `u64::MAX`. -/
def maxLsn : ℕ := 2 ^ 64 - 1

/-- `delete_entry` of an index: the chain goes if its newest value is the primary key. -/
def deleteEntry (primaryKey : Bytes) : MemoryData :=
  if data.get key maxLsn = some primaryKey then data.erase key else data

end MemoryData

open MemoryData

namespace MemoryWriter

variable (writer : MemoryWriter)

/-- `put`: the writer, and the size it reports. -/
def put (key value : Bytes) : MemoryWriter × ℕ :=
  ({ writer with pendingChanges := writer.pendingChanges ++ [(key, some value)] },
    key.length + value.length + 16)

/-- `delete`: whether the key has a chain. -/
def delete (data : MemoryData) (key : Key) : MemoryWriter × Bool :=
  if (data.lookup key).isSome then
    ({ writer with pendingChanges := writer.pendingChanges ++ [(key, none)] }, true)
  else (writer, false)

/-- The keys of `range_delete`: both ends count as included. A range whose start is behind its end makes
`BTreeMap::range` panic. -/
def rangeKeys (data : MemoryData) : ScanBounds → Except (Failure Empty) (List Key)
  | .all => .ok (data.entries.map Prod.fst)
  | .startingWith p => .ok (((data.since p).takeWhile fun e => p.isPrefixOf e.1).map Prod.fst)
  | .range start finish =>
    match endOf start, endOf finish with
    | some s, some e =>
      if e < s then .error .panicked
      else .ok ((data.entries.filter fun entry => s ≤ entry.1 ∧ entry.1 ≤ e).map Prod.fst)
    | some s, none => .ok ((data.since s).map Prod.fst)
    | none, some e => .ok ((data.entries.filter fun entry => entry.1 ≤ e).map Prod.fst)
    | none, none => .ok (data.entries.map Prod.fst)
where
  /-- The key of an end of a range. -/
  endOf : Bound → Option Key
    | .included k => some k
    | .excluded k => some k
    | .unbounded => none

/-- `range_delete`: a tombstone for every key in bounds. -/
def rangeDelete (data : MemoryData) (bounds : ScanBounds) : Except (Failure Empty) (MemoryWriter × ℕ) :=
  (rangeKeys data bounds).map fun keys =>
    ({ writer with pendingChanges := writer.pendingChanges ++ keys.map (·, none) }, keys.length)

def flush (data : MemoryData) : MemoryData × MemoryWriter :=
  (writer.pendingChanges.foldl (applyChange writer.txId) data, { writer with pendingChanges := [] })

end MemoryWriter

/-! ## Histories -/

/-- The data, and the writers that are open. -/
structure MemoryTable where
  data : MemoryData
  writers : ℕ → Option MemoryWriter

/-- The calls on a table, its index operations and its writers. -/
inductive MemoryCall
  | writer (i : ℕ) (txId : TransactionId) (snapshotLsn : ℕ)
  | put (i : ℕ) (key value : Bytes)
  | delete (i : ℕ) (key : Key)
  | rangeDelete (i : ℕ) (bounds : ScanBounds)
  | flush (i : ℕ)
  | commitVersions (i : ℕ) (commitLsn : ℕ)
  | insertEntry (key primaryKey : Bytes) (txId : TransactionId) (commitLsn : ℕ)
  | deleteEntry (key primaryKey : Bytes)

namespace MemoryTable

variable (table : MemoryTable)

/-- A table without keys and without writers. -/
def new : MemoryTable := ⟨.empty, fun _ => none⟩

/-- A writer is changed. -/
def setWriter (i : ℕ) (writer : MemoryWriter) : MemoryTable :=
  { table with writers := Function.update table.writers i (some writer) }

/-- One call. A call of a writer that was not made has no effect, and neither has one that panics. -/
def exec : MemoryCall → MemoryTable
  | .writer i txId snapshotLsn => table.setWriter i ⟨txId, snapshotLsn, []⟩
  | .put i key value => withWriter i fun writer => table.setWriter i (writer.put key value).1
  | .delete i key => withWriter i fun writer => table.setWriter i (writer.delete table.data key).1
  | .rangeDelete i bounds => withWriter i fun writer =>
      match writer.rangeDelete table.data bounds with
      | .ok (writer, _) => table.setWriter i writer
      | .error _ => table
  | .flush i => withWriter i fun writer =>
      { table.setWriter i (writer.flush table.data).2 with data := (writer.flush table.data).1 }
  | .commitVersions i commitLsn => withWriter i fun writer =>
      { table with data := table.data.commitVersions writer.txId commitLsn }
  | .insertEntry key primaryKey txId commitLsn =>
      { table with data := table.data.insertEntry key primaryKey txId commitLsn }
  | .deleteEntry key primaryKey => { table with data := table.data.deleteEntry key primaryKey }
where
  /-- The call of a writer. -/
  withWriter (i : ℕ) (call : MemoryWriter → MemoryTable) : MemoryTable :=
    match table.writers i with
    | none => table
    | some writer => call writer

/-- The calls of a list in turn. -/
def run (calls : List MemoryCall) : MemoryTable := calls.foldl exec table

end MemoryTable

/-- What the call commits, it commits behind a position. -/
def MemoryCall.CommitsBehind (s : ℕ) : MemoryCall → Prop
  | .commitVersions _ commitLsn => s < commitLsn
  | .insertEntry _ _ _ commitLsn => s < commitLsn
  | _ => True

instance (s : ℕ) (call : MemoryCall) : Decidable (call.CommitsBehind s) :=
  match call with
  | .commitVersions _ commitLsn => inferInstanceAs (Decidable (s < commitLsn))
  | .insertEntry _ _ _ commitLsn => inferInstanceAs (Decidable (s < commitLsn))
  | .writer _ _ _ | .put _ _ _ | .delete _ _ | .rangeDelete _ _ | .flush _ | .deleteEntry _ _ => .isTrue trivial

/-- The call takes the chain of a key away: a flush with a delete of the key, or `delete_entry` with the
newest value of the key. -/
def MemoryCall.Removes (key : Key) (table : MemoryTable) : MemoryCall → Prop
  | .flush i => ∃ writer ∈ table.writers i, (key, none) ∈ writer.pendingChanges
  | .deleteEntry key' primaryKey => key' = key ∧ table.data.get key maxLsn = some primaryKey
  | _ => False

instance (key : Key) (table : MemoryTable) (call : MemoryCall) : Decidable (call.Removes key table) :=
  match call with
  | .flush i => inferInstanceAs (Decidable (∃ writer ∈ table.writers i, (key, none) ∈ writer.pendingChanges))
  | .deleteEntry _ _ => inferInstanceAs (Decidable (_ ∧ _))
  | .writer _ _ _ | .put _ _ _ | .delete _ _ | .rangeDelete _ _ | .commitVersions _ _ | .insertEntry _ _ _ _ =>
    .isFalse id

/-- No call of a list takes the chain of a key away. -/
def MemoryTable.Spares (key : Key) : MemoryTable → List MemoryCall → Prop
  | _, [] => True
  | table, call :: calls => ¬ call.Removes key table ∧ Spares key (table.exec call) calls

instance MemoryTable.decidableSpares (key : Key) :
    ∀ (table : MemoryTable) (calls : List MemoryCall), Decidable (table.Spares key calls)
  | _, [] => .isTrue trivial
  | table, call :: calls =>
    have := decidableSpares key (table.exec call) calls
    inferInstanceAs (Decidable (_ ∧ _))

/-! ## What a snapshot reads -/

namespace MemoryData

variable {data : MemoryData} {key key' : Key} {txId : TransactionId} {s commitLsn : ℕ}

theorem chain_insert (c : VersionChain) :
    chain (SortedMap.insert data key' c) key = if key = key' then c else data.chain key := by
  rw [chain, SortedMap.lookup_insert]
  split_ifs
  · rfl
  · rfl

theorem get_insert {v : Version} (h : v.visible (.atLsn s) = false) :
    get (SortedMap.insert data key' (v :: data.chain key')) key s = data.get key s := by
  rw [get, chain_insert]
  split_ifs with hk
  · rw [VersionChain.findVisibleInline_of_hidden h, hk, get]
  · rfl

theorem get_erase : get (SortedMap.erase data key') key s = if key = key' then none else data.get key s := by
  rw [get, chain, SortedMap.lookup_erase]
  split_ifs
  · rfl
  · rfl

theorem get_applyChange (change : Key × Option Bytes) :
    (applyChange txId data change).get key s = if change = (key, none) then none else data.get key s := by
  obtain ⟨key', _ | value⟩ := change
  · rw [applyChange, get_erase]
    simp [Prod.mk.injEq, and_true, eq_comm]
  · rw [applyChange, get_insert rfl, if_neg (by simp)]

/-- **What a flush leaves to read**: nothing of a key with a delete, and everything else. -/
theorem get_foldl_applyChange {changes : List (Key × Option Bytes)} :
    (changes.foldl (applyChange txId) data).get key s =
      if (key, none) ∈ changes then none else data.get key s := by
  induction changes generalizing data with
  | nil => rw [foldl_nil, if_neg not_mem_nil]
  | cons change changes ih =>
    rw [foldl_cons, ih, get_applyChange]
    by_cases hlater : (key, none) ∈ changes
    · rw [if_pos hlater, if_pos (mem_cons_of_mem _ hlater)]
    · by_cases hfst : change = (key, none)
      · rw [if_neg hlater, if_pos hfst, if_pos (by rw [hfst]; exact mem_cons_self)]
      · have hnone : (key, none) ∉ change :: changes := by
          rw [mem_cons, not_or]
          exact ⟨Ne.symm hfst, hlater⟩
        rw [if_neg hlater, if_neg hfst, if_neg hnone]

theorem get_commitVersions (h : s < commitLsn) :
    (data.commitVersions txId commitLsn).get key s = data.get key s := by
  have hhead : ∀ c : VersionChain, VersionChain.findVisibleInline (.atLsn s) (commitHead txId commitLsn c) =
      VersionChain.findVisibleInline (.atLsn s) c := by
    intro c
    cases c with
    | nil => rfl
    | cons v older =>
      rw [commitHead]
      split_ifs with hopen
      · have hbefore : v.visible (.atLsn s) = false := by simp [Version.visible, hopen.2]
        have hafter : Version.visible (.atLsn s) { v with commitLsn := some commitLsn } = false := by
          simp [Version.visible, h]
        rw [VersionChain.findVisibleInline_of_hidden hafter, VersionChain.findVisibleInline_of_hidden hbefore]
      · rfl
  rw [get, get, chain, chain, commitVersions, SortedMap.lookup_mapValues]
  cases data.lookup key with
  | none => rfl
  | some c => exact hhead c

theorem get_deleteEntry {primaryKey : Bytes} : (data.deleteEntry key' primaryKey).get key s =
    if key' = key ∧ data.get key maxLsn = some primaryKey then none else data.get key s := by
  rw [deleteEntry]
  by_cases hremoves : key' = key ∧ data.get key maxLsn = some primaryKey
  · obtain ⟨rfl, hnew⟩ := hremoves
    rw [if_pos hnew, get_erase, if_pos rfl, if_pos ⟨rfl, hnew⟩]
  · rw [if_neg hremoves]
    split_ifs with hnew
    · have hkey : key ≠ key' := fun heq => hremoves ⟨heq.symm, heq ▸ hnew⟩
      rw [get_erase, if_neg hkey]
    · rfl

end MemoryData

namespace MemoryTable

variable {table : MemoryTable} {key : Key} {s : ℕ} {call : MemoryCall}

/-- **What one later call does to a read**: a call that takes the chain away leaves nothing to read, and
every other call leaves the read as it is. -/
theorem get_exec (h : call.CommitsBehind s) :
    (call.Removes key table → (table.exec call).data.get key s = none) ∧
      (¬ call.Removes key table → (table.exec call).data.get key s = table.data.get key s) := by
  cases call with
  | writer i txId snapshotLsn => exact ⟨False.elim, fun _ => rfl⟩
  | put i key' value | delete i key' =>
    refine ⟨False.elim, fun _ => ?_⟩
    rw [exec, exec.withWriter]
    cases table.writers i with
    | none => rfl
    | some writer => rfl
  | rangeDelete i bounds =>
    refine ⟨False.elim, fun _ => ?_⟩
    rw [exec, exec.withWriter]
    cases table.writers i with
    | none => rfl
    | some writer =>
      dsimp only
      cases writer.rangeDelete table.data bounds with
      | error e | ok result => rfl
  | flush i =>
    rw [exec, exec.withWriter]
    cases hwriter : table.writers i with
    | none => exact ⟨fun ⟨writer, hsome, _⟩ => absurd (hwriter.symm.trans hsome) (by simp), fun _ => rfl⟩
    | some writer =>
      have hread : (writer.flush table.data).1.get key s =
          if (key, none) ∈ writer.pendingChanges then none else table.data.get key s :=
        get_foldl_applyChange
      refine ⟨?_, fun hspared => ?_⟩
      · rintro ⟨writer', hsome, hmem⟩
        obtain rfl : writer = writer' := Option.some.inj (hwriter.symm.trans hsome)
        exact hread.trans (if_pos hmem)
      · exact hread.trans (if_neg fun hmem => hspared ⟨writer, hwriter, hmem⟩)
  | commitVersions i commitLsn =>
    refine ⟨False.elim, fun _ => ?_⟩
    rw [exec, exec.withWriter]
    cases table.writers i with
    | none => rfl
    | some writer => exact get_commitVersions h
  | insertEntry key' primaryKey txId commitLsn =>
    exact ⟨False.elim, fun _ => get_insert (by simpa [Version.visible, MemoryCall.CommitsBehind] using h)⟩
  | deleteEntry key' primaryKey =>
    have hread : (table.data.deleteEntry key' primaryKey).get key s = if _ then none else _ :=
      get_deleteEntry
    exact ⟨fun hremoves => hread.trans (if_pos hremoves), fun hspared => hread.trans (if_neg hspared)⟩

/-- **What a snapshot reads changes through later calls exactly if the chain of the key is taken away and
something was read of it.** -/
theorem get_later_iff (table : MemoryTable) (key : Key) (s : ℕ) (calls : List MemoryCall)
    (hlater : ∀ call ∈ calls, call.CommitsBehind s) :
    (table.run calls).data.get key s = table.data.get key s ↔
      table.data.get key s = none ∨ table.Spares key calls := by
  -- once nothing is read, nothing is read later
  have hnone : ∀ (calls : List MemoryCall) (table : MemoryTable), (∀ call ∈ calls, call.CommitsBehind s) →
      table.data.get key s = none → (table.run calls).data.get key s = none := by
    intro calls
    induction calls with
    | nil => exact fun table _ hread => hread
    | cons call calls ih =>
      intro table hlater hread
      obtain ⟨hremoves, hkeeps⟩ := get_exec (hlater call mem_cons_self)
      refine ih (table.exec call) (fun c hc => hlater c (mem_cons_of_mem _ hc)) ?_
      by_cases hcase : call.Removes key table
      · exact hremoves hcase
      · rw [hkeeps hcase, hread]
  induction calls generalizing table with
  | nil => exact iff_of_true rfl (.inr trivial)
  | cons call calls ih =>
    have hcall := hlater call mem_cons_self
    have hcalls : ∀ c ∈ calls, c.CommitsBehind s := fun c hc => hlater c (mem_cons_of_mem _ hc)
    obtain ⟨hremoves, hkeeps⟩ := get_exec hcall
    show ((table.exec call).run calls).data.get key s = _ ↔ _
    by_cases hcase : call.Removes key table
    · rw [hnone calls _ hcalls (hremoves hcase)]
      constructor
      · exact fun hread => .inl hread.symm
      · rintro (hread | hspares)
        · exact hread.symm
        · exact absurd hcase hspares.1
    · rw [← hkeeps hcase]
      exact (ih (table.exec call) hcalls).trans (or_congr_right (and_iff_right hcase).symm)

/-- A key is written, and a later transaction writes it again. -/
def rewritten : List MemoryCall := [.writer 0 1 0, .put 0 [1] [5], .flush 0, .commitVersions 0 10]

/-- The later write does not change what the older snapshot reads. -/
theorem get_later_iff_put :
    ((new.run rewritten).run [.writer 1 2 10, .put 1 [1] [6], .flush 1, .commitVersions 1 20]).data.get [1] 10 =
      some [5] := by
  have hstable := (get_later_iff (new.run rewritten) [1] 10
    [.writer 1 2 10, .put 1 [1] [6], .flush 1, .commitVersions 1 20] (by decide)).mpr (.inr (by decide))
  rw [hstable]
  decide

/-- A later delete takes the version away that an older snapshot reads. -/
theorem get_later_delete : (new.run rewritten).data.get [1] 10 = some [5] ∧
    ((new.run rewritten).run [.writer 1 2 10, .delete 1 [1], .flush 1, .commitVersions 1 20]).data.get [1] 10 =
      none := by
  decide

end MemoryTable

/-! ## Cursors

`MemoryBTreeCursor`: each move looks for its key anew in a range of the
map. Going on from a key in bounds is right in both directions. Where a
scan begins is not always: `first` gives up at a key that the lower end
excludes, and `last` looks only at keys before the upper end, which for an
included end leaves out the end itself, and for a prefix is not behind
every key that has it.
-/

open SortedMap ScanBounds

/-- The fields of `MemoryBTreeCursor` that change. -/
structure MemoryCursor where
  currentKey : Option Key
  currentValue : Option Bytes
  exhausted : Bool
  deriving DecidableEq

namespace MemoryCursor

def valid (c : MemoryCursor) : Bool := !c.exhausted && c.currentKey.isSome

/-- `key` and `value` of a valid cursor. -/
def item (c : MemoryCursor) : Option (Key × Bytes) :=
  if c.valid then c.currentKey.bind fun key => c.currentValue.map (key, ·) else none

/-- The cursor after a search: on what was found, or exhausted. -/
def found : Option (Key × Bytes) → MemoryCursor
  | some (key, value) => ⟨some key, some value, false⟩
  | none => ⟨none, none, true⟩

@[simp] theorem item_found (r : Option (Key × Bytes)) : (found r).item = r := by
  cases r with
  | none | some e => rfl

end MemoryCursor

open MemoryCursor

/-- The other fields: the table, its bounds and its snapshot. -/
structure MemoryScan where
  data : MemoryData
  bounds : ScanBounds
  snapshotLsn : ℕ

namespace MemoryScan

variable (scan : MemoryScan)

/-- `find_visible_value` of an entry. -/
def visible (e : Key × VersionChain) : Option Bytes :=
  VersionChain.findVisibleInline (.atLsn scan.snapshotLsn) e.2

/-- The loop of `next`, `prev`, `seek` and `first`: it ends at a key out of bounds. -/
def searchInBounds : List (Key × VersionChain) → Option (Key × Bytes)
  | [] => none
  | e :: entries =>
    if scan.bounds.contains e.1 then
      match scan.visible e with
      | some value => some (e.1, value)
      | none => searchInBounds entries else none

/-- The loop of `last` and `seek_for_prev`: it goes past keys out of bounds. -/
def searchPast : List (Key × VersionChain) → Option (Key × Bytes)
  | [] => none
  | e :: entries =>
    if scan.bounds.contains e.1 then
      match scan.visible e with
      | some value => some (e.1, value)
      | none => searchPast entries else searchPast entries

def next (c : MemoryCursor) : MemoryCursor :=
  if c.exhausted then c
  else match c.currentKey with
    | none => { c with exhausted := true }
    | some key => .found (scan.searchInBounds ((scan.data.since key).drop 1))

def prev (c : MemoryCursor) : MemoryCursor :=
  if c.exhausted then c
  else match c.currentKey with
    | none => { c with exhausted := true }
    | some key => .found (scan.searchInBounds (scan.data.before key).reverse)

/-- Where `first` begins. -/
def startKey : ScanBounds → Option Key
  | .all => none
  | .startingWith p => some p
  | .range (.included k) _ => some k
  | .range (.excluded k) _ => some k
  | .range .unbounded _ => none

def first : MemoryCursor :=
  match startKey scan.bounds with
  | some key => .found (scan.searchInBounds (scan.data.since key))
  | none => .found (scan.searchInBounds scan.data.entries)

/-- The key that `last` takes to lie behind all keys with a prefix. -/
def prefixEnd (p : Key) : Key :=
  match p.getLast? with
  | none => p
  | some b => if b < 255 then p.dropLast ++ [b + 1] else p ++ [0]

/-- Where `last` begins: it looks at keys before this one. -/
def endKey : ScanBounds → Option Key
  | .all => none
  | .startingWith p => some (prefixEnd p)
  | .range _ (.included k) => some k
  | .range _ (.excluded k) => some k
  | .range _ .unbounded => none

def last : MemoryCursor :=
  match endKey scan.bounds with
  | some key => .found (scan.searchPast (scan.data.before key).reverse)
  | none => .found (scan.searchPast scan.data.entries.reverse)

/-! ## What a scan should show -/

/-- What a scan should show of an entry. -/
def shown (e : Key × VersionChain) : Option (Key × Bytes) :=
  if scan.bounds.contains e.1 then (scan.visible e).map (e.1, ·) else none

/-- The keys in bounds that are visible, in ascending order, with their values. -/
def expected : List (Key × Bytes) := scan.data.entries.filterMap scan.shown

/-- `first` and then `next`, again and again, shows what is expected, and `last` and then `prev` shows
it in the reverse order. -/
def Exact : Prop :=
  ∃ fuel, Stream.collect item scan.next fuel scan.first = some scan.expected ∧
    Stream.collect item scan.prev fuel scan.last = some scan.expected.reverse

variable {scan} {entries : List (Key × VersionChain)}

/-- Behind an entry out of bounds all are. -/
def Closed (scan : MemoryScan) (entries : List (Key × VersionChain)) : Prop :=
  entries.Pairwise fun e e' => scan.bounds.contains e.1 = false → scan.bounds.contains e'.1 = false

theorem searchPast_eq : scan.searchPast entries = (entries.filterMap scan.shown).head? := by
  induction entries with
  | nil => rfl
  | cons e entries ih =>
    rw [searchPast, filterMap_cons, shown]
    split_ifs
    · cases scan.visible e with
      | none => exact ih
      | some value => rfl
    · exact ih

/-- **A search that ends at a key out of bounds misses nothing** if all keys behind are out of bounds. -/
theorem searchInBounds_eq (h : scan.Closed entries) :
    scan.searchInBounds entries = (entries.filterMap scan.shown).head? := by
  induction entries with
  | nil => rfl
  | cons e entries ih =>
    obtain ⟨hfst, hrest⟩ := pairwise_cons.mp h
    rw [searchInBounds, filterMap_cons, shown]
    split_ifs with hin
    · cases scan.visible e with
      | none => exact ih hrest
      | some value => rfl
    · have hnil : entries.filterMap scan.shown = [] := by
        refine filterMap_eq_nil_iff.mpr fun e' he' => ?_
        rw [shown, hfst e' he' (Bool.eq_false_of_not_eq_true hin)]
        rfl
      rw [hnil]
      rfl

/-! ## Going on -/

theorem closed_of_starts (hasc : entries.Pairwise fun e e' => e.1 < e'.1)
    (h : ∀ e ∈ entries, scan.bounds.starts e.1 = true) : scan.Closed entries := by
  refine hasc.imp_of_mem fun {e e'} he _ hlt hout => ?_
  by_contra hin
  rw [Bool.not_eq_false] at hin
  rw [contains_of_starts (h e he) hlt.le hin] at hout
  cases hout

variable {k : Key}

theorem closed_reverse (hasc : entries.Pairwise fun e e' => e.1 < e'.1)
    (hk : scan.bounds.contains k = true) (hlt : ∀ e ∈ entries, e.1 < k) : scan.Closed entries.reverse := by
  refine pairwise_reverse.mpr (hasc.imp_of_mem fun {e e'} _ he' hlt' hout => ?_)
  -- an entry below `k` that is out of bounds is before the lower end
  by_contra hin
  rw [Bool.not_eq_false] at hin
  have hstarts := starts_mono (starts_of_contains hin) hlt'.le
  rw [contains_of_starts hstarts (hlt e' he').le hk] at hout
  cases hout

variable {r : Key × Bytes}

theorem shown_eq_some {e : Key × VersionChain} (h : scan.shown e = some r) :
    scan.bounds.contains e.1 = true ∧ e.1 = r.1 := by
  rw [shown] at h
  split_ifs at h with hin
  obtain ⟨value, -, rfl⟩ := Option.map_eq_some_iff.mp h
  exact ⟨hin, rfl⟩

/-- A forward cursor: what is ahead of it is what the rest of the table shows. -/
def Ahead (scan : MemoryScan) (c : MemoryCursor) (l : List (Key × Bytes)) : Prop :=
  ∃ front back, scan.data.entries = front ++ back ∧ l = back.filterMap scan.shown ∧ c = .found l.head?

/-- The cursor is at the first of what is left to show backwards. -/
def Behind (scan : MemoryScan) (c : MemoryCursor) (l : List (Key × Bytes)) : Prop :=
  ∃ front back, scan.data.entries = front ++ back ∧ l = front.reverse.filterMap scan.shown ∧ c = .found l.head?

variable {l : List (Key × Bytes)} {c : MemoryCursor}

/-- **`next` shows the next entry.** -/
theorem Ahead.next (h : scan.Ahead c (r :: l)) : scan.Ahead (scan.next c) l := by
  obtain ⟨front, back, hents, hl, rfl⟩ := h
  obtain ⟨skipped, e, rest, rfl, -, hshown, rfl⟩ := filterMap_eq_cons_iff.mp hl.symm
  obtain ⟨hin, hkey⟩ := shown_eq_some hshown
  have hsplit : scan.data.entries = (front ++ skipped) ++ (e.1, e.2) :: rest := by
    rw [hents, append_assoc]
  have hclosed : scan.Closed rest := by
    have hasc := scan.data.ascends
    rw [hsplit, pairwise_append, pairwise_cons] at hasc
    refine closed_of_starts hasc.2.1.2 fun e' he' => ?_
    exact starts_mono (starts_of_contains hin) (hasc.2.1.1 e' he').le
  refine ⟨front ++ skipped ++ [e], rest, by rw [hsplit]; simp, rfl, ?_⟩
  show found (scan.searchInBounds ((scan.data.since r.1).drop 1)) = _
  rw [← hkey, since_of_split hsplit, drop_one, tail_cons, searchInBounds_eq hclosed]

/-- **`prev` shows the entry before.** -/
theorem Behind.prev (h : scan.Behind c (r :: l)) : scan.Behind (scan.prev c) l := by
  obtain ⟨front, back, hents, hl, rfl⟩ := h
  obtain ⟨skipped, e, rest, hreverse, -, hshown, rfl⟩ := filterMap_eq_cons_iff.mp hl.symm
  obtain ⟨hin, hkey⟩ := shown_eq_some hshown
  have hfront : front = rest.reverse ++ e :: skipped.reverse := by
    rw [← reverse_reverse front, hreverse]
    simp
  have hsplit : scan.data.entries = rest.reverse ++ (e.1, e.2) :: (skipped.reverse ++ back) := by
    rw [hents, hfront, append_assoc]
    rfl
  have hclosed : scan.Closed rest := by
    have hasc := scan.data.ascends
    rw [hsplit, pairwise_append] at hasc
    have hbelow := closed_reverse hasc.1 hin (lt_of_split hsplit).1
    rwa [reverse_reverse] at hbelow
  refine ⟨rest.reverse, _, hsplit, by rw [reverse_reverse], ?_⟩
  show found (scan.searchInBounds (scan.data.before r.1).reverse) = _
  rw [← hkey, before_of_split hsplit, reverse_reverse, searchInBounds_eq hclosed]

variable {fuel : ℕ}

/-- **A cursor that is on the first of what is to come shows all of it.** -/
theorem collect_found {P : MemoryCursor → List (Key × Bytes) → Prop} {step : MemoryCursor → MemoryCursor}
    (hfound : ∀ c l, P c l → c = .found l.head?) (hstep : ∀ {c r l}, P c (r :: l) → P (step c) l)
    (h : P c l) (hfuel : l.length < fuel) : Stream.collect item step fuel c = some l := by
  refine Stream.collect_eq (P := P) (fun c l h => ?_) h hfuel
  have hitem : c.item = l.head? := by rw [hfound c l h, item_found]
  cases l with
  | nil => exact .inl ⟨hitem, rfl⟩
  | cons r l => exact .inr ⟨r, l, hitem, rfl, hstep h⟩

/-! ## Beginning -/

theorem expected_eq_since (h : ∀ key, key < k → scan.bounds.starts key = false) :
    scan.expected = (scan.data.since k).filterMap scan.shown := by
  have hnil : (scan.data.before k).filterMap scan.shown = [] := by
    refine filterMap_eq_nil_iff.mpr fun e he => ?_
    have hlt : e.1 < k := (mem_before.mp he).2
    rw [shown, if_neg fun hin => ?_]
    have hstarts := starts_of_contains hin
    rw [h e.1 hlt] at hstarts
    cases hstarts
  rw [expected, ← before_append_since, filterMap_append, hnil, nil_append]

theorem ahead_since (hbefore : ∀ key, key < k → scan.bounds.starts key = false)
    (hsince : ∀ e ∈ scan.data.since k, scan.bounds.starts e.1 = true) :
    scan.Ahead (.found (scan.searchInBounds (scan.data.since k))) scan.expected := by
  have hasc : (scan.data.since k).Pairwise fun e e' => e.1 < e'.1 := scan.data.ascends.filter _
  refine ⟨scan.data.before k, scan.data.since k, before_append_since.symm,
    expected_eq_since hbefore, ?_⟩
  rw [searchInBounds_eq (closed_of_starts hasc hsince), expected_eq_since hbefore]

theorem ahead_entries (h : ∀ key, scan.bounds.starts key = true) :
    scan.Ahead (.found (scan.searchInBounds scan.data.entries)) scan.expected := by
  refine ⟨[], scan.data.entries, rfl, rfl, ?_⟩
  rw [searchInBounds_eq (closed_of_starts scan.data.ascends fun e _ => h e.1)]
  rfl

/-- An excluded lower end that is a key of the table: the scan is over at once. -/
theorem first_of_excluded {finish : Bound} (hbounds : scan.bounds = .range (.excluded k) finish)
    (hk : (scan.data.lookup k).isSome) : scan.first = .found none := by
  obtain ⟨chain, hchain⟩ := Option.isSome_iff_exists.mp hk
  obtain ⟨front, back, hsplit⟩ := append_of_mem (lookup_eq_some.mp hchain)
  have hout : scan.bounds.contains k = false := by
    rw [hbounds]
    simp [ScanBounds.contains, Bound.below]
  have hfst : scan.first = .found (scan.searchInBounds (scan.data.since k)) := by
    rw [first, hbounds]
    rfl
  rw [hfst, since_of_split hsplit, searchInBounds, if_neg (by rw [hout]; exact Bool.false_ne_true)]

/-- **Every other scan begins at its first key.** -/
theorem first_ahead (h : ∀ k finish, scan.bounds = .range (.excluded k) finish → scan.data.lookup k = none) :
    scan.Ahead scan.first scan.expected := by
  rw [first]
  cases hbounds : scan.bounds with
  | all => exact ahead_entries fun key => by rw [hbounds]; rfl
  | startingWith p =>
    refine ahead_since (fun key hlt => ?_) fun e he => ?_
    · rw [hbounds]
      simpa [starts] using hlt
    · rw [hbounds]
      exact decide_eq_true (mem_since.mp he).2
  | range start finish =>
    cases start with
    | included k =>
      refine ahead_since (fun key hlt => ?_) fun e he => ?_
      · rw [hbounds]
        simpa [starts, Bound.below] using hlt
      · rw [hbounds]
        exact decide_eq_true (mem_since.mp he).2
    | excluded k =>
      have habsent := h k finish hbounds
      refine ahead_since (fun key hlt => ?_) fun e he => ?_
      · rw [hbounds]
        simpa [starts, Bound.below] using hlt.le
      · have hle : k ≤ e.1 := (mem_since.mp he).2
        have hne : k ≠ e.1 := by
          rintro rfl
          have hsome := lookup_eq_some.mpr (mem_since.mp he).1
          rw [habsent] at hsome
          cases hsome
        rw [hbounds]
        exact decide_eq_true (lt_of_le_of_ne hle hne)
    | unbounded => exact ahead_entries fun key => by rw [hbounds]; rfl

/-- The entries that `last` looks at. -/
def reachedByLast (scan : MemoryScan) : List (Key × VersionChain) :=
  match endKey scan.bounds with
  | some key => scan.data.before key
  | none => scan.data.entries

/-- **`last` begins at the last key that it looks at.** -/
theorem last_behind :
    scan.Behind scan.last (scan.reachedByLast.reverse.filterMap scan.shown) := by
  rw [last, reachedByLast]
  cases endKey scan.bounds with
  | none =>
    refine ⟨scan.data.entries, [], (append_nil _).symm, rfl, ?_⟩
    rw [← searchPast_eq]
  | some key =>
    refine ⟨scan.data.before key, scan.data.since key, before_append_since.symm, rfl, ?_⟩
    rw [← searchPast_eq]

/-- `last` looks at all keys that are to be shown if they are before its end. -/
theorem reachedByLast_iff : scan.reachedByLast.reverse.filterMap scan.shown = scan.expected.reverse ↔
    ∀ k, endKey scan.bounds = some k → ∀ e ∈ scan.expected, e.1 < k := by
  rw [filterMap_reverse, reverse_inj, reachedByLast]
  cases endKey scan.bounds with
  | none => exact iff_of_true rfl fun k hk => by cases hk
  | some key =>
    have hsplit : scan.expected =
        (scan.data.before key).filterMap scan.shown ++ (scan.data.since key).filterMap scan.shown := by
      rw [expected, ← before_append_since, filterMap_append]
    have hkeys : ∀ entries : List (Key × VersionChain), ∀ r ∈ entries.filterMap scan.shown,
        ∃ e ∈ entries, e.1 = r.1 := by
      intro entries r hr
      obtain ⟨e, he, hshown⟩ := mem_filterMap.mp hr
      exact ⟨e, he, (shown_eq_some hshown).2⟩
    constructor
    · rintro heq k hk r hr
      cases hk
      dsimp only at heq
      rw [← heq] at hr
      obtain ⟨e, he, hkey⟩ := hkeys _ r hr
      rw [← hkey]
      exact (mem_before.mp he).2
    · intro hbelow
      have hnil : (scan.data.since key).filterMap scan.shown = [] := by
        refine eq_nil_iff_forall_not_mem.mpr fun r hr => ?_
        have hlt := hbelow key rfl r (by rw [hsplit]; exact mem_append_right _ hr)
        obtain ⟨e, he, hkey⟩ := hkeys _ r hr
        have hle : key ≤ e.1 := (mem_since.mp he).2
        rw [hkey] at hle
        exact absurd hlt hle.not_gt
      rw [hsplit, hnil, append_nil]

/-! ## Both directions -/

/-- **A scan is exact in both directions exactly if** its lower end is not an excluded key of the table,
unless nothing is to be shown, and every key to be shown is before the key at which `last` begins. -/
theorem exact_iff (scan : MemoryScan) : scan.Exact ↔
    (∀ k finish, scan.bounds = .range (.excluded k) finish → (scan.data.lookup k).isSome →
      scan.expected = []) ∧ ∀ k, endKey scan.bounds = some k → ∀ e ∈ scan.expected, e.1 < k := by
  have hback := fun (fuel : ℕ) hfuel => collect_found (P := scan.Behind) (fun _ _ ⟨_, _, _, _, h⟩ => h) Behind.prev
    last_behind (show _ < fuel from hfuel)
  rw [← reachedByLast_iff]
  constructor
  · rintro ⟨fuel, hfwd, hbackward⟩
    refine ⟨fun k finish hbounds hk => ?_, ?_⟩
    · rw [first_of_excluded hbounds hk] at hfwd
      exact (Stream.collect_unique hfwd (show Stream.collect _ _ 1 _ = some [] from rfl))
    · exact Stream.collect_unique (hback _ (Nat.lt_succ_self _)) hbackward
  · rintro ⟨hstart, hend⟩
    refine ⟨max scan.expected.length (scan.expected.reverse).length + 1, ?_, ?_⟩
    · have hfuel : scan.expected.length < max scan.expected.length scan.expected.reverse.length + 1 :=
        Nat.lt_succ_of_le (le_max_left _ _)
      by_cases hexcluded : ∃ k finish, scan.bounds = .range (.excluded k) finish ∧ (scan.data.lookup k).isSome
      · obtain ⟨k, finish, hbounds, hk⟩ := hexcluded
        rw [first_of_excluded hbounds hk, hstart k finish hbounds hk]
        rfl
      · refine collect_found (P := scan.Ahead) (fun _ _ ⟨_, _, _, _, h⟩ => h) Ahead.next
          (first_ahead fun k finish hbounds => ?_) hfuel
        by_contra hk
        exact hexcluded ⟨k, finish, hbounds, Option.isSome_iff_ne_none.mpr hk⟩
    · rw [hend] at hback
      exact hback _ (Nat.lt_succ_of_le (le_max_right _ _))

/-- A table with one visible key, scanned up to that key. -/
theorem exact_fails : ¬ Exact ⟨SortedMap.empty.insert [2] [⟨.inline [7], 1, some 10⟩],
    .range (.included [1]) (.included [2]), 10⟩ := by
  rintro ⟨fuel, -, hbackward⟩
  have hnil : Stream.collect item (prev ⟨empty.insert [2] [⟨.inline [7], 1, some 10⟩],
      .range (.included [1]) (.included [2]), 10⟩) 1 (last ⟨empty.insert [2]
        [⟨.inline [7], 1, some 10⟩], .range (.included [1]) (.included [2]), 10⟩) = some [] := by decide
  have heq := Stream.collect_unique hbackward hnil
  revert heq
  decide

end MemoryScan

end NanoStore.Table
