import NanoStore.Table.BTreeValues
import NanoStore.Table.BTreeWrites
import NanoStore.Table.Reference
/-!
# The paged B-tree — runs of calls

One thread inserts, deletes and stamps; reads come at any time. Whatever
the splits were, the entries of the leaves are one sorted list, every
chain of it tracks the history of its key, and a read is answered as the
reference map answers it.
-/

namespace NanoStore.Table

open Wal Steps Txn MultiVersion List

/-! ## Calls -/

/-- A call that changes a tree. -/
inductive TreeCall
  | insert (t : TransactionId) (key : Key) (value : Bytes)
  | delete (t : TransactionId) (key : Key)
  | commitVersions (t : TransactionId) (lsn : ℕ)
  deriving DecidableEq

namespace TreeCall

/-- What the call does to the reference map. -/
def toCall : TreeCall → Call Key TransactionId Bytes
  | .insert t key value => .write t key (some value)
  | .delete t key => .write t key none
  | .commitVersions t lsn => .commit t lsn

/-- The value of an insert is not empty and names no pages. -/
def StoresValue : TreeCall → Prop
  | .insert _ _ value => value ≠ [] ∧ ¬ NamesPages value
  | _ => True

end TreeCall

/-- `PagedBTree`: pages, root and the changes not yet flushed. -/
structure BTreeTable where
  volume : Volume
  root : PageId

variable {table : BTreeTable} {entries : List LeafEntry} {volume : Volume} {cfg : BTreeConfig}

namespace BTreeTable

def new (volume : Volume) : BTreeTable :=
  let (file, root) := volume.file.newTree
  ⟨{ volume with file }, root⟩

def get (codec : PageCodec) (table : BTreeTable) (key : Key) (snapshotLsn : ℕ) :
    Except TableError (Option Bytes) :=
  table.volume.get codec table.root key snapshotLsn

def withFile (table : BTreeTable) (file : PageFile) : BTreeTable :=
  { table with volume := { table.volume with file } }

/-- A call with its answer. A failed insert leaves the root as it was. -/
def exec (cfg : BTreeConfig) (table : BTreeTable) : TreeCall → BTreeTable × Except TreeError Unit
  | .insert t key value =>
    match table.volume.file.insertInternal cfg table.root t key value with
    | (file, .error e) => (table.withFile file, .error e)
    | (file, .ok root) => ({ table.withFile file with root }, .ok ())
  | .delete t key =>
    match table.volume.file.deleteInternal table.root t key with
    | (file, .error e) => (table.withFile file, .error e)
    | (file, .ok _) => (table.withFile file, .ok ())
  | .commitVersions t lsn =>
    match table.volume.file.commitVersions table.root t lsn with
    | (file, .error e) => (table.withFile file, .error e)
    | (file, .ok _) => (table.withFile file, .ok ())

/-! ## The entries of a table -/

/-- The pages of the table are a tree with these entries. -/
def Holds (table : BTreeTable) (entries : List LeafEntry) : Prop :=
  ∃ leaves, Tree table.volume.file table.root leaves ∧ contents leaves = entries

/-- What a call makes of the entries. -/
def onEntries (entries : List LeafEntry) : TreeCall → List LeafEntry
  | .insert t key value => insertEntry key (.new value t) entries
  | .delete t key => updateEntry key (.new [] t) entries
  | .commitVersions t lsn => stampEntries t lsn entries

theorem holds_new (hpos : 0 < volume.file.nextPage) : (new volume).Holds [] :=
  ⟨_, tree_newTree hpos, rfl⟩

section

variable (h : table.Holds entries)
include h

theorem Holds.ascending : Ascending entries := by
  obtain ⟨leaves, htree, rfl⟩ := h
  exact htree.ascending

/-- **A call succeeds and changes the entries as it would change those of one leaf.** -/
theorem Holds.exec (cfg : BTreeConfig) (call : TreeCall) :
    ∃ table', table.exec cfg call = (table', .ok ()) ∧ table'.Holds (onEntries entries call) := by
  obtain ⟨leaves, htree, rfl⟩ := h
  cases call with
  | insert t key value =>
    obtain ⟨file', root', hins, leaves', htree', hconts⟩ :=
      htree.insertInternal t key value
    exact ⟨_, by rw [exec, hins], leaves', htree', hconts⟩
  | delete t key =>
    obtain ⟨file', hdel, leaves', htree', hconts⟩ := htree.deleteInternal
    exact ⟨_, by rw [exec, hdel], leaves', htree', hconts⟩
  | commitVersions t lsn =>
    obtain ⟨file', hcom, leaves', htree', hconts⟩ := htree.commitVersions
    exact ⟨_, by rw [exec, hcom], leaves', htree', hconts⟩

theorem Holds.execute {calls : List TreeCall} :
    (execute (BTreeTable.exec cfg) table calls).2.Holds (calls.foldl onEntries entries) := by
  induction calls using List.reverseRecOn with
  | nil => exact h
  | append_singleton calls call ih =>
    obtain ⟨table', hexec, hholds⟩ := ih.exec cfg call
    simp only [Steps.execute, foldl_append, foldl_cons, foldl_nil] at hexec ⊢
    rw [hexec]
    exact hholds

theorem Holds.get (codec : PageCodec) (key : Key) (s : ℕ) :
    table.get codec key s = table.volume.answer codec (readOn entries key s) := by
  obtain ⟨leaves, htree, rfl⟩ := h
  rw [get, Volume.get, htree.getInternal]

end

end BTreeTable

open BTreeTable

/-! ## Refinement -/

variable {map : Reference}

/-- Every chain tracks the history of its key. -/
def Refines (entries : List LeafEntry) (map : Reference) : Prop :=
  ∀ k, Tracks ((chainOn entries k).getD []) (map k)

variable {call : TreeCall}

/-- **Entries and reference map change alike.** -/
theorem Refines.onEntries (h : Refines entries map) (hsort : Ascending entries)
    (hval : call.StoresValue) : Refines (onEntries entries call) (map.apply call.toCall) := by
  intro k
  cases call with
  | insert t key value =>
    rw [onEntries, chainOn_insertEntry hsort, TreeCall.toCall, Map.apply, Map.write]
    by_cases hk : k = key
    · subst hk
      rw [if_pos rfl, Function.update_self]
      exact (h k).put hval.1
    · rw [if_neg hk, Function.update_of_ne hk]
      exact h k
  | delete t key =>
    rw [onEntries, chainOn_updateEntry, TreeCall.toCall, Map.apply, Map.write]
    by_cases hk : k = key
    · subst hk
      rw [if_pos rfl, Function.update_self]
      have hk := h k
      cases hchain : chainOn entries k with
      | none =>
        rw [hchain] at hk
        exact hk.delete_nil
      | some chain =>
        rw [hchain] at hk
        exact hk.delete
    · rw [if_neg hk, Function.update_of_ne hk]
      exact h k
  | commitVersions t lsn =>
    rw [onEntries, chainOn_stampEntries, TreeCall.toCall, Map.apply, Map.commit]
    have hk : Tracks (VersionChain.stamp t lsn ((chainOn entries k).getD [])) ((map k).commit t lsn) :=
      (h k).commit
    cases hchain : chainOn entries k with
    | none | some chain => rwa [hchain] at hk

variable {k : Key}

theorem Refines.readOn (h : Refines entries map) (hord : Ordered (map k)) (s : ℕ) :
    readOn entries k s = map.get k s := by
  have hread := (h k).read hord (s := s)
  rw [Map.get, ← hread, Table.readOn]
  cases chainOn entries k with
  | none | some chain => rfl

variable (trace : List (TreeCall × Except TreeError Unit))

/-- The calls of a trace, as calls on the reference map. -/
def history : List (Call Key TransactionId Bytes) :=
  trace.map fun c => c.1.toCall

/-- The call may come after the calls of the trace: one uncommitted writer for each key, rising
positions, and values that are values. -/
def InOrder (_ : BTreeTable) (call : TreeCall) :
    Prop :=
  call.toCall.Allowed (history trace) ∧ call.StoresValue

/-- What holds after a run: the calls were orderly and succeeded, and the table holds entries that
refine the reference map. -/
structure Reached (table : BTreeTable) : Prop where
  orderly : Orderly (history trace)
  stores : ∀ c ∈ trace, c.1.StoresValue
  answered : ∀ c ∈ trace, c.2 = .ok ()
  refines : ∃ entries, table.Holds entries ∧ Refines entries (replay (history trace))

theorem reached_new (hpos : 0 < volume.file.nextPage) : Reached [] (new volume) where
  orderly := trivial
  stores := by simp
  answered := by simp
  refines := ⟨[], holds_new hpos, fun _ => ⟨⟨[], rfl, nofun⟩, nofun⟩⟩

variable {trace : List (TreeCall × Except TreeError Unit)}

theorem Reached.exec (h : Reached trace table) (hcall : InOrder trace table call) :
    Reached ((call, (table.exec cfg call).2) :: trace) (table.exec cfg call).1 := by
  obtain ⟨entries, hholds, hrefines⟩ := h.refines
  obtain ⟨table', hexec, hholds'⟩ := hholds.exec cfg call
  rw [hexec]
  refine ⟨⟨hcall.1, h.orderly⟩, fun c hc => ?_, fun c hc => ?_,
    _, hholds', hrefines.onEntries hholds.ascending hcall.2⟩
  · rcases mem_cons.mp hc with rfl | hc
    · exact hcall.2
    · exact h.stores c hc
  · rcases mem_cons.mp hc with rfl | hc
    · rfl
    · exact h.answered c hc

variable {s : ℕ}

theorem Reached.not_namesPages (h : Reached trace table) {value : Bytes}
    (hget : (replay (history trace)).get k s = some value) : ¬ NamesPages value := by
  obtain ⟨w, hw, hval⟩ := exists_write_of_read hget
  obtain ⟨t, ht⟩ := mem_of_value hw
  obtain ⟨c, hc, hcall⟩ := mem_map.mp ht
  have hstores := h.stores c hc
  cases hc' : c.1 with
  | insert t' key value' =>
    rw [hc'] at hcall hstores
    rw [hval] at hcall
    cases hcall
    exact hstores.2
  | delete t' key =>
    rw [hc', hval] at hcall
    cases hcall
  | commitVersions t' lsn =>
    rw [hc'] at hcall
    cases hcall

theorem Reached.get (h : Reached trace table) {codec : PageCodec} :
    table.get codec k s = .ok ((replay (history trace)).get k s) := by
  obtain ⟨entries, hholds, hrefines⟩ := h.refines
  rw [hholds.get, hrefines.readOn (h.orderly.ordered k)]
  cases hget : (replay (history trace)).get k s with
  | none => rfl
  | some value =>
    rw [Volume.answer, resolve_of_not_namesPages (h.not_namesPages hget)]
    rfl

/-- **A B-tree is a multi-version map.** After every run of inserts, deletes and stamps in order,
every call has succeeded and every read is answered by the newest version committed at or before
its snapshot. -/
theorem get_eq_reference (cfg : BTreeConfig) (codec : PageCodec) (volume : Volume)
    (hpos : 0 < volume.file.nextPage) {trace : List (TreeCall × Except TreeError Unit)}
    (hrun : Run (exec cfg) InOrder (new volume) trace table) :
    (∀ c ∈ trace, c.2 = .ok ()) ∧ ∀ k s, table.get codec k s = .ok ((replay (history trace)).get k s) := by
  have hreach : Reached trace table :=
    hrun.invariant (reached_new hpos) fun _ _ _ h hcall => h.exec hcall
  exact ⟨hreach.answered, fun k s => hreach.get⟩

/-- Pages of which a node fills one with four entries. -/
def smallPages : BTreeConfig := ⟨200, fun chain => 10 * chain.length⟩

/-- Nodes and checksums written as nothing: no value below names a page. -/
def noCodec : PageCodec := ⟨fun _ => [], fun _ => 0⟩

def emptyVolume : Volume := ⟨⟨fun _ => none, 2, 0, []⟩, fun _ => none⟩

/-- Four keys, so that the root leaf is split, and one of them deleted later. -/
def splittingCalls : List TreeCall :=
  [.insert 1 [1] [5], .insert 1 [2] [6], .insert 1 [3] [7], .insert 1 [4] [8],
    .commitVersions 1 10, .delete 2 [3], .commitVersions 2 20]

theorem run_splittingCalls : Run (exec smallPages) InOrder (new emptyVolume)
    (execute (exec smallPages) (new emptyVolume) splittingCalls).1
    (execute (exec smallPages) (new emptyVolume) splittingCalls).2 := by
  have hplain : ∀ b : Byte, b ≠ 1 → b ≠ 2 → [b] ≠ [] ∧ ¬ NamesPages [b] := fun b h1 h2 =>
    ⟨by simp, not_namesPages_of_not_tagged (by simp [tagged, h1, h2])⟩
  refine .call (.call (.call (.call (.call (.call (.call .nil _ ?_) _ ?_) _ ?_) _ ?_) _ ?_) _ ?_) _ ?_
  · exact ⟨by decide, hplain 5 (by decide) (by decide)⟩
  · exact ⟨by decide, hplain 6 (by decide) (by decide)⟩
  · exact ⟨by decide, hplain 7 (by decide) (by decide)⟩
  · exact ⟨by decide, hplain 8 (by decide) (by decide)⟩
  · exact ⟨by decide, trivial⟩
  · exact ⟨by decide, trivial⟩
  · exact ⟨by decide, trivial⟩

/-- Of a tree of three pages. -/
theorem get_eq_reference_split : let table := (execute (exec smallPages) (new emptyVolume) splittingCalls).2
    table.root = 4 ∧ table.get noCodec [3] 19 = .ok (some [7]) ∧
      table.get noCodec [3] 20 = .ok none ∧ table.get noCodec [4] 20 = .ok (some [8]) := by
  have hget := (get_eq_reference smallPages noCodec emptyVolume (by decide) run_splittingCalls).2
  exact ⟨by decide, (hget [3] 19).trans (by decide), (hget [3] 20).trans (by decide),
    (hget [4] 20).trans (by decide)⟩

end NanoStore.Table
