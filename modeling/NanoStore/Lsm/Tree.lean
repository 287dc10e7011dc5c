import NanoStore.Lsm.Layout
import NanoStore.Table.Chains
/-!
# The LSM tree — memtables, sorted tables and reads

`LsmTree` of `table/lsm`: an active memtable that takes the writes, the
memtables that were rotated out of it, and the sorted tables of a version,
level by level. A read asks them from the newest to the oldest.

Of a sorted table there are its key range, the chains that were added to it,
and how many of them an iterator can read; its lookups answer from all of
them. Its filter and its bytes are left out, and writing it does not fail.
-/

namespace NanoStore.Lsm

open Wal Steps Txn Table List

/-- `TableError`, as far as an LSM tree returns it. -/
inductive LsmError
  | memtableFull
  | memtableImmutable
  | memtableNotImmutable
  | invalidOperationState (operation reason : String)
  | invalidLevel (level maxLevel : ℕ)
  | sstableIdExists (id : ℕ)
  | sstableIdNotFound (id : ℕ)
  /-- The corruption that `load_block` reports: the bounds of a block are invalid, or its bytes do not
  pass the check. -/
  | unreadableBlock
  /-- An index out of bounds. -/
  | panicked
  deriving DecidableEq

/-- `LevelConfig`, as far as it is used. -/
structure LevelConfig where
  level : ℕ
  maxSize : ℕ

/-- `LsmConfig`. `versionSize` and `valueRefSize` are the bytes a version and a reference take in
memory, `sstableSize` the bytes a sorted table takes on its pages; `sizeRatio` is the place of the
quotient of two sizes among the floating point numbers. -/
structure LsmConfig where
  memtableMaxSize : ℕ
  versionSize : ℕ
  valueRefSize : ℕ
  levels : List LevelConfig
  minMergeWidth : ℕ
  maxMergeWidth : ℕ
  layout : SStableLayout
  sstableSize : List LeafEntry → ℕ
  sizeRatio : ℕ → ℕ → ℕ

/-! ## Chains in key order -/

/-- The version holds bytes, not a reference. -/
def Inline (v : Version) : Prop := ∃ data, v.value = .inline data

/-- Version chains in key order: the map of a memtable, and what a sorted table holds. Every write
hands over bytes, so no version refers to pages. -/
structure ChainMap where
  entries : List LeafEntry
  ascending : Ascending entries
  inline : ∀ e ∈ entries, ∀ v ∈ e.chain, Inline v

namespace ChainMap

variable (m : ChainMap)

def empty : ChainMap := ⟨[], .nil, nofun⟩

/-- The chain of a key, empty if the key has none. -/
def chain (key : Key) : VersionChain := (chainOn m.entries key).getD []

variable {v : Version} {key : Key}

theorem mem_chain (hv : v ∈ m.chain key) : ∃ e ∈ m.entries, v ∈ e.chain := by
  unfold chain chainOn at hv
  cases hfind : m.entries.find? fun e => e.key = key with
  | none => simp [hfind] at hv
  | some e =>
    rw [hfind] at hv
    exact ⟨e, mem_of_find?_eq_some hfind, hv⟩

theorem inline_chain : ∀ v ∈ m.chain key, Inline v := by
  intro v hv
  obtain ⟨e, he, hv⟩ := m.mem_chain hv
  exact m.inline e he v hv

theorem mem_insertEntry_inline (hv : Inline v) {entries : List LeafEntry}
    (h : ∀ e ∈ entries, ∀ v ∈ e.chain, Inline v) :
    ∀ e ∈ insertEntry key v entries, ∀ v ∈ e.chain, Inline v := by
  induction entries with
  | nil => simpa [insertEntry] using hv
  | cons e entries ih =>
    obtain ⟨hhead, htail⟩ := forall_mem_cons.mp h
    simp only [insertEntry]
    split_ifs
    · exact forall_mem_cons.mpr ⟨by simpa using hv, h⟩
    · exact forall_mem_cons.mpr ⟨forall_mem_cons.mpr ⟨hv, hhead⟩, htail⟩
    · exact forall_mem_cons.mpr ⟨hhead, ih htail⟩

/-- A version put before the chain of its key. -/
def insert (key : Key) (value : Bytes) (t : TransactionId) (commitLsn : Option ℕ) : ChainMap where
  entries := insertEntry key ⟨.inline value, t, commitLsn⟩ m.entries
  ascending := m.ascending.insertEntry
  inline := mem_insertEntry_inline ⟨value, rfl⟩ m.inline

theorem inline_stampHead {t : TransactionId} {lsn : ℕ} {chain : VersionChain}
    (h : ∀ v ∈ chain, Inline v) : ∀ v ∈ stampHead t lsn chain, Inline v := by
  cases chain with
  | nil => exact h
  | cons v older =>
    obtain ⟨hhead, htail⟩ := forall_mem_cons.mp h
    rw [stampHead]
    split_ifs
    · exact forall_mem_cons.mpr ⟨hhead, htail⟩
    · exact h

/-- The newest version of every chain committed, if it is an uncommitted one of the
transaction. -/
def commit (t : TransactionId) (lsn : ℕ) : ChainMap where
  entries := m.entries.map fun e => { e with chain := stampHead t lsn e.chain }
  ascending := m.ascending.map fun _ => rfl
  inline := by
    intro e he
    obtain ⟨e₀, he₀, rfl⟩ := List.mem_map.mp he
    exact inline_stampHead (m.inline e₀ he₀)

@[simp] theorem chain_empty : empty.chain key = [] := rfl

/-- An insert is in front of the chain of its key. -/
theorem chain_insert (value : Bytes) (t : TransactionId) (commitLsn : Option ℕ) (k : Key) :
    (m.insert key value t commitLsn).chain k =
      if k = key then ⟨.inline value, t, commitLsn⟩ :: m.chain key else m.chain k := by
  unfold chain insert
  rw [chainOn_insertEntry m.ascending]
  split_ifs <;> rfl

theorem chain_commit {t : TransactionId} {lsn : ℕ} {k : Key} :
    (m.commit t lsn).chain k = stampHead t lsn (m.chain k) := by
  simp only [chain, commit, chainOn, find?_map, Function.comp_def]
  cases m.entries.find? fun e => e.key = k with
  | none | some e => rfl

end ChainMap

/-- What a reader at a snapshot finds in a chain. A reference is an error of the reader. -/
def lookup (operation place : String) (chain : VersionChain) (snapshotLsn : ℕ) :
    Except LsmError (Option Bytes) :=
  match VersionChain.findVisibleVersion (.atLsn snapshotLsn) chain with
  | none => .ok none
  | some (.inline data) => .ok (some data)
  | some (.external _) =>
    .error (.invalidOperationState operation s!"Found external VersionValue in {place}")

/-! ## Memtables -/

/-- `Memtable`, without its range of positions. -/
structure Memtable where
  data : ChainMap
  memoryUsage : ℕ
  immutable : Bool
  maxSize : ℕ

namespace Memtable

variable (cfg : LsmConfig) (m : Memtable)

def new (maxSize : ℕ) : Memtable := ⟨.empty, 0, false, maxSize⟩

/-- What a chain is counted with. -/
def estimateChainSize (chain : VersionChain) : ℕ :=
  (chain.map fun v => cfg.versionSize + match v.value with
    | .inline data => data.length
    | .external _ => cfg.valueRefSize).sum

/-- The bytes an insert adds. -/
def memoryDelta (key : Key) (value : Bytes) (t : TransactionId) (commitLsn : Option ℕ) : ℕ :=
  match chainOn m.data.entries key with
  | some existing =>
    estimateChainSize cfg (⟨.inline value, t, commitLsn⟩ :: existing) - estimateChainSize cfg existing
  | none => key.length + value.length + cfg.versionSize

/-- The memtable has no room for the value. -/
def fullFor (key : Key) (value : Bytes) (t : TransactionId) (commitLsn : Option ℕ) : Bool :=
  m.maxSize < m.memoryUsage + m.memoryDelta cfg key value t commitLsn

def insert (key : Key) (value : Bytes) (t : TransactionId) (commitLsn : Option ℕ) :
    Outcome Memtable LsmError Unit :=
  if m.immutable then (m, .error .memtableImmutable)
  else if m.fullFor cfg key value t commitLsn then (m, .error .memtableFull)
  else
    ({ m with
        data := m.data.insert key value t commitLsn
        memoryUsage := m.memoryUsage + m.memoryDelta cfg key value t commitLsn }, .ok ())

def commitVersions (t : TransactionId) (lsn : ℕ) : Memtable := { m with data := m.data.commit t lsn }

def get (key : Key) (snapshotLsn : ℕ) : Except LsmError (Option Bytes) :=
  lookup "Memtable::get" "memtable" (m.data.chain key) snapshotLsn

/-- `make_immutable`. -/
def makeImmutable : Memtable := { m with immutable := true }

/-- `entries`, only of a memtable that takes no more writes. -/
def entries : Except LsmError ChainMap :=
  if m.immutable then .ok m.data else .error .memtableNotImmutable

end Memtable

/-! ## Sorted tables and versions -/

/-- `FileMetadata` with the chains of the sorted table it describes, the first `readable` of which an
iterator can read; without the number of entries, the position it was created at and its pages. -/
structure FileMetadata where
  id : ℕ
  level : ℕ
  minKey : Key
  maxKey : Key
  totalSize : ℕ
  contents : ChainMap
  readable : ℕ
  within : ∀ e ∈ contents.entries, minKey ≤ e.key ∧ e.key ≤ maxKey
  nonempty : contents.entries ≠ []

variable {entries : List LeafEntry} {e : LeafEntry}

theorem Ascending.head_le (h : Ascending entries) (hne : entries ≠ []) (he : e ∈ entries) :
    (entries.head hne).key ≤ e.key := by
  cases entries with
  | nil => cases he
  | cons e₀ entries =>
    rcases mem_cons.mp he with rfl | he
    · exact le_rfl
    · exact (rel_of_pairwise_cons h he).le

theorem Ascending.le_getLast (h : Ascending entries) (hne : entries ≠ []) (he : e ∈ entries) :
    e.key ≤ (entries.getLast hne).key := by
  rw [← dropLast_append_getLast hne] at h he
  rcases mem_append.mp he with he | he
  · exact ((pairwise_append.mp h).2.2 e he _ (mem_singleton_self _)).le
  · rw [mem_singleton.mp he]

namespace FileMetadata

/-- What `SStableWriter::finish` describes, given the chains that were added. -/
def ofEntries (cfg : LsmConfig) (id level : ℕ) (contents : ChainMap) (hne : contents.entries ≠ []) :
    FileMetadata where
  id := id
  level := level
  minKey := (contents.entries.head hne).key
  maxKey := (contents.entries.getLast hne).key
  totalSize := cfg.sstableSize contents.entries
  contents := contents
  readable := cfg.layout.readable contents.entries
  within _ he := ⟨Ascending.head_le contents.ascending hne he, Ascending.le_getLast contents.ascending hne he⟩
  nonempty := hne

variable (f : FileMetadata)

/-- The range of a file is not empty. -/
theorem minKey_le_maxKey : f.minKey ≤ f.maxKey := by
  obtain ⟨e, he⟩ := exists_mem_of_ne_nil _ f.nonempty
  exact (f.within e he).1.trans (f.within e he).2

/-- The range of a file meets another. -/
def overlaps (minKey maxKey : Key) : Bool :=
  if f.maxKey < minKey then false else if maxKey < f.minKey then false else true

def containsKey (key : Key) : Bool := f.minKey ≤ key && key ≤ f.maxKey

def get (key : Key) (snapshotLsn : ℕ) : Except LsmError (Option Bytes) :=
  lookup "SSTableReader::get" "SSTable" (f.contents.chain key) snapshotLsn

end FileMetadata

/-- `VersionEdit`, as far as it is used. -/
inductive VersionEdit
  | addSstable (file : FileMetadata)
  | removeSstable (id : ℕ)

/-- `Version` of the manifest: the sorted tables by level, and the next of the identifiers that
compactions give. `files_by_id` is read off the levels. -/
structure TreeVersion where
  levels : List (List FileMetadata)
  nextSstableId : ℕ

namespace TreeVersion

variable (version : TreeVersion)

def new (numLevels : ℕ) : TreeVersion := ⟨List.replicate numLevels [], 1⟩

/-- The files, all levels together. -/
def files : List FileMetadata := version.levels.flatten

/-- The files of a level after a new one; below the first level they are sorted. -/
def addToLevel (file : FileMetadata) (files : List FileMetadata) : List FileMetadata :=
  if 0 < file.level then (files ++ [file]).insertionSort fun a b => a.minKey ≤ b.minKey
  else files ++ [file]

/-- `Version::apply`. Without any level the index of the last one wraps around. -/
def apply : VersionEdit → Except LsmError TreeVersion
  | .addSstable file =>
    if version.levels.length ≤ file.level then
      .error (.invalidLevel file.level ((version.levels.length + 2 ^ 64 - 1) % 2 ^ 32))
    else if version.files.any fun f => f.id = file.id then .error (.sstableIdExists file.id)
    else .ok { version with levels := version.levels.modify file.level (addToLevel file) }
  | .removeSstable id =>
    match version.files.find? fun f => f.id = id with
    | none => .error (.sstableIdNotFound id)
    | some file =>
      .ok { version with
        levels := version.levels.modify file.level fun files => files.filter fun f => f.id ≠ id }

/-- The files a read of a key opens, in order: on the first level all whose range has the key, the
newest first; on every other level the one that a binary search finds. -/
def filesFor (key : Key) : List FileMetadata :=
  match version.levels with
  | [] => []
  | level0 :: deeper =>
    level0.reverse.filter (·.containsKey key) ++ deeper.filterMap fun files => files.find? (·.containsKey key)

end TreeVersion

/-! ## The tree -/

/-- `LsmTree`; the immutable memtables from the oldest on. -/
structure LsmTree where
  active : Memtable
  immutable : List Memtable
  version : TreeVersion

/-- The first answer of some sources, in order. -/
def firstOf {σ : Type*} (ask : σ → Except LsmError (Option Bytes)) : List σ → Except LsmError (Option Bytes)
  | [] => .ok none
  | source :: sources =>
    match ask source with
    | .error e => .error e
    | .ok (some value) => .ok (some value)
    | .ok none => firstOf ask sources

namespace LsmTree

variable (cfg : LsmConfig) (tree : LsmTree)

def new : LsmTree := ⟨.new cfg.memtableMaxSize, [], .new cfg.levels.length⟩

/-- The memtables a read asks, in order. -/
def memtables : List Memtable := tree.active :: tree.immutable.reverse

/-- `get_internal`. -/
def get (key : Key) (snapshotLsn : ℕ) : Except LsmError (Option Bytes) :=
  match firstOf (·.get key snapshotLsn) tree.memtables with
  | .error e => .error e
  | .ok (some value) => .ok (hideEmpty (some value))
  | .ok none =>
    (firstOf (·.get key snapshotLsn) (tree.version.filesFor key)).map hideEmpty

/-- The active memtable goes to the immutable ones. -/
def rotateMemtable : LsmTree :=
  { tree with
    active := .new cfg.memtableMaxSize
    immutable := tree.immutable ++ [tree.active.makeImmutable] }

/-- `insert_internal`: a full memtable is rotated, and the insert tried once more. -/
def insertInternal (key : Key) (value : Bytes) (t : TransactionId) (commitLsn : Option ℕ) :
    Outcome LsmTree LsmError Unit :=
  match tree.active.insert cfg key value t commitLsn with
  | (active, .ok ()) => ({ tree with active }, .ok ())
  | (_, .error .memtableFull) =>
    let rotated := tree.rotateMemtable cfg
    let (active, answer) := rotated.active.insert cfg key value t commitLsn
    ({ rotated with active }, answer)
  | (_, .error e) => (tree, .error e)

/-- `delete_internal`: the empty value is a tombstone. -/
def deleteInternal (key : Key) (t : TransactionId) (commitLsn : Option ℕ) : Outcome LsmTree LsmError Unit :=
  tree.insertInternal cfg key [] t commitLsn

/-- `commit_versions`, on the active and the immutable memtables. -/
def commitVersions (t : TransactionId) (lsn : ℕ) : LsmTree :=
  { tree with active := tree.active.commitVersions t lsn }

/-- `flush_single_memtable`, with the reading of the clock that becomes the identifier. -/
def flushSingleMemtable (version : TreeVersion) (m : Memtable) (id : ℕ) : Outcome TreeVersion LsmError Unit :=
  match m.entries with
  | .error e => (version, .error e)
  | .ok contents =>
    if hne : contents.entries = [] then (version, .ok ())
    else match version.apply (.addSstable (.ofEntries cfg id 0 contents hne)) with
      | .error e => (version, .error e)
      | .ok version => (version, .ok ())

/-- The loop of `flush_immutable_memtables`: memtables with the number of the reading each takes. -/
def flushEach (clock : ℕ → ℕ) : TreeVersion → List (Memtable × ℕ) → Outcome TreeVersion LsmError Unit :=
  forEach fun version (m : Memtable × ℕ) => flushSingleMemtable cfg version m.1 (clock m.2)

/-- `flush_immutable_memtables`. The list is cleared at the end, so after a failure it still has the
memtables that were flushed. -/
def flushImmutableMemtables (clock : ℕ → ℕ) : Outcome LsmTree LsmError Unit :=
  match flushEach cfg clock tree.version tree.immutable.zipIdx with
  | (version, .error e) => ({ tree with version }, .error e)
  | (version, .ok ()) => ({ tree with version, immutable := [] }, .ok ())

/-- `flush_memtable`, which does nothing if the active memtable is empty. -/
def flushMemtable (clock : ℕ → ℕ) : Outcome LsmTree LsmError Unit :=
  if tree.active.data.entries = [] then (tree, .ok ())
  else (tree.rotateMemtable cfg).flushImmutableMemtables cfg clock

end LsmTree

/-! ## One chain for each key -/

variable {newer older : VersionChain} {s : ℕ} {key : Key}

theorem lookup_of_inline (h : ∀ v ∈ newer, Inline v) {operation place : String} :
    lookup operation place newer s = .ok (shows newer s) := by
  rw [lookup, shows_eq, VersionChain.findVisibleVersion]
  cases hfind : newer.find? (Version.visible (.atLsn s)) with
  | none => rfl
  | some v =>
    obtain ⟨data, hdata⟩ := h v (mem_of_find?_eq_some hfind)
    simp [hdata, VersionValue.inline?]

/-- A memtable answers with what its chain shows. -/
theorem Memtable.get_eq (m : Memtable) : m.get key s = .ok (shows (m.data.chain key) s) :=
  lookup_of_inline m.data.inline_chain

theorem FileMetadata.get_eq (f : FileMetadata) : f.get key s = .ok (shows (f.contents.chain key) s) :=
  lookup_of_inline f.contents.inline_chain

theorem shows_of_uncommitted (h : ∀ v ∈ newer, v.commitLsn = none) : shows newer s = none := by
  have hnone : newer.find? (Version.visible (.atLsn s)) = none :=
    find?_eq_none.mpr fun v hv => by simp [Version.visible, h v hv]
  rw [shows_eq, hnone, Option.bind_none]

/-- Newer versions answer first. -/
theorem shows_append (h : ∀ v ∈ newer, Inline v) :
    shows (newer ++ older) s = (shows newer s).or (shows older s) := by
  rw [shows_eq, shows_eq, shows_eq, find?_append]
  cases hfind : newer.find? (Version.visible (.atLsn s)) with
  | none => simp
  | some v =>
    obtain ⟨data, hdata⟩ := h v (mem_of_find?_eq_some hfind)
    simp [hdata, VersionValue.inline?]

variable {σ : Type*}

/-- The first source that shows a value answers. -/
theorem shows_flatMap {f : σ → VersionChain} (h : ∀ x, ∀ v ∈ f x, Inline v) {sources : List σ} :
    shows (sources.flatMap f) s = sources.findSome? fun x => shows (f x) s := by
  induction sources with
  | nil => rfl
  | cons x sources ih =>
    rw [flatMap_cons, shows_append (h x), ih, findSome?_cons]
    cases shows (f x) s with
    | none | some value => rfl

/-- **Sources asked in turn answer as one chain.** -/
theorem firstOf_eq {ask : σ → Except LsmError (Option Bytes)} (held : σ → ChainMap)
    (hask : ∀ source, ask source = .ok (shows ((held source).chain key) s)) {sources : List σ} :
    firstOf ask sources = .ok (shows (sources.flatMap fun source => (held source).chain key) s) := by
  induction sources with
  | nil => rfl
  | cons source sources ih =>
    rw [firstOf, hask, flatMap_cons, shows_append ((held source).inline_chain), ih]
    cases shows ((held source).chain key) s with
    | none | some value => rfl

/-- Outside its range a file has no version. -/
theorem FileMetadata.chain_eq_nil {f : FileMetadata} (h : f.containsKey key = false) :
    f.contents.chain key = [] := by
  have hnone : chainOn f.contents.entries key = none := by
    refine chainOn_eq_none.mpr fun e he hkey => ?_
    obtain ⟨hmin, hmax⟩ := f.within e he
    rw [hkey] at hmin hmax
    simp [containsKey, hmin, hmax] at h
  rw [ChainMap.chain, hnone]
  rfl

/-- The chains of a key in some files, one behind the other. -/
def filesChain (files : List FileMetadata) (key : Key) : VersionChain :=
  files.flatMap fun f => f.contents.chain key

theorem filesChain_filter (files : List FileMetadata) (key : Key) :
    filesChain (files.filter (·.containsKey key)) key = filesChain files key := by
  induction files with
  | nil => rfl
  | cons f files ih =>
    unfold filesChain at ih ⊢
    rw [filter_cons]
    by_cases hf : f.containsKey key = true
    · rw [if_pos hf, flatMap_cons, flatMap_cons, ih]
    · rw [if_neg hf, flatMap_cons, ih, FileMetadata.chain_eq_nil (Bool.eq_false_iff.mpr hf), nil_append]

/-- The chains of the files of a version: all of the first level, then one file of each other. -/
theorem TreeVersion.filesChain_cons (level0 : List FileMetadata) (deeper : List (List FileMetadata))
    (next : ℕ) (k : Key) : filesChain ((⟨level0 :: deeper, next⟩ : TreeVersion).filesFor k) k =
      filesChain level0.reverse k ++
        filesChain (deeper.filterMap fun files => files.find? (·.containsKey k)) k := by
  have hlevel0 := filesChain_filter level0.reverse k
  unfold filesChain at hlevel0 ⊢
  rw [TreeVersion.filesFor, flatMap_append, hlevel0]

/-- The chains of a key in some memtables, one behind the other. -/
def memtablesChain (memtables : List Memtable) (key : Key) : VersionChain :=
  memtables.flatMap fun m => m.data.chain key

theorem memtablesChain_append (ms ms' : List Memtable) :
    memtablesChain (ms ++ ms') key = memtablesChain ms key ++ memtablesChain ms' key :=
  flatMap_append

namespace LsmTree

variable (tree : LsmTree)

/-- All versions of a key, in the order a read comes across them. -/
def chain (key : Key) : VersionChain :=
  memtablesChain tree.memtables key ++ filesChain (tree.version.filesFor key) key

theorem inline_memtables {ms : List Memtable} : ∀ v ∈ memtablesChain ms key, Inline v := by
  intro v hv
  obtain ⟨m, -, hv⟩ := mem_flatMap.mp hv
  exact m.data.inline_chain v hv

theorem inline_files {files : List FileMetadata} : ∀ v ∈ filesChain files key, Inline v := by
  intro v hv
  obtain ⟨f, -, hv⟩ := mem_flatMap.mp hv
  exact f.contents.inline_chain v hv

theorem inline_chain : ∀ v ∈ tree.chain key, Inline v :=
  forall_mem_append.mpr ⟨inline_memtables, inline_files⟩

/-- **A read is a read of one chain**, and does not fail. -/
theorem get_eq : tree.get key s = .ok (hideEmpty (shows (tree.chain key) s)) := by
  have hmems : firstOf (·.get key s) tree.memtables =
      .ok (shows (memtablesChain tree.memtables key) s) :=
    firstOf_eq Memtable.data (fun m => m.get_eq)
  have hfiles : firstOf (·.get key s) (tree.version.filesFor key) =
      .ok (shows (filesChain (tree.version.filesFor key) key) s) :=
    firstOf_eq FileMetadata.contents (fun f => f.get_eq)
  rw [get, hmems, hfiles, chain, shows_append inline_memtables]
  cases shows (memtablesChain tree.memtables key) s with
  | none | some value => rfl

end LsmTree

end NanoStore.Lsm
