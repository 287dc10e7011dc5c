import NanoStore.Common.MultiVersion
import NanoStore.Common.Steps
import NanoStore.Table.Blob
/-!
# Blobs in files

`FileBlob` of `table/blob/file.rs`: a value is a file whose name is the key
in hexadecimal digits, so that a key has one file, whatever its version. A
file is created only if it does not exist: a key that has a value cannot be
put again. A deletion is a version without a file, and reading one fails.
Committing stamps the versions of all transactions. `vacuum` removes the
file of every version below the newest one of its chain that is committed
below the watermark.

In every run in which no deletion is committed, a transaction commits only
its own versions, and no vacuum finds a version with a file under a pending
deletion, every snapshot reads what a multi-version map answers; and each
of these conditions is needed at the step it is about (`faithful_of_run`).
-/

namespace NanoStore.Table

open Steps Txn MultiVersion Function List BlobChains

/-- `FileSystemError`, for a path that is not there or is there already. -/
inductive FileSystemError
  | pathMissing (path : Bytes)
  | pathExists (path : Bytes)
  deriving DecidableEq

/-- The files of a file system, by the bytes of their paths. -/
abbrev Files := Bytes → Option Bytes

/-- `BlobMetadata` of a file. -/
structure FileMetadata where
  filePath : Bytes
  size : ℕ
  deriving DecidableEq

/-- The errors of a `FileBlob`: each is a `TableError::Other` with a text of its own. -/
inductive FileBlobError
  | createFile (cause : FileSystemError)
  | openFile (cause : FileSystemError)
  | notInline
  | deserialize
  deriving DecidableEq

/-- `FileBlob`: a directory with a file for each value, and the chains. -/
structure FileBlob where
  basePath : Bytes
  fs : Files
  index : BlobChains

/-! ## Paths -/

/-- A hexadecimal digit. -/
def hexDigit (d : Fin 16) : Byte := if d.val < 10 then ⟨48 + d, by omega⟩ else ⟨87 + d, by omega⟩

/-- A byte as two hexadecimal digits. -/
def hexByte (b : Byte) : Bytes := [hexDigit ⟨b / 16, by omega⟩, hexDigit ⟨b % 16, by omega⟩]

/-- `PathBuf::join` with a relative path. -/
def joinPath (base part : Bytes) : Bytes :=
  if base = [] ∨ base.getLast? = some 47 then base ++ part else base ++ 47 :: part

/-- The file of a key is its bytes in hexadecimal. -/
def keyToPath (base : Bytes) (key : Key) : Bytes := joinPath base (key.flatMap hexByte)

/-! ## Calls -/

namespace FileBlob

variable (postcard : Postcard FileMetadata) (table : FileBlob)

def new (basePath : Bytes) (fs : Files) : FileBlob := ⟨basePath, fs, .empty⟩

/-- `read_blob_file`. -/
def readBlobFile (path : Bytes) : Except FileBlobError Bytes :=
  match table.fs path with
  | some data => .ok data
  | none => .error (.openFile (.pathMissing path))

def getSnapshot (key : Key) (snapshot : Snapshot) : Except FileBlobError (Option Bytes) :=
  match table.index.lookup key with
  | none => .ok none
  | some chain =>
    match VersionChain.findVisibleVersion snapshot chain with
    | none => .ok none
    | some (.external _) => .error .notInline
    | some (.inline metadataBytes) =>
      match postcard.decode metadataBytes with
      | none => .error .deserialize
      | some metadata => (table.readBlobFile metadata.filePath).map some

/-- `put_tx`. The file is created before anything else is done. -/
def putTx (key value : Bytes) (txId : TransactionId) : Outcome FileBlob FileBlobError ℕ :=
  let path := keyToPath table.basePath key
  match table.fs path with
  | some _ => (table, .error (.createFile (.pathExists path)))
  | none =>
    ({ table with
        fs := update table.fs path (some value)
        index := table.index.prepend key (postcard.encode ⟨path, value.length⟩) txId }, .ok value.length)

/-- The metadata of a deletion. -/
def tombstone : FileMetadata := ⟨[], 0⟩

def deleteTx (key : Key) (txId : TransactionId) : FileBlob × Bool :=
  match table.index.lookup key with
  | none => (table, false)
  | some _ => ({ table with index := table.index.prepend key (postcard.encode tombstone) txId }, true)

def commitVersions (txId : TransactionId) (commitLsn : ℕ) : FileBlob :=
  { table with index := table.index.commitVersions txId commitLsn }

/-- The file a version points to. -/
def fileOf (v : Version) : Option Bytes :=
  match v.value with
  | .external _ => none
  | .inline metadataBytes =>
    ((postcard.decode metadataBytes).map FileMetadata.filePath).filter fun path => !path.isEmpty

/-- The files of the versions behind the newest one of a chain that are committed below the watermark. -/
def filesToDelete (minVisibleLsn : ℕ) (chain : VersionChain) : List Bytes :=
  (chain.tail.filter (Version.obsolete minVisibleLsn)).filterMap (fileOf postcard)

/-- `remove_file`, whose failure is only reported. -/
def removeFile (fs : Files) (path : Bytes) : Files := update fs path none

/-- The chains are cut, and the files of what is cut removed. -/
def vacuum (minVisibleLsn : ℕ) : FileBlob × ℕ :=
  ({ table with
      fs := (table.index.entries.flatMap fun e => filesToDelete postcard minVisibleLsn e.2).foldl
        removeFile table.fs
      index := table.index.mapValues fun chain => (VersionChain.vacuum minVisibleLsn chain).1 },
    (table.index.entries.map fun e => (VersionChain.vacuum minVisibleLsn e.2).2.1).sum)

end FileBlob

/-- The calls that change a `FileBlob`. -/
inductive FileCall
  | putTx (key value : Bytes) (txId : TransactionId)
  | deleteTx (key : Key) (txId : TransactionId)
  | commitVersions (txId : TransactionId) (commitLsn : ℕ)
  | vacuum (minVisibleLsn : ℕ)
  deriving DecidableEq

/-- What a call answers. -/
inductive FileAnswer
  | written (bytes : ℕ)
  | failed (e : FileBlobError)
  | deleted (existed : Bool)
  | committed
  | removed (versions : ℕ)
  deriving DecidableEq

namespace FileBlob

variable (postcard : Postcard FileMetadata)

def exec (table : FileBlob) : FileCall → FileBlob × FileAnswer
  | .putTx key value txId =>
    match table.putTx postcard key value txId with
    | (table, .ok bytes) => (table, .written bytes)
    | (table, .error e) => (table, .failed e)
  | .deleteTx key txId => ((table.deleteTx postcard key txId).1, .deleted (table.deleteTx postcard key txId).2)
  | .commitVersions txId commitLsn => (table.commitVersions txId commitLsn, .committed)
  | .vacuum minVisibleLsn =>
    ((table.vacuum postcard minVisibleLsn).1, .removed (table.vacuum postcard minVisibleLsn).2)

/-! ## What a run is compared with -/

/-- A call and its answer as a call on a multi-version map: a put that failed and a deletion of a key that has
no version write nothing, and a vacuum changes nothing. -/
def recordedCall : FileCall × FileAnswer → Option (Call Key TransactionId Bytes)
  | (.putTx key value txId, .written _) => some (.write txId key (some value))
  | (.deleteTx key txId, .deleted true) => some (.write txId key none)
  | (.commitVersions txId commitLsn, _) => some (.commit txId commitLsn)
  | _ => none

variable (trace : List (FileCall × FileAnswer))

/-- The multi-version map the calls of a trace leave. -/
def reference : Map Key TransactionId Bytes :=
  replay (trace.filterMap recordedCall)

def watermarkOf : FileCall → ℕ
  | .vacuum minVisibleLsn => minVisibleLsn
  | _ => 0

/-- The highest watermark of the vacuums so far. -/
def watermark : ℕ := (trace.map fun e => watermarkOf e.1).foldr max 0

/-- **Every snapshot from the watermark on reads the newest version committed for it.** -/
def Faithful (table : FileBlob) : Prop :=
  ∀ key s, watermark trace ≤ s → table.getSnapshot postcard key (.atLsn s) = .ok ((reference trace).get key s)

/-- **The calls that keep a table faithful**: a transaction commits only its own versions, and no deletion; a
vacuum finds no file of a version committed below the watermark that is not the newest of its chain. -/
def Careful (table : FileBlob) : FileCall → Prop
  | .putTx _ _ _ => True
  | .deleteTx _ _ => True
  | .commitVersions txId _ => ∀ e ∈ table.index.entries, ∀ v ∈ e.2,
      v.commitLsn = none → v.createdBy = txId ∧ v.value ≠ .inline (postcard.encode tombstone)
  | .vacuum minVisibleLsn => ∀ e ∈ table.index.entries, filesToDelete postcard minVisibleLsn e.2 = []

instance (table : FileBlob) (call : FileCall) : Decidable (Careful postcard table call) :=
  match call with
  | .putTx _ _ _ => .isTrue trivial
  | .deleteTx _ _ => .isTrue trivial
  | .commitVersions txId _ => inferInstanceAs (Decidable (∀ e ∈ table.index.entries, ∀ v ∈ e.2,
      v.commitLsn = none → v.createdBy = txId ∧ v.value ≠ .inline (postcard.encode tombstone)))
  | .vacuum minVisibleLsn => inferInstanceAs (Decidable (∀ e ∈ table.index.entries,
      filesToDelete postcard minVisibleLsn e.2 = []))

end FileBlob

/-! ## Paths of different keys -/

theorem hexDigit_injective : Function.Injective hexDigit := by
  intro d d'
  revert d d'
  decide

theorem hexByte_injective : Function.Injective hexByte := by
  intro b b' h
  simp only [hexByte, List.cons.injEq, and_true] at h
  have hhigh := congrArg Fin.val (hexDigit_injective h.1)
  have hlow := congrArg Fin.val (hexDigit_injective h.2)
  apply Fin.ext
  simp only at hhigh hlow
  omega

theorem hex_injective : Function.Injective fun key : Key => key.flatMap hexByte := by
  intro key key' h
  induction key generalizing key' with
  | nil =>
    cases key' with
    | nil => rfl
    | cons b' key' => simp [hexByte] at h
  | cons b key ih =>
    cases key' with
    | nil => simp [hexByte] at h
    | cons b' key' =>
      simp only [flatMap_cons] at h
      -- two digits for each byte, so the digits of the first bytes are the same
      obtain ⟨hfst, hrest⟩ := append_inj h rfl
      rw [hexByte_injective hfst, ih hrest]

theorem keyToPath_injective {base : Bytes} : Function.Injective (keyToPath base) := by
  intro key key' h
  apply hex_injective
  simp only [keyToPath, joinPath] at h
  split_ifs at h
  · exact append_cancel_left h
  · exact tail_eq_of_cons_eq (append_cancel_left h)

theorem keyToPath_ne_nil {base : Bytes} (hbase : base ≠ []) {key : Key} : keyToPath base key ≠ [] := by
  simp only [keyToPath, joinPath]
  split_ifs
  · exact append_ne_nil_of_left_ne_nil hbase _
  · exact append_ne_nil_of_left_ne_nil hbase _

/-! ## Keys that were put once -/

namespace FileBlob

variable {postcard : Postcard FileMetadata} {table : FileBlob} {map : Map Key TransactionId Bytes}
  {key key' : Key} {deleters : List TransactionId} {txId : TransactionId} {committed : Option ℕ}
  {value : Bytes} {s : ℕ}

/-- The version of a value that was put. -/
def putVersion (postcard : Postcard FileMetadata) (base : Bytes) (key value : Bytes) (txId : TransactionId)
    (committed : Option ℕ) : Version :=
  ⟨.inline (postcard.encode ⟨keyToPath base key, value.length⟩), txId, committed⟩

/-- The version of a value under deletions that are not committed. -/
def putOnceChain (postcard : Postcard FileMetadata) (base : Bytes) (key value : Bytes)
    (deleters : List TransactionId) (txId : TransactionId) (committed : Option ℕ) : VersionChain :=
  deleters.map (Version.new (postcard.encode tombstone)) ++ [putVersion postcard base key value txId committed]

/-- The history of a key that was put once, and deleted by transactions that did not commit. -/
def putOnceHistory (deleters : List TransactionId) (txId : TransactionId) (committed : Option ℕ)
    (value : Bytes) : History TransactionId Bytes :=
  deleters.map (fun t => ⟨t, none, none⟩) ++ [⟨txId, committed, some value⟩]

/-- The key was put once: its value is in its file, and above its version are deletions that are not
committed. -/
structure PutOnce (postcard : Postcard FileMetadata) (table : FileBlob) (key : Key)
    (deleters : List TransactionId) (txId : TransactionId) (committed : Option ℕ) (value : Bytes) : Prop where
  chain : table.index.lookup key = some (putOnceChain postcard table.basePath key value deleters txId committed)
  file : table.fs (keyToPath table.basePath key) = some value

/-- The table holds the history of a key that was put once or never. -/
def TellsOf (postcard : Postcard FileMetadata) (table : FileBlob) (key : Key)
    (history : History TransactionId Bytes) : Prop :=
  (table.index.lookup key = none ∧ history = []) ∨
    ∃ deleters txId committed value, PutOnce postcard table key deleters txId committed value ∧
      history = putOnceHistory deleters txId committed value

/-- The table holds a map of keys that were put once. -/
def Tells (postcard : Postcard FileMetadata) (map : Map Key TransactionId Bytes) (table : FileBlob) : Prop :=
  ∀ key, TellsOf postcard table key (map key)

section Chains

variable (postcard) (base key value : Bytes) (deleters : List TransactionId) (txId : TransactionId)
  (committed : Option ℕ)

theorem find?_putOnceChain (s : ℕ) :
    (putOnceChain postcard base key value deleters txId committed).find? (Version.visible (.atLsn s)) =
      if committed.any (· ≤ s) then some (putVersion postcard base key value txId committed) else none := by
  have hdeletions : (deleters.map (Version.new (postcard.encode tombstone))).find?
      (Version.visible (.atLsn s)) = none := by
    refine find?_eq_none.mpr fun v hv => ?_
    obtain ⟨t, -, rfl⟩ := mem_map.mp hv
    exact Bool.false_ne_true
  have hvis : (putVersion postcard base key value txId committed).visible (.atLsn s) =
      committed.any (· ≤ s) := by
    cases committed with
    | none => rfl
    | some n => exact Snapshot.isVisible_atLsn
  rw [putOnceChain, find?_append, hdeletions, Option.none_or]
  by_cases hseen : committed.any (· ≤ s) = true
  · rw [find?_cons_of_pos (hvis.trans hseen), if_pos hseen]
  · rw [find?_cons_of_neg (by rwa [hvis]), if_neg hseen]
    rfl

theorem filter_deletions (w : ℕ) :
    (deleters.map (Version.new (postcard.encode tombstone))).filter (Version.obsolete w) = [] := by
  refine filter_eq_nil_iff.mpr fun v hv => ?_
  obtain ⟨t, -, rfl⟩ := mem_map.mp hv
  exact Bool.false_ne_true

theorem vacuum_putOnceChain (w : ℕ) :
    (VersionChain.vacuum w (putOnceChain postcard base key value deleters txId committed)).1 =
      putOnceChain postcard base key value deleters txId committed := by
  have hcount : (putOnceChain postcard base key value deleters txId committed).countP (Version.obsolete w) ≤ 1 := by
    rw [putOnceChain, countP_eq_length_filter, filter_append, filter_deletions, nil_append]
    exact length_filter_le _ [_]
  rw [VersionChain.vacuum]
  exact congrArg Prod.fst (if_pos (by omega))

/-- The files a vacuum finds under a deletion: the file of the key, if its version is obsolete. -/
theorem filesToDelete_putOnceChain (hbase : base ≠ []) (d : TransactionId) (w : ℕ) :
    filesToDelete postcard w (putOnceChain postcard base key value (d :: deleters) txId committed) =
      if committed.any (· < w) then [keyToPath base key] else [] := by
  have hobs : (putVersion postcard base key value txId committed).obsolete w = committed.any (· < w) := by
    cases committed with
    | none | some n => rfl
  have hfile : fileOf postcard (putVersion postcard base key value txId committed) =
      some (keyToPath base key) := by
    simp [fileOf, putVersion, postcard.decode_encode, keyToPath_ne_nil hbase]
  rw [filesToDelete, putOnceChain, map_cons, cons_append, tail_cons, filter_append, filter_deletions,
    nil_append, filter_singleton, hobs]
  cases committed.any (· < w) with
  | true => simp [hfile]
  | false => rfl

end Chains

theorem getSnapshot_of_find {chain : VersionChain} {v : Version} {metadata : FileMetadata} {snapshot : Snapshot}
    (hchain : table.index.lookup key = some chain) (hfind : chain.find? (Version.visible snapshot) = some v)
    (hval : v.value = .inline (postcard.encode metadata)) :
    table.getSnapshot postcard key snapshot = (table.readBlobFile metadata.filePath).map some := by
  rw [getSnapshot, hchain]
  simp [VersionChain.findVisibleVersion, hfind, Option.map_some, hval, postcard.decode_encode]

theorem PutOnce.getSnapshot (h : PutOnce postcard table key deleters txId committed value) (s : ℕ) :
    table.getSnapshot postcard key (.atLsn s) = .ok (if committed.any (· ≤ s) then some value else none) := by
  have hfind := find?_putOnceChain postcard table.basePath key value deleters txId committed s
  by_cases hseen : committed.any (· ≤ s) = true
  · rw [if_pos hseen] at hfind ⊢
    rw [getSnapshot_of_find h.chain hfind rfl, readBlobFile, h.file]
    rfl
  · rw [if_neg hseen] at hfind ⊢
    rw [FileBlob.getSnapshot, h.chain]
    simp [VersionChain.findVisibleVersion, hfind, Option.map_none]

theorem read_putOnceHistory : (putOnceHistory deleters txId committed value).read s =
    if committed.any (· ≤ s) then some value else none := by
  have hopen : (deleters.map fun t => (⟨t, none, none⟩ : Write TransactionId Bytes)).filter
      (Write.seenAt s) = [] := by
    refine filter_eq_nil_iff.mpr fun w hw => ?_
    obtain ⟨t, -, rfl⟩ := mem_map.mp hw
    exact Bool.false_ne_true
  have hseen : Write.seenAt s (⟨txId, committed, some value⟩ : Write TransactionId Bytes) =
      committed.any (· ≤ s) := by
    cases committed with
    | none | some n => rfl
  rw [History.read, History.newestAt, putOnceHistory, filter_append, hopen, nil_append,
    filter_singleton, hseen]
  cases committed.any (· ≤ s) with
  | true | false => rfl

/-- **A table that holds a map is read as the map.** -/
theorem Tells.getSnapshot (h : Tells postcard map table) :
    table.getSnapshot postcard key (.atLsn s) = .ok (map.get key s) := by
  rcases h key with ⟨hnone, hemp⟩ | ⟨deleters, txId, committed, value, honce, hhist⟩
  · rw [FileBlob.getSnapshot, hnone, Map.get, hemp]
    rfl
  · rw [honce.getSnapshot, Map.get, hhist, read_putOnceHistory]

/-! ## Calls that keep a map -/

variable {t : TransactionId} {lsn w : ℕ}

/-- The chain and the file of a key are all that is told of it. -/
theorem TellsOf.congr {table' : FileBlob} {history : History TransactionId Bytes}
    (h : TellsOf postcard table key history) (hbase : table'.basePath = table.basePath)
    (hindex : table'.index.lookup key = table.index.lookup key)
    (hfile : table'.fs (keyToPath table.basePath key) = table.fs (keyToPath table.basePath key)) :
    TellsOf postcard table' key history := by
  rcases h with ⟨hnone, hemp⟩ | ⟨deleters, txId, committed, value, honce, hhist⟩
  · exact .inl ⟨hindex.trans hnone, hemp⟩
  · refine .inr ⟨deleters, txId, committed, value, ⟨?_, ?_⟩, hhist⟩
    · rw [hindex, hbase, honce.chain]
    · rw [hbase, hfile, honce.file]

theorem Tells.putTx (h : Tells postcard map table) {key : Bytes} :
    (∃ e, table.putTx postcard key value t = (table, .error e)) ∨
      ∃ table', table.putTx postcard key value t = (table', .ok value.length) ∧
        Tells postcard (map.write t key (some value)) table' ∧
        (table.basePath ≠ [] → table'.fs [] = table.fs []) ∧ table'.basePath = table.basePath := by
  rw [FileBlob.putTx]
  cases hfile : table.fs (keyToPath table.basePath key) with
  | some data => exact .inl ⟨_, rfl⟩
  | none =>
    refine .inr ⟨_, rfl, fun key' => ?_, fun hbase => ?_, rfl⟩
    · by_cases hkey : key' = key
      · subst hkey
        -- a key that was put has a file
        obtain ⟨hnone, hemp⟩ : table.index.lookup key' = none ∧ map key' = [] := by
          rcases h key' with hnone | ⟨_, _, _, _, honce, -⟩
          · exact hnone
          · exact absurd (hfile.symm.trans honce.file) nofun
        refine .inr ⟨[], t, none, value, ⟨?_, update_self ..⟩, ?_⟩
        · show SortedMap.lookup (prepend _ _ _ _) key' = _
          rw [lookup_prepend, if_pos rfl, hnone]
          rfl
        · rw [Map.write, update_self, hemp]
          rfl
      · have hpath : keyToPath table.basePath key' ≠ keyToPath table.basePath key :=
          fun heq => hkey (keyToPath_injective heq)
        rw [Map.write, update_of_ne hkey]
        exact (h key').congr rfl (lookup_prepend_of_ne hkey) (update_of_ne hpath ..)
    · exact update_of_ne (keyToPath_ne_nil hbase).symm ..

theorem Tells.deleteTx (h : Tells postcard map table) :
    table.deleteTx postcard key t = (table, false) ∨
      ∃ table', table.deleteTx postcard key t = (table', true) ∧
        Tells postcard (map.write t key none) table' ∧ table'.fs = table.fs ∧
        table'.basePath = table.basePath := by
  rw [FileBlob.deleteTx]
  cases hchain : table.index.lookup key with
  | none => exact .inl rfl
  | some chain =>
    refine .inr ⟨_, rfl, fun key' => ?_, rfl, rfl⟩
    by_cases hkey : key' = key
    · subst hkey
      obtain ⟨deleters, txId, committed, value, honce, hhist⟩ :=
        (h key').resolve_left fun hnone => absurd (hchain.symm.trans hnone.1) nofun
      refine .inr ⟨t :: deleters, txId, committed, value, ⟨?_, honce.file⟩, ?_⟩
      · show SortedMap.lookup (prepend _ _ _ _) key' = _
        rw [lookup_prepend, if_pos rfl, honce.chain]
        rfl
      · rw [Map.write, update_self, hhist]
        rfl
    · rw [Map.write, update_of_ne hkey]
      exact (h key').congr rfl (lookup_prepend_of_ne hkey) rfl

/-- The position of a version after a commit. -/
def stamped (lsn : ℕ) (committed : Option ℕ) : Option ℕ := some (committed.getD lsn)

/-- What is pending of a key when its transaction commits carefully: no deletion, and no other
transaction's value. -/
theorem PutOnce.pending_of_careful (h : PutOnce postcard table key deleters txId committed value)
    (hcare : Careful postcard table (.commitVersions t lsn)) :
    deleters = [] ∧ (committed = none → txId = t) := by
  have hall := hcare (key, _) (SortedMap.lookup_eq_some.mp h.chain)
  refine ⟨eq_nil_iff_forall_not_mem.mpr fun d hd => ?_, fun hnone => ?_⟩
  · have hdeletion := hall _ (mem_append_left _ (mem_map_of_mem hd)) rfl
    exact hdeletion.2 rfl
  · exact (hall _ (mem_append_right _ mem_cons_self) hnone).1

section

variable (h : Tells postcard map table)
include h

theorem Tells.commitVersions
    (hcare : Careful postcard table (.commitVersions t lsn)) :
    Tells postcard (map.commit t lsn) (table.commitVersions t lsn) := by
  intro key
  have hlook : (table.commitVersions t lsn).index.lookup key =
      (table.index.lookup key).map (commitAllUncommitted lsn) :=
    lookup_commitVersions t lsn
  rcases h key with ⟨hnone, hemp⟩ | ⟨deleters, txId, committed, value, honce, hhist⟩
  · refine .inl ⟨by rw [hlook, hnone, Option.map_none], ?_⟩
    rw [Map.commit, hemp]
    rfl
  · obtain ⟨rfl, howner⟩ := honce.pending_of_careful hcare
    refine .inr ⟨[], txId, stamped lsn committed, value, ⟨?_, honce.file⟩, ?_⟩
    · rw [hlook, honce.chain, Option.map_some]
      cases committed with
      | none | some n => rfl
    · rw [Map.commit, hhist]
      cases committed with
      | none =>
        obtain rfl := howner rfl
        simp [putOnceHistory, History.commit, stamped]
      | some n => simp [putOnceHistory, History.commit, stamped]

theorem Tells.vacuum_chains :
    (table.vacuum postcard w).1.index.lookup key = table.index.lookup key := by
  have hlook : (table.vacuum postcard w).1.index.lookup key =
      (table.index.lookup key).map fun chain => (VersionChain.vacuum w chain).1 :=
    SortedMap.lookup_mapValues _
  rw [hlook]
  rcases h key with ⟨hnone, -⟩ | ⟨deleters, txId, committed, value, honce, -⟩
  · rw [hnone, Option.map_none]
  · rw [honce.chain, Option.map_some, vacuum_putOnceChain]

theorem Tells.vacuum (hcare : Careful postcard table (.vacuum w)) :
    Tells postcard map (table.vacuum postcard w).1 ∧ (table.vacuum postcard w).1.fs = table.fs := by
  have hfiles : (table.index.entries.flatMap fun e => filesToDelete postcard w e.2) = [] := by
    exact flatMap_eq_nil_iff.mpr hcare
  have hfs : (table.vacuum postcard w).1.fs = table.fs := by
    rw [FileBlob.vacuum, hfiles, foldl_nil]
  exact ⟨fun key => (h key).congr rfl h.vacuum_chains (congrFun hfs _), hfs⟩

end

/-! ## Runs -/

variable {trace : List (FileCall × FileAnswer)} {call : FileCall}

/-- The call leaves where the table is, and nothing at the empty path. -/
def Stays (table table' : FileBlob) : Prop :=
  table'.basePath = table.basePath ∧ (table.basePath ≠ [] → table'.fs [] = table.fs [])

/-- **One careful call**: the map goes on as the call says. -/
theorem Tells.exec (h : Tells postcard (reference trace) table) (hcare : Careful postcard table call) :
    Tells postcard (reference ((call, (table.exec postcard call).2) :: trace)) (table.exec postcard call).1 ∧
      Stays table (table.exec postcard call).1 := by
  cases call with
  | putTx key value t =>
    rw [FileBlob.exec]
    rcases h.putTx with ⟨e, hfail⟩ | ⟨table', hput, htells, hroot, hbase⟩
    · rw [hfail]
      exact ⟨h, rfl, fun _ => rfl⟩
    · rw [hput]
      exact ⟨htells, hbase, hroot⟩
  | deleteTx key t =>
    rw [FileBlob.exec]
    rcases h.deleteTx with hnil | ⟨table', hdel, htells, hfs, hbase⟩
    · rw [hnil]
      exact ⟨h, rfl, fun _ => rfl⟩
    · rw [hdel]
      exact ⟨htells, hbase, fun _ => congrFun hfs []⟩
  | commitVersions t lsn => exact ⟨h.commitVersions hcare, rfl, fun _ => rfl⟩
  | vacuum w =>
    obtain ⟨htells, hfs⟩ := h.vacuum hcare
    exact ⟨htells, rfl, fun _ => congrFun hfs []⟩

/-! ### What a careless call does -/

variable {d : TransactionId}

theorem PutOnce.commit_deletion
    (h : PutOnce postcard table key (d :: deleters) txId committed value) (hfs : table.fs [] = none)
    (hs : lsn ≤ s) : (table.commitVersions t lsn).getSnapshot postcard key (.atLsn s) =
      .error (.openFile (.pathMissing [])) := by
  have hchain : (table.commitVersions t lsn).index.lookup key = some
      (⟨.inline (postcard.encode tombstone), d, some lsn⟩ :: commitAllUncommitted lsn
        (putOnceChain postcard table.basePath key value deleters txId committed)) := by
    show SortedMap.lookup (BlobChains.commitVersions _ t _) key = _
    rw [lookup_commitVersions, h.chain]
    rfl
  have hseen : Version.visible (.atLsn s) ⟨.inline (postcard.encode tombstone), d, some lsn⟩ = true := by
    simp [Version.visible, hs]
  have hnofile : (table.commitVersions t lsn).fs tombstone.filePath = none := hfs
  rw [getSnapshot_of_find hchain (find?_cons_of_pos hseen) rfl, readBlobFile, hnofile]
  rfl

theorem foldl_removeFile (paths : List Bytes) (fs : Files) (path : Bytes) :
    paths.foldl removeFile fs path = if path ∈ paths then none else fs path := by
  induction paths generalizing fs with
  | nil => rw [foldl_nil, if_neg not_mem_nil]
  | cons p paths ih =>
    rw [foldl_cons, ih]
    by_cases hlater : path ∈ paths
    · rw [if_pos hlater, if_pos (mem_cons_of_mem _ hlater)]
    · by_cases hfst : path = p
      · subst hfst
        rw [if_neg hlater, if_pos mem_cons_self, removeFile, update_self]
      · rw [if_neg hlater, if_neg (by simp [hfst, hlater]), removeFile, update_of_ne hfst]

theorem Tells.vacuum_lost (h : Tells postcard map table) {n : ℕ}
    (honce : PutOnce postcard table key (d :: deleters) txId (some n) value) (hbase : table.basePath ≠ [])
    (hn : n < w) (hs : w ≤ s) : (table.vacuum postcard w).1.getSnapshot postcard key (.atLsn s) =
      .error (.openFile (.pathMissing (keyToPath table.basePath key))) := by
  have hgone : (table.vacuum postcard w).1.fs (keyToPath table.basePath key) = none := by
    rw [FileBlob.vacuum]
    dsimp only
    rw [foldl_removeFile, if_pos]
    refine mem_flatMap.mpr ⟨(key, _), SortedMap.lookup_eq_some.mp honce.chain, ?_⟩
    rw [filesToDelete_putOnceChain _ _ _ _ _ _ _ hbase]
    simp [hn]
  have hfind := find?_putOnceChain postcard table.basePath key value (d :: deleters) txId (some n) s
  rw [if_pos (by simpa using (hn.trans_le hs).le)] at hfind
  rw [getSnapshot_of_find (h.vacuum_chains.trans honce.chain) hfind rfl, readBlobFile, hgone]
  rfl

/-- **A call after which the table is faithful is careful.** -/
theorem Tells.careful_of_faithful (h : Tells postcard (reference trace) table) (hbase : table.basePath ≠ [])
    (hfs : table.fs [] = none) (hfaithful : Faithful postcard ((call, (table.exec postcard call).2) :: trace)
      (table.exec postcard call).1) : Careful postcard table call := by
  cases call with
  | putTx key value t | deleteTx key t => trivial
  | commitVersions t lsn =>
    rintro ⟨key, chain⟩ he v hv hopen
    have hchain := SortedMap.lookup_eq_some.mpr he
    obtain ⟨deleters, txId, committed, value, honce, hhist⟩ :=
      (h key).resolve_left fun hnone => absurd (hchain.symm.trans hnone.1) nofun
    have hread := hfaithful key (max lsn (watermark trace)) (by
      show max 0 (watermark trace) ≤ _
      omega)
    cases deleters with
    | cons d deleters =>
      have herror := honce.commit_deletion (t := t) hfs (le_max_left lsn (watermark trace))
      exact absurd (herror.symm.trans hread) nofun
    | nil =>
      obtain rfl : chain = [putVersion postcard table.basePath key value txId committed] :=
        Option.some.inj (hchain.symm.trans honce.chain)
      obtain rfl := mem_singleton.mp hv
      obtain rfl : committed = none := hopen
      refine ⟨?_, fun htomb => ?_⟩
      · by_contra howner
        -- the value is read, and its transaction has not committed
        have honce' : PutOnce postcard (table.commitVersions t lsn) key [] txId (some lsn) value := by
          refine ⟨?_, honce.file⟩
          show SortedMap.lookup (BlobChains.commitVersions _ t _) key = _
          rw [lookup_commitVersions, honce.chain]
          rfl
        have hmap : reference ((.commitVersions t lsn, .committed) :: trace) key =
            putOnceHistory [] txId none value := by
          show History.commit t lsn (reference trace key) = _
          rw [hhist]
          refine History.commit_eq_self fun w hw _ => ?_
          obtain rfl := mem_singleton.mp hw
          exact howner
        have hval := honce'.getSnapshot (max lsn (watermark trace))
        rw [if_pos (by simp)] at hval
        have hnone : (reference ((.commitVersions t lsn, .committed) :: trace)).get key
            (max lsn (watermark trace)) = none := by
          rw [Map.get, hmap, read_putOnceHistory]
          rfl
        have hcontra := hval.symm.trans hread
        rw [show (table.exec postcard (.commitVersions t lsn)).2 = .committed from rfl, hnone] at hcontra
        cases hcontra
      · have hmeta := congrArg postcard.decode (VersionValue.inline.inj htomb)
        rw [postcard.decode_encode, postcard.decode_encode] at hmeta
        exact keyToPath_ne_nil hbase (congrArg FileMetadata.filePath (Option.some.inj hmeta))
  | vacuum w =>
    rintro ⟨key, chain⟩ he
    have hchain := SortedMap.lookup_eq_some.mpr he
    obtain ⟨deleters, txId, committed, value, honce, hhist⟩ :=
      (h key).resolve_left fun hnone => absurd (hchain.symm.trans hnone.1) nofun
    obtain rfl := Option.some.inj (hchain.symm.trans honce.chain)
    cases deleters with
    | nil => rfl
    | cons d deleters =>
      rw [filesToDelete_putOnceChain _ _ _ _ _ _ _ hbase]
      refine if_neg fun hbelow => ?_
      obtain ⟨n, rfl, hn⟩ := (Option.any_eq_true ..).mp hbelow
      have hread := hfaithful key (max w (watermark trace)) le_rfl
      have herror := h.vacuum_lost honce hbase (of_decide_eq_true hn) (le_max_left w (watermark trace))
      exact absurd (herror.symm.trans hread) nofun

/-- **In every careful run every snapshot from the watermark on reads the newest version committed for it.**
Unless the table is at the empty path or a file is, a careful run goes on faithfully exactly with a careful
call. -/
theorem faithful_of_run (postcard : Postcard FileMetadata) (base : Bytes) (fs : Files)
    (hrun : Run (exec postcard) (fun _ table call => Careful postcard table call) (new base fs) trace table) :
    Faithful postcard trace table ∧ (base ≠ [] → fs [] = none → ∀ call,
      Faithful postcard ((call, (table.exec postcard call).2) :: trace) (table.exec postcard call).1 ↔
        Careful postcard table call) := by
  have hinv : Tells postcard (reference trace) table ∧ Stays (new base fs) table := by
    refine hrun.invariant ⟨fun key => .inl ⟨rfl, rfl⟩, rfl, fun _ => rfl⟩ ?_
    rintro trace table call ⟨htells, hbase, hroot⟩ hcare
    obtain ⟨htells', hbase', hroot'⟩ := htells.exec hcare
    refine ⟨htells', hbase'.trans hbase, fun hne => ?_⟩
    rw [hroot' (by rwa [hbase]), hroot hne]
  obtain ⟨htells, hbase, hroot⟩ := hinv
  refine ⟨fun key s _ => htells.getSnapshot, fun hne hnone call => ⟨fun hfaithful => ?_, fun hcare => ?_⟩⟩
  · exact htells.careful_of_faithful (by rwa [hbase]) ((hroot hne).trans hnone) hfaithful
  · exact fun key s _ => (htells.exec hcare).1.getSnapshot

/-! ## Runs that lose a value -/

/-- A codec to try runs with: the size in ones, a zero, and the path. -/
def plainPostcard : Postcard FileMetadata where
  encode m := List.replicate m.size 1 ++ 0 :: m.filePath
  decode bytes :=
    match bytes.dropWhile (· = 1) with
    | 0 :: path => some ⟨path, (bytes.takeWhile (· = 1)).length⟩
    | _ => none
  decode_encode m := by
    have hones : ∀ b ∈ List.replicate m.size (1 : Byte), decide (b = 1) = true := by
      intro b hb
      exact decide_eq_true (List.eq_of_mem_replicate hb)
    rw [List.dropWhile_append_of_pos hones, List.takeWhile_append_of_pos hones]
    simp

/-- A value is put and committed, another transaction begins to delete it, and the vacuum comes too early to
matter: the value is read. -/
theorem faithful_of_run_put :
    ∃ trace table, Run (exec plainPostcard) (fun _ table call => Careful plainPostcard table call)
        (new [98] fun _ => none) trace table ∧
      Faithful plainPostcard trace table ∧ table.getSnapshot plainPostcard [1] (.atLsn 10) = .ok (some [5]) := by
  have hguarded : Guarded (exec plainPostcard) (fun _ table call => Careful plainPostcard table call) []
      (new [98] fun _ => none)
      [.putTx [1] [5] 1, .commitVersions 1 10, .deleteTx [1] 2, .vacuum 8] := by decide
  have hrun := hguarded.run
  exact ⟨_, _, hrun, (faithful_of_run plainPostcard [98] (fun _ => none) hrun).1, by decide⟩

/-- **A vacuum under a deletion that is not committed destroys the value, and a deletion that is committed
cannot be read.** -/
theorem faithful_fails :
    (∃ trace table, Run (exec plainPostcard) anyCall (new [98] fun _ => none) trace table ∧
      watermark trace = 10 ∧ (reference trace).get [1] 10 = some [5] ∧
      table.getSnapshot plainPostcard [1] (.atLsn 10) =
        .error (.openFile (.pathMissing (keyToPath [98] [1])))) ∧
    ∃ trace table, Run (exec plainPostcard) anyCall (new [98] fun _ => none) trace table ∧
      watermark trace = 0 ∧ (reference trace).get [1] 20 = none ∧
      table.getSnapshot plainPostcard [1] (.atLsn 20) = .error (.openFile (.pathMissing [])) := by
  constructor
  · exact ⟨_, _, run_execute (exec plainPostcard) (new [98] fun _ => none)
      [.putTx [1] [5] 1, .commitVersions 1 5, .deleteTx [1] 2, .vacuum 10], by decide, by decide, by decide⟩
  · exact ⟨_, _, run_execute (exec plainPostcard) (new [98] fun _ => none)
      [.putTx [1] [5] 1, .commitVersions 1 10, .deleteTx [1] 2, .commitVersions 2 20],
      by decide, by decide, by decide⟩

end FileBlob

end NanoStore.Table
