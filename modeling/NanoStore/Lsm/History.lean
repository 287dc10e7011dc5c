import NanoStore.Lsm.Tree
import NanoStore.Table.Reference
/-!
# The LSM tree — runs of calls

Inserts, deletes and commits, with the memtable rotated and flushed at any
time. Rotating moves the chains of the active memtable one place back and
flushing puts them before the files, so the versions of a key stay in the
order in which they were written; a flush that fails half way leaves some
of them twice, and no reader comes to the second copy.

Only the active memtable is stamped, and of each chain only the newest
version. That is enough as long as a transaction is committed before the
memtable that has its writes is rotated.
-/

namespace NanoStore.Lsm

open Wal Steps Txn Table MultiVersion List Version

/-! ## Calls -/

/-- A call that changes a tree; the flushes with the readings of the clock they take. -/
inductive LsmCall
  | insert (t : TransactionId) (key : Key) (value : Bytes)
  | delete (t : TransactionId) (key : Key)
  | commitVersions (t : TransactionId) (lsn : ℕ)
  | rotateMemtable
  | flushMemtable (clock : ℕ → ℕ)
  | flushImmutableMemtables (clock : ℕ → ℕ)

namespace LsmCall

/-- What the call does to the reference map. -/
def toCall : LsmCall → Option (Call Key TransactionId Bytes)
  | .insert t key value => some (.write t key (some value))
  | .delete t key => some (.write t key none)
  | .commitVersions t lsn => some (.commit t lsn)
  | _ => none

/-- The value of an insert is not empty. -/
def StoresValue : LsmCall → Prop
  | .insert _ _ value => value ≠ []
  | _ => True

instance (call : LsmCall) : Decidable call.StoresValue :=
  match call with
  | .insert _ _ value => inferInstanceAs (Decidable (value ≠ []))
  | .delete _ _ | .commitVersions _ _ | .rotateMemtable | .flushMemtable _
  | .flushImmutableMemtables _ => .isTrue trivial

end LsmCall

namespace LsmTree

variable (cfg : LsmConfig) (tree : LsmTree)

/-- A call with its answer. -/
def exec : LsmCall → LsmTree × Except LsmError Unit
  | .insert t key value => tree.insertInternal cfg key value t none
  | .delete t key => tree.deleteInternal cfg key t none
  | .commitVersions t lsn => (tree.commitVersions t lsn, .ok ())
  | .rotateMemtable => (tree.rotateMemtable cfg, .ok ())
  | .flushMemtable clock => tree.flushMemtable cfg clock
  | .flushImmutableMemtables clock => tree.flushImmutableMemtables cfg clock

/-- The call rotates the active memtable. -/
def rotates : LsmCall → Bool
  | .insert t key value => tree.active.fullFor cfg key value t none
  | .delete t key => tree.active.fullFor cfg key [] t none
  | .rotateMemtable => true
  | .flushMemtable _ => tree.active.data.entries ≠ []
  | _ => false

end LsmTree

open LsmTree

/-- The calls of a trace that were answered, as calls on the reference map. -/
def history (trace : List (LsmCall × Except LsmError Unit)) : List (Call Key TransactionId Bytes) :=
  trace.filterMap fun c => match c.2 with
    | .ok () => c.1.toCall
    | .error _ => none

/-- The call may come after the calls of the trace: one uncommitted writer for each key, rising
positions, no empty value, and no rotation while a transaction has uncommitted writes. -/
def InOrder (cfg : LsmConfig) (trace : List (LsmCall × Except LsmError Unit)) (tree : LsmTree)
    (call : LsmCall) : Prop :=
  (∀ c ∈ call.toCall, c.Allowed (history trace)) ∧ call.StoresValue ∧
    (tree.rotates cfg call = true → openWriters (history trace) = [])

/-! ## What a call does to the chains -/

variable {cfg : LsmConfig} {tree : LsmTree} {m : Memtable} {key k : Key} {value : Bytes}
  {t : TransactionId} {commitLsn : Option ℕ} {lsn : ℕ}

variable (cfg m key value t commitLsn) in
/-- An insert fails and changes nothing, or the version is put before the chain of its key. Only a
full memtable says that it is full. -/
theorem Memtable.insert_cases : (∃ e, m.insert cfg key value t commitLsn = (m, .error e) ∧
      (e = .memtableFull → m.fullFor cfg key value t commitLsn = true)) ∨
    ∃ m', m.insert cfg key value t commitLsn = (m', .ok ()) ∧
      m'.data = m.data.insert key value t commitLsn := by
  unfold Memtable.insert
  split_ifs with himm hfull
  · exact .inl ⟨_, rfl, nofun⟩
  · exact .inl ⟨_, rfl, fun _ => hfull⟩
  · exact .inr ⟨_, rfl, rfl⟩

variable (cfg tree key value t commitLsn) in
/-- An insert goes to the active memtable, perhaps to a new one. -/
theorem LsmTree.insertInternal_cases : ∃ base, (base = tree ∨
      base = tree.rotateMemtable cfg ∧ tree.active.fullFor cfg key value t commitLsn = true) ∧
    ((∃ e, tree.insertInternal cfg key value t commitLsn = (base, .error e)) ∨
      ∃ active, tree.insertInternal cfg key value t commitLsn = ({ base with active }, .ok ()) ∧
        active.data = base.active.data.insert key value t commitLsn) := by
  unfold insertInternal
  rcases Memtable.insert_cases cfg tree.active key value t commitLsn with
    ⟨e, he, hfull⟩ | ⟨active, hact, hdata⟩
  · rw [he]
    by_cases hretry : e = .memtableFull
    · subst hretry
      refine ⟨tree.rotateMemtable cfg, .inr ⟨rfl, hfull rfl⟩, ?_⟩
      rcases Memtable.insert_cases cfg (tree.rotateMemtable cfg).active key value t commitLsn with
        ⟨e, he, -⟩ | ⟨active, hact, hdata⟩
      · simp only [he]
        exact .inl ⟨e, rfl⟩
      · simp only [hact]
        exact .inr ⟨active, rfl, hdata⟩
    · refine ⟨tree, .inl rfl, .inl ⟨e, ?_⟩⟩
      split
      · cases ‹_ = _›
      · cases ‹_ = _›
        exact absurd rfl hretry
      · cases ‹_ = _›
        rfl
  · refine ⟨tree, .inl rfl, .inr ⟨active, ?_, hdata⟩⟩
    rw [hact]

theorem LsmTree.chain_cons : tree.chain k = tree.active.data.chain k ++
    (memtablesChain tree.immutable.reverse k ++ filesChain (tree.version.filesFor k) k) := by
  rw [chain, memtables, memtablesChain, flatMap_cons, append_assoc]
  rfl

variable (cfg tree k) in
/-- A rotation shows the same versions. -/
theorem LsmTree.chain_rotateMemtable :
    (tree.rotateMemtable cfg).chain k = tree.chain k := by
  rw [chain_cons, chain_cons, rotateMemtable, reverse_append, memtablesChain_append, append_assoc]
  simp [Memtable.new, memtablesChain, Memtable.makeImmutable]

theorem TreeVersion.filesChain_addSstable {version version' : TreeVersion} {file : FileMetadata}
    (hlvl : file.level = 0) (h : version.apply (.addSstable file) = .ok version') :
    filesChain (version'.filesFor k) k =
      file.contents.chain k ++ filesChain (version.filesFor k) k := by
  obtain ⟨levels, next⟩ := version
  cases levels with
  | nil => simp [TreeVersion.apply] at h
  | cons level0 deeper =>
    rw [TreeVersion.apply] at h
    split_ifs at h
    cases h
    rw [hlvl, modify_zero_cons, addToLevel, if_neg (by omega), filesChain_cons,
      filesChain_cons, reverse_append]
    simp [filesChain]

theorem LsmTree.flushSingleMemtable_cases (version : TreeVersion) (id : ℕ) :
    (∃ e, flushSingleMemtable cfg version m id = (version, .error e)) ∨
      ∃ version', flushSingleMemtable cfg version m id = (version', .ok ()) ∧ ∀ k,
        filesChain (version'.filesFor k) k =
          m.data.chain k ++ filesChain (version.filesFor k) k := by
  unfold flushSingleMemtable Memtable.entries
  by_cases himm : m.immutable = true
  · rw [if_pos himm]
    simp only
    split_ifs with hne
    · refine .inr ⟨version, rfl, fun k => ?_⟩
      simp [ChainMap.chain, chainOn, hne]
    · split
      · exact .inl ⟨_, rfl⟩
      · rename_i version' happ
        exact .inr ⟨version', rfl, fun k => TreeVersion.filesChain_addSstable rfl happ⟩
  · rw [if_neg himm]
    exact .inl ⟨_, rfl⟩

/-- A flush of some memtables puts the chains of the first ones before the files, and of all of
them if it does not fail. -/
theorem LsmTree.flushEach_spec (clock : ℕ → ℕ) (ms : List (Memtable × ℕ))
    (version : TreeVersion) : ∃ version' answer flushed, flushEach cfg clock version ms = (version', answer) ∧
      flushed <+: ms.map Prod.fst ∧ (answer = .ok () → flushed = ms.map Prod.fst) ∧
      ∀ k, filesChain (version'.filesFor k) k =
        memtablesChain flushed.reverse k ++ filesChain (version.filesFor k) k := by
  induction ms generalizing version with
  | nil => exact ⟨version, .ok (), [], rfl, nil_prefix, fun _ => rfl, fun _ => rfl⟩
  | cons m ms ih =>
    rcases flushSingleMemtable_cases version (clock m.2) with
      ⟨e, he⟩ | ⟨version₁, hver₁, hchain⟩
    · refine ⟨version, .error e, [], ?_, nil_prefix, nofun, fun _ => rfl⟩
      rw [flushEach, forEach_cons, he, andThen_error]
    · obtain ⟨version', answer, flushed, heach, hpre, hall, hfiles⟩ := ih version₁
      refine ⟨version', answer, m.1 :: flushed, ?_, ?_, fun hok => ?_, fun k => ?_⟩
      · rw [flushEach, forEach_cons, hver₁, andThen_ok]
        exact heach
      · rw [map_cons]
        exact (prefix_cons_inj _).mpr hpre
      · rw [map_cons, hall hok]
      · rw [hfiles, hchain, reverse_cons, memtablesChain_append, append_assoc]
        simp [memtablesChain]

/-- **A flush keeps what is read**, also where it fails half way. -/
theorem LsmTree.flushImmutableMemtables_alike (cfg : LsmConfig) (clock : ℕ → ℕ) (k : Key) :
    (tree.flushImmutableMemtables cfg clock).1.active = tree.active ∧
      Alike (((tree.flushImmutableMemtables cfg clock).1.chain k).map toWrite)
        ((tree.chain k).map toWrite) := by
  obtain ⟨version, answer, flushed, heach, hflushed, hall, hfiles⟩ :=
    flushEach_spec clock tree.immutable.zipIdx tree.version
  have hmems : tree.immutable.zipIdx.map Prod.fst = tree.immutable := by simp
  rw [hmems] at hflushed hall
  rw [flushImmutableMemtables, heach]
  cases answer with
  | error e =>
    -- what was flushed is still among the memtables, ahead of the files
    obtain ⟨ahead, hahead⟩ : ∃ ahead, ahead =
      tree.active.data.chain k ++ memtablesChain tree.immutable.reverse k := ⟨_, rfl⟩
    have hbefore : tree.chain k = ahead ++ filesChain (tree.version.filesFor k) k := by
      rw [chain_cons, hahead, append_assoc]
    have hafter : chain { tree with version } k =
        ahead ++ (memtablesChain flushed.reverse k ++ filesChain (tree.version.filesFor k) k) := by
      rw [chain_cons, hahead, append_assoc, hfiles]
    refine ⟨rfl, ?_⟩
    rw [hbefore, hafter, map_append, map_append, map_append]
    refine alike_of_repeated fun w hw => ?_
    obtain ⟨v, hv, rfl⟩ := mem_map.mp hw
    obtain ⟨m, hm, hv⟩ := mem_flatMap.mp hv
    have hstill : m ∈ tree.immutable.reverse :=
      mem_reverse.mpr (hflushed.subset (mem_reverse.mp hm))
    rw [hahead]
    exact mem_map_of_mem (mem_append_right _ (mem_flatMap.mpr ⟨m, hstill, hv⟩))
  | ok _ =>
    refine ⟨rfl, ?_⟩
    rw [chain_cons, chain_cons, hfiles, hall rfl]
    exact fun _ => rfl

/-! ## Refinement -/

variable {map : Reference}

theorem toWrite_inline :
    toWrite ⟨.inline value, t, none⟩ = ⟨t, none, hideEmpty (some value)⟩ := by
  cases value with
  | nil | cons b value => rfl

theorem map_toWrite_stampHead (chain : VersionChain) :
    (stampHead t lsn chain).map toWrite =
      History.commitNewest t lsn (chain.map toWrite) := by
  cases chain with
  | nil => rfl
  | cons v older =>
    have hstamp : ((toWrite v).writer = t ∧ (toWrite v).committedAt = none) =
        (v.createdBy = t ∧ v.commitLsn = none) := rfl
    rw [stampHead, map_cons, History.commitNewest]
    simp only [hstamp]
    split_ifs <;> rfl

/-- The newest version in the active memtable is the newest write of the history; where there is
none, every write is committed. -/
def Current : VersionChain → History TransactionId Bytes → Prop
  | [], history => ∀ w ∈ history, w.committedAt ≠ none
  | v :: _, history => history.head? = some (toWrite v)

/-- The tree answers as the map does, and what is uncommitted is in the active memtable. -/
structure Refines (tree : LsmTree) (map : Reference) : Prop where
  alike : ∀ k, Alike ((tree.chain k).map toWrite) (map k)
  current : ∀ k, Current (tree.active.data.chain k) (map k)

theorem refines_new : Refines (.new cfg) Map.empty where
  alike k := by
    have hnil : (new cfg).chain k = [] := by
      cases hlvls : cfg.levels.length with
      | zero => simp [LsmTree.chain, LsmTree.new, LsmTree.memtables, memtablesChain, Memtable.new,
          filesChain, TreeVersion.filesFor, TreeVersion.new, hlvls]
      | succ n => simp [LsmTree.chain, LsmTree.new, LsmTree.memtables, memtablesChain, Memtable.new,
          filesChain, TreeVersion.filesFor, TreeVersion.new, hlvls, replicate_succ]
    rw [hnil]
    exact fun _ => rfl
  current _ := nofun

section

variable (h : Refines tree map)
include h

/-- A tree that refines a map is read as it. -/
theorem Refines.get {k : Key} (hord : Ordered (map k)) {s : ℕ} :
    tree.get k s = .ok (map.get k s) := by
  rw [tree.get_eq, hideEmpty_shows tree.inline_chain, (h.alike k).read hord]
  rfl

theorem Refines.rotateMemtable
    (hcomm : ∀ k, ∀ w ∈ map k, w.committedAt ≠ none) : Refines (tree.rotateMemtable cfg) map where
  alike k := by
    rw [chain_rotateMemtable]
    exact h.alike k
  current k := hcomm k

theorem Refines.insert {active : Memtable}
    (hact : active.data = tree.active.data.insert key value t none) :
    Refines { tree with active } (map.write t key (hideEmpty (some value))) := by
  have hchain : ∀ k, active.data.chain k = if k = key then
      ⟨.inline value, t, none⟩ :: tree.active.data.chain key else tree.active.data.chain k := by
    intro k
    rw [hact, ChainMap.chain_insert]
  refine ⟨fun k => ?_, fun k => ?_⟩
  · rw [LsmTree.chain_cons, hchain, Map.write]
    by_cases hk : k = key
    · subst hk
      have hwrite : Alike (History.write t (hideEmpty (some value))
          ((tree.chain k).map toWrite)) ((map k).write t (hideEmpty (some value))) :=
        (h.alike k).write
      rw [LsmTree.chain_cons] at hwrite
      rw [if_pos rfl, Function.update_self, cons_append, map_cons, toWrite_inline]
      exact hwrite
    · rw [if_neg hk, Function.update_of_ne hk, ← LsmTree.chain_cons]
      exact h.alike k
  · rw [hchain, Map.write]
    by_cases hk : k = key
    · subst hk
      rw [if_pos rfl, Function.update_self, Current, toWrite_inline]
      rfl
    · rw [if_neg hk, Function.update_of_ne hk]
      exact h.current k

theorem Refines.commitVersions (hord : ∀ k, Ordered (map k)) :
    Refines (tree.commitVersions t lsn) (map.commit t lsn) := by
  have hact : ∀ k, (tree.commitVersions t lsn).active.data.chain k =
      stampHead t lsn (tree.active.data.chain k) := fun k => ChainMap.chain_commit _
  have hrest : ∀ k, (tree.commitVersions t lsn).chain k =
      stampHead t lsn (tree.active.data.chain k) ++ (memtablesChain tree.immutable.reverse k ++
        filesChain (tree.version.filesFor k) k) := by
    intro k
    rw [LsmTree.chain_cons, hact]
    rfl
  refine ⟨fun k => ?_, fun k => ?_⟩
  · have halike := h.alike k
    have hcur := h.current k
    rw [hrest, Map.commit]
    rw [LsmTree.chain_cons] at halike
    cases hchain : tree.active.data.chain k with
    | nil =>
      -- nothing of the key is in the memtable, and nothing of it is uncommitted
      rw [hchain] at halike hcur
      rw [History.commit_eq_self fun w hw hnone => absurd hnone (hcur w hw)]
      exact halike
    | cons v older =>
      rw [hchain] at halike hcur
      have hstamp := halike.commitNewest (t := t) (n := lsn) (hord k) hcur.symm
      rw [← map_toWrite_stampHead] at hstamp
      have hhead : ∀ rest, stampHead t lsn (v :: older) ++ rest =
          stampHead t lsn (v :: older ++ rest) := by
        intro rest
        rw [cons_append, stampHead, stampHead]
        split_ifs <;> rfl
      rw [hhead]
      exact hstamp
  · have hcur := h.current k
    rw [hact, Map.commit]
    cases hchain : tree.active.data.chain k with
    | nil =>
      rw [hchain] at hcur
      rw [History.commit_eq_self fun w hw hnone => absurd hnone (hcur w hw)]
      exact hcur
    | cons v older =>
      rw [hchain] at hcur
      obtain ⟨earlier, hearlier⟩ := head?_eq_some_iff.mp hcur
      rw [hearlier, History.commit, map_cons, stampHead]
      by_cases hstamp : v.createdBy = t ∧ v.commitLsn = none
      · have hwrite : (toWrite v).writer = t ∧ (toWrite v).committedAt = none :=
          hstamp
        rw [if_pos hstamp, if_pos hwrite]
        rfl
      · have hwrite : ¬ ((toWrite v).writer = t ∧ (toWrite v).committedAt = none) := hstamp
        rw [if_neg hstamp, if_neg hwrite]
        rfl

/-- A flush keeps a refinement. -/
theorem Refines.flush {clock : ℕ → ℕ} :
    Refines (tree.flushImmutableMemtables cfg clock).1 map where
  alike k := (flushImmutableMemtables_alike cfg clock k).2.trans (h.alike k)
  current k := by
    rw [(flushImmutableMemtables_alike cfg clock k).1]
    exact h.current k

end

/-- The calls answered were orderly, and the tree refines the map they leave. -/
structure Reached (trace : List (LsmCall × Except LsmError Unit)) (tree : LsmTree) : Prop where
  orderly : Orderly (history trace)
  refines : Refines tree (replay (history trace))

variable {trace : List (LsmCall × Except LsmError Unit)}

theorem reached_new : Reached [] (.new cfg) := ⟨trivial, refines_new⟩

theorem committed_of_openWriters (h : openWriters (history trace) = []) (k : Key) :
    ∀ w ∈ replay (history trace) k, w.committedAt ≠ none := by
  intro w hw hnone
  have hwriter := mem_openWriters hw hnone
  rw [h] at hwriter
  cases hwriter

variable {call : LsmCall}

section

variable (h : Reached trace tree)
include h

theorem Reached.insertInternal
    (hcall : call.toCall = some (.write t key (hideEmpty (some value))))
    (hallow : (replay (history trace)).OpenTo t key)
    (hrotates : tree.active.fullFor cfg key value t none = true → openWriters (history trace) = []) :
    Reached ((call, (tree.insertInternal cfg key value t none).2) :: trace)
      (tree.insertInternal cfg key value t none).1 := by
  obtain ⟨base, hbase, hins⟩ := insertInternal_cases cfg tree key value t none
  have hrefines : Refines base (replay (history trace)) := by
    rcases hbase with rfl | ⟨rfl, hfull⟩
    · exact h.refines
    · exact h.refines.rotateMemtable (committed_of_openWriters (hrotates hfull))
  rcases hins with ⟨e, he⟩ | ⟨active, hact, hdata⟩
  · rw [he]
    exact ⟨h.orderly, hrefines⟩
  · have hhist : history ((call, .ok ()) :: trace) =
        .write t key (hideEmpty (some value)) :: history trace :=
      filterMap_cons_some hcall
    rw [hact]
    refine ⟨?_, ?_⟩
    · rw [hhist]
      exact ⟨hallow, h.orderly⟩
    · rw [hhist]
      exact hrefines.insert hdata

theorem Reached.keep (hcall : call.toCall = none)
    {tree' : LsmTree} (hrefines : Refines tree' (replay (history trace)))
    {answer : Except LsmError Unit} : Reached ((call, answer) :: trace) tree' := by
  have hhist : history ((call, answer) :: trace) = history trace := by
    refine filterMap_cons_none ?_
    cases answer with
    | ok _ => exact hcall
    | error e => rfl
  refine ⟨?_, ?_⟩
  · rw [hhist]
    exact h.orderly
  · rw [hhist]
    exact hrefines

/-- **One call** of a run keeps the tree a refinement. -/
theorem Reached.exec (hcall : InOrder cfg trace tree call) :
    Reached ((call, (tree.exec cfg call).2) :: trace) (tree.exec cfg call).1 := by
  obtain ⟨hallow, hval, hrotates⟩ := hcall
  cases call with
  | insert t key value =>
    have hstored : hideEmpty (some value) = some value := by
      cases value with
      | nil => exact absurd rfl hval
      | cons b value => rfl
    refine h.insertInternal ?_ (hallow _ rfl) hrotates
    rw [hstored]
    rfl
  | delete t key => exact h.insertInternal rfl (hallow _ rfl) hrotates
  | commitVersions t lsn =>
    refine ⟨⟨hallow _ rfl, h.orderly⟩, ?_⟩
    exact h.refines.commitVersions fun k => h.orderly.ordered k
  | rotateMemtable =>
    refine h.keep rfl ?_
    exact h.refines.rotateMemtable (committed_of_openWriters (hrotates rfl))
  | flushMemtable clock =>
    refine h.keep rfl ?_
    rw [exec, flushMemtable]
    split_ifs with hemp
    · exact h.refines
    · have hopen := committed_of_openWriters (hrotates (decide_eq_true hemp))
      exact (h.refines.rotateMemtable hopen).flush
  | flushImmutableMemtables clock => exact h.keep rfl h.refines.flush

end

/-- **An LSM tree without compaction is a multi-version map.** After every run in which no
memtable is rotated while a transaction has uncommitted writes, every read is answered by the newest
version committed at or before its snapshot, wherever that version is by now. -/
theorem get_eq_replay (cfg : LsmConfig) (hrun : Run (exec cfg) (InOrder cfg) (new cfg) trace tree) :
    ∀ k s, tree.get k s = .ok ((replay (history trace)).get k s) := by
  have hreach : Reached trace tree :=
    hrun.invariant reached_new fun _ _ _ h hcall => h.exec hcall
  exact fun k s => hreach.refines.get (hreach.orderly.ordered k)

/-- Memtables with room for three versions; sorted tables with two entries in a block and one block on
a page. -/
def smallMemtables : LsmConfig where
  memtableMaxSize := 60
  versionSize := 16
  valueRefSize := 8
  levels := [⟨0, 100⟩, ⟨1, 200⟩]
  minMergeWidth := 2
  maxMergeWidth := 4
  layout := ⟨32, 110, SStableLayout.plainBlockLen⟩
  sstableSize entries := 100 * entries.length
  sizeRatio size maxSize := size / maxSize

/-- A key written and flushed, written again and rotated, and deleted at last; the second flush
finds the identifier of the first one taken. -/
def rotatingCalls : List LsmCall :=
  [.insert 1 [1] [5], .insert 1 [1] [6], .commitVersions 1 10, .flushMemtable fun _ => 7,
    .insert 2 [1] [8], .commitVersions 2 20, .flushMemtable fun _ => 7, .delete 3 [1], .commitVersions 3 30]

instance (trace : List (LsmCall × Except LsmError Unit)) (tree : LsmTree) (call : LsmCall) :
    Decidable (InOrder cfg trace tree call) :=
  inferInstanceAs (Decidable (_ ∧ _ ∧ _))

/-- The version found is in a file, in a memtable that could not be flushed, and in the active
one. -/
theorem get_eq_replay_rotating :
    let tree := (execute (exec smallMemtables) (.new smallMemtables) rotatingCalls).2
    tree.immutable.length = 1 ∧ tree.get [1] 10 = .ok (some [6]) ∧
      tree.get [1] 20 = .ok (some [8]) ∧ tree.get [1] 30 = .ok none := by
  have hguarded : Guarded (exec smallMemtables) (InOrder smallMemtables) []
      (.new smallMemtables) rotatingCalls := by decide +kernel
  have hget := get_eq_replay smallMemtables hguarded.run
  exact ⟨by decide +kernel, (hget [1] 10).trans (by decide +kernel),
    (hget [1] 20).trans (by decide +kernel), (hget [1] 30).trans (by decide +kernel)⟩

end NanoStore.Lsm
