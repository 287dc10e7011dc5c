import NanoStore.Lsm.Scan
/-!
# The LSM tree — a writer's batch

`LsmWriter` keeps its changes until it is flushed, writes them uncommitted
into the active memtable, which may be rotated on the way, and stamps the
versions of its transaction once the commit is logged. The stamps reach the
active memtable only, and there only the newest version of a key: what went
to a memtable that was rotated afterwards stays uncommitted.

A deletion overwrites the first change that is kept for its key, not the
last one. A deletion of a range scans the tree, and fails where the scan
comes to a block that an iterator cannot read.
-/

namespace NanoStore.Lsm

open Wal Steps Txn Table List LsmTree Prod

/-! ## The code -/

/-- A mutation of a batch. -/
inductive Mutation
  | put (key : Key) (value : Bytes)
  | delete (key : Key)
  | rangeDelete (bounds : ScanBounds)
  | merge (key : Key) (operand : Bytes)

/-- A change that a writer keeps: a value, or none for a deletion. -/
abbrev Change := Key × Option Bytes

/-- What a change hands to the memtable: the empty value is a tombstone. -/
def Change.stored (change : Change) : Bytes := change.2.getD []

/-- The keys that a scan of the bounds shows. A scan shows no more keys than the sources have. -/
def LsmTree.scanKeys (tree : LsmTree) (bounds : ScanBounds) (snapshotLsn : ℕ) : Except LsmError (List Key) :=
  (tree.forward bounds snapshotLsn (Merge.size (tree.sources snapshotLsn) + 1)).map
    fun shown => (shown.getD []).map fst

/-- `LsmWriter`, apart from the tree. -/
structure LsmWriter where
  txId : TransactionId
  snapshotLsn : ℕ
  pendingChanges : List Change

namespace LsmWriter

/-- The first change of the key turned into a deletion, if there is one. -/
def bury (key : Key) : List Change → Option (List Change)
  | [] => none
  | change :: changes =>
    if change.1 = key then some ((key, none) :: changes) else (bury key changes).map (change :: ·)

variable (w : LsmWriter) (tree : LsmTree)

def put (key : Key) (value : Bytes) : LsmWriter :=
  { w with pendingChanges := w.pendingChanges ++ [(key, some value)] }

/-- `delete`, which says whether the key was there. -/
def delete (key : Key) : Outcome LsmWriter LsmError Bool :=
  let wasInsert := (w.pendingChanges.find? (·.1 = key)).any (·.2.isSome)
  let pendingChanges := (bury key w.pendingChanges).getD (w.pendingChanges ++ [(key, none)])
  ({ w with pendingChanges }, (tree.get key w.snapshotLsn).map fun committed => committed.isSome || wasInsert)

/-- A tombstone for every key the scan shows. -/
def rangeDelete (bounds : ScanBounds) : Outcome LsmWriter LsmError ℕ :=
  match tree.scanKeys bounds w.snapshotLsn with
  | .error e => (w, .error e)
  | .ok keys =>
    ({ w with pendingChanges := w.pendingChanges ++ keys.map fun key => (key, none) }, .ok keys.length)

/-- One round of the loop of `apply_batch`, without the report. A merge is passed over. -/
def apply (mutation : Mutation) : Outcome LsmWriter LsmError Unit :=
  match mutation with
  | .put key value => (w.put key value, .ok ())
  | .delete key => andThen (w.delete tree key) fun w _ => (w, .ok ())
  | .rangeDelete bounds => andThen (w.rangeDelete tree bounds) fun w _ => (w, .ok ())
  | .merge _ _ => (w, .ok ())

/-- The mutations in order, up to the first that fails. -/
def applyBatch (batch : List Mutation) : Outcome LsmWriter LsmError Unit :=
  forEach (fun w mutation => w.apply tree mutation) w batch

/-- The loop of `flush`. -/
def flushChanges (cfg : LsmConfig) (t : TransactionId) :
    LsmTree → List Change → Outcome LsmTree LsmError Unit :=
  forEach fun tree change =>
    match change.2 with
    | some value => tree.insertInternal cfg change.1 value t none
    | none => tree.deleteInternal cfg change.1 t none

/-- `flush`. Also after a failure no change is kept. -/
def flush (cfg : LsmConfig) : Outcome (LsmTree × LsmWriter) LsmError Unit :=
  let (tree, answer) := flushChanges cfg w.txId tree w.pendingChanges
  ((tree, { w with pendingChanges := [] }), answer)

def commitVersions (lsn : ℕ) : LsmTree := tree.commitVersions w.txId lsn

end LsmWriter

/-! ## What a batch asks for -/

/-- The changes a mutation makes on a tree. -/
def Mutation.writes (tree : LsmTree) (snapshotLsn : ℕ) : Mutation → List Change
  | .put key value => [(key, some value)]
  | .delete key => [(key, none)]
  | .rangeDelete bounds =>
    match tree.scanKeys bounds snapshotLsn with
    | .error _ => []
    | .ok keys => keys.map fun key => (key, none)
  | .merge _ _ => []

/-- The scan that the mutation makes, if it makes one, comes to its end. -/
def Mutation.Scannable (tree : LsmTree) (snapshotLsn : ℕ) : Mutation → Prop
  | .rangeDelete bounds => tree.Scannable bounds snapshotLsn
  | .put _ _ | .delete _ | .merge _ _ => True

instance (tree : LsmTree) (snapshotLsn : ℕ) :
    (mutation : Mutation) → Decidable (mutation.Scannable tree snapshotLsn)
  | .rangeDelete bounds => inferInstanceAs (Decidable (tree.Scannable bounds snapshotLsn))
  | .put _ _ | .delete _ | .merge _ _ => .isTrue trivial

/-- The last change of a key. -/
def lastChange (changes : List Change) (key : Key) : Option (Option Bytes) :=
  (changes.reverse.find? (·.1 = key)).map snd

/-- The value that the batch writes last to a key, if it writes the key. -/
def lastWrite (tree : LsmTree) (snapshotLsn : ℕ) (batch : List Mutation) (key : Key) :
    Option (Option Bytes) :=
  lastChange (batch.flatMap (Mutation.writes tree snapshotLsn)) key

/-- The writer takes the batch, flushes it and commits its versions, and every key of the batch reads
its last value from then on. -/
def LsmWriter.ReadsBack (cfg : LsmConfig) (w : LsmWriter) (tree : LsmTree) (batch : List Mutation)
    (lsn : ℕ) : Prop :=
  ∃ w' tree' w'', w.applyBatch tree batch = (w', .ok ()) ∧ w'.flush tree cfg = ((tree', w''), .ok ()) ∧
    ∀ key value, lastWrite tree w.snapshotLsn batch key = some value →
      ∀ s, lsn ≤ s → (w''.commitVersions tree' lsn).get key s = .ok value

/-- The writer takes the calls, flushes them and commits its versions, and the keys read as wanted from
then on. -/
def LsmWriter.Reads (cfg : LsmConfig) (w : LsmWriter) (tree : LsmTree) (calls : List Mutation)
    (lsn : ℕ) (wanted : Key → Option Bytes → Prop) : Prop :=
  ∃ w' tree' w'', w.applyBatch tree calls = (w', .ok ()) ∧ w'.flush tree cfg = ((tree', w''), .ok ()) ∧
    ∀ key value, wanted key value → ∀ s, lsn ≤ s → (w''.commitVersions tree' lsn).get key s = .ok value

/-- What is wanted is read from what the calls and the flush leave. -/
theorem LsmWriter.Reads.get {cfg : LsmConfig} {w : LsmWriter} {tree : LsmTree} {calls : List Mutation}
    {lsn s : ℕ} {wanted : Key → Option Bytes → Prop} {key : Key} {value : Option Bytes}
    (h : w.Reads cfg tree calls lsn wanted) (hval : wanted key value) (hs : lsn ≤ s) :
    let flushed := ((w.applyBatch tree calls).1.flush tree cfg).1
    (flushed.2.commitVersions flushed.1 lsn).get key s = .ok value := by
  obtain ⟨w', tree', w'', hbatch, hflush, hreads⟩ := h
  rw [hbatch, hflush]
  exact hreads key value hval s hs

/-! ## Where the changes go -/

namespace Memtable

variable (cfg : LsmConfig) (t : TransactionId) (m : Memtable) (change : Change)

/-- The memtable has no room for the change. -/
def fullForChange : Bool := m.fullFor cfg change.1 change.stored t none

/-- The memtable that has to take a change: a new one if this one is full. -/
def home : Memtable := if m.fullForChange cfg t change then .new cfg.memtableMaxSize else m

/-- The active memtable behind a change. -/
def after : Memtable := ((m.home cfg t change).insert cfg change.1 change.stored t none).1

/-- Every change has room in the memtable that has to take it. -/
def Roomy : Memtable → List Change → Prop
  | _, [] => True
  | m, change :: changes =>
    (m.home cfg t change).fullForChange cfg t change = false ∧ Roomy (m.after cfg t change) changes

/-- Some change finds the memtable full. -/
def spills : Memtable → List Change → Bool
  | _, [] => false
  | m, change :: changes => m.fullForChange cfg t change || spills (m.after cfg t change) changes

/-- The changes that no rotation follows: those from the last one on that finds the memtable full. -/
def kept : Memtable → List Change → List Change
  | _, [] => []
  | m, change :: changes =>
    if spills cfg t (m.after cfg t change) changes then kept (m.after cfg t change) changes
    else change :: changes

end Memtable

open Memtable (Roomy kept spills)

variable {tree' : LsmTree} {s : ℕ} {value : Option Bytes} {cfg : LsmConfig} {t : TransactionId}
  {tree : LsmTree} {m : Memtable} {change : Change} {changes : List Change} {k key : Key} {lsn : ℕ}
  {w : LsmWriter} {call : Mutation}

/-- The uncommitted version that a change becomes. -/
def Change.version (t : TransactionId) (change : Change) : Version :=
  ⟨.inline change.stored, t, none⟩

/-- The versions of a key that some changes become, the newest first. -/
def versionsOf (t : TransactionId) (changes : List Change) (k : Key) : VersionChain :=
  ((changes.filter (·.1 = k)).map (Change.version t)).reverse

theorem versionsOf_cons : versionsOf t (change :: changes) k =
    versionsOf t changes k ++ if change.1 = k then [change.version t] else [] := by
  by_cases hk : change.1 = k
  · simp [versionsOf, hk]
  · simp [versionsOf, hk]

theorem inline_versionsOf : ∀ v ∈ versionsOf t changes k, Inline v := by
  intro v hv
  obtain ⟨change, -, rfl⟩ := mem_map.mp (mem_reverse.mp hv)
  exact ⟨change.stored, rfl⟩

theorem uncommitted_versionsOf : ∀ v ∈ versionsOf t changes k, v.commitLsn = none := by
  intro v hv
  obtain ⟨change, -, rfl⟩ := mem_map.mp (mem_reverse.mp hv)
  rfl

section

variable (h : m.immutable = false)
include h

theorem Memtable.immutable_home : (m.home cfg t change).immutable = false := by
  unfold home
  split_ifs
  · rfl
  · exact h

theorem Memtable.insert_of_room (hroom : m.fullForChange cfg t change = false) :
    ∃ m', m.insert cfg change.1 change.stored t none = (m', .ok ()) ∧ m'.immutable = false ∧
      m'.data = m.data.insert change.1 change.stored t none := by
  have hfull : ¬ m.fullFor cfg change.1 change.stored t none = true := by
    simpa [fullForChange] using hroom
  rw [Memtable.insert, if_neg (by simp [h]), if_neg hfull]
  exact ⟨_, rfl, h, rfl⟩

theorem Memtable.insert_of_full (hfull : m.fullForChange cfg t change = true) :
    m.insert cfg change.1 change.stored t none = (m, .error .memtableFull) := by
  rw [fullForChange] at hfull
  rw [Memtable.insert, if_neg (by simp [h]), if_pos hfull]

end

/-- What one round of the loop of `flush` does. -/
theorem LsmWriter.flushChanges_cons : flushChanges cfg t tree (change :: changes) =
    andThen (tree.insertInternal cfg change.1 change.stored t none) fun tree _ =>
      flushChanges cfg t tree changes := by
  obtain ⟨key, _ | value⟩ := change
  · rfl
  · rfl

/-- A change with room goes to the front of the chain of its key, in the memtable that has to take
it. -/
theorem LsmTree.insertInternal_of_room (h : tree.active.immutable = false)
    (hroom : (tree.active.home cfg t change).fullForChange cfg t change = false) :
    ∃ tree', tree.insertInternal cfg change.1 change.stored t none = (tree', .ok ()) ∧
      tree'.active = tree.active.after cfg t change ∧ tree'.active.immutable = false ∧
      (∀ k, tree'.active.data.chain k =
        (if change.1 = k then [change.version t] else []) ++ (tree.active.home cfg t change).data.chain k) ∧
      ∀ k, tree'.chain k = (if change.1 = k then [change.version t] else []) ++ tree.chain k := by
  obtain ⟨active, hins, himm, hdata⟩ :=
    Memtable.insert_of_room (Memtable.immutable_home h) hroom
  have hafter : tree.active.after cfg t change = active := congrArg fst hins
  have hact : ∀ k, active.data.chain k = (if change.1 = k then [change.version t] else []) ++
      (tree.active.home cfg t change).data.chain k := by
    intro k
    rw [hdata, ChainMap.chain_insert]
    by_cases hk : change.1 = k
    · rw [if_pos hk.symm, if_pos hk, hk]
      rfl
    · rw [if_neg (Ne.symm hk), if_neg hk, nil_append]
  by_cases hfull : tree.active.fullForChange cfg t change = true
  · have hhome : tree.active.home cfg t change = (tree.rotateMemtable cfg).active := if_pos hfull
    refine ⟨{ tree.rotateMemtable cfg with active }, ?_, hafter.symm, himm, hact, fun k => ?_⟩
    · rw [insertInternal, Memtable.insert_of_full h hfull]
      rw [hhome] at hins
      simp [hins]
    · rw [← chain_rotateMemtable cfg tree k, chain_cons, chain_cons, hact, hhome, append_assoc]
  · have hhome : tree.active.home cfg t change = tree.active := if_neg hfull
    refine ⟨{ tree with active }, ?_, hafter.symm, himm, hact, fun k => ?_⟩
    · rw [hhome] at hins
      rw [insertInternal, hins]
    · rw [chain_cons, chain_cons, hact, hhome, append_assoc]

theorem LsmTree.insertInternal_of_full (h : tree.active.immutable = false)
    (hfull : (tree.active.home cfg t change).fullForChange cfg t change = true) :
    ∃ tree', tree.insertInternal cfg change.1 change.stored t none =
      (tree', .error .memtableFull) := by
  by_cases hact : tree.active.fullForChange cfg t change = true
  · have hhome : tree.active.home cfg t change = (tree.rotateMemtable cfg).active := if_pos hact
    have hins := Memtable.insert_of_full (Memtable.immutable_home h) hfull
    rw [hhome] at hins
    rw [insertInternal, Memtable.insert_of_full h hact]
    simp only [hins]
    exact ⟨_, rfl⟩
  · rw [Memtable.home, if_neg hact] at hfull
    exact absurd hfull hact

theorem Memtable.kept_of_not_spills (h : spills cfg t m changes = false) :
    kept cfg t m changes = changes := by
  cases changes with
  | nil => rfl
  | cons change changes =>
    have htail : spills cfg t (m.after cfg t change) changes = false := by
      rw [spills, Bool.or_eq_false_iff] at h
      exact h.2
    rw [kept, if_neg (by simp [htail])]

/-- **What a flush leaves.** Every change is in the chain of its key; in the active memtable are those
that no rotation follows. -/
theorem LsmWriter.flushChanges_of_roomy (h : tree.active.immutable = false)
    (hroomy : Roomy cfg t tree.active changes) :
    ∃ tree', flushChanges cfg t tree changes = (tree', .ok ()) ∧
      (∀ k, tree'.chain k = versionsOf t changes k ++ tree.chain k) ∧
      ∀ k, tree'.active.data.chain k = versionsOf t (kept cfg t tree.active changes) k ++
        if spills cfg t tree.active changes then [] else tree.active.data.chain k := by
  induction changes generalizing tree with
  | nil => exact ⟨tree, rfl, fun k => rfl, fun k => rfl⟩
  | cons change changes ih =>
    obtain ⟨hroom, hroomy⟩ := hroomy
    obtain ⟨tree₁, hins, hact, himm, hactiveChain, hchain⟩ :=
      insertInternal_of_room h hroom
    rw [← hact] at hroomy
    obtain ⟨tree', hflush, hchain', hactiveChain'⟩ := ih himm hroomy
    refine ⟨tree', ?_, fun k => ?_, fun k => ?_⟩
    · rw [flushChanges_cons, hins, andThen_ok, hflush]
    · rw [hchain', hchain, versionsOf_cons, append_assoc]
    · rw [hactiveChain', kept, spills, hact]
      by_cases hspills : spills cfg t (tree.active.after cfg t change) changes = true
      · simp [hspills]
      · -- nothing is rotated any more: the memtable that took the change is the active one
        have hspills : spills cfg t (tree.active.after cfg t change) changes = false :=
          Bool.eq_false_iff.mpr hspills
        simp only [hspills, Bool.or_false, Bool.false_eq_true, if_false]
        rw [Memtable.kept_of_not_spills hspills, versionsOf_cons, ← hact, hactiveChain,
          append_assoc, Memtable.home]
        by_cases hfull : tree.active.fullForChange cfg t change = true
        · rw [if_pos hfull, if_pos hfull]
          rfl
        · rw [if_neg hfull, if_neg hfull]

theorem LsmWriter.flushChanges_of_not_roomy (h : tree.active.immutable = false)
    (hroomy : ¬ Roomy cfg t tree.active changes) :
    ∃ tree' e, flushChanges cfg t tree changes = (tree', .error e) := by
  induction changes generalizing tree with
  | nil => exact absurd trivial hroomy
  | cons change changes ih =>
    rw [flushChanges_cons]
    by_cases hfull : (tree.active.home cfg t change).fullForChange cfg t change = true
    · obtain ⟨tree', hins⟩ := insertInternal_of_full h hfull
      exact ⟨tree', .memtableFull, by rw [hins, andThen_error]⟩
    · have hroom := Bool.eq_false_iff.mpr hfull
      obtain ⟨tree₁, hins, hact, himm, -, -⟩ := insertInternal_of_room h hroom
      rw [hins, andThen_ok]
      refine ih himm fun htail => hroomy ⟨hroom, ?_⟩
      rwa [hact] at htail

/-! ## What is read after the commit -/

theorem lastChange_append (newer : List Change) :
    lastChange (changes ++ newer) k = (lastChange newer k).or (lastChange changes k) := by
  rw [lastChange, reverse_append, find?_append, Option.map_or]
  rfl

theorem lastChange_eq_none : lastChange changes k = none ↔ k ∉ changes.map fst := by
  rw [lastChange, Option.map_eq_none_iff, find?_eq_none, mem_map, not_exists]
  refine forall_congr' fun change => ?_
  simp

theorem mem_of_lastChange (h : lastChange changes k = some value) : k ∈ changes.map fst := by
  by_contra hno
  rw [lastChange_eq_none.mpr hno] at h
  cases h

theorem Memtable.kept_suffix : kept cfg t m changes <:+ changes := by
  induction changes generalizing m with
  | nil => exact suffix_rfl
  | cons change changes ih =>
    rw [kept]
    split_ifs
    · exact ih.trans (suffix_cons _ _)
    · exact suffix_rfl

theorem lastChange_of_suffix {last : List Change} (hsuffix : last <:+ changes)
    (hk : k ∈ last.map fst) : lastChange last k = lastChange changes k := by
  obtain ⟨earlier, rfl⟩ := hsuffix
  rw [lastChange_append]
  cases hlast : lastChange last k with
  | none => exact absurd hk (lastChange_eq_none.mp hlast)
  | some change => rfl

theorem versionsOf_of_lastChange (h : lastChange changes k = some value) :
    ∃ older, versionsOf t changes k = ⟨.inline (value.getD []), t, none⟩ :: older := by
  obtain ⟨change, hfind, rfl⟩ := Option.map_eq_some_iff.mp h
  rw [← head?_filter, filter_reverse] at hfind
  obtain ⟨older, holder⟩ := head?_eq_some_iff.mp hfind
  refine ⟨older.map (Change.version t), ?_⟩
  rw [versionsOf, ← map_reverse, holder, map_cons]
  rfl

theorem LsmTree.chain_commitVersions :
    (tree.commitVersions t lsn).chain k = stampHead t lsn (tree.active.data.chain k) ++
      (memtablesChain tree.immutable.reverse k ++ filesChain (tree.version.filesFor k) k) := by
  rw [chain_cons, commitVersions]
  simp [Memtable.commitVersions, ChainMap.chain_commit]

theorem versionsOf_eq_nil (hk : k ∉ changes.map fst) : versionsOf t changes k = [] := by
  rw [versionsOf, filter_eq_nil_iff.mpr, map_nil, reverse_nil]
  intro change hchange
  have hkey : change.1 ≠ k := by
    rintro rfl
    exact hk (mem_map_of_mem hchange)
  simpa using hkey

/-- **What a key reads after the commit**: its last change, if there is one that no rotation follows;
else what it read before, and would read with the stamps if nothing was rotated. -/
theorem LsmWriter.get_committed
    (hchain : tree'.chain k = versionsOf t changes k ++ tree.chain k) (hact : tree'.active.data.chain k =
      versionsOf t (kept cfg t tree.active changes) k ++
        if spills cfg t tree.active changes then [] else tree.active.data.chain k) (hs : lsn ≤ s) :
    (tree'.commitVersions t lsn).get k s =
      if k ∈ (kept cfg t tree.active changes).map fst then
        .ok ((lastChange changes k).bind hideEmpty)
      else (if spills cfg t tree.active changes then tree
        else tree.commitVersions t lsn).get k s := by
  by_cases hkept : k ∈ (kept cfg t tree.active changes).map fst
  · obtain ⟨value, hlast⟩ := Option.ne_none_iff_exists'.mp fun hnone =>
      lastChange_eq_none.mp hnone hkept
    obtain ⟨older, hvers⟩ := versionsOf_of_lastChange (t := t) hlast
    rw [if_pos hkept, get_eq, chain_commitVersions, hact, hvers, cons_append,
      stampHead, if_pos ⟨rfl, rfl⟩, cons_append, shows,
      VersionChain.findVisibleInline_of_visible (by simp [Version.visible, hs]),
      ← lastChange_of_suffix Memtable.kept_suffix hkept, hlast, Option.bind_some]
    cases value with
    | none | some value => rfl
  · rw [versionsOf_eq_nil hkept, nil_append] at hact
    rw [if_neg hkept, get_eq, get_eq, chain_commitVersions]
    by_cases hspills : spills cfg t tree.active changes = true
    · -- the active memtable has no version of the key, so nothing of it is stamped
      rw [if_pos hspills] at hact
      rw [LsmTree.chain_cons, hact] at hchain
      rw [if_pos hspills, hact, stampHead, hchain, shows_append inline_versionsOf,
        shows_of_uncommitted uncommitted_versionsOf, Option.none_or]
    · -- nothing is written of the key, and the active memtable is the one before
      rw [Memtable.kept_of_not_spills (Bool.eq_false_iff.mpr hspills)] at hkept
      rw [if_neg hspills] at hact
      rw [versionsOf_eq_nil hkept, nil_append, LsmTree.chain_cons, LsmTree.chain_cons, hact,
        append_cancel_left_eq] at hchain
      rw [if_neg hspills, chain_commitVersions, hact, hchain]

/-- What a key reads from a position on, where each read is one of two. -/
theorem LsmTree.get_ite {P : Prop} [Decidable P] {last : Option Bytes} (value : Option Bytes)
    (hget : ∀ s, lsn ≤ s → tree'.get k s = if P then .ok last else tree.get k s) :
    (∀ s, lsn ≤ s → tree'.get k s = .ok value) ↔
      if P then last = value else ∀ s, lsn ≤ s → tree.get k s = .ok value := by
  split_ifs at hget ⊢
  · constructor
    · intro hreads
      exact Except.ok.inj ((hget lsn le_rfl).symm.trans (hreads lsn le_rfl))
    · rintro rfl s hs
      exact hget s hs
  · exact forall₂_congr fun s hs => by rw [hget s hs]

/-! ## The batch in the writer -/

/-- A scan of the bounds shows keys in bounds, or fails. -/
theorem LsmTree.WellFormed.scanKeys_cases (h : tree.WellFormed) (bounds : ScanBounds) (s : ℕ) :
    (tree.Scannable bounds s ∧
      ∃ keys, tree.scanKeys bounds s = .ok keys ∧ ∀ key ∈ keys, bounds.contains key = true) ∨
    (¬ tree.Scannable bounds s ∧ ∃ e, tree.scanKeys bounds s = .error e) := by
  rw [LsmTree.scanKeys]
  refine (h.forward_cases bounds (Nat.lt_succ_self (Merge.size (tree.sources s)))).imp ?_ ?_
  · rintro ⟨hscan, hforward⟩
    rw [hforward]
    refine ⟨hscan, _, rfl, fun key hkey => ?_⟩
    obtain ⟨item, hitem, rfl⟩ := mem_map.mp hkey
    obtain ⟨found, hfound, rfl⟩ := mem_map.mp hitem
    exact (mem_takeWhile_started.mp hfound).2.1
  · rintro ⟨hscan, e, hforward⟩
    rw [hforward]
    exact ⟨hscan, e, rfl⟩

/-- **A deletion overwrites the first change of its key** and leaves the other keys alone. -/
theorem LsmWriter.filter_bury :
    ((bury key changes).getD (changes ++ [(key, none)])).filter (·.1 = k) =
      if k = key then (key, none) :: (changes.filter (·.1 = k)).tail else changes.filter (·.1 = k) := by
  induction changes with
  | nil =>
    by_cases hk : k = key
    · simp [bury, hk]
    · simp [bury, hk, Ne.symm hk]
  | cons change changes ih =>
    rw [bury]
    by_cases hkey : change.1 = key
    · rw [if_pos hkey, Option.getD_some]
      by_cases hk : k = key
      · simp [hkey, hk]
      · simp [hkey, hk, Ne.symm hk]
    · have hcons : ((bury key changes).map (change :: ·)).getD (change :: changes ++ [(key, none)]) =
          change :: (bury key changes).getD (changes ++ [(key, none)]) := by
        cases bury key changes with
        | none | some buried => rfl
      rw [if_neg hkey, hcons, filter_cons, ih, filter_cons]
      by_cases hk : k = key
      · simp [hk, hkey]
      · simp [if_neg hk]

/-- **A writer takes every mutation whose scan comes to its end**, and has changes of the keys it had and
of those the mutation writes. -/
theorem LsmWriter.apply_ok (h : tree.WellFormed) (w : LsmWriter) {mutation : Mutation}
    (hscan : mutation.Scannable tree w.snapshotLsn) :
    ∃ changes, w.apply tree mutation = ({ w with pendingChanges := changes }, .ok ()) ∧
      ∀ k, k ∈ changes.map fst ↔ k ∈ w.pendingChanges.map fst ∨
        k ∈ (mutation.writes tree w.snapshotLsn).map fst := by
  cases mutation with
  | put key value =>
    refine ⟨_, rfl, fun k => ?_⟩
    rw [map_append, mem_append]
    rfl
  | delete key =>
    rw [apply, delete, get_eq, Except.map]
    refine ⟨_, rfl, fun k => ?_⟩
    have hmem : ∀ l : List Change, k ∈ l.map fst ↔ l.filter (·.1 = k) ≠ [] := fun l => by simp
    rw [hmem, hmem, filter_bury, Mutation.writes, map_singleton, mem_singleton]
    by_cases hk : k = key
    · simp [hk]
    · simp [hk]
  | rangeDelete bounds =>
    obtain ⟨-, keys, hkeys, -⟩ := (h.scanKeys_cases bounds w.snapshotLsn).resolve_right
      fun hfails => hfails.1 hscan
    rw [apply, rangeDelete, hkeys]
    refine ⟨_, rfl, fun k => ?_⟩
    rw [map_append, mem_append, Mutation.writes, hkeys]
  | merge key operand => exact ⟨_, rfl, fun k => by simp [Mutation.writes]⟩

theorem LsmWriter.apply_error (h : tree.WellFormed) {mutation : Mutation}
    (hscan : ¬ mutation.Scannable tree w.snapshotLsn) : ∃ e, w.apply tree mutation = (w, .error e) := by
  cases mutation with
  | put key value | delete key | merge key operand => exact absurd trivial hscan
  | rangeDelete bounds =>
    obtain ⟨-, e, hfails⟩ := (h.scanKeys_cases bounds w.snapshotLsn).resolve_left
      fun hkeys => hscan hkeys.1
    exact ⟨e, by rw [apply, rangeDelete, hfails, andThen_error]⟩

theorem LsmWriter.applyBatch_ok (h : tree.WellFormed) (w : LsmWriter) {batch : List Mutation}
    (hscans : ∀ mutation ∈ batch, mutation.Scannable tree w.snapshotLsn) :
    ∃ changes, w.applyBatch tree batch = ({ w with pendingChanges := changes }, .ok ()) ∧
      ∀ k, k ∈ changes.map fst ↔ k ∈ w.pendingChanges.map fst ∨
        k ∈ (batch.flatMap (Mutation.writes tree w.snapshotLsn)).map fst := by
  induction batch generalizing w with
  | nil => exact ⟨w.pendingChanges, rfl, fun k => by simp⟩
  | cons mutation batch ih =>
    obtain ⟨hscan, hscans⟩ := forall_mem_cons.mp hscans
    obtain ⟨changes₁, happ, hkeys₁⟩ := apply_ok h w hscan
    obtain ⟨changes, hbatch, hkeys⟩ := ih { w with pendingChanges := changes₁ } hscans
    refine ⟨changes, ?_, fun k => ?_⟩
    · rw [applyBatch, forEach_cons, happ, andThen_ok]
      exact hbatch
    · rw [hkeys, hkeys₁, flatMap_cons, map_append, mem_append, or_assoc]

variable {calls : List Mutation}

/-- A batch fails at the first mutation whose scan does not come to its end. -/
theorem LsmWriter.applyBatch_error (h : tree.WellFormed) (w : LsmWriter)
    (hscans : ¬ ∀ call ∈ calls, call.Scannable tree w.snapshotLsn) :
    ∃ w' e, w.applyBatch tree calls = (w', .error e) := by
  induction calls generalizing w with
  | nil => exact absurd nofun hscans
  | cons call calls ih =>
    rw [applyBatch, forEach_cons]
    by_cases hscan : call.Scannable tree w.snapshotLsn
    · obtain ⟨changes, happ, -⟩ := apply_ok h w hscan
      rw [happ, andThen_ok]
      exact ih { w with pendingChanges := changes }
        fun hrest => hscans (forall_mem_cons.mpr ⟨hscan, hrest⟩)
    · obtain ⟨e, hfails⟩ := apply_error h hscan
      exact ⟨w, e, by rw [hfails, andThen_error]⟩

/-- **What the keys read after the commit**, whatever they are wanted to. -/
theorem LsmWriter.reads_iff (w : LsmWriter) (htree : tree.WellFormed)
    (wanted : Key → Option Bytes → Prop) :
    w.Reads cfg tree calls lsn wanted ↔ let changes := (w.applyBatch tree calls).1.pendingChanges
      (∀ call ∈ calls, call.Scannable tree w.snapshotLsn) ∧ Roomy cfg w.txId tree.active changes ∧
      ∀ key value, wanted key value →
        if key ∈ (kept cfg w.txId tree.active changes).map fst then
          (lastChange changes key).bind hideEmpty = value
        else ∀ s, lsn ≤ s → (if spills cfg w.txId tree.active changes then tree
          else tree.commitVersions w.txId lsn).get key s = .ok value := by
  by_cases hscans : ∀ call ∈ calls, call.Scannable tree w.snapshotLsn
  swap
  · refine iff_of_false ?_ fun hreads => hscans hreads.1
    obtain ⟨w', e, hfails⟩ := applyBatch_error htree w hscans
    rintro ⟨w'', -, -, hbatch, -⟩
    rw [hfails] at hbatch
    cases hbatch
  obtain ⟨changes, hbatch, -⟩ := applyBatch_ok htree w hscans
  rw [Reads, hbatch]
  simp only [and_iff_right hscans]
  by_cases hroomy : Roomy cfg w.txId tree.active changes
  · obtain ⟨tree', hflush, hchain, hact⟩ := flushChanges_of_roomy htree.active hroomy
    have hkey := fun key value => LsmTree.get_ite value fun s (hs : lsn ≤ s) =>
      get_committed (hchain key) (hact key) hs
    have hflushed : flush { w with pendingChanges := changes } tree cfg =
        ((tree', { w with pendingChanges := [] }), .ok ()) := by
      rw [flush, hflush]
    constructor
    · rintro ⟨w', tree'', w'', hw', hflush', hreads⟩
      cases hw'
      rw [hflushed] at hflush'
      cases hflush'
      exact ⟨hroomy, fun key value hval => (hkey key value).mp (hreads key value hval)⟩
    · rintro ⟨-, hkeeps⟩
      exact ⟨_, _, _, rfl, hflushed, fun key value hval =>
        (hkey key value).mpr (hkeeps key value hval)⟩
  · obtain ⟨tree', e, hflush⟩ := flushChanges_of_not_roomy htree.active hroomy
    constructor
    · rintro ⟨w', tree'', w'', hw', hflush', -⟩
      cases hw'
      rw [flush, hflush] at hflush'
      cases hflush'
    · rintro ⟨hroomy', -⟩
      exact absurd hroomy' hroomy

/-- Two keys, one of them put and deleted, in a memtable with room for both. -/
def roomyBatch : List Mutation := [.put [1] [5], .put [2] [6], .delete [1]]

instance (cfg : LsmConfig) (t : TransactionId) :
    ∀ (m : Memtable) (changes : List Change), Decidable (Roomy cfg t m changes)
  | _, [] => .isTrue trivial
  | m, change :: changes =>
    have := instDecidableRoomy cfg t (m.after cfg t change) changes
    inferInstanceAs (Decidable (_ ∧ _))

/-- Four keys, one more than a memtable has room for. -/
def fourKeys : List Mutation := [.put [1] [5], .put [2] [5], .put [3] [5], .put [4] [5]]

/-- What a call makes of a key it covers. -/
def Mutation.effect (key : Key) : Mutation → Option (Option Bytes)
  | .put k value => if k = key then some (some value) else none
  | .delete k => if k = key then some none else none
  | .rangeDelete bounds => if bounds.contains key then some none else none
  | .merge _ _ => none

/-- A call of the sequence is the last one that covers the key. -/
def LastCall (calls earlier : List Mutation) (call : Mutation) (key : Key) (value : Option Bytes) :
    Prop :=
  ∃ later, calls = earlier ++ call :: later ∧ call.effect key = some value ∧
    ∀ call' ∈ later, call'.effect key = none

/-- The keys read, after the commit, what the last calls that cover them made of them. -/
def LsmWriter.ReadsLast (cfg : LsmConfig) (w : LsmWriter) (tree : LsmTree) (calls : List Mutation)
    (lsn : ℕ) : Prop :=
  w.Reads cfg tree calls lsn fun key value => ∃ earlier call, LastCall calls earlier call key value

/-- The call decides what the pending changes say of a key it covers: a deletion if at most one change
of the key is pending, or the last one shows no value anyway; a deletion of a range if the scan shows
the key, or no value is pending for it. -/
def LsmWriter.Decides (w : LsmWriter) (tree : LsmTree) (key : Key) : Mutation → Prop
  | .put _ value => value ≠ []
  | .delete _ => (w.pendingChanges.filter (·.1 = key)).length ≤ 1 ∨
      (lastChange w.pendingChanges key).bind hideEmpty = none
  | .rangeDelete bounds => (∃ keys, tree.scanKeys bounds w.snapshotLsn = .ok keys ∧ key ∈ keys) ∨
      (lastChange w.pendingChanges key).bind hideEmpty = none
  | .merge _ _ => True

theorem lastChange_eq_getLast? :
    lastChange changes key = (changes.filter (·.1 = key)).getLast?.map snd := by
  rw [lastChange, ← head?_filter, filter_reverse, head?_reverse]

theorem lastChange_deletions (keys : List Key) :
    lastChange (keys.map fun k => (k, none)) key = if key ∈ keys then some none else none := by
  induction keys with
  | nil => rfl
  | cons k keys ih =>
    rw [map_cons, ← singleton_append, lastChange_append, ih]
    by_cases hk : key = k
    · by_cases hmem : k ∈ keys
      · simp [hk, hmem]
      · simp [lastChange, hk, hmem]
    · simp [lastChange, hk, Ne.symm hk]

section

variable (h : tree.WellFormed)
include h

/-- A call that does not cover a key leaves what is pending for it. -/
theorem LsmWriter.lastChange_apply_of_not_covers (hcall : call.effect key = none) :
    lastChange (w.apply tree call).1.pendingChanges key = lastChange w.pendingChanges key := by
  cases call with
  | put k v =>
    have hk : k ≠ key := by simpa [Mutation.effect] using hcall
    simp [apply, put, lastChange, hk]
  | delete k =>
    have hk : k ≠ key := by simpa [Mutation.effect] using hcall
    rw [apply, delete, get_eq, Except.map, andThen_ok, lastChange_eq_getLast?, filter_bury,
      if_neg hk.symm, ← lastChange_eq_getLast?]
  | rangeDelete bounds =>
    rcases h.scanKeys_cases bounds w.snapshotLsn with ⟨-, keys, hkeys, hin⟩ | ⟨-, e, hfails⟩
    · have hno : key ∉ keys := fun hkey => by simp [Mutation.effect, hin key hkey] at hcall
      rw [apply, rangeDelete, hkeys]
      simp only [andThen_ok]
      rw [lastChange_append, lastChange_deletions, if_neg hno, Option.none_or]
    · rw [apply, rangeDelete, hfails, andThen_error]
  | merge k operand => rfl

/-- **What the call that covers a key leaves pending for it.** -/
theorem LsmWriter.lastChange_apply_iff (hcall : call.effect key = some value) :
    (lastChange (w.apply tree call).1.pendingChanges key).bind hideEmpty = value ↔
      w.Decides tree key call := by
  cases call with
  | put k v =>
    obtain ⟨rfl, rfl⟩ : k = key ∧ some v = value := by simpa [Mutation.effect] using hcall
    cases v with
    | nil | cons b v => simp [apply, put, lastChange, Decides, hideEmpty]
  | delete k =>
    obtain ⟨rfl, rfl⟩ : k = key ∧ none = value := by simpa [Mutation.effect] using hcall
    rw [apply, delete, get_eq, Except.map, andThen_ok, Decides, lastChange_eq_getLast?,
      lastChange_eq_getLast?, filter_bury, if_pos rfl]
    cases w.pendingChanges.filter (·.1 = k) with
    | nil => simp [hideEmpty]
    | cons change later =>
      cases later with
      | nil => simp [hideEmpty]
      | cons change' later => simp
  | rangeDelete bounds =>
    obtain ⟨-, rfl⟩ : bounds.contains key = true ∧ none = value := by
      simpa [Mutation.effect] using hcall
    rw [apply, rangeDelete, Decides]
    rcases h.scanKeys_cases bounds w.snapshotLsn with ⟨-, keys, hkeys, -⟩ | ⟨-, e, hfails⟩
    · simp only [hkeys, andThen_ok, Except.ok.injEq, exists_eq_left']
      rw [lastChange_append, lastChange_deletions]
      by_cases hkey : key ∈ keys
      · simp [hkey, hideEmpty]
      · simp [hkey]
    · simp [hfails]
  | merge k operand => cases hcall

theorem LsmWriter.lastChange_applyBatch
    (hcalls : ∀ call ∈ calls, call.effect key = none) :
    lastChange (w.applyBatch tree calls).1.pendingChanges key = lastChange w.pendingChanges key :=
  forEach_fst (P := fun w' : LsmWriter => lastChange w'.pendingChanges key = lastChange w.pendingChanges key)
    (fun _ call hcall hw' => (lastChange_apply_of_not_covers h (hcalls call hcall)).trans hw') rfl

theorem LsmWriter.lastChange_applyBatch_iff {earlier : List Mutation}
    (hscans : ∀ call ∈ calls, call.Scannable tree w.snapshotLsn)
    (hlast : LastCall calls earlier call key value) :
    (lastChange (w.applyBatch tree calls).1.pendingChanges key).bind hideEmpty = value ↔
      (w.applyBatch tree earlier).1.Decides tree key call := by
  obtain ⟨later, rfl, heffect, hlater⟩ := hlast
  obtain ⟨hbefore, hrest⟩ := forall_mem_append.mp hscans
  obtain ⟨changes, hearlier, -⟩ := applyBatch_ok h w hbefore
  obtain ⟨changes', hcall, -⟩ :=
    apply_ok h { w with pendingChanges := changes } (hrest call mem_cons_self)
  have hcalls : w.applyBatch tree (earlier ++ call :: later) =
      applyBatch { w with pendingChanges := changes' } tree later := by
    rw [applyBatch, forEach_append, ← applyBatch, hearlier, andThen_ok, forEach_cons, hcall,
      andThen_ok, applyBatch]
  rw [hcalls, lastChange_applyBatch h hlater, hearlier, ← lastChange_apply_iff h heffect, hcall]

end

/-- A key that is put twice and deleted. -/
def putTwice : List Mutation := [.put [1] [5], .put [1] [6], .delete [1]]

end NanoStore.Lsm
