import NanoStore.Table.ArtTree
import NanoStore.Table.Reference
/-!
# The adaptive radix tree — runs of inserts and commits

The tree is meant to be a multi-version map. It is one as long as the way
of every insert is clear. It is not in general: the leaf that is split
loses its committed versions (`lookup_of_run_fails`), and so inserting one
key takes away what snapshots read of another.
-/

namespace NanoStore.Table

open Txn Steps MultiVersion List

/-- A call on the tree. -/
inductive ArtCall
  | insert (key value : Bytes) (txId : TransactionId)
  | commit (txId : TransactionId) (lsn : ℕ)

/-- The call on the reference map. -/
def ArtCall.toCall : ArtCall → Call Key TransactionId Bytes
  | .insert key value txId => .write txId key (some value)
  | .commit txId lsn => .commit txId lsn

namespace ArtNode

/-- A call with its answer. -/
def exec (root : ArtNode) : ArtCall → ArtNode × Except (Failure Empty) Unit
  | .insert key value txId =>
    match insertRecursive key value txId root 0 with
    | some root => (root, .ok ())
    | none => (root, .error .panicked)
  | .commit txId lsn => (commitAll txId lsn root, .ok ())

variable (trace : List (ArtCall × Except (Failure Empty) Unit))

/-- The calls of a trace on the reference map. -/
def calls : List (Call Key TransactionId Bytes) :=
  trace.map fun c => c.1.toCall

/-- Commits come at rising positions, and no two transactions have uncommitted versions of one key. -/
def Fair (_ : ArtNode) (call : ArtCall) : Prop :=
  call.toCall.Allowed (calls trace)

/-- The call is fair, and the way of an insert is clear. -/
def Well (root : ArtNode) (call : ArtCall) : Prop :=
  call.toCall.Allowed (calls trace) ∧
    match call with
    | .insert key _ txId => Clear key txId root 0
    | .commit _ _ => True

/-- No call panicked, and every snapshot reads of every key what it reads of the reference map. -/
def Faithful (root : ArtNode) : Prop :=
  (∀ c ∈ trace, c.2 = .ok ()) ∧ ∀ key s, root.lookup key s = (replay (calls trace)).get key s

/-! ## Chains and histories -/

/-- A version as a write; the empty value is a value. -/
def held (v : Version) : Write TransactionId Bytes :=
  ⟨v.createdBy, v.commitLsn, match v.value with
    | .inline data => some data
    | .external _ => none⟩

/-- The chain of a key answers as its history does, and its newest version is the newest write. -/
structure Recorded (chain : VersionChain) (history : History TransactionId Bytes) : Prop where
  inline : ∀ v ∈ chain, ∃ data, v.value = .inline data
  newest : (chain.map held).head? = history.head?
  alike : Alike (chain.map held) history

variable {chain : VersionChain} {history : History TransactionId Bytes} {t : TransactionId}
  {s lsn : ℕ} {value : Bytes}

theorem seenAt_held (v : Version) : (held v).seenAt s = Version.visible (.atLsn s) v :=
  seenAt_toWrite v

/-- **A chain answers what the history it records does.** -/
theorem Recorded.read (h : Recorded chain history) (hord : Ordered history) :
    VersionChain.findVisibleInline (.atLsn s) chain = history.read s := by
  have hseen : Write.seenAt s ∘ held = Version.visible (.atLsn s) := funext seenAt_held
  rw [← h.alike.read hord, find?_map, hseen]
  rw [VersionChain.findVisibleInline_eq]
  cases hfind : chain.find? (Version.visible (.atLsn s)) with
  | none => rfl
  | some v =>
    obtain ⟨data, hdata⟩ := h.inline v (mem_of_find?_eq_some hfind)
    simp [held, hdata, VersionValue.inline?]

theorem Recorded.write (h : Recorded chain history) :
    Recorded (.new value t :: chain) (history.write t (some value)) := by
  refine ⟨fun v hv => ?_, rfl, h.alike.write⟩
  rcases mem_cons.mp hv with rfl | hv
  · exact ⟨value, rfl⟩
  · exact h.inline v hv

theorem map_held_stampHead :
    (stampHead t lsn chain).map held = History.commitNewest t lsn (chain.map held) := by
  cases chain with
  | nil => rfl
  | cons v older =>
    have hstamp : ((held v).writer = t ∧ (held v).committedAt = none) =
        (v.createdBy = t ∧ v.commitLsn = none) := rfl
    rw [stampHead, map_cons, History.commitNewest]
    simp only [hstamp]
    split_ifs <;> rfl

theorem mem_stampHead {v : Version} (hv : v ∈ stampHead t lsn chain) : ∃ v' ∈ chain, v.value = v'.value := by
  cases chain with
  | nil => cases hv
  | cons newest older =>
    rw [stampHead] at hv
    split_ifs at hv with hstamp
    · rcases mem_cons.mp hv with rfl | hv
      · exact ⟨newest, mem_cons_self, rfl⟩
      · exact ⟨v, mem_cons_of_mem _ hv, rfl⟩
    · exact ⟨v, hv, rfl⟩

theorem Recorded.commit (h : Recorded chain history) (t : TransactionId) (lsn : ℕ) (hord : Ordered history) :
    Recorded (stampHead t lsn chain) (history.commit t lsn) := by
  have hnewest := h.newest
  refine ⟨fun v hv => ?_, ?_, ?_⟩
  · obtain ⟨v', hv', heq⟩ := mem_stampHead hv
    rw [heq]
    exact h.inline v' hv'
  · rw [map_held_stampHead, History.commit, head?_map, ← hnewest]
    cases chain.map held with
    | nil => rfl
    | cons w older =>
      rw [History.commitNewest, head?_cons, Option.map_some]
      split_ifs <;> rfl
  · rw [map_held_stampHead]
    exact h.alike.commitNewest hord hnewest

theorem Recorded.reset (h : Recorded chain history) (hne : chain ≠ [])
    (hopen : ∀ v ∈ chain, v.createdBy = t ∧ v.commitLsn = none) :
    Recorded [.new (newestInline chain) t] history := by
  obtain ⟨v, older, rfl⟩ := exists_cons_of_ne_nil hne
  obtain ⟨data, hdata⟩ := h.inline v mem_cons_self
  obtain ⟨hby, hnone⟩ := hopen v mem_cons_self
  have hv : v = .new data t := by
    obtain ⟨value, createdBy, commitLsn⟩ := v
    simp only at hdata hby hnone
    rw [hdata, hby, hnone]
    rfl
  have hnew : newestInline (v :: older) = data := by
    rw [hv]
    rfl
  rw [hnew, ← hv]
  refine ⟨fun w hw => ?_, ?_, fun s => ?_⟩
  · rw [mem_singleton.mp hw]
    exact ⟨data, hdata⟩
  · rw [← h.newest]
    rfl
  · -- nothing of either chain is committed
    have hunseen : ∀ w ∈ (v :: older).map held, ¬Write.seenAt s w = true := by
      intro w hw
      obtain ⟨v', hv', rfl⟩ := mem_map.mp hw
      rw [seenAt_held, Version.visible, (hopen v' hv').2]
      exact Bool.false_ne_true
    have hall : ((v :: older).map held).find? (Write.seenAt s) = none := find?_eq_none.mpr hunseen
    rw [← h.alike s, hall]
    refine find?_eq_none.mpr fun w hw => hunseen w ?_
    rw [map_singleton, mem_singleton] at hw
    rw [hw]
    exact mem_cons_self

/-! ## Runs -/

instance Clear.decidable (key : Bytes) (txId : TransactionId) :
    ∀ tree depth, Decidable (Clear key txId tree depth)
  | .empty, _ => .isTrue trivial
  | .leaf _ _, _ => inferInstanceAs (Decidable (_ ∨ _ ∧ _ ∧ _))
  | .inner nodePrefix kind count children, depth =>
    have := fun i => Clear.decidable key txId (children i) (depth + nodePrefix.length)
    if h : nodePrefix.isPrefixOf (key.drop depth) = true then
      decidable_of_iff ((depth = 0 ∨ nodePrefix.length ≤ depth) ∧
        ∀ i ∈ kind.slot count (branchByte key (depth + nodePrefix.length)),
          Clear key txId (children i) (depth + nodePrefix.length)) (by rw [Clear, if_pos h])
    else
      decidable_of_iff (depth = 0 ∧ branchByte nodePrefix (commonPrefix nodePrefix (key.drop depth)) ≠
        branchByte key (depth + commonPrefix nodePrefix (key.drop depth))) (by rw [Clear, if_neg h])

instance (root : ArtNode) (call : ArtCall) :
    Decidable (Fair trace root call) := inferInstanceAs (Decidable (Call.Allowed _ _))

instance (root : ArtNode) (call : ArtCall) :
    Decidable (Well trace root call) :=
  match call with
  | .insert _ _ _ => inferInstanceAs (Decidable (_ ∧ _))
  | .commit _ _ => inferInstanceAs (Decidable (_ ∧ _))

/-- The lookup of every key finds a chain that records the history of the key. -/
def Records (root : ArtNode) (map : Reference) : Prop :=
  ∀ key, lookupRecursive key root 0 ≠ some [] ∧ Recorded ((lookupRecursive key root 0).getD []) (map key)

variable {root root' : ArtNode} {map : Reference} {key : Bytes}

theorem Records.lookup (h : Records root map) (hord : ∀ key, Ordered (map key)) (key : Bytes) (s : ℕ) :
    root.lookup key s = map.get key s := by
  rw [ArtNode.lookup, Map.get, ← (h key).2.read (hord key)]
  cases lookupRecursive key root 0 with
  | none | some chain => rfl

theorem Records.insert (h : Records root map) (hinserted : Inserted key value t 0 root root') :
    Records root' (map.write t key (some value)) := by
  intro k
  obtain ⟨hne, hrec⟩ := h k
  rw [Map.write]
  by_cases hk : k = key
  · subst hk
    rw [hinserted.self, Function.update_self, Option.getD_some]
    exact ⟨by simp, hrec.write⟩
  · rw [Function.update_of_ne hk]
    rcases hinserted.other k hk with hsame | ⟨chain, hchain, hopen, hreset⟩
    · rw [hsame]
      exact h k
    · rw [hchain] at hne hrec
      rw [hreset]
      exact ⟨by simp, hrec.reset (fun hnil => hne (congrArg some hnil)) hopen⟩

theorem Records.commit (h : Records root map) (hsound : Sound 0 root)
    (hord : ∀ key, Ordered (map key)) : Records (commitAll t lsn root) (map.commit t lsn) := by
  intro k
  obtain ⟨hne, hrec⟩ := h k
  rw [(hsound.commitAll).2 k, Map.commit]
  have hstamped := hrec.commit t lsn (hord k)
  cases hchain : lookupRecursive k root 0 with
  | none =>
    rw [hchain] at hstamped
    exact ⟨by simp, hstamped⟩
  | some chain =>
    rw [hchain] at hne hstamped
    refine ⟨fun hnil => hne ?_, hstamped⟩
    rw [Option.map_some, Option.some.injEq] at hnil
    cases chain with
    | nil => rfl
    | cons v older =>
      rw [stampHead] at hnil
      split_ifs at hnil

/-- What every call of a run keeps. -/
structure Invariant (root : ArtNode) : Prop where
  answered : ∀ c ∈ trace, c.2 = .ok ()
  sound : Sound 0 root
  orderly : Orderly (calls trace)
  records : Records root (replay (calls trace))

variable {trace}

theorem Invariant.exec {call : ArtCall} (h : Invariant trace root) (hwell : Well trace root call) :
    Invariant ((call, (root.exec call).2) :: trace) (root.exec call).1 := by
  obtain ⟨hallow, hclear⟩ := hwell
  have hord := h.orderly.ordered
  cases call with
  | insert key value txId =>
    obtain ⟨root', hins, hinserted⟩ := h.sound.insert (Nat.zero_le _) hclear
    have hexec : root.exec (.insert key value txId) = (root', .ok ()) := by
      rw [ArtNode.exec, hins]
    rw [hexec]
    exact ⟨forall_mem_cons.mpr ⟨rfl, h.answered⟩, hinserted.sound, ⟨hallow, h.orderly⟩,
      h.records.insert hinserted⟩
  | commit txId lsn =>
    exact ⟨forall_mem_cons.mpr ⟨rfl, h.answered⟩, h.sound.commitAll.1, ⟨hallow, h.orderly⟩,
      h.records.commit h.sound hord⟩

/-- **The tree is a multi-version map**, in every state of a run in which every insert has a clear way. -/
theorem lookup_of_run (h : Run exec Well .empty trace root) : Faithful trace root := by
  have hinv : Invariant trace root :=
    h.invariant ⟨nofun, .empty, trivial, fun _ => ⟨nofun, nofun, rfl, fun _ => rfl⟩⟩
      fun _ _ _ hinv hwell => hinv.exec hwell
  exact ⟨hinv.answered, hinv.records.lookup hinv.orderly.ordered⟩

/-- A run in which the way of every insert is clear. -/
def demo : List ArtCall :=
  [.insert [7, 7] [3] 1, .insert [] [1] 1, .insert [7, 9] [4] 1, .insert [7, 0] [5] 1, .commit 1 10,
    .insert [7, 7] [8] 2, .insert [3] [6] 2, .commit 2 20]

/-- Two keys with different first bytes, by two transactions. -/
def lost : List ArtCall := [.insert [1] [5] 1, .commit 1 10, .insert [2] [6] 2]

/-- One transaction inserts four keys, among them the empty one, which is a prefix of the others, and one
with a byte 0, and commits; another inserts a new version and a key of its own. -/
theorem lookup_of_run_insert : Faithful (execute exec .empty demo).1 (execute exec .empty demo).2 ∧
    (execute exec .empty demo).2.lookup [] 10 = some [1] ∧
    (execute exec .empty demo).2.lookup [7, 0] 20 = some [5] ∧
    (execute exec .empty demo).2.lookup [7, 7] 10 = some [3] ∧
    (execute exec .empty demo).2.lookup [7, 7] 20 = some [8] := by
  refine ⟨lookup_of_run (Guarded.run ?_), ?_, ?_, ?_, ?_⟩
  · decide +kernel
  · decide +kernel
  · decide +kernel
  · decide +kernel
  · decide +kernel

/-- **Inserting one key takes another away from a snapshot.** The key 1 is committed at 10. Inserting the
key 2 splits its leaf, and the snapshot at 10 no longer reads it. -/
theorem lookup_of_run_fails : ¬∀ trace root, Run exec Fair .empty trace root → Faithful trace root := by
  intro hall
  have hrun : Run exec Fair .empty (execute exec .empty lost).1 (execute exec .empty lost).2 :=
    Guarded.run (by decide +kernel)
  have hread := (hall _ _ hrun).2 [1] 10
  revert hread
  decide +kernel

end ArtNode

end NanoStore.Table
