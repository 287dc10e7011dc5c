import NanoStore.Types
/-!
# Version chains

`VersionChain` of `txn/version.rs`: the versions of one key, newest
first. A reader takes the first version that is committed and visible to
its snapshot; `vacuum` drops versions below a watermark.

A snapshot sees a version that was committed at or before its position by
a transaction that is not in its list of active transactions. The check
has a shortcut: a transaction below the least of the list is not in it.
In a chain whose positions descend, the first version a snapshot sees is
the newest one it may see.
-/

namespace NanoStore.Txn

open List

/-- Where a value is that is not inline. -/
inductive ValueRef
  | inline
  | singlePage (pageId offset length : ℕ)
  | overflowChain (firstPageId totalLength pageCount : ℕ)
  deriving DecidableEq

/-- The value of a version. -/
inductive VersionValue
  | inline (data : Bytes)
  | external (ref : ValueRef)
  deriving DecidableEq

/-- The bytes of a value stored inline. -/
def VersionValue.inline? : VersionValue → Option Bytes
  | .inline data => some data
  | .external _ => none

/-- `VersionChain` without its link to the version before. -/
structure Version where
  value : VersionValue
  createdBy : TransactionId
  commitLsn : Option ℕ
  deriving DecidableEq

/-- The linked list a `VersionChain` heads, newest version first. -/
abbrev VersionChain := List Version

/-- `VersionChain::new` and the node `prepend` puts before a chain: not committed. -/
def Version.new (value : Bytes) (createdBy : TransactionId) : Version :=
  ⟨.inline value, createdBy, none⟩

/-- What `Snapshot::is_visible` reads of a snapshot. -/
structure Snapshot where
  lsn : ℕ
  activeTxns : List TransactionId

namespace Snapshot

/-- `min_active_txn`, which `Snapshot::new` takes from the list. -/
def minActiveTxn (s : Snapshot) : TransactionId := s.activeTxns.min?.getD 0

/-- Not later than the snapshot, and of no transaction active in it. -/
def isVisible (s : Snapshot) (versionLsn : ℕ) (createdBy : TransactionId) : Bool :=
  if versionLsn > s.lsn then false
  else if createdBy < s.minActiveTxn then true
  else !s.activeTxns.contains createdBy

/-- The snapshot the tables build for a read: the list of active transactions is empty. -/
def atLsn (lsn : ℕ) : Snapshot := ⟨lsn, []⟩

@[simp] theorem isVisible_atLsn {lsn versionLsn : ℕ} {createdBy : TransactionId} :
    (Snapshot.atLsn lsn).isVisible versionLsn createdBy = decide (versionLsn ≤ lsn) := by
  by_cases h : versionLsn ≤ lsn
  · simp [isVisible, Snapshot.atLsn, minActiveTxn, h]
  · simp [isVisible, Snapshot.atLsn, not_le.mp h]

/-- **The shortcut of `is_visible` is sound**: a transaction below the least active one is not active. -/
theorem isVisible_iff (s : Snapshot) (versionLsn : ℕ) (createdBy : TransactionId) :
    s.isVisible versionLsn createdBy = true ↔ versionLsn ≤ s.lsn ∧ createdBy ∉ s.activeTxns := by
  unfold isVisible
  split_ifs with hlater hbelow
  · simp only [false_iff, not_and]
    intro hle
    omega
  · have hfree : createdBy ∉ s.activeTxns := by
      intro hact
      cases hmin : s.activeTxns.min? with
      | none =>
        rw [min?_eq_none_iff.mp hmin] at hact
        cases hact
      | some least =>
        have hle : least ≤ createdBy := (min?_eq_some_iff.mp hmin).2 createdBy hact
        have hlt : createdBy < least := by
          have hbelow' := hbelow
          rw [minActiveTxn, hmin] at hbelow'
          exact hbelow'
        exact absurd hlt (not_lt.mpr hle)
    exact iff_of_true rfl ⟨by omega, hfree⟩
  · simp only [Bool.not_eq_true', contains_eq_mem, decide_eq_false_iff_not]
    exact ⟨fun hfree => ⟨by omega, hfree⟩, And.right⟩

end Snapshot

def Version.visible (s : Snapshot) (v : Version) : Bool :=
  match v.commitLsn with
  | some lsn => s.isVisible lsn v.createdBy
  | none => false

/-- Committed below the watermark: what `vacuum` counts as obsolete. -/
def Version.obsolete (minVisibleLsn : ℕ) (v : Version) : Bool :=
  match v.commitLsn with
  | some lsn => decide (lsn < minVisibleLsn)
  | none => false

namespace VersionChain

/-- The first version a snapshot sees. -/
def findVisibleVersion (s : Snapshot) (chain : VersionChain) : Option VersionValue :=
  (chain.find? (Version.visible s)).map Version.value

def findVisibleInline (s : Snapshot) (chain : VersionChain) : Option Bytes :=
  match findVisibleVersion s chain with
  | some (.inline data) => some data
  | some (.external _) | none => none

/-- `retain_obsolete_versions`, from the oldest version up: the chain rebuilt, the budget left
and the references to be freed. A version to be removed stays and takes the place of the
version below it. -/
def retainObsoleteVersions (minVisibleLsn : ℕ) : VersionChain → ℕ → VersionChain × ℕ × List ValueRef
  | [], budget => ([], budget, [])
  | v :: older, budget =>
    let (rebuiltPrev, budget, freedRefs) := retainObsoleteVersions minVisibleLsn older budget
    if v.obsolete minVisibleLsn then
      if 0 < budget then (v :: rebuiltPrev, budget - 1, freedRefs)
      else
        let freedRefs := match v.value with
          | .external ref => freedRefs ++ [ref]
          | .inline _ => freedRefs
        (v :: rebuiltPrev.tail, budget, freedRefs)
    else (v :: rebuiltPrev, budget, freedRefs)

/-- `VersionChain::vacuum`: the chain it leaves, the number of versions it reports as removed
and the references to be freed. -/
def vacuum (minVisibleLsn : ℕ) (chain : VersionChain) : VersionChain × ℕ × List ValueRef :=
  let removed := chain.countP (Version.obsolete minVisibleLsn) - 1
  if removed = 0 then (chain, 0, [])
  else
    let (rebuilt, _, freedRefs) := retainObsoleteVersions minVisibleLsn chain 1
    (rebuilt, removed, freedRefs)

/-- The uncommitted versions of a transaction are committed at a position. -/
def stamp (t : TransactionId) (lsn : ℕ) (chain : VersionChain) : VersionChain :=
  chain.map fun v =>
    if v.createdBy = t ∧ v.commitLsn = none then { v with commitLsn := some lsn } else v

variable {s : Snapshot} {chain older : VersionChain} {v : Version}

/-- The value found is that of the first version seen, if it is inline. -/
theorem findVisibleInline_eq (chain : VersionChain) :
    findVisibleInline s chain = (chain.find? (Version.visible s)).bind fun v => v.value.inline? := by
  unfold findVisibleInline findVisibleVersion
  cases chain.find? (Version.visible s) with
  | none => rfl
  | some v =>
    rw [Option.map_some, Option.bind_some]
    cases v.value <;> rfl

theorem findVisibleInline_of_visible (h : v.visible s = true) :
    findVisibleInline s (v :: older) = v.value.inline? := by
  rw [findVisibleInline_eq, find?_cons_of_pos h, Option.bind_some]

theorem findVisibleInline_of_hidden (h : v.visible s = false) :
    findVisibleInline s (v :: older) = findVisibleInline s older := by
  rw [findVisibleInline_eq, find?_cons_of_neg (by simp [h]), findVisibleInline_eq]

theorem findVisibleInline_of_stamps {s s' : ℕ}
    (h : ∀ v ∈ chain, ∀ lsn, v.commitLsn = some lsn → lsn ≤ s) (hs : s ≤ s') :
    findVisibleInline (.atLsn s') chain = findVisibleInline (.atLsn s) chain := by
  have hvis : ∀ v ∈ chain, Version.visible (.atLsn s') v = Version.visible (.atLsn s) v := by
    intro v hv
    cases hlsn : v.commitLsn with
    | none => simp [Version.visible, hlsn]
    | some lsn =>
      have hle := h v hv lsn hlsn
      simp [Version.visible, hlsn, hle, hle.trans hs]
  rw [findVisibleInline_eq, findVisibleInline_eq, find?_congr hvis]

/-- The version is committed at a position the snapshot sees, by a transaction that is not active. -/
def Sees (s : Snapshot) (v : Version) (l : ℕ) : Prop :=
  v.commitLsn = some l ∧ l ≤ s.lsn ∧ v.createdBy ∉ s.activeTxns

/-- The positions of the committed versions, newest version first, go down. -/
def Descends (chain : VersionChain) : Prop := (chain.filterMap Version.commitLsn).Pairwise fun l l' => l' < l

theorem visible_iff : v.visible s = true ↔ ∃ l, Sees s v l := by
  unfold Version.visible Sees
  cases v.commitLsn with
  | none => simp
  | some l => simp [s.isVisible_iff]

/-- Earlier in a chain is later in time. -/
theorem Descends.lt {front back : VersionChain} {u : Version} {l l' : ℕ} (h : Descends (front ++ v :: back))
    (hv : v.commitLsn = some l) (hu : u.commitLsn = some l') :
    (u ∈ front → l < l') ∧ (u ∈ back → l' < l) := by
  have hpairs := pairwise_filterMap.mp h
  rw [pairwise_append, pairwise_cons] at hpairs
  exact ⟨fun hmem => hpairs.2.2 u hmem v mem_cons_self l' hu l hv, fun hmem => hpairs.2.1.1 u hmem l hv l' hu⟩

/-- **What a snapshot finds**: the value of the version with the greatest position it sees, and nothing
exactly if it sees none. -/
theorem findVisibleVersion_newest (h : Descends chain) (s : Snapshot) :
    (∀ value, chain.findVisibleVersion s = some value ↔
        ∃ v ∈ chain, ∃ l, Sees s v l ∧ v.value = value ∧ ∀ u ∈ chain, ∀ l', Sees s u l' → l' ≤ l) ∧
      (chain.findVisibleVersion s = none ↔ ∀ v ∈ chain, ∀ l, ¬ Sees s v l) := by
  refine ⟨fun value => ?_, ?_⟩
  · rw [findVisibleVersion, Option.map_eq_some_iff]
    constructor
    · rintro ⟨v, hfind, rfl⟩
      obtain ⟨hvis, front, back, rfl, hfront⟩ := find?_eq_some_iff_append.mp hfind
      obtain ⟨l, hsees⟩ := visible_iff.mp hvis
      refine ⟨v, by simp, l, hsees, rfl, fun u hu l' hsees' => ?_⟩
      rcases mem_append.mp hu with hu | hu
      · -- what stands above is not seen
        have hunseen := hfront u hu
        rw [visible_iff.mpr ⟨l', hsees'⟩] at hunseen
        cases hunseen
      · rcases mem_cons.mp hu with rfl | hu
        · have hsame : l' = l := Option.some.inj (hsees'.1.symm.trans hsees.1)
          omega
        · exact ((h.lt hsees.1 hsees'.1).2 hu).le
    · rintro ⟨v, hv, l, hsees, hval, hgreatest⟩
      obtain ⟨front, back, rfl⟩ := append_of_mem hv
      refine ⟨v, find?_eq_some_iff_append.mpr ⟨visible_iff.mpr ⟨l, hsees⟩, front, back, rfl, ?_⟩, hval⟩
      intro u hu
      rw [Bool.not_eq_true', ← Bool.not_eq_true, visible_iff]
      rintro ⟨l', hsees'⟩
      have hlt := (h.lt hsees.1 hsees'.1).1 hu
      have hle := hgreatest u (by simp [hu]) l' hsees'
      omega
  · rw [findVisibleVersion, Option.map_eq_none_iff, find?_eq_none]
    simp [visible_iff, not_exists]

/-- Three versions, the newest not committed and the next by a transaction that was active. -/
theorem findVisibleVersion_newest_three : ∃ chain : VersionChain, Descends chain ∧
    (∃ v ∈ chain, ∃ l, Sees ⟨25, [7, 4]⟩ v l ∧ v.value = .inline [1] ∧
      ∀ u ∈ chain, ∀ l', Sees ⟨25, [7, 4]⟩ u l' → l' ≤ l) := by
  have hdescends : Descends [⟨.inline [3], 9, none⟩, ⟨.inline [2], 7, some 20⟩, ⟨.inline [1], 3, some 10⟩] := by
    simp [Descends]
  exact ⟨_, hdescends, ((findVisibleVersion_newest hdescends ⟨25, [7, 4]⟩).1 (.inline [1])).mp (by decide)⟩

end VersionChain

end NanoStore.Txn
