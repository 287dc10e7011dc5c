import NanoStore.Table.ArtNodes
/-!
# The adaptive radix tree — inserting and looking up

A lookup compares a prefix that is longer than the depth with the start of
the key, an insert compares it with the key from the depth on. Along a
path on which the two agree, inserting a key changes what is found under
no other key, except for the leaf that is split: its chain is replaced by
one uncommitted version of the inserting transaction.
-/

namespace NanoStore.Table

open Txn List

namespace ArtNode

/-- The depth at which a lookup enters the children of a node. -/
def childDepth (prefixLen depth : ℕ) : ℕ := (lookupSpan prefixLen depth).2

/-- Every inner node is a map, and no leaf is deeper in the tree than its key is long. -/
inductive Sound : ℕ → ArtNode → Prop
  | empty {depth : ℕ} : Sound depth .empty
  | leaf {depth : ℕ} {key : Bytes} {chain : VersionChain} (h : depth ≤ key.length) :
      Sound depth (.leaf key chain)
  | inner {depth : ℕ} {node : InnerNode} (hproper : node.Proper)
      (hkids : ∀ byte, Sound (childDepth node.nodePrefix.length depth) (node.findChild byte)) :
      Sound depth node.toNode

/-- The key has the prefix where a lookup reads it. -/
def Fits (nodePrefix key : Bytes) (depth : ℕ) : Prop :=
  childDepth nodePrefix.length depth ≤ key.length ∧
    (key.drop (lookupSpan nodePrefix.length depth).1).take nodePrefix.length = nodePrefix

variable {key k value : Bytes} {txId : TransactionId} {depth d lsn : ℕ} {node : InnerNode}
  {tree : ArtNode}

/-! ## Lookups -/

theorem lookupSpan_width (prefixLen : ℕ) :
    (lookupSpan prefixLen depth).2 - (lookupSpan prefixLen depth).1 = prefixLen := by
  unfold lookupSpan
  split_ifs
  · exact Nat.add_sub_cancel_left depth prefixLen
  · exact Nat.sub_zero prefixLen

instance : Decidable (Fits k key depth) := inferInstanceAs (Decidable (_ ∧ _))

theorem lookupRecursive_toNode :
    lookupRecursive key node.toNode depth =
      if Fits node.nodePrefix key depth then
        lookupRecursive key (node.findChild (branchByte key (childDepth node.nodePrefix.length depth)))
          (childDepth node.nodePrefix.length depth) else none := by
  rw [InnerNode.toNode, lookupRecursive]
  simp only [lookupSpan_width, min_self, take_length]
  by_cases hfits : Fits node.nodePrefix key depth
  · rw [if_pos hfits]
    refine (if_neg (not_or.mpr ⟨not_lt.mpr hfits.1, not_not.mpr hfits.2⟩)).trans ?_
    unfold InnerNode.findChild childDepth
    cases node.kind.slot node.count (branchByte key (lookupSpan node.nodePrefix.length depth).2) with
    | none | some i => rfl
  · rw [if_neg hfits]
    refine if_pos ?_
    by_contra hboth
    rw [not_or, not_lt, not_not] at hboth
    exact hfits hboth

theorem lookupRecursive_of_not_fits (h : ¬Fits node.nodePrefix key depth) :
    lookupRecursive key node.toNode depth = none := by
  rw [lookupRecursive_toNode, if_neg h]

theorem lookupRecursive_of_fits (h : Fits node.nodePrefix key depth) : lookupRecursive key node.toNode depth =
    lookupRecursive key (node.findChild (branchByte key (childDepth node.nodePrefix.length depth)))
      (childDepth node.nodePrefix.length depth) := by
  rw [lookupRecursive_toNode, if_pos h]

theorem lookupRecursive_congr
    (h : lookupSpan node.nodePrefix.length depth = lookupSpan node.nodePrefix.length d) :
    lookupRecursive key node.toNode depth = lookupRecursive key node.toNode d := by
  simp [InnerNode.toNode, lookupRecursive, h]

variable {node' : InnerNode}

theorem lookupRecursive_children (hskip : node'.nodePrefix = node.nodePrefix)
    (h : Fits node.nodePrefix key depth → lookupRecursive key
        (node'.findChild (branchByte key (childDepth node.nodePrefix.length depth)))
        (childDepth node.nodePrefix.length depth) =
      lookupRecursive key (node.findChild (branchByte key (childDepth node.nodePrefix.length depth)))
        (childDepth node.nodePrefix.length depth)) :
    lookupRecursive key node'.toNode depth = lookupRecursive key node.toNode depth := by
  by_cases hfits : Fits node.nodePrefix key depth
  · have hfits' : Fits node'.nodePrefix key depth := hskip.symm ▸ hfits
    rw [lookupRecursive_of_fits hfits, lookupRecursive_of_fits hfits', hskip]
    exact h hfits
  · have hfits' : ¬Fits node'.nodePrefix key depth := hskip.symm ▸ hfits
    rw [lookupRecursive_of_not_fits hfits, lookupRecursive_of_not_fits hfits']

/-! ## Copies -/

theorem cloneNode_toNode (h : node.Proper) : ∃ copy : InnerNode, node.toNode.cloneNode = copy.toNode ∧
    copy.nodePrefix = node.nodePrefix ∧ copy.Proper ∧
    ∀ byte, copy.findChild byte = (node.findChild byte).cloneNode := by
  obtain ⟨hcopy, hskip, hfind⟩ := h.copy (f := ArtNode.cloneNode) fun tree => by cases tree <;> rfl
  exact ⟨_, rfl, hskip, hcopy, hfind⟩

/-- **A copy is as sound as the tree and finds the same.** -/
theorem Sound.cloneNode (h : Sound depth tree) : Sound depth tree.cloneNode ∧
    ∀ key, lookupRecursive key tree.cloneNode depth = lookupRecursive key tree depth := by
  induction h with
  | empty => exact ⟨.empty, fun _ => rfl⟩
  | leaf h => exact ⟨.leaf h, fun _ => rfl⟩
  | @inner depth node hproper _ ih =>
    obtain ⟨copy, heq, hskip, hcopy, hfind⟩ := cloneNode_toNode hproper
    rw [heq]
    refine ⟨.inner hcopy fun byte => ?_, fun key => ?_⟩
    · rw [hfind byte, hskip]
      exact (ih byte).1
    · refine lookupRecursive_children hskip fun _ => ?_
      rw [hfind]
      exact (ih _).2 key

/-! ## Commits -/

theorem visits_of_slot {kind : ArtKind} {count i : ℕ} {byte : Byte} (h : kind.slot count byte = some i) :
    visits kind count i = true := by
  cases kind with
  | node4 keys | node16 keys => exact decide_eq_true (InnerNode.slot_listed h).1
  | node48 index =>
    rw [visits, decide_eq_true_iff]
    exact ⟨byte, h⟩
  | node256 => rfl

/-- The node a commit makes of a node. -/
def committed (txId : TransactionId) (lsn : ℕ) (node : InnerNode) : InnerNode :=
  { node with
    children := fun i =>
      if visits node.kind node.count i then commitAll txId lsn (node.children i) else node.children i }

variable (txId lsn node) in
theorem commitAll_toNode : commitAll txId lsn node.toNode = (committed txId lsn node).toNode := rfl

theorem findChild_committed (byte : Byte) :
    (committed txId lsn node).findChild byte = commitAll txId lsn (node.findChild byte) := by
  unfold InnerNode.findChild committed
  cases hslot : node.kind.slot node.count byte with
  | none => rfl
  | some i => exact if_pos (visits_of_slot hslot)

/-- **A commit stamps the chain every lookup finds.** -/
theorem Sound.commitAll (h : Sound depth tree) : Sound depth (commitAll txId lsn tree) ∧
    ∀ key, lookupRecursive key (ArtNode.commitAll txId lsn tree) depth =
      (lookupRecursive key tree depth).map (stampHead txId lsn) := by
  induction h with
  | empty => exact ⟨.empty, fun _ => rfl⟩
  | @leaf depth old chain h =>
    refine ⟨.leaf h, fun key => ?_⟩
    simp only [ArtNode.commitAll, lookupRecursive]
    split_ifs
    · rfl
    · rfl
  | @inner depth node hproper _ ih =>
    have hcomm : (committed txId lsn node).Proper := by
      refine hproper.of_isEmpty fun i => ?_
      split_ifs
      · cases node.children i <;> rfl
      · rfl
    rw [commitAll_toNode]
    refine ⟨.inner hcomm fun byte => ?_, fun key => ?_⟩
    · rw [findChild_committed]
      exact (ih byte).1
    · rw [lookupRecursive_toNode, lookupRecursive_toNode, findChild_committed]
      by_cases hfits : Fits node.nodePrefix key depth
      · rw [if_pos hfits]
        exact (if_pos hfits).trans ((ih _).2 key)
      · rw [if_neg hfits]
        exact if_neg hfits

/-! ## Common prefixes -/

theorem commonPrefix_cons (x y : Byte) (a b : Bytes) :
    commonPrefix (x :: a) (y :: b) = if x = y then commonPrefix a b + 1 else 0 := by
  unfold commonPrefix
  rw [zip_cons_cons, takeWhile_cons]
  by_cases h : x = y
  · simp [h]
  · simp [h]

theorem commonPrefix_spec (a b : Bytes) : commonPrefix a b ≤ a.length ∧ commonPrefix a b ≤ b.length ∧
    a.take (commonPrefix a b) = b.take (commonPrefix a b) := by
  induction a generalizing b with
  | nil => exact ⟨le_rfl, Nat.zero_le _, rfl⟩
  | cons x a ih =>
    cases b with
    | nil => exact ⟨Nat.zero_le _, le_rfl, rfl⟩
    | cons y b =>
      obtain ⟨hleft, hright, htake⟩ := ih b
      rw [commonPrefix_cons]
      split_ifs with h
      · rw [length_cons, length_cons, take_succ_cons, take_succ_cons, h, htake]
        exact ⟨by omega, by omega, rfl⟩
      · exact ⟨Nat.zero_le _, Nat.zero_le _, rfl⟩

variable {a b : Bytes}

theorem commonPrefix_lt (h : ¬a.isPrefixOf b = true) : commonPrefix a b < a.length := by
  obtain ⟨hleft, -, htake⟩ := commonPrefix_spec a b
  refine lt_of_le_of_ne hleft fun heq => h ?_
  refine isPrefixOf_iff_prefix.mpr ?_
  rw [prefix_iff_eq_take, ← heq, ← htake, heq, take_length]

/-! ## Inserts -/

/-- The insert of a key by a transaction goes well below a node: on its way a prefix is compared with the
part of the key a lookup compares it with; a leaf that is split has only uncommitted versions of the
transaction; a prefix is split at the root only; and what is split differs in the byte behind the common
prefix, the byte 0 standing for the end of a key. -/
def Clear (key : Bytes) (txId : TransactionId) : ArtNode → ℕ → Prop
  | .empty, _ => True
  | .leaf old chain, depth =>
    let common := commonPrefix (old.drop depth) (key.drop depth)
    old = key ∨ (depth = 0 ∨ common ≤ depth) ∧ (∀ v ∈ chain, v.createdBy = txId ∧ v.commitLsn = none) ∧
      branchByte old (depth + common) ≠ branchByte key (depth + common)
  | .inner nodePrefix kind count children, depth =>
    let common := commonPrefix nodePrefix (key.drop depth)
    if nodePrefix.isPrefixOf (key.drop depth) then
      (depth = 0 ∨ nodePrefix.length ≤ depth) ∧
        ∀ i ∈ kind.slot count (branchByte key (depth + nodePrefix.length)),
          Clear key txId (children i) (depth + nodePrefix.length)
    else depth = 0 ∧ branchByte nodePrefix common ≠ branchByte key (depth + common)

/-- What an insert by a transaction may make of the chain of another key: nothing, or its newest value if
it has only uncommitted versions of the transaction. -/
def Kept (txId : TransactionId) (before after : Option VersionChain) : Prop :=
  after = before ∨ ∃ chain, before = some chain ∧ (∀ v ∈ chain, v.createdBy = txId ∧ v.commitLsn = none) ∧
    after = some [.new (newestInline chain) txId]

/-- The key is inserted: its chain has one more version, and all others are kept. -/
structure Inserted (key value : Bytes) (txId : TransactionId) (depth : ℕ) (tree tree' : ArtNode) : Prop where
  sound : Sound depth tree'
  isEmpty : tree'.isEmpty = false
  self : lookupRecursive key tree' depth =
    some (.new value txId :: (lookupRecursive key tree depth).getD [])
  other : ∀ k, k ≠ key → Kept txId (lookupRecursive k tree depth) (lookupRecursive k tree' depth)

/-- Where the prefix is not longer than the depth, and at the root, a lookup reads the key from the depth
on. -/
theorem lookupSpan_eq {prefixLen : ℕ} (h : depth = 0 ∨ prefixLen ≤ depth) :
    lookupSpan prefixLen depth = (depth, depth + prefixLen) := by
  unfold lookupSpan
  split_ifs with hle
  · rfl
  · have hzero : depth = 0 := by omega
    rw [hzero, Nat.zero_add]

variable {chain : VersionChain} {old : Bytes}

theorem lookupRecursive_leaf_of_ne (h : k ≠ old) :
    lookupRecursive k (.leaf old chain) depth = none := if_neg (Ne.symm h)

theorem lookupRecursive_leaf :
    lookupRecursive old (.leaf old chain) depth = some chain := if_pos rfl

theorem inserted_empty (h : depth ≤ key.length) :
    Inserted key value txId depth .empty (newLeaf key value txId) :=
  ⟨.leaf h, rfl, lookupRecursive_leaf, fun _ hk => .inl (lookupRecursive_leaf_of_ne hk)⟩

/-- **An insert below one child is an insert below the node.** -/
theorem Inserted.inner {child : ArtNode}
    (hkids : ∀ byte, Sound (childDepth node.nodePrefix.length depth) (node.findChild byte))
    (hfits : Fits node.nodePrefix key depth)
    (hkid : Inserted key value txId (childDepth node.nodePrefix.length depth)
      (node.findChild (branchByte key (childDepth node.nodePrefix.length depth))) child)
    (hadded : InnerNode.Added node (branchByte key (childDepth node.nodePrefix.length depth)) child node') :
    Inserted key value txId depth node.toNode node'.toNode := by
  have hfits' : Fits node'.nodePrefix key depth := hadded.nodePrefix.symm ▸ hfits
  refine ⟨.inner hadded.proper fun byte => ?_, rfl, ?_, fun k hk => ?_⟩
  · rw [hadded.nodePrefix, hadded.findChild]
    split_ifs
    · exact hkid.sound
    · exact hkids byte
  · rw [lookupRecursive_of_fits hfits', lookupRecursive_of_fits hfits, hadded.nodePrefix,
      hadded.findChild, if_pos rfl]
    exact hkid.self
  · by_cases hk' : Fits node.nodePrefix k depth
    · have hk'' : Fits node'.nodePrefix k depth := hadded.nodePrefix.symm ▸ hk'
      rw [lookupRecursive_of_fits hk', lookupRecursive_of_fits hk'', hadded.nodePrefix, hadded.findChild]
      split_ifs with hbyte
      · rw [hbyte]
        exact hkid.other k hk
      · exact .inl rfl
    · have hk'' : ¬Fits node'.nodePrefix k depth := hadded.nodePrefix.symm ▸ hk'
      rw [lookupRecursive_of_not_fits hk', lookupRecursive_of_not_fits hk'']
      exact .inl rfl

theorem fits_take {common : ℕ} (hdepth : depth ≤ a.length)
    (hcommon : common ≤ (a.drop depth).length) (htake : (a.drop depth).take common = (b.drop depth).take common)
    (hlen : ((b.drop depth).take common).length = common) (hspan : depth = 0 ∨ common ≤ depth) :
    Fits ((b.drop depth).take common) a depth ∧
      childDepth ((b.drop depth).take common).length depth = depth + common := by
  have hread := lookupSpan_eq hspan
  unfold Fits childDepth
  rw [hlen, hread]
  rw [length_drop] at hcommon
  exact ⟨⟨by omega, htake⟩, rfl⟩

/-- **A new node over the new leaf and a tree that has the other keys.** -/
theorem inserted_fork {skip : Bytes} {byte : Byte} {rest : ArtNode} (hfits : Fits skip key depth)
    (hd : childDepth skip.length depth = d) (hbyte : byte ≠ branchByte key d) (hrest : rest.isEmpty = false)
    (hsound : Sound d rest) (hnone : lookupRecursive key tree depth = none)
    (hother : ∀ k, k ≠ key → Kept txId (lookupRecursive k tree depth)
      (if Fits skip k depth ∧ branchByte k d = byte then lookupRecursive k rest d else none)) :
    Inserted key value txId depth tree (((InnerNode.new skip (.node4 fun _ => 0)).add byte rest).add
      (branchByte key d) (newLeaf key value txId)).toNode := by
  obtain ⟨hproper, hskip, hfind⟩ := InnerNode.fork hbyte hrest
    (rfl : (newLeaf key value txId).isEmpty = false)
  generalize ((InnerNode.new skip (.node4 fun _ => 0)).add byte rest).add
    (branchByte key d) (newLeaf key value txId) = node at *
  subst hskip
  refine ⟨.inner hproper fun byte => ?_, rfl, ?_, fun k hk => ?_⟩
  · rw [hd, hfind]
    split_ifs
    · exact .leaf (hd ▸ hfits.1)
    · exact hsound
    · exact .empty
  · rw [lookupRecursive_of_fits hfits, hd, hfind, if_pos rfl, hnone]
    exact lookupRecursive_leaf
  · have hlook : lookupRecursive k node.toNode depth =
        if Fits node.nodePrefix k depth ∧ branchByte k d = byte then lookupRecursive k rest d else none := by
      rw [lookupRecursive_toNode, hd, hfind, ite_and]
      split_ifs with _ hkey hrest
      · exact absurd (hrest.symm.trans hkey) hbyte
      · exact lookupRecursive_leaf_of_ne hk
      · rfl
      · rfl
      · rfl
    rw [hlook]
    exact hother k hk

/-- **A leaf is split.** Both keys are found, and of the old one its newest value. -/
theorem inserted_splitLeaf (hold : depth ≤ old.length) (hkey : depth ≤ key.length) (hne : old ≠ key)
    (hspan : depth = 0 ∨ commonPrefix (old.drop depth) (key.drop depth) ≤ depth)
    (hopen : ∀ v ∈ chain, v.createdBy = txId ∧ v.commitLsn = none)
    (hbytes : branchByte old (depth + commonPrefix (old.drop depth) (key.drop depth)) ≠
      branchByte key (depth + commonPrefix (old.drop depth) (key.drop depth))) :
    Inserted key value txId depth (.leaf old chain) (splitLeaf old chain key value txId depth).toNode := by
  obtain ⟨hleft, hright, htake⟩ := commonPrefix_spec (old.drop depth) (key.drop depth)
  unfold splitLeaf
  generalize commonPrefix (old.drop depth) (key.drop depth) = common at *
  have hlen : ((key.drop depth).take common).length = common := by
    rw [length_take]
    omega
  obtain ⟨hfitsOld, hkid⟩ := fits_take hold hleft htake hlen hspan
  obtain ⟨hfitsKey, -⟩ := fits_take hkey hright rfl hlen hspan
  rw [length_drop] at hleft
  refine inserted_fork hfitsKey hkid hbytes rfl (.leaf (by omega)) (lookupRecursive_leaf_of_ne hne.symm)
    fun k hk => ?_
  by_cases hk' : k = old
  · subst hk'
    rw [if_pos ⟨hfitsOld, rfl⟩]
    exact .inr ⟨chain, lookupRecursive_leaf, hopen, lookupRecursive_leaf⟩
  · rw [newLeaf, lookupRecursive_leaf_of_ne hk', lookupRecursive_leaf_of_ne hk', ite_self]
    exact .inl rfl

theorem fits_zero_iff {nodePrefix : Bytes} : Fits nodePrefix k 0 ↔ nodePrefix <+: k := by
  unfold Fits childDepth
  rw [lookupSpan_eq (.inl rfl), Nat.zero_add, drop_zero, prefix_iff_eq_take]
  constructor
  · rintro ⟨-, htake⟩
    exact htake.symm
  · intro htake
    have hlen := congrArg List.length htake
    rw [length_take] at hlen
    exact ⟨by omega, htake.symm⟩

/-- **A prefix is split at the root.** The copy of the node keeps the whole prefix, which a lookup compares
with the start of the key still. -/
theorem inserted_splitPrefix (hproper : node.Proper)
    (hkids : ∀ byte, Sound (childDepth node.nodePrefix.length 0) (node.findChild byte))
    (hmiss : ¬node.nodePrefix.isPrefixOf key = true)
    (hbytes : branchByte node.nodePrefix (commonPrefix node.nodePrefix key) ≠
      branchByte key (commonPrefix node.nodePrefix key)) :
    Inserted key value txId 0 node.toNode (splitPrefix node key value txId 0).toNode := by
  have hlt := commonPrefix_lt hmiss
  obtain ⟨hleft, hright, htake⟩ := commonPrefix_spec node.nodePrefix key
  generalize hcommon : commonPrefix node.nodePrefix key = common at *
  obtain ⟨copy, hcopy, hcopyPrefix, hcopyProper, hcopyFind⟩ := cloneNode_toNode hproper
  obtain ⟨-, hclone⟩ := (Sound.inner hproper hkids).cloneNode
  rw [hcopy] at hclone
  have hspan : lookupSpan copy.nodePrefix.length common = lookupSpan copy.nodePrefix.length 0 := by
    rw [hcopyPrefix]
    unfold lookupSpan
    rw [if_neg (by omega), if_neg (by omega)]
  have hkid : childDepth (key.take common).length 0 = common := by
    unfold childDepth
    rw [length_take, min_eq_left hright, lookupSpan_eq (.inl rfl), Nat.zero_add]
  have hcopySound : Sound common copy.toNode := by
    refine .inner hcopyProper fun byte => ?_
    have hsame : childDepth copy.nodePrefix.length common = childDepth node.nodePrefix.length 0 := by
      unfold childDepth
      rw [hspan, hcopyPrefix]
    rw [hsame, hcopyFind]
    exact (hkids byte).cloneNode.1
  have hnone : lookupRecursive key node.toNode 0 = none := by
    refine lookupRecursive_of_not_fits fun hfits => hmiss ?_
    exact isPrefixOf_iff_prefix.mpr (fits_zero_iff.mp hfits)
  simp only [splitPrefix, drop_zero, hcommon, hcopy, Nat.zero_add]
  have hcut := take_prefix common key
  refine inserted_fork (fits_zero_iff.mpr hcut) hkid hbytes rfl hcopySound hnone
    fun k hk => .inl ?_
  -- a lookup that comes to the copy reads the whole prefix from the start of the key again
  rw [lookupRecursive_congr hspan, hclone]
  by_cases hfits : Fits node.nodePrefix k 0
  · have hk' := fits_zero_iff.mp hfits
    have hfits' : Fits (key.take common) k 0 := by
      rw [fits_zero_iff, ← htake]
      exact ( take_prefix common _).trans hk'
    have hbyte : branchByte k common = branchByte node.nodePrefix common := by
      obtain ⟨rest, rfl⟩ := hk'
      unfold branchByte
      rw [getElem?_append_left hlt]
    rw [if_pos ⟨hfits', hbyte⟩]
  · rw [lookupRecursive_of_not_fits hfits, ite_self]

/-- **A key is inserted where the way is clear.** -/
theorem Sound.insert (h : Sound depth tree) (hdepth : depth ≤ key.length)
    (hclear : Clear key txId tree depth) : ∃ tree', insertRecursive key value txId tree depth = some tree' ∧
      Inserted key value txId depth tree tree' := by
  induction h with
  | empty => exact ⟨_, rfl, inserted_empty hdepth⟩
  | @leaf depth old chain hold =>
    by_cases hkey : old = key
    · subst hkey
      refine ⟨_, if_pos rfl, .leaf hold, rfl, ?_, fun k hk => .inl ?_⟩
      · rw [lookupRecursive_leaf, lookupRecursive_leaf, Option.getD_some]
      · rw [lookupRecursive_leaf_of_ne hk, lookupRecursive_leaf_of_ne hk]
    · rcases hclear with heq | ⟨hspan, hopen, hbytes⟩
      · exact absurd heq hkey
      · refine ⟨_, (if_neg hkey).trans (if_neg (not_lt.mpr hold)), ?_⟩
        exact inserted_splitLeaf hold hdepth hkey hspan hopen hbytes
  | @inner depth node hproper hkids ih =>
    rw [InnerNode.toNode, Clear] at hclear
    by_cases hskip : node.nodePrefix.isPrefixOf (key.drop depth) = true
    · rw [if_pos hskip] at hclear
      obtain ⟨hspan, hbelow⟩ := hclear
      have hkid : childDepth node.nodePrefix.length depth = depth + node.nodePrefix.length := by
        unfold childDepth
        rw [lookupSpan_eq hspan]
      have hskip' := isPrefixOf_iff_prefix.mp hskip
      have hlen := hskip'.length_le
      rw [length_drop] at hlen
      have hfits : Fits node.nodePrefix key depth := by
        unfold Fits
        rw [hkid, lookupSpan_eq hspan]
        exact ⟨by omega, (prefix_iff_eq_take.mp hskip').symm⟩
      have hdeep : childDepth node.nodePrefix.length depth ≤ key.length := hfits.1
      rw [← hkid] at hbelow
      simp only [InnerNode.toNode, insertRecursive, if_pos hskip, ← hkid]
      -- a byte without a child gets a leaf
      have hput : node.findChild (branchByte key (childDepth node.nodePrefix.length depth)) = .empty →
          Inserted key value txId depth node.toNode
            (node.put (branchByte key (childDepth node.nodePrefix.length depth))
              (newLeaf key value txId)).toNode := by
        intro hfree
        have hadded := hproper.put hfree (rfl : (newLeaf key value txId).isEmpty = false)
        refine Inserted.inner hkids hfits ?_ hadded
        rw [hfree]
        exact inserted_empty hdeep
      cases hslot : node.kind.slot node.count (branchByte key (childDepth node.nodePrefix.length depth)) with
      | none => exact ⟨_, rfl, hput (InnerNode.findChild_of_none hslot)⟩
      | some i =>
        have hfound := InnerNode.findChild_of_slot hslot
        by_cases hemp : (node.children i).isEmpty = true
        · have hfree := hfound.trans (isEmpty_iff.mp hemp)
          exact ⟨_, if_pos hemp, hput hfree⟩
        · have hclear' : Clear key txId
              (node.findChild (branchByte key (childDepth node.nodePrefix.length depth)))
              (childDepth node.nodePrefix.length depth) := hfound.symm ▸ hbelow i hslot
          obtain ⟨child, hsome, hinserted⟩ := ih _ hdeep hclear'
          obtain ⟨hproper', hfind⟩ := hproper.replace hslot (by simpa using hemp) hinserted.isEmpty
          rw [hfound] at hsome
          refine ⟨_, (if_neg hemp).trans (by rw [hsome]; rfl), ?_⟩
          exact Inserted.inner hkids hfits hinserted ⟨hproper', rfl, hfind⟩
    · rw [if_neg hskip] at hclear
      obtain ⟨rfl, hbytes⟩ := hclear
      rw [drop_zero, Nat.zero_add] at hbytes
      have hmiss := hskip
      rw [drop_zero] at hmiss
      have hins : insertRecursive key value txId node.toNode 0 =
          some (splitPrefix node key value txId 0).toNode := by
        rw [InnerNode.toNode, insertRecursive]
        exact if_neg hskip
      exact ⟨_, hins, inserted_splitPrefix hproper hkids hmiss hbytes⟩

end ArtNode

end NanoStore.Table
