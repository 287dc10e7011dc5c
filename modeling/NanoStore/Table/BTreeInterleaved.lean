import NanoStore.Table.BTreeConcurrent
import NanoStore.Table.BTreeVacuum
/-!
# The paged B-tree — interleaved inserts

Inserts interleave without harm as long as each writes its leaf with the
tree as it was when it came down: no other insert is in the middle of a
split, and the way from the root to the leaf is the way it took. The code
sees to neither. What an insert has read then is what it writes over, and
a split that is under way leaves, once it is done, the tree that
`insertInternal` leaves in one go.
-/

namespace NanoStore.Table

open Wal Steps Txn Function

/-! ## A split run alone -/

namespace PageFile

/-- `split_and_propagate` after the two halves are written. -/
def afterSplit (cfg : BTreeConfig) (root : PageId) (path : List PageId) (file : PageFile)
    (page right : PageId) (median : Key) : Outcome PageFile TreeError PageId :=
  if page = root then
    let (file, newRoot) := file.allocatePage
    let file := file.writeNode newRoot (.internal [⟨median, page⟩] right)
    (file.setRootBtreePage newRoot, .ok newRoot)
  else
    match path with
    | [] =>
      (file, .error (.corruption "PagedBTree::split_child" "missing_parent"
        "No parent found for non-root split"))
    | parent :: path =>
      match file.readNode parent with
      | .error e => (file, .error e)
      | .ok (.leaf _ _) => (file, .ok root)
      | .ok (.internal entries rightmostChild) =>
        match insertChild page right median entries rightmostChild with
        | none =>
          (file, .error (.corruption "PagedBTree::merge_or_redistribute" "missing_child"
            s!"Could not find left_child PageId({page}) in parent PageId({parent})"))
        | some node =>
          let file := file.writeNode parent node
          if node.overfull cfg then splitAndPropagate cfg root path file parent node
          else (file, .ok root)

theorem splitAndPropagate_eq (cfg : BTreeConfig) (root : PageId) (path : List PageId) (file : PageFile)
    (page : PageId) (node : BTreeNode) : splitAndPropagate cfg root path file page node =
      match node.halves file.nextPage with
      | none => (file, .error .panicked)
      | some (left, rightNode, median) =>
        afterSplit cfg root path
          ((file.allocatePage.1.writeNode page left).writeNode file.nextPage rightNode) page
          file.nextPage median := by
  have hsplit : file.splitNode page node =
      match node.halves file.nextPage with
      | none => (file, .error .panicked)
      | some (left, rightNode, median) =>
        ((file.allocatePage.1.writeNode page left).writeNode file.nextPage rightNode,
          .ok (file.nextPage, median)) := by
    cases node with
    | internal entries rightmostChild | leaf entries nextLeaf =>
      simp only [splitNode, BTreeNode.halves]
      cases entries[entries.length / 2]? <;> rfl
  rw [splitAndPropagate.eq_def, hsplit]
  cases node.halves file.nextPage with
  | none => rfl
  | some halves =>
    simp only [andThen_ok]
    cases path <;> rfl

end PageFile

open PageFile

namespace Split

/-- What is left of the split, done in one go: the pages and the root it leaves. -/
def alone (cfg : BTreeConfig) (root : PageId) (file : PageFile) : Split → Outcome PageFile TreeError PageId
  | .start page node _ path | .allocate _ page node _ path => splitAndPropagate cfg root path file page node
  | .writeLeft _ page left _ right rightNode median path =>
    afterSplit cfg root path ((file.writeNode page left).writeNode right rightNode) page right median
  | .writeRight _ page right rightNode median path =>
    afterSplit cfg root path (file.writeNode right rightNode) page right median
  | .allocateRoot page right median => afterSplit cfg root [] file page right median
  | .writeRoot page right newRoot median =>
    ((file.writeNode newRoot (.internal [⟨median, page⟩] right)).setRootBtreePage newRoot, .ok newRoot)
  | .setRoot newRoot => (file.setRootBtreePage newRoot, .ok newRoot)
  | .readParent page right median parent path =>
    afterSplit cfg root (parent :: path) file page right median
  | .writeParent parent node _ path =>
    let file := file.writeNode parent node
    if node.overfull cfg then splitAndPropagate cfg root path file parent node
    else (file, .ok root)

/-- What the split knows of the root is so. -/
def Agrees (root : PageId) : Split → Prop
  | .allocate isRoot page _ _ _ | .writeLeft isRoot page _ _ _ _ _ _ | .writeRight isRoot page _ _ _ _ =>
    isRoot = decide (page = root)
  | .allocateRoot page _ _ => page = root
  | .readParent page _ _ _ _ => page ≠ root
  | _ => True

end Split

variable {ι : Type} {tree : SharedTree ι} {split : Split}

/-- After an access of a split: the whole of it is what is left to be done, or it is done. -/
def SharedTree.Remains (cfg : BTreeConfig) (whole : Outcome PageFile TreeError PageId) :
    SharedTree ι × (Split ⊕ Except TreeError Unit) → Prop
  | (tree, .inl split) => split.Agrees tree.root ∧ split.alone cfg tree.root tree.file = whole
  | (tree, .inr result) => whole = (tree.file, result.map fun _ => tree.root)

/-- **One access of a split**, and the rest is still to be done. -/
theorem SharedTree.stepSplit_remains (cfg : BTreeConfig) (h : split.Agrees tree.root) :
    SharedTree.Remains cfg (split.alone cfg tree.root tree.file) (tree.stepSplit cfg split) := by
  cases split with
  | start page node version path => exact ⟨rfl, rfl⟩
  | allocate isRoot page node version path =>
    simp only [stepSplit, Split.alone, splitAndPropagate_eq]
    cases hhalves : node.halves tree.file.allocatePage.2 with
    | none =>
      have hnone : node.halves tree.file.nextPage = none := hhalves
      simp only [hnone]
      rfl
    | some halves =>
      have hsome : node.halves tree.file.nextPage = some halves := hhalves
      simp only [hsome]
      exact ⟨h, rfl⟩
  | writeLeft isRoot page left version right rightNode median path => exact ⟨h, rfl⟩
  | writeRight isRoot page right rightNode median path =>
    have hroot : isRoot = decide (page = tree.root) := h
    simp only [stepSplit, Split.alone]
    by_cases hpage : page = tree.root
    · have hiff : isRoot = true := by simp [hroot, hpage]
      rw [if_pos hiff]
      refine ⟨hpage, ?_⟩
      simp [Split.alone, afterSplit, writeNode, hpage]
    · have hiff : ¬ isRoot = true := by simp [hroot, hpage]
      rw [if_neg hiff]
      cases path with
      | nil => simp [Remains, afterSplit, hpage, writeNode, Except.map]
      | cons parent path => exact ⟨hpage, rfl⟩
  | allocateRoot page right median =>
    have hpage : page = tree.root := h
    refine ⟨trivial, ?_⟩
    simp only [Split.alone, afterSplit, hpage, if_true, withFile]
    rfl
  | writeRoot page right newRoot median => exact ⟨trivial, rfl⟩
  | setRoot newRoot => rfl
  | readParent page right median parent path =>
    have hpage : page ≠ tree.root := h
    simp only [stepSplit, Split.alone, afterSplit, if_neg hpage]
    cases hpar : tree.file.readNode parent with
    | error e => rfl
    | ok node =>
      cases node with
      | leaf entries nextLeaf => rfl
      | internal entries rightmostChild =>
        simp only []
        cases hkid : insertChild page right median entries rightmostChild with
        | none => rfl
        | some node => exact ⟨trivial, rfl⟩
  | writeParent parent node version path =>
    simp only [stepSplit, Split.alone]
    by_cases hfull : node.overfull cfg = true
    · simp only [if_pos hfull]
      exact ⟨trivial, rfl⟩
    · simp only [if_neg hfull]
      rfl

/-! ## The pages a split writes -/

def BTreeNode.isLeaf : BTreeNode → Bool
  | .internal _ _ => false
  | .leaf _ _ => true

namespace PageFile

/-- Whether a page holds a leaf or an internal node, if it holds one. -/
def kind (file : PageFile) (page : PageId) : Option Bool := (file.pages page).map BTreeNode.isLeaf

/-- Pages that are not allocated hold nothing. -/
def Blank (file : PageFile) : Prop := ∀ page, file.nextPage ≤ page → file.pages page = none

variable {file : PageFile} {page p : PageId} {node : BTreeNode} {isLeaf : Bool}

theorem kind_eq_some (h : file.pages page = some node) : file.kind page = some node.isLeaf := by
  rw [kind, h, Option.map_some]

theorem kind_writeNode : (file.writeNode page node).kind p =
    if p = page then some node.isLeaf else file.kind p := by
  simp only [kind, writeNode]
  by_cases hp : p = page
  · rw [if_pos hp, hp, update_self, Option.map_some]
  · rw [if_neg hp, update_of_ne hp]

theorem Blank.lt (h : file.Blank) (hpage : file.kind page = some isLeaf) : page < file.nextPage := by
  by_contra hle
  rw [kind, h page (Nat.le_of_not_lt hle)] at hpage
  cases hpage

theorem Blank.writeNode (h : file.Blank) (hpage : page < file.nextPage) :
    (file.writeNode page node).Blank := by
  intro p hp
  have hne : p ≠ page := (hpage.trans_le hp).ne'
  simp only [PageFile.writeNode, update_of_ne hne]
  exact h p hp

theorem Blank.allocatePage (h : file.Blank) : file.allocatePage.1.Blank := by
  intro p hp
  exact h p (Nat.le_of_succ_le hp)

end PageFile

variable {node : BTreeNode} {right : PageId} {key : Key}

/-- Where the pages of a split are: the pages above are internal, and the one it writes is of the kind
it is to have, or allocated and blank. A leaf that it writes over is its own. -/
def Split.Sited (file : PageFile) (leaf : PageId) : Split → Prop
  | .start page node _ path | .allocate _ page node _ path => file.kind page = some node.isLeaf ∧
      (node.isLeaf = true → page = leaf) ∧ ∀ p ∈ path, file.kind p = some false
  | .writeLeft _ page left _ right _ _ path => file.kind page = some left.isLeaf ∧
      (left.isLeaf = true → page = leaf) ∧ (file.kind right = none ∧ right < file.nextPage) ∧
      ∀ p ∈ path, file.kind p = some false
  | .writeRight _ _ right _ _ path => (file.kind right = none ∧ right < file.nextPage) ∧
      ∀ p ∈ path, file.kind p = some false
  | .writeRoot _ _ newRoot _ => file.kind newRoot = none ∧ newRoot < file.nextPage
  | .allocateRoot _ _ _ | .setRoot _ => True
  | .readParent _ _ _ parent path => file.kind parent = some false ∧ ∀ p ∈ path, file.kind p = some false
  | .writeParent parent node _ path => file.kind parent = some false ∧ node.isLeaf = false ∧
      ∀ p ∈ path, file.kind p = some false

/-- The pages after an access of a split: those not allocated are blank, what it does next is sited,
and the leaves of others are as before. -/
structure SharedTree.Keeps {ι : Type} (file : PageFile) (leaf : PageId)
    (after : SharedTree ι × (Split ⊕ Except TreeError Unit)) : Prop where
  blank : after.1.file.Blank
  sited : ∀ split, after.2 = .inl split → split.Sited after.1.file leaf
  leaves : ∀ page, page ≠ leaf → file.kind page = some true → after.1.file.pages page = file.pages page

variable {leaf page p : PageId} {file : PageFile}

/-- The page can be written: it is internal and stays so, or the leaf of the split, or blank. -/
def PageFile.Writable (file : PageFile) (leaf page : PageId) (node : BTreeNode) : Prop :=
  (file.kind page = some node.isLeaf ∧ (node.isLeaf = true → page = leaf)) ∨
    (file.kind page = none ∧ page < file.nextPage)

section

variable (h : file.Writable leaf page node)
include h

theorem PageFile.Writable.kinds {isLeaf : Bool}
    (hp : file.kind p = some isLeaf) : (file.writeNode page node).kind p = some isLeaf := by
  rw [kind_writeNode]
  by_cases hpage : p = page
  · subst hpage
    rw [if_pos rfl]
    rcases h with ⟨hsame, -⟩ | ⟨hnone, -⟩
    · exact hsame.symm.trans hp
    · rw [hnone] at hp
      cases hp
  · rw [if_neg hpage, hp]

theorem PageFile.Writable.blank (hblank : file.Blank) :
    (file.writeNode page node).Blank :=
  hblank.writeNode (h.elim (fun hkind => hblank.lt hkind.1) And.right)

theorem PageFile.Writable.leaves (hne : p ≠ leaf)
    (hp : file.kind p = some true) : (file.writeNode page node).pages p = file.pages p := by
  have hpage : p ≠ page := by
    rintro rfl
    rcases h with ⟨hkind, hown⟩ | ⟨hnone, -⟩
    · rw [hp, Option.some.injEq] at hkind
      exact hne (hown hkind.symm)
    · rw [hnone] at hp
      cases hp
  simp [writeNode, update_of_ne hpage]

end

/-- **One access of a split** writes over no leaf but its own. -/
theorem SharedTree.stepSplit_keeps (cfg : BTreeConfig) (hblank : tree.file.Blank) (h : split.Sited tree.file leaf) :
    SharedTree.Keeps tree.file leaf (tree.stepSplit cfg split) := by
  have hnew : tree.file.kind tree.file.nextPage = none := by
    rw [kind, hblank _ le_rfl, Option.map_none]
  cases split with
  | start page node version path =>
    exact ⟨hblank, fun _ hnext => by cases hnext; exact h, fun _ _ _ => rfl⟩
  | allocate isRoot page node version path =>
    obtain ⟨hkind, hown, hpath⟩ := h
    simp only [stepSplit]
    cases hhalves : node.halves tree.file.allocatePage.2 with
    | none => exact ⟨hblank, fun _ hnext => (by cases hnext), fun _ _ _ => rfl⟩
    | some halves =>
      obtain ⟨left, rightNode, median⟩ := halves
      have hleft : left.isLeaf = node.isLeaf := by
        cases node with
        | internal entries rightmostChild | leaf entries nextLeaf =>
          obtain ⟨m, -, hm⟩ := Option.map_eq_some_iff.mp hhalves
          cases hm
          rfl
      refine ⟨hblank.allocatePage, fun _ hnext => ?_, fun _ _ _ => rfl⟩
      cases hnext
      exact ⟨hleft ▸ hkind, hleft ▸ hown, ⟨hnew, Nat.lt_succ_self _⟩, hpath⟩
  | writeLeft isRoot page left version right rightNode median path =>
    obtain ⟨hkind, hown, ⟨hright, hlt⟩, hpath⟩ := h
    have hwrite : tree.file.Writable leaf page left := .inl ⟨hkind, hown⟩
    refine ⟨hwrite.blank hblank, fun _ hnext => ?_, fun p hne hp => hwrite.leaves hne hp⟩
    cases hnext
    have hne : right ≠ page := by
      rintro rfl
      rw [hright] at hkind
      cases hkind
    refine ⟨⟨?_, hlt⟩, fun p hp => hwrite.kinds (hpath p hp)⟩
    exact kind_writeNode.trans ((if_neg hne).trans hright)
  | writeRight isRoot page right rightNode median path =>
    obtain ⟨hright, hpath⟩ := h
    have hwrite : tree.file.Writable leaf right rightNode := .inr hright
    refine ⟨hwrite.blank hblank, fun next hnext => ?_, fun p hne hp => hwrite.leaves hne hp⟩
    have hpath' : ∀ p ∈ path, (tree.file.writeNode right rightNode).kind p = some false :=
      fun p hp => hwrite.kinds (hpath p hp)
    simp only [stepSplit] at hnext
    split at hnext
    · cases hnext
      trivial
    · cases path with
      | nil => cases hnext
      | cons parent path =>
        cases hnext
        exact ⟨hpath' parent List.mem_cons_self, fun p hp => hpath' p (List.mem_cons_of_mem _ hp)⟩
  | allocateRoot page right median =>
    refine ⟨hblank.allocatePage, fun _ hnext => ?_, fun _ _ _ => rfl⟩
    cases hnext
    exact ⟨hnew, Nat.lt_succ_self _⟩
  | writeRoot page right newRoot median =>
    have hwrite : tree.file.Writable leaf newRoot (.internal [⟨median, page⟩] right) := .inr h
    refine ⟨hwrite.blank hblank, fun _ hnext => ?_, fun p hne hp => hwrite.leaves hne hp⟩
    cases hnext
    trivial
  | setRoot newRoot => exact ⟨hblank, fun _ hnext => (by cases hnext), fun _ _ _ => rfl⟩
  | readParent page right median parent path =>
    obtain ⟨hpar, hpath⟩ := h
    refine ⟨hblank, fun next hnext => ?_, fun _ _ _ => rfl⟩
    simp only [stepSplit] at hnext
    split at hnext
    · cases hnext
    · cases hnext
    · split at hnext
      · cases hnext
      · rename_i hkid
        cases hnext
        refine ⟨hpar, ?_, hpath⟩
        rw [insertChild] at hkid
        split at hkid
        · cases hkid
          rfl
        · obtain ⟨entries', -, rfl⟩ := Option.map_eq_some_iff.mp hkid
          rfl
  | writeParent parent node version path =>
    obtain ⟨hpar, hnode, hpath⟩ := h
    have hwrite : tree.file.Writable leaf parent node :=
      .inl ⟨hnode ▸ hpar, fun hleaf => by rw [hnode] at hleaf; cases hleaf⟩
    refine ⟨hwrite.blank hblank, fun next hnext => ?_, fun p hne hp => hwrite.leaves hne hp⟩
    simp only [stepSplit] at hnext
    split at hnext
    · cases hnext
      refine ⟨?_, fun hleaf => ?_, fun p hp => hwrite.kinds (hpath p hp)⟩
      · rw [hnode]
        exact hwrite.kinds hpar
      · rw [hnode] at hleaf
        cases hleaf
    · cases hnext

/-! ## Latches -/

namespace Phase

/-- The leaf whose latch the insert holds. -/
def holds : Phase → Option PageId
  | .validate leaf _ _ | .write leaf _ _ _ _ | .split leaf _ => some leaf
  | _ => none

/-- The insert is in the middle of a split. -/
def splitting : Phase → Bool
  | .split _ _ => true
  | _ => false

end Phase

theorem SharedTree.stepSplit_latches (cfg : BTreeConfig) (tree : SharedTree ι) (split : Split) :
    (tree.stepSplit cfg split).1.latches = tree.latches := by
  cases split with
  | allocate isRoot page node version path =>
    simp only [stepSplit]
    split <;> rfl
  | _ => rfl

/-- **What a step does with latches**: nothing, or it takes a free one, or releases its own. -/
def Insert.Latching (me : ι) (tree : SharedTree ι) (insert : Insert) (after : SharedTree ι × Insert) : Prop :=
  (after.1.latches = tree.latches ∧ after.2.phase.holds = insert.phase.holds) ∨
    (∃ leaf, tree.latches leaf = none ∧ after.1.latches = update tree.latches leaf (some me) ∧
      after.2.phase.holds = some leaf) ∨
    ∃ leaf, insert.phase.holds = some leaf ∧ after.1.latches = update tree.latches leaf none ∧
      after.2.phase.holds = none

theorem PageFile.searchFrom_pages {file : PageFile} {fuel : ℕ} {page : PageId}
    {path : List PageId} {found : PageFile.Found} (h : file.searchFrom key fuel page path = .ok found)
    (hpath : ∀ p ∈ path, file.kind p = some false) :
    file.pages found.page = some (.leaf found.entries found.nextLeaf) ∧
      ∀ p ∈ found.path, file.kind p = some false := by
  induction fuel generalizing page path with
  | zero => cases h
  | succ fuel ih =>
    rw [searchFrom, readNode] at h
    cases hpage : file.pages page with
    | none =>
      rw [hpage] at h
      cases h
    | some node =>
      rw [hpage] at h
      cases node with
      | leaf entries nextLeaf =>
        cases h
        exact ⟨hpage, hpath⟩
      | internal entries rightmostChild =>
        refine ih h fun p hp => ?_
        rcases List.mem_cons.mp hp with rfl | hp
        · exact kind_eq_some hpage
        · exact hpath p hp

/-! ## Steps that write nothing -/

/-- A phase that is neither a write nor a split nor a success. -/
def Phase.Plain : Phase → Prop
  | .write _ _ _ _ _ | .split _ _ | .returned (.ok _) => False
  | _ => True

namespace Insert

variable {cfg : BTreeConfig} {insert : Insert} {me : ι} {after : SharedTree ι × Insert}

/-- A step that writes nothing and does not end an insert well. What the insert is going to write over
it has just read. -/
structure Quiet (me : ι) (tree : SharedTree ι) (insert : Insert) (after : SharedTree ι × Insert) : Prop where
  latching : Latching me tree insert after
  file : after.1.file = tree.file
  root : after.1.root = tree.root
  key : after.2.key = insert.key
  splitting : after.2.phase.splitting = false
  reread : ∀ leaf path version entries nextLeaf, after.2.phase = .write leaf path version entries nextLeaf →
      tree.file.pages leaf = some (.leaf entries nextLeaf)
  returned : after.2.phase = .returned (.ok ()) → insert.phase = .returned (.ok ())

theorem Quiet.of_plain (hlatching : Latching me tree insert after) (hfile : after.1.file = tree.file)
    (hroot : after.1.root = tree.root) (hkey : after.2.key = insert.key) (hplain : after.2.phase.Plain) :
    Quiet me tree insert after where
  latching := hlatching
  file := hfile
  root := hroot
  key := hkey
  splitting := by
    cases hphase : after.2.phase <;> first | rfl | (rw [hphase] at hplain; exact hplain.elim)
  reread leaf path version entries nextLeaf hphase := by
    rw [hphase] at hplain
    exact hplain.elim
  returned hphase := by
    rw [hphase] at hplain
    exact hplain.elim

/-- A latch is given back, and the insert begins again or fails. -/
theorem quiet_retry {leaf : PageId} (hholds : insert.phase.holds = some leaf) {error : InsertError} :
    Quiet me tree insert (tree.release leaf, insert.retry error) := by
  rw [retry]
  split <;> exact .of_plain (.inr (.inr ⟨leaf, hholds, rfl, rfl⟩)) rfl rfl rfl trivial

/-- **Up to its write an insert only reads.** -/
theorem step_quiet (hwrite : ∀ leaf path version entries nextLeaf,
      insert.phase ≠ .write leaf path version entries nextLeaf)
    (hsplit : insert.phase.splitting = false) : Quiet me tree insert (insert.step cfg me tree) := by
  have hsame : ∀ {phase : Phase}, insert.phase.holds = phase.holds → phase.Plain →
      Quiet me tree insert (tree, insert.goTo phase) :=
    fun hholds hplain => .of_plain (.inl ⟨rfl, hholds.symm⟩) rfl rfl rfl hplain
  rw [step]
  cases hphase : insert.phase with
  | start => exact hsame (by rw [hphase]; rfl) trivial
  | search page path =>
    simp only []
    split <;> exact hsame (by rw [hphase]; rfl) trivial
  | latch leaf path =>
    simp only []
    cases hlatch : tree.latches leaf with
    | some other => exact .of_plain (.inl ⟨rfl, rfl⟩) rfl rfl rfl (by rw [hphase]; trivial)
    | none => exact .of_plain (.inr (.inl ⟨leaf, hlatch, rfl, rfl⟩)) rfl rfl rfl trivial
  | validate leaf path unchecked =>
    have hholds : insert.phase.holds = some leaf := by rw [hphase]; rfl
    have hfail : ∀ e : InsertError, Quiet me tree insert
        (tree.release leaf, insert.goTo (.returned (.error e))) :=
      fun e => .of_plain (.inr (.inr ⟨leaf, hholds, rfl, rfl⟩)) rfl rfl rfl trivial
    cases unchecked with
    | cons entry unchecked =>
      simp only []
      split
      · exact hfail _
      · split
        · exact quiet_retry hholds
        · exact hsame hholds trivial
    | nil =>
      simp only []
      split
      · exact hfail _
      · exact quiet_retry hholds
      · rename_i entries nextLeaf hread
        refine ⟨.inl ⟨rfl, hholds.symm⟩, rfl, rfl, rfl, rfl,
          fun leaf' path' version' entries' nextLeaf' heq => ?_, fun heq => by cases heq⟩
        cases heq
        rw [readNode] at hread
        split at hread
        · cases hread
          assumption
        · cases hread
  | write leaf path version entries nextLeaf => exact absurd hphase (hwrite _ _ _ _ _)
  | split leaf split =>
    rw [hphase] at hsplit
    cases hsplit
  | returned result =>
    refine ⟨.inl ⟨rfl, rfl⟩, rfl, rfl, rfl, hsplit, fun leaf path version entries nextLeaf heq => ?_, id⟩
    exact absurd heq (hwrite _ _ _ _ _)

end Insert

/-- A lookup finds the key. -/
def SharedTree.finds {ι : Type} (tree : SharedTree ι) (key : Key) : Bool :=
  match tree.file.searchWithPath tree.root key with
  | .ok found => (chainOn found.entries key).isSome
  | .error _ => false

namespace Inserts

variable {cfg : BTreeConfig} {sys : Inserts ι} {me : ι}

/-- Who holds a latch is entered as its holder. -/
def Latched (sys : Inserts ι) : Prop :=
  ∀ i leaf, (sys.inserts i).phase.holds = some leaf → sys.tree.latches leaf = some i

theorem Latched.ne (h : sys.Latched) {i j : ι} {leaf' : PageId} (hij : i ≠ j)
    (hi : (sys.inserts i).phase.holds = some leaf) (hj : (sys.inserts j).phase.holds = some leaf') :
    leaf ≠ leaf' := by
  rintro rfl
  have hsame := (h i leaf hi).symm.trans (h j leaf hj)
  exact hij (Option.some.inj hsame)

variable [DecidableEq ι]

theorem Latched.step (h : sys.Latched) {after : SharedTree ι × Insert}
    (hlatches : Insert.Latching me sys.tree (sys.inserts me) after) :
    Latched ⟨after.1, update sys.inserts me after.2⟩ := by
  intro i leaf hholds
  dsimp only at hholds ⊢
  by_cases hi : i = me
  · subst hi
    rw [update_self] at hholds
    rcases hlatches with ⟨hsame, hsame'⟩ | ⟨leaf', -, htaken, hholds'⟩ | ⟨leaf', -, -, hnone⟩
    · rw [hsame]
      exact h i leaf (hsame' ▸ hholds)
    · rw [hholds', Option.some.injEq] at hholds
      rw [htaken, hholds, update_self]
    · rw [hnone] at hholds
      cases hholds
  · -- the latch of another insert is neither free nor released by this one
    rw [update_of_ne hi] at hholds
    have hheld := h i leaf hholds
    rcases hlatches with ⟨hsame, -⟩ | ⟨leaf', hfree, htaken, -⟩ | ⟨leaf', hown, hrel, -⟩
    · rw [hsame, hheld]
    · have hne : leaf ≠ leaf' := by
        rintro rfl
        rw [hfree] at hheld
        cases hheld
      rw [htaken, update_of_ne hne, hheld]
    · have hne : leaf ≠ leaf' := by
        rintro rfl
        rw [h me leaf hown, Option.some.injEq] at hheld
        exact hi hheld.symm
      rw [hrel, update_of_ne hne, hheld]

/-! ## Every state of a run -/

/-- When an insert writes its leaf, no insert is in the middle of a split, and the way from the root
to the leaf is the one it took. -/
def Undisturbed (_ : List (ι × Unit)) (sys : Inserts ι) (me : ι) : Prop :=
  match (sys.inserts me).phase with
  | .write leaf path _ _ _ =>
    (∀ i, (sys.inserts i).phase.splitting = false) ∧
      match sys.tree.file.searchWithPath sys.tree.root (sys.inserts me).key with
      | .ok found => found.page = leaf ∧ found.path = path.map PathEntry.pageId
      | .error _ => False
  | _ => True

/-- The insert has put its key into the tree. -/
def Done (insert : Insert) : Prop := insert.phase = .returned (.ok ()) ∨ insert.phase.splitting = true

/-- An insert fits the pages and the tree they are to become: it has read what it is going to write
over, its split has its pages where they should be and leads to that tree, and its key is there once
it is done. -/
structure Fits (cfg : BTreeConfig) (pages : PageFile) (top : PageId) (file : PageFile) (root : PageId)
    (leaves : List LeafPage) (key : Key) (insert : Insert) : Prop where
  named : insert.key = key
  reread : ∀ leaf path version entries nextLeaf, insert.phase = .write leaf path version entries nextLeaf →
      pages.pages leaf = some (.leaf entries nextLeaf)
  sited : ∀ leaf split, insert.phase = .split leaf split →
    (split.Agrees top ∧ split.Sited pages leaf) ∧ split.alone cfg top pages = (file, .ok root)
  done : Done insert → (chainOn (contents leaves) key).isSome = true

/-- What holds in every state: latches are kept, there is one split at most, and the pages are, once
that split is done, a tree that all inserts fit. -/
structure Sound (cfg : BTreeConfig) (keys : ι → Key) (sys : Inserts ι) : Prop where
  blank : sys.tree.file.Blank
  latched : sys.Latched
  single : ∀ i j, (sys.inserts i).phase.splitting = true → (sys.inserts j).phase.splitting = true → i = j
  whole : ∃ file root leaves, Tree file root leaves ∧
    ((∀ i, (sys.inserts i).phase.splitting = false) → file = sys.tree.file ∧ root = sys.tree.root) ∧
    ∀ i, Fits cfg sys.tree.file sys.tree.root file root leaves (keys i) (sys.inserts i)

variable {leaves : List LeafPage} {root : PageId} {keys : ι → Key}

section

variable (h : Sound cfg keys sys)
include h

/-- A step keeps the state sound if every insert fits after it. -/
theorem Sound.step {tree : SharedTree ι} {insert : Insert}
    (hstep : (sys.inserts me).step cfg me sys.tree = (tree, insert))
    (hlatching : Insert.Latching me sys.tree (sys.inserts me) (tree, insert)) (hblank : tree.file.Blank)
    (hsingle : insert.phase.splitting = true → ∀ i, i ≠ me → (sys.inserts i).phase.splitting = false)
    (htree : Tree file root leaves) (hnone : insert.phase.splitting = false →
      (∀ i, i ≠ me → (sys.inserts i).phase.splitting = false) → file = tree.file ∧ root = tree.root)
    (hothers : ∀ i, i ≠ me → Fits cfg tree.file tree.root file root leaves (keys i) (sys.inserts i))
    (hme : Fits cfg tree.file tree.root file root leaves (keys me) insert) :
    Sound cfg keys (sys.exec cfg me).1 := by
  have hexec : (sys.exec cfg me).1 = ⟨tree, update sys.inserts me insert⟩ := by
    simp [exec, hstep]
  rw [hexec]
  refine ⟨hblank, h.latched.step hlatching, fun i j hi hj => ?_, file, root, leaves, htree, fun hnobody => ?_, ?_⟩
  · have hother := h.single i j
    simp only [update_apply] at hi hj
    grind
  · have hall := (forall_update_iff sys.inserts
      (p := fun _ insert => insert.phase.splitting = false)).mp hnobody
    exact hnone hall.1 hall.2
  · exact (forall_update_iff sys.inserts
      (p := fun i => Fits cfg tree.file tree.root file root leaves (keys i))).mpr ⟨hme, hothers⟩

/-- **A step that writes nothing.** -/
theorem Sound.quiet (hsplit : (sys.inserts me).phase.splitting = false)
    (hquiet : Insert.Quiet me sys.tree (sys.inserts me) ((sys.inserts me).step cfg me sys.tree)) :
    Sound cfg keys (sys.exec cfg me).1 := by
  obtain ⟨⟨tree, insert⟩, hstep⟩ : ∃ after, (sys.inserts me).step cfg me sys.tree = after := ⟨_, rfl⟩
  rw [hstep] at hquiet
  obtain ⟨hlatching, hfile, hroot, hkey, hafter, hreread, hreturned⟩ := hquiet
  dsimp only at hfile hroot hkey hafter hreread hreturned
  obtain ⟨file, root, leaves, htree, hnone, hfits⟩ := h.whole
  rw [← hfile, ← hroot] at hfits hnone
  refine h.step hstep hlatching (hfile ▸ h.blank) (fun htrue => ?_) htree (fun _ hnobody => hnone fun i => ?_)
    (fun i _ => hfits i) ⟨hkey.trans (hfits me).named, hfile ▸ hreread, fun leaf split hphase => ?_, fun hdone => ?_⟩
  · rw [hafter] at htrue
    cases htrue
  · by_cases hi : i = me
    · rw [hi, hsplit]
    · exact hnobody i hi
  · rw [hphase] at hafter
    cases hafter
  · refine (hfits me).done (.inl ?_)
    rcases hdone with hdone | hdone
    · exact hreturned hdone
    · rw [hafter] at hdone
      cases hdone

/-- **A step that writes**, with no other insert in the middle of a split. -/
theorem Sound.writes (tree : SharedTree ι) (insert : Insert)
    (hstep : (sys.inserts me).step cfg me sys.tree = (tree, insert))
    (hlatching : Insert.Latching me sys.tree (sys.inserts me) (tree, insert))
    (hothers : ∀ i, i ≠ me → (sys.inserts i).phase.splitting = false) (hblank : tree.file.Blank)
    (hleaves : ∀ i, i ≠ me → ∀ leaf, (sys.inserts i).phase.holds = some leaf →
      sys.tree.file.kind leaf = some true → tree.file.pages leaf = sys.tree.file.pages leaf)
    (htree : Tree file root leaves)
    (hnone : insert.phase.splitting = false → file = tree.file ∧ root = tree.root)
    (hkeys : ∀ i, i ≠ me → Done (sys.inserts i) → (chainOn (contents leaves) (keys i)).isSome = true)
    (hme : Fits cfg tree.file tree.root file root leaves (keys me) insert) :
    Sound cfg keys (sys.exec cfg me).1 := by
  obtain ⟨_, _, _, -, -, hfits⟩ := h.whole
  refine h.step hstep hlatching hblank (fun _ => hothers) htree (fun hafter _ => hnone hafter)
    (fun i hi => ⟨(hfits i).named, fun leaf path version entries nextLeaf hphase => ?_, fun leaf split hphase => ?_,
      hkeys i hi⟩) hme
  · have hread := (hfits i).reread leaf path version entries nextLeaf hphase
    rw [hleaves i hi leaf (by rw [hphase]; rfl) (kind_eq_some hread), hread]
  · have hnot := hothers i hi
    rw [hphase] at hnot
    cases hnot

/-- **An insert writes its leaf.** -/
theorem Sound.writeLeaf {path : List PathEntry} {version : ℕ}
    {entries : List LeafEntry} {nextLeaf : PageId}
    (hphase : (sys.inserts me).phase = .write leaf path version entries nextLeaf)
    (hnobody : ∀ i, (sys.inserts i).phase.splitting = false) {found : PageFile.Found}
    (hfound : sys.tree.file.searchWithPath sys.tree.root (sys.inserts me).key = .ok found)
    (hpage : found.page = leaf) (hpath : found.path = path.map PathEntry.pageId) :
    Sound cfg keys (sys.exec cfg me).1 := by
  obtain ⟨file, root, leaves, htree, hnone, hfits⟩ := h.whole
  obtain ⟨rfl, rfl⟩ := hnone hnobody
  have hread := (hfits me).reread leaf path version entries nextLeaf hphase
  obtain ⟨hfoundPage, hint⟩ := searchFrom_pages hfound (by simp)
  -- what was read of the leaf is what the search finds there
  obtain ⟨hents, hnext⟩ : found.entries = entries ∧ found.nextLeaf = nextLeaf := by
    rw [hpage, hread] at hfoundPage
    simpa using hfoundPage.symm
  obtain ⟨file, root, hins, leaves', htree', hconts⟩ :=
    htree.insertInternal (sys.inserts me).t (sys.inserts me).key (sys.inserts me).value
  obtain ⟨node, hnode⟩ : ∃ node, node = BTreeNode.leaf (insertEntry (sys.inserts me).key
    (.new (sys.inserts me).value (sys.inserts me).t) entries) nextLeaf := ⟨_, rfl⟩
  simp only [insertInternal, hfound, hpage, hpath, hents, hnext, ← hnode] at hins
  have hleaf : node.isLeaf = true := by rw [hnode]; rfl
  have hkind : sys.tree.file.kind leaf = some node.isLeaf := by
    rw [kind_eq_some hread, hleaf]
    rfl
  have hwritable : sys.tree.file.Writable leaf leaf node := .inl ⟨hkind, fun _ => rfl⟩
  have hholds : (sys.inserts me).phase.holds = some leaf := by rw [hphase]; rfl
  have hleaves : ∀ i, i ≠ me → ∀ leaf', (sys.inserts i).phase.holds = some leaf' →
      sys.tree.file.kind leaf' = some true →
      (sys.tree.file.writeNode leaf node).pages leaf' = sys.tree.file.pages leaf' :=
    fun i hi leaf' hholds' hkind => hwritable.leaves (h.latched.ne hi hholds' hholds) hkind
  have hkey : (chainOn (contents leaves') (keys me)).isSome = true := by
    rw [hconts, chainOn_insertEntry htree.ascending, if_pos (hfits me).named.symm]
    rfl
  have hkept : ∀ i, i ≠ me → Done (sys.inserts i) → (chainOn (contents leaves') (keys i)).isSome = true := by
    intro i _ hi
    rw [hconts, chainOn_insertEntry htree.ascending]
    split
    · rfl
    · exact (hfits i).done hi
  by_cases hfull : node.overfull cfg = true
  · rw [if_pos hfull] at hins
    refine h.writes (sys.tree.writeNode leaf (incrementVersion version) node)
      ((sys.inserts me).goTo (.split leaf
        (.start leaf node (incrementVersion version) (path.map PathEntry.pageId))))
      ?_ (.inl ⟨rfl, hholds.symm⟩) (fun i _ => hnobody i) (hwritable.blank h.blank) hleaves htree' ?_ hkept
      ⟨(hfits me).named, ?_, fun leaf' split heq => ?_, fun _ => hkey⟩
    · simp [Insert.step, hphase, ← hnode, if_pos hfull]
    · rintro ⟨⟩
    · rintro _ _ _ _ _ ⟨⟩
    · cases heq
      exact ⟨⟨trivial, hwritable.kinds hkind, fun _ => rfl,
        fun p hp => hwritable.kinds (hint p (hpath ▸ hp))⟩, hins⟩
  · rw [if_neg hfull] at hins
    cases hins
    refine h.writes ((sys.tree.writeNode leaf (incrementVersion version) node).release leaf)
      ((sys.inserts me).goTo (.returned (.ok ())))
      ?_ (.inr (.inr ⟨leaf, hholds, rfl, rfl⟩)) (fun i _ => hnobody i) (hwritable.blank h.blank) hleaves htree'
      (fun _ => ⟨rfl, rfl⟩) hkept
      ⟨(hfits me).named, ?_, ?_, fun _ => hkey⟩
    · simp [Insert.step, hphase, ← hnode, if_neg hfull]
    · rintro _ _ _ _ _ ⟨⟩
    · rintro _ _ ⟨⟩

/-- **An insert goes on with its split.** -/
theorem Sound.splitOn {split : Split}
    (hphase : (sys.inserts me).phase = .split leaf split) : Sound cfg keys (sys.exec cfg me).1 := by
  have hsplitting : (sys.inserts me).phase.splitting = true := by rw [hphase]; rfl
  have hothers : ∀ i, i ≠ me → (sys.inserts i).phase.splitting = false := by
    intro i hi
    by_contra htrue
    exact hi (h.single i me (by simpa using htrue) hsplitting)
  have hholds : (sys.inserts me).phase.holds = some leaf := by rw [hphase]; rfl
  obtain ⟨file, root, leaves, htree, -, hfits⟩ := h.whole
  obtain ⟨⟨hagrees, hsited⟩, halone⟩ := (hfits me).sited leaf split hphase
  have hkept : ∀ i, i ≠ me → Done (sys.inserts i) → (chainOn (contents leaves) (keys i)).isSome = true :=
    fun i _ => (hfits i).done
  have hkey := (hfits me).done (.inr hsplitting)
  have hremains := SharedTree.stepSplit_remains cfg hagrees
  have hkeeps := SharedTree.stepSplit_keeps cfg h.blank hsited
  rw [halone] at hremains
  obtain ⟨⟨tree, next⟩, hnext⟩ : ∃ after, after = sys.tree.stepSplit cfg split := ⟨_, rfl⟩
  have hlatches := sys.tree.stepSplit_latches cfg split
  rw [← hnext] at hremains hkeeps hlatches
  have hleaves : ∀ i, i ≠ me → ∀ leaf', (sys.inserts i).phase.holds = some leaf' →
      sys.tree.file.kind leaf' = some true → tree.file.pages leaf' = sys.tree.file.pages leaf' :=
    fun i hi leaf' hholds' hkind => hkeeps.leaves leaf' (h.latched.ne hi hholds' hholds) hkind
  rcases next with split' | error | _
  · obtain ⟨hagrees', halone'⟩ := hremains
    refine h.writes tree ((sys.inserts me).goTo (.split leaf split')) ?_ (.inl ⟨hlatches, hholds.symm⟩) hothers
      hkeeps.blank hleaves htree nofun hkept ⟨(hfits me).named, nofun, fun leaf' split heq => ?_, fun _ => hkey⟩
    · simp [Insert.step, hphase, ← hnext]
    · cases heq
      exact ⟨⟨hagrees', hkeeps.sited split' rfl⟩, halone'⟩
  · cases hremains
  · cases hremains
    refine h.writes (tree.release leaf) ((sys.inserts me).goTo (.returned (.ok ()))) ?_
      (.inr (.inr ⟨leaf, hholds, by rw [SharedTree.release, hlatches], rfl⟩)) hothers hkeeps.blank
      hleaves htree (fun _ => ⟨rfl, rfl⟩) hkept ⟨(hfits me).named, nofun, nofun, fun _ => hkey⟩
    simp [Insert.step, hphase, ← hnext]

/-- **Every step.** -/
theorem Sound.exec {trace : List (ι × Unit)} (hstep : Undisturbed trace sys me) :
    Sound cfg keys (sys.exec cfg me).1 := by
  cases hphase : (sys.inserts me).phase with
  | write leaf path version entries nextLeaf =>
    simp only [Undisturbed, hphase] at hstep
    obtain ⟨hnobody, hway⟩ := hstep
    cases hfound : sys.tree.file.searchWithPath sys.tree.root (sys.inserts me).key with
    | error e =>
      rw [hfound] at hway
      exact hway.elim
    | ok found =>
      rw [hfound] at hway
      exact h.writeLeaf hphase hnobody hfound hway.1 hway.2
  | split leaf split => exact h.splitOn hphase
  | _ =>
    have hwrite : ∀ leaf path version entries nextLeaf,
        (sys.inserts me).phase ≠ .write leaf path version entries nextLeaf := by simp [hphase]
    have hsplit : (sys.inserts me).phase.splitting = false := by rw [hphase]; rfl
    exact h.quiet hsplit (Insert.step_quiet hwrite hsplit)

end

/-- The inserts called, on a tree of which no latch is held. -/
def called (file : PageFile) (root : PageId) (versions : PageId → ℕ)
    (calls : ι → TransactionId × Key × Bytes) : Inserts ι where
  tree := ⟨file, versions, root, fun _ => none⟩
  inserts i := ⟨(calls i).1, (calls i).2.1, (calls i).2.2, 0, .start⟩

omit [DecidableEq ι] in
theorem sound_called (htree : Tree file root leaves) (hblank : file.Blank) {versions : PageId → ℕ}
    {calls : ι → TransactionId × Key × Bytes} :
    Sound cfg (fun i => (calls i).2.1) (called file root versions calls) where
  blank := hblank
  latched _ _ hholds := by cases hholds
  single _ _ hsplitting := by cases hsplitting
  whole := ⟨file, root, leaves, htree, fun _ => ⟨rfl, rfl⟩, fun _ =>
    ⟨rfl, nofun, nofun, fun hdone => (by rcases hdone with hdone | hdone <;> cases hdone)⟩⟩

/-- **Undisturbed inserts are not lost.** In every run in which each insert writes its leaf
undisturbed, once all have returned well, a search from the root finds every key. -/
theorem inserted_keys_found (cfg : BTreeConfig) (file : PageFile) (root : PageId)
    (leaves : List LeafPage) (htree : Tree file root leaves) (hblank : file.Blank)
    (versions : PageId → ℕ) (calls : ι → TransactionId × Key × Bytes) {trace : List (ι × Unit)}
    (hrun : Run (exec cfg) Undisturbed (called file root versions calls) trace sys)
    (hreturned : ∀ i, (sys.inserts i).phase = .returned (.ok ())) (i : ι) :
    sys.tree.finds (calls i).2.1 = true := by
  have hsound : Sound cfg (fun i => (calls i).2.1) sys :=
    hrun.invariant (sound_called htree hblank) fun _ _ _ h hstep => h.exec hstep
  obtain ⟨file, root, leaves, htree, hnone, hfits⟩ := hsound.whole
  obtain ⟨rfl, rfl⟩ := hnone fun i => by rw [hreturned i]; rfl
  have hkey := (hfits i).done (.inl (hreturned i))
  obtain ⟨leaf, path, lo, hi, left, right, around, hloc⟩ := htree.search (calls i).2.1
  rw [hloc.chainOn_eq] at hkey
  simp [SharedTree.finds, hloc.found, hkey]

instance [Fintype ι] (trace : List (ι × Unit)) (sys : Inserts ι) (me : ι) :
    Decidable (Undisturbed trace sys me) :=
  match hphase : (sys.inserts me).phase with
  | .write leaf path _ _ _ =>
    match hfound : sys.tree.file.searchWithPath sys.tree.root (sys.inserts me).key with
    | .ok found =>
      decidable_of_iff ((∀ i, (sys.inserts i).phase.splitting = false) ∧
        found.page = leaf ∧ found.path = path.map PathEntry.pageId)
        (by simp [Undisturbed, hphase, hfound])
    | .error _ => .isFalse (by simp [Undisturbed, hphase, hfound, and_false, not_false_eq_true])
  | .start | .search _ _ | .latch _ _ | .validate _ _ _ | .split _ _ | .returned _ =>
    .isTrue (by simp [Undisturbed, hphase])

/-- Two inserts by turns, each into a leaf of its own. -/
theorem inserted_keys_found_twoLeaves :
    let calls : Fin 2 → TransactionId × Key × Bytes := ![(1, [5], [9]), (2, [0], [8])]
    let init := called twoLeaves.volume.file twoLeaves.root (fun _ => 0) calls
    let sys := (execute (exec smallPages) init [0, 1, 0, 1, 0, 1, 0, 1, 0, 1, 0, 1, 0, 1]).2
    sys.tree.finds [5] = true ∧ sys.tree.finds [0] = true := by
  intro calls init sys
  have hblank : twoLeaves.volume.file.Blank := by
    intro page hpage
    have hpage : 8 ≤ page := hpage
    have h2 : page ≠ 2 := fun heq => absurd (heq ▸ hpage) (by decide)
    have h3 : page ≠ 3 := fun heq => absurd (heq ▸ hpage) (by decide)
    have h4 : page ≠ 4 := fun heq => absurd (heq ▸ hpage) (by decide)
    simp [twoLeaves, if_neg h2, if_neg h3, if_neg h4]
  have hrun : Run (exec smallPages) Undisturbed init
      (execute (exec smallPages) init [0, 1, 0, 1, 0, 1, 0, 1, 0, 1, 0, 1, 0, 1]).1 sys :=
    Guarded.run (by decide +kernel)
  have hfound := inserted_keys_found smallPages _ _ _ tree_twoLeaves hblank (fun _ => 0) calls hrun
    (by decide +kernel)
  exact ⟨hfound 0, hfound 1⟩

/-- The page of keys 1, 2 and 3, which is the root. -/
def oneLeaf : BTreeTable :=
  (execute (BTreeTable.exec smallPages) (BTreeTable.new emptyVolume)
    [.insert 1 [1] [5], .insert 1 [2] [6], .insert 1 [3] [7]]).2

/-- One insert comes down to a leaf, another one splits it, and the first one puts its key into what
is left of it. -/
theorem insert_lost : let calls : Fin 2 → TransactionId × Key × Bytes := ![(1, [5], [9]), (2, [4], [8])]
    let sys := (execute (exec smallPages) (called oneLeaf.volume.file oneLeaf.root (fun _ => 0) calls)
      [0, 0, 1, 1, 1, 1, 1, 1, 1, 1, 1, 1, 1, 1, 0, 0, 0]).2
    (∀ i, (sys.inserts i).phase = .returned (.ok ())) ∧ sys.tree.finds [4] = true ∧
      sys.tree.finds [5] = false := by
  decide +kernel

end Inserts

end NanoStore.Table
