import NanoStore.Table.BTreeWrites
/-!
# The paged B-tree — concurrent inserts

`insert_internal` as the other inserts see it: one access to the shared
tree at a time. The descent takes no latch; the write latch of the leaf is
held from the validation of the path on, and no other latch is taken, not
for the pages a split writes either. `validate_optimistic_path` compares the
versions of the pages above the leaf; a parent that is given a new child
keeps its version.
-/

namespace NanoStore.Table

open Wal Steps Txn

/-! ## The code -/

/-- `PageVersion::increment`. -/
def incrementVersion (version : ℕ) : ℕ := (version + 1) % 2 ^ 64

/-- `PathEntry`, of a page above the leaf. -/
structure PathEntry where
  pageId : PageId
  version : ℕ
  deriving DecidableEq

/-- What an insert can fail with. -/
inductive InsertError
  | tree (e : TreeError)
  | other (text : String)
  deriving DecidableEq

/-- The two halves of a node to be split and the key between them, if the right one goes to the page
given. -/
def BTreeNode.halves (right : PageId) : BTreeNode → Option (BTreeNode × BTreeNode × Key)
  | .internal entries rightmostChild =>
    let mid := entries.length / 2
    entries[mid]?.map fun median =>
      (.internal (entries.take mid) median.childPageId,
        .internal (entries.drop (mid + 1)) rightmostChild, median.key)
  | .leaf entries nextLeaf =>
    let mid := entries.length / 2
    entries[mid]?.map fun median =>
      (.leaf (entries.take mid) right, .leaf (entries.drop mid) nextLeaf, median.key)

/-- What `split_and_propagate` does next. -/
inductive Split
  /-- It reads the root pointer. -/
  | start (page : PageId) (node : BTreeNode) (version : ℕ) (path : List PageId)
  /-- It allocates the right page. -/
  | allocate (isRoot : Bool) (page : PageId) (node : BTreeNode) (version : ℕ) (path : List PageId)
  | writeLeft (isRoot : Bool) (page : PageId) (left : BTreeNode) (version : ℕ) (right : PageId)
      (rightNode : BTreeNode) (median : Key) (path : List PageId)
  | writeRight (isRoot : Bool) (page right : PageId) (rightNode : BTreeNode) (median : Key)
      (path : List PageId)
  | allocateRoot (page right : PageId) (median : Key)
  | writeRoot (page right newRoot : PageId) (median : Key)
  | setRoot (newRoot : PageId)
  /-- In `insert_into_parent`. -/
  | readParent (page right : PageId) (median : Key) (parent : PageId) (path : List PageId)
  | writeParent (parent : PageId) (node : BTreeNode) (version : ℕ) (path : List PageId)
  deriving DecidableEq

/-- What `insert_internal` does next. The pages above the leaf are given the nearest first. -/
inductive Phase
  /-- It reads the root pointer. -/
  | start
  /-- It reads a page on the way down. -/
  | search (page : PageId) (path : List PathEntry)
  /-- It takes the write latch of the leaf. -/
  | latch (leaf : PageId) (path : List PathEntry)
  /-- It reads the first page whose version is not checked yet; with none left, the leaf again. -/
  | validate (leaf : PageId) (path unchecked : List PathEntry)
  /-- It writes the leaf, of which it has read this. -/
  | write (leaf : PageId) (path : List PathEntry) (version : ℕ) (entries : List LeafEntry) (nextLeaf : PageId)
  | split (leaf : PageId) (split : Split)
  | returned (result : Except InsertError Unit)
  deriving DecidableEq

/-- A call of `insert_internal`. -/
structure Insert where
  t : TransactionId
  key : Key
  value : Bytes
  retries : ℕ
  phase : Phase
  deriving DecidableEq

/-- `MAX_RETRIES`. -/
def Insert.maxRetries : ℕ := 10

/-- What the inserts share: the pages with their versions, the root pointer, and for each page the
insert that holds its write latch. -/
structure SharedTree (ι : Type) where
  file : PageFile
  versions : PageId → ℕ
  root : PageId
  latches : PageId → Option ι

namespace SharedTree

variable {ι : Type} (tree : SharedTree ι)

def writeNode (page : PageId) (version : ℕ) (node : BTreeNode) : SharedTree ι :=
  { tree with
    file := tree.file.writeNode page node
    versions := Function.update tree.versions page version }

def withFile (file : PageFile) : SharedTree ι := { tree with file }

/-- The latch of a page is taken. -/
def acquire (page : PageId) (me : ι) : SharedTree ι :=
  { tree with latches := Function.update tree.latches page (some me) }

def release (page : PageId) : SharedTree ι :=
  { tree with latches := Function.update tree.latches page none }

/-- One access of a split, with what it does next or its result. -/
def stepSplit (cfg : BTreeConfig) : Split → SharedTree ι × (Split ⊕ Except TreeError Unit)
  | .start page node version path =>
    (tree, .inl (.allocate (page = tree.root) page node version path))
  | .allocate isRoot page node version path =>
    let (file, right) := tree.file.allocatePage
    match node.halves right with
    | none => (tree, .inr (.error .panicked))
    | some (left, rightNode, median) =>
      (tree.withFile file,
        .inl (.writeLeft isRoot page left (incrementVersion version) right rightNode median path))
  | .writeLeft isRoot page left version right rightNode median path =>
    (tree.writeNode page version left, .inl (.writeRight isRoot page right rightNode median path))
  | .writeRight isRoot page right rightNode median path =>
    (tree.writeNode right 0 rightNode, if isRoot then .inl (.allocateRoot page right median)
      else match path with
        | [] => .inr (.error (.corruption "PagedBTree::split_child" "missing_parent"
            "No parent found for non-root split"))
        | parent :: path => .inl (.readParent page right median parent path))
  | .allocateRoot page right median =>
    let (file, newRoot) := tree.file.allocatePage
    (tree.withFile file, .inl (.writeRoot page right newRoot median))
  | .writeRoot page right newRoot median =>
    (tree.writeNode newRoot 0 (.internal [⟨median, page⟩] right), .inl (.setRoot newRoot))
  | .setRoot newRoot =>
    ({ tree with file := tree.file.setRootBtreePage newRoot, root := newRoot }, .inr (.ok ()))
  | .readParent page right median parent path =>
    (tree, match tree.file.readNode parent with
      | .error e => .inr (.error e)
      | .ok (.leaf _ _) => .inr (.ok ())
      | .ok (.internal entries rightmostChild) =>
        match PageFile.insertChild page right median entries rightmostChild with
        | none => .inr (.error (.corruption "PagedBTree::merge_or_redistribute" "missing_child"
            s!"Could not find left_child PageId({page}) in parent PageId({parent})"))
        | some node => .inl (.writeParent parent node (tree.versions parent) path))
  | .writeParent parent node version path =>
    (tree.writeNode parent version node,
      if node.overfull cfg then .inl (.start parent node version path) else .inr (.ok ()))

end SharedTree

namespace Insert

variable {ι : Type} (insert : Insert)

def goTo (phase : Phase) : Insert := { insert with phase }

/-- After a conflict: again from the root, or with this error if that was the last attempt. -/
def retry (error : InsertError) : Insert :=
  { insert with
    retries := insert.retries + 1
    phase := if maxRetries ≤ insert.retries + 1 then .returned (.error error) else .start }

/-- One access of an insert to the shared tree. It does nothing while it waits for a latch, and after
it has returned. -/
def step (cfg : BTreeConfig) (me : ι) (tree : SharedTree ι) : SharedTree ι × Insert :=
  match insert.phase with
  | .start => (tree, insert.goTo (.search tree.root []))
  | .search page path =>
    (tree, match tree.file.readNode page with
      | .error e => insert.goTo (.returned (.error (.tree e)))
      | .ok (.internal entries rightmostChild) =>
        insert.goTo (.search (childFor insert.key entries rightmostChild)
          (⟨page, tree.versions page⟩ :: path))
      | .ok (.leaf _ _) => insert.goTo (.latch page path))
  | .latch leaf path =>
    match tree.latches leaf with
    | some _ => (tree, insert)
    | none => (tree.acquire leaf me, insert.goTo (.validate leaf path path))
  | .validate leaf path (entry :: unchecked) =>
    match tree.file.readNode entry.pageId with
    | .error e => (tree.release leaf, insert.goTo (.returned (.error (.tree e))))
    | .ok _ =>
      if tree.versions entry.pageId ≠ entry.version then
        (tree.release leaf, insert.retry
          (.other s!"Insert failed after {maxRetries} retries due to high contention"))
      else (tree, insert.goTo (.validate leaf path unchecked))
  | .validate leaf path [] =>
    match tree.file.readNode leaf with
    | .error e => (tree.release leaf, insert.goTo (.returned (.error (.tree e))))
    | .ok (.internal _ _) =>
      (tree.release leaf, insert.retry (.tree (.corruption "PagedBTree::insert_internal"
        "node_type_changed" "Leaf node changed to internal during insert")))
    | .ok (.leaf entries nextLeaf) =>
      (tree, insert.goTo (.write leaf path (tree.versions leaf) entries nextLeaf))
  | .write leaf path version entries nextLeaf =>
    let node := BTreeNode.leaf (insertEntry insert.key (.new insert.value insert.t) entries) nextLeaf
    let tree := tree.writeNode leaf (incrementVersion version) node
    if node.overfull cfg then
      (tree, insert.goTo (.split leaf
        (.start leaf node (incrementVersion version) (path.map PathEntry.pageId))))
    else (tree.release leaf, insert.goTo (.returned (.ok ())))
  | .split leaf split =>
    match tree.stepSplit cfg split with
    | (tree, .inl split) => (tree, insert.goTo (.split leaf split))
    | (tree, .inr (.ok _)) => (tree.release leaf, insert.goTo (.returned (.ok ())))
    | (tree, .inr (.error e)) => (tree.release leaf, insert.goTo (.returned (.error (.tree e))))
  | .returned _ => (tree, insert)

end Insert

/-- A tree and the inserts under way. -/
structure Inserts (ι : Type) where
  tree : SharedTree ι
  inserts : ι → Insert

namespace Inserts

variable {ι : Type} [DecidableEq ι]

/-- One access of one of the inserts. -/
def exec (cfg : BTreeConfig) (sys : Inserts ι) (me : ι) : Inserts ι × Unit :=
  let (tree, insert) := (sys.inserts me).step cfg me sys.tree
  (⟨tree, Function.update sys.inserts me insert⟩, ())

end Inserts

end NanoStore.Table
