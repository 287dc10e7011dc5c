import NanoStore.Table.Chains
/-!
# The paged B-tree — pages

`PagedBTree` of `table/btree/paged.rs` on its pages: nodes, the search
from the root to a leaf, the insert with its splits up to a new root, the
tombstone of a delete, and the walk along the leaves that stamps the
versions of a transaction. One call works at a time, so the latches and
the page versions of the source decide nothing and are left out; page
reads of allocated pages and page writes do not fail here.
-/

namespace NanoStore.Table

open Wal Steps Txn

/-- `PageId`; page 0 stands for no page. -/
abbrev PageId := ℕ

/-! ## Nodes -/

/-- `InternalEntry`: the child holds keys below the key of the entry. -/
structure InternalEntry where
  key : Key
  childPageId : PageId
  deriving DecidableEq

/-- A key with its chain. -/
structure LeafEntry where
  key : Key
  chain : VersionChain
  deriving DecidableEq

/-- A node: keys and children, or entries and the next leaf. -/
inductive BTreeNode
  | internal (entries : List InternalEntry) (rightmostChild : PageId)
  | leaf (entries : List LeafEntry) (nextLeaf : PageId)
  deriving DecidableEq

/-- What a tree knows of its pager: the bytes of a page it may use. `chainLen` is the length
`postcard` gives a version chain. -/
structure BTreeConfig where
  pageDataSize : ℕ
  chainLen : VersionChain → ℕ

namespace BTreeConfig

/-- `max_order`, by `calculate_max_order`. -/
def maxOrder (cfg : BTreeConfig) : ℕ := max (cfg.pageDataSize * 3 / 5 / 30) 4

/-- A node splits above three fifths of a page. -/
def maxNodeSize (cfg : BTreeConfig) : ℕ := cfg.pageDataSize * 3 / 5

/-- The bytes `postcard` takes for an unsigned integer: seven bits in each. -/
def varintLen (n : ℕ) : ℕ := Nat.log2 n / 7 + 1

/-- The bytes `postcard` takes for a version, the tag of the link behind it included. -/
def versionLen (v : Version) : ℕ :=
  let value := match v.value with
    | .inline data => varintLen data.length + data.length
    | .external .inline => 1
    | .external (.singlePage pageId offset length) =>
      1 + varintLen pageId + varintLen offset + varintLen length
    | .external (.overflowChain firstPageId totalLength pageCount) =>
      1 + varintLen firstPageId + varintLen totalLength + varintLen pageCount
  let commitLsn := match v.commitLsn with
    | none => 1
    | some lsn => 1 + varintLen lsn
  1 + value + varintLen v.createdBy + commitLsn + 1

/-- `PagerConfig::default`: pages of 4096 bytes, 64 of which are header and checksum. -/
def default : BTreeConfig where
  pageDataSize := 4096 - 32 - 32
  chainLen chain := (chain.map versionLen).sum

end BTreeConfig

namespace BTreeNode

def newLeaf : BTreeNode := .leaf [] 0

def keyCount : BTreeNode → ℕ
  | .internal entries _ => entries.length
  | .leaf entries _ => entries.length

variable (cfg : BTreeConfig)

/-- The length of `to_bytes`. -/
def serializedLen : BTreeNode → ℕ
  | .internal entries _ => 1 + 8 + 4 + 8 + (entries.map fun e => 4 + e.key.length + 8).sum
  | .leaf entries _ =>
    1 + 8 + 4 + 8 + (entries.map fun e => 4 + e.key.length + 4 + cfg.chainLen e.chain).sum

/-- The node is to be split: `is_full`, or not `node_fits_in_page`. -/
def overfull (node : BTreeNode) : Bool :=
  cfg.maxOrder ≤ node.keyCount || cfg.maxNodeSize < node.serializedLen cfg

end BTreeNode

/-- The child to follow for a key. On sorted entries the binary search of the source finds the
first entry above the key, whether it hits an entry or not. -/
def childFor (key : Key) (entries : List InternalEntry) (rightmostChild : PageId) : PageId :=
  match entries.find? fun e => key < e.key with
  | some e => e.childPageId
  | none => rightmostChild

/-- The chain of a key in a leaf. -/
def chainOn (entries : List LeafEntry) (key : Key) : Option VersionChain :=
  (entries.find? fun e => e.key = key).map LeafEntry.chain

/-- What a reader at a snapshot finds for a key on a leaf; the empty value reads as none. -/
def readOn (entries : List LeafEntry) (key : Key) (snapshotLsn : ℕ) : Option Bytes :=
  (chainOn entries key).bind fun chain => hideEmpty (shows chain snapshotLsn)

/-- A version put before the chain of its key, or at the place of the key in the order. -/
def insertEntry (key : Key) (v : Version) : List LeafEntry → List LeafEntry
  | [] => [⟨key, [v]⟩]
  | e :: entries =>
    if key < e.key then ⟨key, [v]⟩ :: e :: entries
    else if e.key = key then { e with chain := v :: e.chain } :: entries
    else e :: insertEntry key v entries

/-- A version put before the chain of a key that has an entry. -/
def updateEntry (key : Key) (v : Version) (entries : List LeafEntry) : List LeafEntry :=
  entries.map fun e => if e.key = key then { e with chain := v :: e.chain } else e

/-- The versions of a transaction are committed in a leaf. -/
def stampEntries (t : TransactionId) (lsn : ℕ) (entries : List LeafEntry) : List LeafEntry :=
  entries.map fun e => { e with chain := VersionChain.stamp t lsn e.chain }

/-! ## Pages -/

/-- What a tree call can fail with. `panicked` is an index out of bounds or an `unreachable!`,
and `endless` is no error at all but a loop along a cycle of pages. -/
inductive TreeError
  | pageNotFound (page : PageId)
  | corruption (location corruptionType details : String)
  | panicked
  | endless
  deriving DecidableEq

/-- An image the pager writes to the slot of a page: that of a node, or that of a free page. -/
structure PageWrite where
  page : PageId
  node : Option BTreeNode

/-- The page file as the trees see it: the nodes as they were last written, which is how the page
cache serves them, the next page to be allocated, the one slot of the superblock for the root of a
B-tree, and all writes, the newest first. -/
structure PageFile where
  pages : PageId → Option BTreeNode
  nextPage : PageId
  rootBtreePage : PageId
  writes : List PageWrite

namespace PageFile

variable (file : PageFile)

/-- `allocate_page`: page numbers are not reused. -/
def allocatePage : PageFile × PageId := ({ file with nextPage := file.nextPage + 1 }, file.nextPage)

def readNode (page : PageId) : Except TreeError BTreeNode :=
  match file.pages page with
  | some node => .ok node
  | none => .error (.pageNotFound page)

def writeNode (page : PageId) (node : BTreeNode) : PageFile :=
  { file with
    pages := Function.update file.pages page (some node)
    writes := ⟨page, some node⟩ :: file.writes }

/-- What `free_page` does to a page it accepts: the cache still serves the node. -/
def freePage (page : PageId) : PageFile := { file with writes := ⟨page, none⟩ :: file.writes }

/-- The pages that were freed. -/
def freed : List PageId := (file.writes.filter fun w => w.node.isNone).map PageWrite.page

def setRootBtreePage (page : PageId) : PageFile := { file with rootBtreePage := page }

/-- `PagedBTree::new`: the root is an empty leaf. -/
def newTree : PageFile × PageId :=
  let (file, root) := file.allocatePage
  ((file.writeNode root .newLeaf).setRootBtreePage root, root)

/-! ## Search -/

/-- Where a search ends: the leaf, what is on it, and the pages above it, the nearest first. -/
structure Found where
  page : PageId
  entries : List LeafEntry
  nextLeaf : PageId
  path : List PageId

/-- The loop of `search_with_path`, for at most `fuel` pages. -/
def searchFrom (key : Key) : ℕ → PageId → List PageId → Except TreeError Found
  | 0, _, _ => .error .endless
  | fuel + 1, page, path =>
    match file.readNode page with
    | .error e => .error e
    | .ok (.internal entries rightmostChild) =>
      searchFrom key fuel (childFor key entries rightmostChild) (page :: path)
    | .ok (.leaf entries nextLeaf) => .ok ⟨page, entries, nextLeaf, path⟩

/-- `search_with_path` and `search_optimistic`. A search that visits more pages than there are
never ends. -/
def searchWithPath (root : PageId) (key : Key) : Except TreeError Found :=
  file.searchFrom key (file.nextPage + 1) root []

/-- `get_internal`: down to the leaf, then along the chain. -/
def getInternal (root : PageId) (key : Key) (snapshotLsn : ℕ) : Except TreeError (Option Bytes) :=
  (file.searchWithPath root key).map fun found => readOn found.entries key snapshotLsn

/-! ## Inserts and splits -/

/-- `split_node`: the left half stays on its page. The median key of a leaf stays on the right
page, that of an internal node moves up. -/
def splitNode (page : PageId) : BTreeNode → Outcome PageFile TreeError (PageId × Key)
  | .internal entries rightmostChild =>
    let mid := entries.length / 2
    match entries[mid]? with
    | none => (file, .error .panicked)
    | some median =>
      let (file, right) := file.allocatePage
      let file := file.writeNode page (.internal (entries.take mid) median.childPageId)
      let file := file.writeNode right (.internal (entries.drop (mid + 1)) rightmostChild)
      (file, .ok (right, median.key))
  | .leaf entries nextLeaf =>
    let mid := entries.length / 2
    match entries[mid]? with
    | none => (file, .error .panicked)
    | some median =>
      let (file, right) := file.allocatePage
      let file := file.writeNode page (.leaf (entries.take mid) right)
      let file := file.writeNode right (.leaf (entries.drop mid) nextLeaf)
      (file, .ok (right, median.key))

/-- The entry of a child split in two: the separator before it, and the right half in its
place. -/
def insertBefore (left right : PageId) (key : Key) : List InternalEntry → Option (List InternalEntry)
  | [] => none
  | e :: entries =>
    if e.childPageId = left then some (⟨key, left⟩ :: { e with childPageId := right } :: entries)
    else (insertBefore left right key entries).map (e :: ·)

/-- What `insert_into_parent` makes of a parent. -/
def insertChild (left right : PageId) (key : Key) (entries : List InternalEntry)
    (rightmostChild : PageId) : Option BTreeNode :=
  if rightmostChild = left then some (.internal (entries ++ [⟨key, left⟩]) right)
  else (insertBefore left right key entries).map (.internal · rightmostChild)

/-- `split_and_propagate` and `insert_into_parent`, with the root of the tree they leave. A new
root is entered in the superblock and nowhere else. -/
def splitAndPropagate (cfg : BTreeConfig) (root : PageId) (path : List PageId) (file : PageFile)
    (page : PageId) (node : BTreeNode) : Outcome PageFile TreeError PageId :=
  andThen (file.splitNode page node) fun file (right, median) =>
    if page = root then
      let (file, newRoot) := file.allocatePage
      let file := file.writeNode newRoot (.internal [⟨median, page⟩] right)
      (file.setRootBtreePage newRoot, .ok newRoot)
    else
      match path with
      | [] =>
        (file, .error (.corruption "PagedBTree::split_child" "missing_parent"
          "No parent found for non-root split"))
      | parent :: path =>
        match file.readNode parent with
        | .error e => (file, .error e)
        | .ok (.leaf _ _) => (file, .ok root)
        | .ok (.internal entries rightmostChild) =>
          match insertChild page right median entries rightmostChild with
          | none =>
            (file, .error (.corruption "PagedBTree::merge_or_redistribute" "missing_child"
              s!"Could not find left_child PageId({page}) in parent PageId({parent})"))
          | some node =>
            let file := file.writeNode parent node
            if node.overfull cfg then splitAndPropagate cfg root path file parent node
            else (file, .ok root)

/-- `insert_internal` of an uncommitted version, with the root of the tree it leaves. -/
def insertInternal (cfg : BTreeConfig) (root : PageId) (t : TransactionId) (key : Key)
    (value : Bytes) : Outcome PageFile TreeError PageId :=
  match file.searchWithPath root key with
  | .error e => (file, .error e)
  | .ok found =>
    let node := BTreeNode.leaf (insertEntry key (.new value t) found.entries) found.nextLeaf
    let file := file.writeNode found.page node
    if node.overfull cfg then splitAndPropagate cfg root found.path file found.page node
    else (file, .ok root)

/-- `delete_internal`: a leaf is not split for a tombstone. -/
def deleteInternal (root : PageId) (t : TransactionId) (key : Key) : Outcome PageFile TreeError Bool :=
  match file.searchWithPath root key with
  | .error e => (file, .error e)
  | .ok found =>
    match chainOn found.entries key with
    | none => (file, .ok false)
    | some _ =>
      let node := BTreeNode.leaf (updateEntry key (.new [] t) found.entries) found.nextLeaf
      (file.writeNode found.page node, .ok true)

/-! ## Stamps -/

/-- The first loop of `commit_versions_for_tx`: down the leftmost children. -/
def leftmostLeaf : ℕ → PageId → Except TreeError PageId
  | 0, _ => .error .endless
  | fuel + 1, page =>
    match file.readNode page with
    | .error e => .error e
    | .ok (.internal (first :: _) _) => leftmostLeaf fuel first.childPageId
    | .ok (.internal [] rightmostChild) => leftmostLeaf fuel rightmostChild
    | .ok (.leaf _ _) => .ok page

/-- Its second loop: along the leaves. -/
def stampLeaves (t : TransactionId) (lsn : ℕ) : ℕ → PageFile → PageId → Outcome PageFile TreeError Unit
  | 0, file, _ => (file, .error .endless)
  | fuel + 1, file, page =>
    match file.readNode page with
    | .error e => (file, .error e)
    | .ok (.internal _ _) => (file, .error .panicked)
    | .ok (.leaf entries nextLeaf) =>
      let file := file.writeNode page (.leaf (stampEntries t lsn entries) nextLeaf)
      if nextLeaf = 0 then (file, .ok ()) else stampLeaves t lsn fuel file nextLeaf

/-- `commit_versions_for_tx`. -/
def commitVersions (root : PageId) (t : TransactionId) (lsn : ℕ) : Outcome PageFile TreeError Unit :=
  match file.leftmostLeaf (file.nextPage + 1) root with
  | .error e => (file, .error e)
  | .ok page => stampLeaves t lsn (file.nextPage + 1) file page

end PageFile

end NanoStore.Table
