import NanoStore.Table.Chains
/-!
# The adaptive radix tree

`MemoryART` of `table/art/memory.rs`. A leaf has a key and its version
chain; an inner node has a prefix and finds its children by one byte of
the key. There are four kinds of inner nodes, by the number of children
they have room for, and a full node is moved to the next kind.

The branch byte is not taken off the key: a child is entered at the depth
behind the prefix, at which its own prefix or the branch byte itself is
read again. Behind the end of a key the byte 0 is read.

How much memory the tree is estimated to use is not part of the model.
-/

namespace NanoStore.Table

open Wal Steps Txn Function

/-! ## Nodes -/

/-- The kind of an inner node, with the array it finds the slot of a byte by. -/
inductive ArtKind
  | node4 (keys : ℕ → Byte)
  | node16 (keys : ℕ → Byte)
  | node48 (index : Byte → Option ℕ)
  | node256

/-- `Option<Box<ARTNode>>`. The array of children of an inner node is a function of the slot. The
length of the prefix, which the source has as a field, is the length of the list. -/
inductive ArtNode
  | empty
  | leaf (key : Bytes) (chain : VersionChain)
  | inner (nodePrefix : Bytes) (kind : ArtKind) (count : ℕ) (children : ℕ → ArtNode)

/-- The fields of an inner node. -/
structure InnerNode where
  nodePrefix : Bytes
  kind : ArtKind
  count : ℕ
  children : ℕ → ArtNode

/-- `NODE4_MAX`, `NODE16_MAX`, `NODE48_MAX`, and one child for each byte. -/
def ArtKind.capacity : ArtKind → ℕ
  | .node4 _ => 4
  | .node16 _ => 16
  | .node48 _ => 48
  | .node256 => 256

/-- The kind as a new node has it. -/
def ArtKind.cleared : ArtKind → ArtKind
  | .node4 _ => .node4 fun _ => 0
  | .node16 _ => .node16 fun _ => 0
  | .node48 _ => .node48 fun _ => none
  | .node256 => .node256

/-- The kind a full node is moved to. -/
def ArtKind.wider : ArtKind → ArtKind
  | .node4 _ => .node16 fun _ => 0
  | .node16 _ => .node48 fun _ => none
  | .node48 _ => .node256
  | .node256 => .node256

/-- The slot of a byte in a node with `count` children. -/
def ArtKind.slot (count : ℕ) (byte : Byte) : ArtKind → Option ℕ
  | .node4 keys => (List.range count).find? fun i => keys i = byte
  | .node16 keys => (List.range count).find? fun i => keys i = byte
  | .node48 index => index byte
  | .node256 => some byte

def ArtNode.isEmpty : ArtNode → Bool
  | .empty => true
  | .leaf _ _ => false
  | .inner _ _ _ _ => false

theorem ArtNode.isEmpty_iff {node : ArtNode} : node.isEmpty = true ↔ node = .empty := by
  cases node with
  | empty | leaf key chain | inner nodePrefix kind count children => simp [isEmpty]

namespace InnerNode

variable (node : InnerNode) (byte : Byte) (child : ArtNode)

/-- The node in a tree. -/
def toNode : ArtNode := .inner node.nodePrefix node.kind node.count node.children

/-- `new_node4`, `new_node16`, `new_node48` and `new_node256`. -/
def new (nodePrefix : Bytes) (kind : ArtKind) : InnerNode :=
  ⟨nodePrefix, kind.cleared, 0, fun _ => .empty⟩

/-- The child of an edge, empty if there is none. -/
def findChild : ArtNode :=
  match node.kind.slot node.count byte with
  | none => .empty
  | some i => node.children i

/-- The child and its byte behind the others. -/
def append (kind : (ℕ → Byte) → ArtKind) (keys : ℕ → Byte) : InnerNode :=
  { node with
    kind := kind (update keys node.count byte)
    children := update node.children node.count child
    count := node.count + 1 }

/-- The child in a slot that is free. -/
def place (index : Byte → Option ℕ) (i : ℕ) : InnerNode :=
  { node with
    kind := .node48 (update index byte (some i))
    children := update node.children i child
    count := node.count + 1 }

/-- `add_child`; nothing is added to a full node. A `Node48` with less than 48 children has a slot that is
free (`Proper.exists_free`), so the `unwrap` of the source does not fail. -/
def addChild : Option InnerNode :=
  match node.kind with
  | .node4 keys => if 4 ≤ node.count then none else some (node.append byte child .node4 keys)
  | .node16 keys => if 16 ≤ node.count then none else some (node.append byte child .node16 keys)
  | .node48 index =>
    if 48 ≤ node.count then none
    else ((List.range 48).find? fun i => (node.children i).isEmpty).map (node.place byte child index)
  | .node256 =>
    if (node.children byte).isEmpty then
      some { node with children := update node.children byte child, count := node.count + 1 }
    else none

/-- `add_child` whose answer is not looked at. -/
def add : InnerNode := (node.addChild byte child).getD node

/-- A loop of `add_child`. -/
def addAll (entries : List (Byte × ArtNode)) : InnerNode :=
  entries.foldl (fun node entry => node.add entry.1 entry.2) node

/-- The bytes of the children as `grow` collects them. -/
def bytes : List Byte :=
  match node.kind with
  | .node4 keys => (List.range node.count).map keys
  | .node16 keys => (List.range node.count).map keys
  | .node48 index => (List.finRange 256).filter fun byte => (index byte).isSome
  | .node256 => (List.finRange 256).filter fun byte => !(node.children byte).isEmpty

/-- The children `grow` takes: for each byte the one that is found, but only once. -/
def taken : List (Byte × ArtNode) :=
  (node.bytes.eraseDups.map fun byte => (byte, node.findChild byte)).filter fun entry => !entry.2.isEmpty

/-- The next larger kind, with the same children. -/
def grow : InnerNode :=
  match node.kind with
  | .node256 => node
  | kind => { (new node.nodePrefix kind.wider).addAll node.taken with count := node.count }

/-- A child is added, to the next kind of node if this one is full. -/
def put : InnerNode :=
  match node.addChild byte child with
  | some node => node
  | none => node.grow.add byte child

/-- The children with their edges, in order. -/
def childrenIter : List (Byte × ArtNode) :=
  match node.kind with
  | .node4 keys => (List.range node.count).filterMap fun i => entry (keys i) i
  | .node16 keys => (List.range node.count).filterMap fun i => entry (keys i) i
  | .node48 index => (List.finRange 256).filterMap fun byte => (index byte).bind (entry byte)
  | .node256 => (List.finRange 256).filterMap fun byte => entry byte byte
where
  /-- The child of a slot. -/
  entry (byte : Byte) (i : ℕ) : Option (Byte × ArtNode) :=
    if (node.children i).isEmpty then none else some (byte, node.children i)

end InnerNode

/-! ## The tree -/

/-- How far two keys agree. -/
def commonPrefix (a b : Bytes) : ℕ := ((a.zip b).takeWhile fun xy => xy.1 = xy.2).length

/-- The byte of a key at a depth, 0 behind its end. -/
def branchByte (key : Bytes) (depth : ℕ) : Byte := key[depth]?.getD 0

/-- `Leaf::new`. -/
def newLeaf (key value : Bytes) (txId : TransactionId) : ArtNode := .leaf key [.new value txId]

/-- The value of the newest version; nothing for a reference. -/
def newestInline : VersionChain → Bytes
  | ⟨.inline data, _, _⟩ :: _ => data
  | _ => []

namespace ArtNode

/-- `clone_node`. The children are added to a new node of the same kind. -/
def cloneNode : ArtNode → ArtNode
  | .empty => .empty
  | .leaf key chain => .leaf key chain
  | .inner nodePrefix kind count children =>
    let cloned : InnerNode := ⟨nodePrefix, kind, count, fun i => cloneNode (children i)⟩
    { (InnerNode.new nodePrefix kind).addAll cloned.childrenIter with count }.toNode

/-- A leaf in whose place another key is inserted: a node over both. The leaf of the old key is made anew,
with its newest value as a version of the inserting transaction. -/
def splitLeaf (old : Bytes) (chain : VersionChain) (key value : Bytes) (txId : TransactionId)
    (depth : ℕ) : InnerNode :=
  let common := commonPrefix (old.drop depth) (key.drop depth)
  ((InnerNode.new ((key.drop depth).take common) (.node4 fun _ => 0)).add
    (branchByte old (depth + common)) (newLeaf old (newestInline chain) txId)).add
    (branchByte key (depth + common)) (newLeaf key value txId)

/-- A node whose prefix the key does not have: a node over a copy of it, which keeps its prefix, and the
new leaf. -/
def splitPrefix (node : InnerNode) (key value : Bytes) (txId : TransactionId) (depth : ℕ) : InnerNode :=
  let common := commonPrefix node.nodePrefix (key.drop depth)
  ((InnerNode.new ((key.drop depth).take common) (.node4 fun _ => 0)).add
    (branchByte node.nodePrefix common) node.toNode.cloneNode).add
    (branchByte key (depth + common)) (newLeaf key value txId)

/-- `insert_recursive` and `insert_into_boxed`. No result means that the depth is behind the end of the
key of a leaf, which panics. -/
def insertRecursive (key value : Bytes) (txId : TransactionId) : ArtNode → ℕ → Option ArtNode
  | .empty, _ => some (newLeaf key value txId)
  | .leaf old chain, depth =>
    if old = key then some (.leaf old (.new value txId :: chain)) else if old.length < depth then none
    else some (splitLeaf old chain key value txId depth).toNode
  | .inner nodePrefix kind count children, depth =>
    let node : InnerNode := ⟨nodePrefix, kind, count, children⟩
    if nodePrefix.isPrefixOf (key.drop depth) then
      let byte := branchByte key (depth + nodePrefix.length)
      match kind.slot count byte with
      | none => some (node.put byte (newLeaf key value txId)).toNode
      | some i =>
        if (children i).isEmpty then some (node.put byte (newLeaf key value txId)).toNode
        else (insertRecursive key value txId (children i) (depth + nodePrefix.length)).map fun child =>
          { node with children := update children i child }.toNode
    else some (splitPrefix node key value txId depth).toNode

/-- The part of a key `lookup_recursive` compares with a prefix: from the depth on if the prefix is not
longer than the depth, and from the start of the key otherwise. -/
def lookupSpan (prefixLen depth : ℕ) : ℕ × ℕ :=
  if prefixLen ≤ depth then (depth, depth + prefixLen) else (0, prefixLen)

/-- `lookup_recursive` up to the leaf: the chain of the key. -/
def lookupRecursive (key : Bytes) : ArtNode → ℕ → Option VersionChain
  | .empty, _ => none
  | .leaf old chain, _ => if old = key then some chain else none
  | .inner nodePrefix kind count children, depth =>
    let (start, finish) := lookupSpan nodePrefix.length depth
    if key.length < finish ∨
        (key.drop start).take (finish - start) ≠ nodePrefix.take (min nodePrefix.length (finish - start)) then
      none
    else
      match kind.slot count (branchByte key finish) with
      | none => none
      | some i => lookupRecursive key (children i) finish

/-- `lookup`: the chain of the key, read at a snapshot. -/
def lookup (root : ArtNode) (key : Bytes) (snapshotLsn : ℕ) : Option Bytes :=
  (lookupRecursive key root 0).bind (VersionChain.findVisibleInline (.atLsn snapshotLsn))

/-- The slots `commit_from_boxed` visits. -/
def visits (kind : ArtKind) (count i : ℕ) : Bool :=
  match kind with
  | .node4 _ => i < count
  | .node16 _ => i < count
  | .node48 index => ∃ byte, index byte = some i
  | .node256 => true

/-- `commit_all` and `commit_from_boxed`. -/
def commitAll (txId : TransactionId) (lsn : ℕ) : ArtNode → ArtNode
  | .empty => .empty
  | .leaf key chain => .leaf key (stampHead txId lsn chain)
  | .inner nodePrefix kind count children =>
    .inner nodePrefix kind count fun i =>
      if visits kind count i then commitAll txId lsn (children i) else children i

end ArtNode

end NanoStore.Table
