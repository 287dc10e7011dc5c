import NanoStore.Table.BTreeWrites
/-!
# The LSM tree — the blocks of a sorted table

`SStableWriter::finish` groups the entries into blocks and puts the blocks
on pages, each behind the one before it or, where it does not fit, at the
front of a new page; the index follows. A page is seldom filled up.
`load_block` of `SStableIterator` finds the end of a block from the block
that follows. For the last block it computes where its page starts as if all
pages before it were full, and so takes too few bytes or too many of a table
that is on several pages; the checksum of the block then does not match.
`SStableReader::get` adds up what is on the pages, and reads every block.

The pages of a table are consecutive and read as they were written, and no
two strings of bytes share a checksum.
-/

namespace NanoStore.Lsm

open Table List

/-- How sorted tables are laid out: the size at which a block is closed, the bytes a page has room
for, and the bytes of a block, compressed or not. -/
structure SStableLayout where
  blockSize : ℕ
  pageSize : ℕ
  blockLen : List LeafEntry → ℕ

/-- Where the writer is: the number of its page, the bytes on the pages before, and those on it. -/
structure WritePosition where
  page : ℕ
  before : ℕ
  used : ℕ

namespace SStableLayout

variable (layout : SStableLayout)

/-- The bytes of an entry: its key and its chain, each behind its length. -/
def entrySize (e : LeafEntry) : ℕ :=
  4 + e.key.length + 4 + (e.chain.map BTreeConfig.versionLen).sum

/-- The bytes of a block that is not compressed: the number of its entries, a flag, the checksum and
the entries. -/
def plainBlockLen (block : List LeafEntry) : ℕ := 4 + 1 + 32 + (block.map entrySize).sum

/-- The blocks that are made of some entries, behind a block that has been begun. -/
def blocksFrom : List LeafEntry → ℕ → List LeafEntry → List (List LeafEntry)
  | block, _, [] => if block = [] then [] else [block]
  | block, estimate, e :: entries =>
    if block ≠ [] ∧ layout.blockSize < estimate + entrySize e then
      block :: blocksFrom [e] (entrySize e) entries
    else blocksFrom (block ++ [e]) (estimate + entrySize e) entries

/-- The entries of each block. -/
def blocks (entries : List LeafEntry) : List (List LeafEntry) := layout.blocksFrom [] 0 entries

/-- A block written: on the current page if it fits, and else on a new one. -/
def place (pos : WritePosition) (block : List LeafEntry) : WritePosition :=
  if layout.pageSize < pos.used + layout.blockLen block then
    ⟨pos.page + 1, pos.before + pos.used, layout.blockLen block⟩
  else { pos with used := pos.used + layout.blockLen block }

/-- Where the writer is when it has written the last block. -/
def lastPosition (entries : List LeafEntry) : WritePosition :=
  (layout.blocks entries).foldl layout.place ⟨0, 0, 0⟩

/-- The bytes of the index: for every block its first key, its page and its offset. -/
def indexLen (entries : List LeafEntry) : ℕ :=
  4 + 32 + ((layout.blocks entries).map fun block =>
    4 + (block.head?.elim 0 fun e => e.key.length) + 8 + 8).sum

/-- Where `load_block` takes the last block to end on its page. Of what follows on the page only the
index is counted. -/
def lastBlockEnd (entries : List LeafEntry) : ℕ :=
  let pos := layout.lastPosition entries
  let pageStart := pos.page * layout.pageSize
  let indexOffset := pos.before + pos.used
  if pageStart ≤ indexOffset ∧ indexOffset < pageStart + layout.pageSize then indexOffset - pageStart
  else if layout.pageSize < pos.used + layout.indexLen entries then pos.used
  else pos.used + layout.indexLen entries

/-- How many of the entries a `SStableIterator` can read: all of them, or those before the last
block. -/
def readable (entries : List LeafEntry) : ℕ :=
  if layout.lastBlockEnd entries = (layout.lastPosition entries).used then entries.length
  else (layout.blocks entries).dropLast.flatten.length

variable {layout} {entries : List LeafEntry}

theorem flatten_blocksFrom (block : List LeafEntry) (estimate : ℕ) :
    (layout.blocksFrom block estimate entries).flatten = block ++ entries := by
  induction entries generalizing block estimate with
  | nil =>
    rw [blocksFrom]
    split_ifs with hblock
    · simp [hblock]
    · simp
  | cons e entries ih =>
    rw [blocksFrom]
    split_ifs
    · rw [flatten_cons, ih, singleton_append]
    · rw [ih, append_assoc, singleton_append]

/-- **What can be read are whole blocks**: all of them, or all but the last. -/
theorem take_readable : entries.take (layout.readable entries) = entries ∨
    entries.take (layout.readable entries) = (layout.blocks entries).dropLast.flatten := by
  have hall : (layout.blocks entries).flatten = entries := flatten_blocksFrom [] 0
  rw [readable]
  split_ifs
  · exact .inl take_length
  · right
    cases hlast : (layout.blocks entries).getLast? with
    | none => simp [getLast?_eq_none_iff.mp hlast]
    | some block =>
      have hsplit := congrArg flatten (dropLast_append_getLast? block hlast)
      have htake : ((layout.blocks entries).dropLast.flatten ++ [block].flatten).take
          (layout.blocks entries).dropLast.flatten.length = (layout.blocks entries).dropLast.flatten :=
        take_left
      rwa [← flatten_append, hsplit, hall] at htake

/-- On the first page nothing is before the writer, and it does not write over the end. -/
theorem lastPosition_firstPage (h : (layout.lastPosition entries).page = 0) :
    (layout.lastPosition entries).before = 0 ∧
      (layout.lastPosition entries).used ≤ layout.pageSize := by
  have hplace : ∀ (blocks : List (List LeafEntry)) (pos : WritePosition),
      (pos.page = 0 → pos.before = 0 ∧ pos.used ≤ layout.pageSize) →
      (blocks.foldl layout.place pos).page = 0 →
      (blocks.foldl layout.place pos).before = 0 ∧
        (blocks.foldl layout.place pos).used ≤ layout.pageSize := by
    intro blocks
    induction blocks with
    | nil => exact fun pos hpos hpage => hpos hpage
    | cons block blocks ih =>
      refine fun pos hpos => ih _ fun hpage => ?_
      unfold place at hpage ⊢
      split_ifs at hpage ⊢ with hfull
      exact ⟨(hpos hpage).1, not_lt.mp hfull⟩
  exact hplace _ _ (fun _ => ⟨rfl, Nat.zero_le _⟩) h

/-- **A table whose blocks are on one page is read whole.** -/
theorem readable_of_firstPage (h : (layout.lastPosition entries).page = 0) :
    layout.readable entries = entries.length := by
  obtain ⟨hbefore, hused⟩ := lastPosition_firstPage h
  have hindex : 0 < layout.indexLen entries := by
    rw [indexLen]
    omega
  refine if_pos ?_
  simp only [lastBlockEnd, h, hbefore]
  split_ifs <;> omega

end SStableLayout

end NanoStore.Lsm
