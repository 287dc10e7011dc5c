import NanoStore.Table.BTreeHistory
/-!
# The paged B-tree — pages in their slots

A page is written to its slot of the file as it is, however long its image
is. An image that is longer than the slot runs into the slots behind it,
and only its beginning is read back. As long as the page cache serves a
page this does not show; a page the cache has given up is read from its
slot, and what a slot without a whole page is read as may be anything.
-/

namespace NanoStore.Table

open Wal Steps Txn List

/-- How the pager lays out its file: the slots that the image of a node takes, and the slot of each
page. The numbers of pages are not reused, so a page has its slot from the allocation on until it is
freed. -/
structure Slots where
  span : BTreeNode → ℕ
  slotOf : PageId → ℕ

namespace Slots

variable (slots : Slots) (older : List PageWrite)

/-- The page was freed. -/
def isFreed (page : PageId) : Bool := older.any fun w => w.node.isNone && w.page = page

/-- Where a page is written: a freed one has lost its mapping and is looked for at its own number. -/
def slotAt (page : PageId) : ℕ := if isFreed older page then page else slots.slotOf page

/-- The slots a write takes. The image of a free page takes one. -/
def spanOf (w : PageWrite) : ℕ := w.node.elim 1 slots.span

/-- After these writes the slot of the page holds what was last written to the page: its image took
one slot, and none of the images written later reached it. The slot of a freed page goes to another
one. -/
def whole : List PageWrite → PageId → Bool
  | [], _ => true
  | w :: older, page =>
    if w.page = page then w.node.isSome && slots.spanOf w ≤ 1 && !isFreed older page
    else whole older page && (slots.slotOf page < slots.slotAt older w.page ||
      slots.slotAt older w.page + slots.spanOf w ≤ slots.slotOf page)

/-- **Pages are whole as long as no image is longer than a slot** and no page is freed. -/
theorem whole_of_fits {slots : Slots} (hslots : Function.Injective slots.slotOf) {writes : List PageWrite}
    (hfits : ∀ w ∈ writes, w.node.isSome = true ∧ slots.spanOf w ≤ 1) (page : PageId) :
    slots.whole writes page = true := by
  induction writes with
  | nil => rfl
  | cons w older ih =>
    obtain ⟨⟨hsome, hspan⟩, holder⟩ := forall_mem_cons.mp hfits
    have hkept : ∀ p, isFreed older p = false := fun p =>
      any_eq_false.mpr fun w hw => by simp [Option.isSome_iff_ne_none.mp (holder w hw).1]
    by_cases hpage : w.page = page
    · simp [whole, hpage, hsome, hspan, hkept]
    · have hapart : slots.slotOf w.page ≠ slots.slotOf page := fun heq => hpage (hslots heq)
      have hbeside : slots.slotOf page < slots.slotOf w.page ∨
          slots.slotOf w.page + slots.spanOf w ≤ slots.slotOf page := by omega
      simpa [whole, hpage, ih holder, slotAt, hkept] using hbeside

end Slots

/-- The volume as a reader may find it: a page that is not whole in its slot may be gone from the
cache, and is then read as anything. -/
def Volume.served (slots : Slots) (vol junk : Volume) : Volume where
  file := { vol.file with
    pages := fun page => if slots.whole vol.file.writes page then vol.file.pages page
      else junk.file.pages page }
  others := fun page => if slots.whole vol.file.writes page then vol.others page else junk.others page

/-- The search for a key reads the page. -/
def PageFile.Passes (file : PageFile) (root : PageId) (key : Key) (page : PageId) : Prop :=
  ∃ found, file.searchWithPath root key = .ok found ∧ page ∈ found.page :: found.path

variable {file file' : PageFile} {key : Key} {fuel : ℕ} {root page : PageId} {path : List PageId}
  {found : PageFile.Found}

/-- The pages of a search: those it came by, the one it is at, and all it reads are nodes. -/
theorem searchFrom_visits (h : file.searchFrom key fuel page path = .ok found) :
    (∀ p ∈ page :: path, p ∈ found.page :: found.path) ∧
      ∀ p ∈ found.page :: found.path, p ∉ path → file.pages p ≠ none := by
  induction fuel generalizing page path with
  | zero => cases h
  | succ fuel ih =>
    rw [PageFile.searchFrom, PageFile.readNode] at h
    cases hpage : file.pages page with
    | none =>
      rw [hpage] at h
      cases h
    | some node =>
      rw [hpage] at h
      cases node with
      | internal entries rightmostChild =>
        obtain ⟨hcame, hread⟩ := ih h
        refine ⟨fun p hp => hcame p (mem_cons_of_mem _ hp), fun p hp hnew => ?_⟩
        by_cases heq : p = page
        · simp [heq, hpage]
        · exact hread p hp (by simp [heq, hnew])
      | leaf entries nextLeaf =>
        cases h
        refine ⟨fun p hp => hp, fun p hp hnew => ?_⟩
        obtain rfl : p = page := (mem_cons.mp hp).resolve_right hnew
        simp [hpage]

/-- **A search reads nothing but the pages of its path.** -/
theorem searchFrom_congr (h : file.searchFrom key fuel page path = .ok found)
    (hsame : ∀ p ∈ found.page :: found.path, file'.pages p = file.pages p) :
    file'.searchFrom key fuel page path = .ok found := by
  induction fuel generalizing page path with
  | zero => cases h
  | succ fuel ih =>
    have hpage := hsame page ((searchFrom_visits h).1 page mem_cons_self)
    rw [PageFile.searchFrom, PageFile.readNode] at h ⊢
    rw [hpage]
    cases hnode : file.pages page with
    | none =>
      rw [hnode] at h
      cases h
    | some node =>
      rw [hnode] at h
      cases node with
      | internal entries rightmostChild => exact ih h
      | leaf entries nextLeaf => exact h

theorem searchWithPath_congr (h : file.searchWithPath root key = .ok found)
    (hnext : file'.nextPage = file.nextPage)
    (hsame : ∀ p ∈ found.page :: found.path, file'.pages p = file.pages p) :
    file'.searchWithPath root key = .ok found := by
  rw [PageFile.searchWithPath, hnext]
  exact searchFrom_congr h hsame

namespace BTreeTable

/-- The table as a reader may find it. -/
def served (slots : Slots) (table : BTreeTable) (junk : Volume) : BTreeTable :=
  { table with volume := table.volume.served slots junk }

/-- Every page that the search for the key reads is whole in its slot. -/
def WholePath (slots : Slots) (table : BTreeTable) (key : Key) : Prop :=
  ∀ page, table.volume.file.Passes table.root key page → slots.whole table.volume.file.writes page = true

/-- Every page is whole in its slot. -/
def Whole (slots : Slots) (table : BTreeTable) : Prop :=
  ∀ page, slots.whole table.volume.file.writes page = true

variable {table : BTreeTable} {entries : List LeafEntry} {slots : Slots} {junk : Volume} {s : ℕ}
  {codec : PageCodec}

theorem Whole.wholePath (h : table.Whole slots) : table.WholePath slots key := fun page _ => h page

theorem get_of_search (h : table.volume.file.searchWithPath table.root key = .ok found) :
    table.get codec key s = table.volume.answer codec (readOn found.entries key s) := by
  rw [BTreeTable.get, Volume.get, PageFile.getInternal, h]
  rfl

theorem search_of_get {answer : Option Bytes} (h : table.get codec key s = .ok answer) :
    ∃ found, table.volume.file.searchWithPath table.root key = .ok found := by
  cases hsearch : table.volume.file.searchWithPath table.root key with
  | error e =>
    rw [BTreeTable.get, Volume.get, PageFile.getInternal, hsearch] at h
    cases h
  | ok found => exact ⟨found, rfl⟩

/-- **A reader finds what the table holds** if the pages on its way are whole. -/
theorem Holds.get_served (h : table.Holds entries) (hpath : table.WholePath slots key) :
    (table.served slots junk).get codec key s =
      (table.served slots junk).volume.answer codec (readOn entries key s) := by
  obtain ⟨leaves, htree, rfl⟩ := h
  obtain ⟨leaf, path, lo, hi, left, right, around, hloc⟩ := htree.search key
  have hserved : (table.served slots junk).volume.file.searchWithPath table.root key = .ok _ :=
    searchWithPath_congr hloc.found rfl fun p hp => if_pos (hpath p ⟨_, hloc.found, hp⟩)
  rw [get_of_search hserved, readOn, readOn, hloc.chainOn_eq]

/-- **And only then is a key found whatever the slots hold**: a page that is not whole may be read as
no node. -/
theorem wholePath_of_get {answer : Option Bytes}
    (hreads : ∀ junk, (table.served slots junk).get codec key s = .ok answer) : table.WholePath slots key := by
  rintro page ⟨found, hfound, hpage⟩
  by_contra hlost
  obtain ⟨found', hfound'⟩ := search_of_get (hreads ⟨⟨fun _ => none, 0, 0, []⟩, fun _ => none⟩)
  have hread := (searchFrom_visits hfound').2
  -- the pages it read are whole, so the search of the table itself went the same way
  have hsame : table.volume.file.searchWithPath table.root key = .ok found' := by
    refine searchWithPath_congr hfound' rfl fun p hp => ?_
    have hnode := hread p hp not_mem_nil
    simp only [served, Volume.served] at hnode ⊢
    split_ifs at hnode ⊢ with hwhole
    · rfl
    · exact absurd rfl hnode
  obtain rfl : found' = found := Except.ok.inj (hsame.symm.trans hfound)
  have hnode := hread page hpage not_mem_nil
  simp [served, Volume.served, hlost] at hnode

end BTreeTable

end NanoStore.Table
