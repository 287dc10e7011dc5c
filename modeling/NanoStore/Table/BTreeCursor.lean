import NanoStore.Table.BTreeHistory
/-!
# The paged B-tree — cursors

`PagedBTreeCursor`: a position on a leaf, moved forward along the leaves
and backward within one leaf, past the entries its snapshot does not see,
until an entry outside of the bounds or the end. Its value is the bytes on
the leaf; `get` follows a reference in them, the cursor does not.
-/

namespace NanoStore.Table

open Wal Steps Txn

/-! ## The code -/

/-- Where the binary search of a leaf ends: at the key, or where it would be put. -/
def leafPosition (key : Key) (entries : List LeafEntry) : ℕ := entries.findIdx fun e => key ≤ e.key

namespace PageFile

variable (file : PageFile)

/-- The leaf of a key, and its place there. -/
def search (root : PageId) (key : Key) : Except TreeError (PageId × ℕ) :=
  (file.searchWithPath root key).map fun found => (found.page, leafPosition key found.entries)

/-- The loop of `find_leftmost_leaf`, for at most `fuel` pages. -/
def findLeftmostLeafFrom : ℕ → PageId → Except TreeError PageId
  | 0, _ => .error .endless
  | fuel + 1, page =>
    match file.readNode page with
    | .error e => .error e
    | .ok (.internal [] _) =>
      .error (.corruption "PagedBTree::delete_internal" "empty_node" "Empty internal node")
    | .ok (.internal (first :: _) _) => findLeftmostLeafFrom fuel first.childPageId
    | .ok (.leaf _ _) => .ok page

/-- `find_leftmost_leaf`. -/
def findLeftmostLeaf (root : PageId) : Except TreeError PageId :=
  file.findLeftmostLeafFrom (file.nextPage + 1) root

/-- The loop of `find_rightmost_leaf`, for at most `fuel` pages. -/
def findRightmostLeafFrom : ℕ → PageId → Except TreeError PageId
  | 0, _ => .error .endless
  | fuel + 1, page =>
    match file.readNode page with
    | .error e => .error e
    | .ok (.internal _ rightmostChild) => findRightmostLeafFrom fuel rightmostChild
    | .ok (.leaf _ _) => .ok page

/-- `find_rightmost_leaf`. -/
def findRightmostLeaf (root : PageId) : Except TreeError PageId :=
  file.findRightmostLeafFrom (file.nextPage + 1) root

end PageFile

/-- The fields of `PagedBTreeCursor` that change. -/
structure BTreeCursor where
  currentPageId : PageId
  currentPosition : ℕ
  currentKey : Option Key
  currentValue : Option Bytes
  exhausted : Bool
  initialized : Bool
  deriving DecidableEq

namespace BTreeCursor

variable (c : BTreeCursor)

def valid : Bool := !c.exhausted && c.currentKey.isSome

/-- `key` and `value` of a valid cursor. -/
def item : Option (Key × Option Bytes) :=
  if c.valid then c.currentKey.map fun key => (key, c.currentValue) else none

/-- The cursor shows nothing. -/
def clear : BTreeCursor := { c with currentKey := none, currentValue := none }

/-- The cursor is exhausted and shows nothing. -/
def exhaust : BTreeCursor := { c.clear with exhausted := true }

end BTreeCursor

/-- The other fields: the table, its bounds and its snapshot. -/
structure Scan where
  file : PageFile
  root : PageId
  bounds : ScanBounds
  snapshotLsn : ℕ

namespace Scan

variable (scan : Scan)

/-- What the cursor shows of an entry; the empty value is skipped. -/
def visible (e : LeafEntry) : Option Bytes := hideEmpty (shows e.chain scan.snapshotLsn)

/-- `load_current_entry` on a leaf. -/
def loadEntry (entries : List LeafEntry) (c : BTreeCursor) : BTreeCursor :=
  match entries[c.currentPosition]? with
  | none => c.clear
  | some e =>
    if scan.bounds.contains e.key then
      match scan.visible e with
      | none => c.clear
      | some value => { c with currentKey := some e.key, currentValue := some value }
    else c.exhaust

/-- The entry at the cursor is shown, if there is one to show. -/
def loadCurrentEntry (c : BTreeCursor) : Outcome BTreeCursor TreeError Unit :=
  match scan.file.readNode c.currentPageId with
  | .error e => (c, .error e)
  | .ok (.internal _ _) => (c, .ok ())
  | .ok (.leaf entries _) => (scan.loadEntry entries c, .ok ())

/-- The inner loop of `advance_to_next_visible`, for the `n` entries left on the leaf; whether the
cursor has found its place. -/
def advanceInLeaf : ℕ → BTreeCursor → Outcome BTreeCursor TreeError Bool
  | 0, c => (c, .ok false)
  | n + 1, c =>
    andThen (scan.loadCurrentEntry c) fun c _ =>
      if c.currentKey.isSome ∨ c.exhausted then (c, .ok true)
      else advanceInLeaf n { c with currentPosition := c.currentPosition + 1 }

/-- Its outer loop, for at most `fuel` leaves. -/
def advanceFrom : ℕ → BTreeCursor → Outcome BTreeCursor TreeError Unit
  | 0, c => (c, .error .endless)
  | fuel + 1, c =>
    match scan.file.readNode c.currentPageId with
    | .error e => (c, .error e)
    | .ok (.internal _ _) =>
      (c, .error (.corruption "PagedBTreeCursor::next" "wrong_node_type" "Expected leaf node"))
    | .ok (.leaf entries nextLeaf) =>
      andThen (scan.advanceInLeaf (entries.length - c.currentPosition) c) fun c found =>
        if found then (c, .ok ()) else if nextLeaf ≠ 0 then
          advanceFrom fuel { c with currentPageId := nextLeaf, currentPosition := 0 }
        else ({ c with exhausted := true }, .ok ())

/-- `advance_to_next_visible`: on past what the snapshot does not see. -/
def advanceToNextVisible (c : BTreeCursor) : Outcome BTreeCursor TreeError Unit :=
  scan.advanceFrom (scan.file.nextPage + 1) c

/-- The loop of `retreat_to_prev_visible` from a position down. -/
def retreatFrom : ℕ → BTreeCursor → Outcome BTreeCursor TreeError Unit
  | 0, c => (c.exhaust, .ok ())
  | n + 1, c =>
    andThen (scan.loadCurrentEntry { c with currentPosition := n }) fun c _ =>
      if c.currentKey.isSome then (c, .ok ()) else retreatFrom n c

/-- `retreat_to_prev_visible`. -/
def retreatToPrevVisible (c : BTreeCursor) : Outcome BTreeCursor TreeError Unit :=
  scan.retreatFrom c.currentPosition c

/-- The cursor put on a leaf and moved on to an entry it shows. -/
def advanceAt (c : BTreeCursor) (page : PageId) (position : ℕ) : Outcome BTreeCursor TreeError Unit :=
  scan.advanceToNextVisible { c with currentPageId := page, currentPosition := position }

/-- The cursor put where a search ends, `skip` entries further on. -/
def seekPast (skip : ℕ) (key : Key) (c : BTreeCursor) : Outcome BTreeCursor TreeError Unit :=
  match scan.file.search scan.root key with
  | .error e => (c, .error e)
  | .ok (page, position) => scan.advanceAt c page (position + skip)

/-- The cursor put on the first leaf. -/
def seekLeftmost (c : BTreeCursor) : Outcome BTreeCursor TreeError Unit :=
  match scan.file.findLeftmostLeaf scan.root with
  | .error e => (c, .error e)
  | .ok page => scan.advanceAt c page 0

/-- `seek`. A key before an included start is a `seek` of the start; from an excluded start the
cursor goes on behind the position of the start. -/
def seek (key : Key) (c : BTreeCursor) : Outcome BTreeCursor TreeError Unit :=
  let c := { c with initialized := true, exhausted := false }
  if scan.bounds.contains key then scan.seekPast 0 key c
  else match scan.bounds with
    | .range (.included k) _ =>
      if key < k ∧ scan.bounds.contains k then scan.seekPast 0 k c else (c.exhaust, .ok ())
    | .range (.excluded k) _ =>
      if key ≤ k then scan.seekPast 1 k c else (c.exhaust, .ok ())
    | _ => (c.exhaust, .ok ())

/-- `next`, but for a cursor that was not positioned yet. -/
def nextPositioned (c : BTreeCursor) : Outcome BTreeCursor TreeError Unit :=
  if c.exhausted then (c, .ok ())
  else scan.advanceToNextVisible { c with currentPosition := c.currentPosition + 1 }

/-- `first`, from the lower bound. -/
def first (c : BTreeCursor) : Outcome BTreeCursor TreeError Unit :=
  let c := { c with initialized := true, exhausted := false }
  match scan.bounds with
  | .all => scan.seekLeftmost c
  | .startingWith p => scan.seek p c
  | .range (.included k) _ => scan.seek k c
  | .range (.excluded k) _ =>
    andThen (scan.seek k c) fun c _ =>
      if c.valid ∧ c.currentKey = some k then scan.nextPositioned c else (c, .ok ())
  | .range .unbounded _ => scan.seekLeftmost c

/-- `last`, from the last leaf. -/
def last (c : BTreeCursor) : Outcome BTreeCursor TreeError Unit :=
  let c := { c with initialized := true, exhausted := false }
  match scan.file.findRightmostLeaf scan.root with
  | .error e => (c, .error e)
  | .ok page =>
    let c := { c with currentPageId := page }
    match scan.file.readNode page with
    | .error e => (c, .error e)
    | .ok (.internal _ _) => (c, .ok ())
    | .ok (.leaf [] _) => (c.exhaust, .ok ())
    | .ok (.leaf (_ :: entries) _) =>
      andThen (scan.loadCurrentEntry { c with currentPosition := entries.length }) fun c _ =>
        if c.currentKey = none then scan.retreatToPrevVisible c else (c, .ok ())

def next (c : BTreeCursor) : Outcome BTreeCursor TreeError Unit :=
  if c.initialized then scan.nextPositioned c else scan.first c

def prev (c : BTreeCursor) : Outcome BTreeCursor TreeError Unit :=
  if c.initialized then
    if c.exhausted then (c, .ok ()) else scan.retreatToPrevVisible c
  else scan.last c

/-- `PagedBTreeCursor::new`: at the first entry; an error on the way there is ignored. -/
def newCursor : BTreeCursor := (scan.first ⟨0, 0, none, none, false, false⟩).1

/-- What a new cursor shows, moved by `next` until it is invalid. -/
def forward (fuel : ℕ) : Option (List (Key × Option Bytes)) :=
  Stream.collect BTreeCursor.item (fun c => (scan.next c).1) fuel scan.newCursor

/-- What the cursor shows from `last` on, moved by `prev` until it is invalid. -/
def backward (fuel : ℕ) : Option (List (Key × Option Bytes)) :=
  Stream.collect BTreeCursor.item (fun c => (scan.prev c).1) fuel (scan.last scan.newCursor).1

end Scan

/-- `scan` of a table. -/
def BTreeTable.scan (table : BTreeTable) (bounds : ScanBounds) (snapshotLsn : ℕ) : Scan :=
  ⟨table.volume.file, table.root, bounds, snapshotLsn⟩

/-! ## What a cursor shows

Moved forward, a cursor shows the entries ahead of it that are in bounds
and visible, across all leaf boundaries. Where it starts is another matter:
an excluded start that has no entry costs the first key above it, if that
is on the same leaf, and from an internal page without entries the leftmost
leaf is not found.
-/

open List ScanBounds

/-! ## Moving forward -/

variable {entries : List LeafEntry} {value : Bytes} {key : Key}

namespace Scan

variable (scan : Scan)

/-- What the cursor shows of an entry. -/
def shown (e : LeafEntry) : Option (Key × Option Bytes) :=
  (scan.visible e).map fun value => (e.key, some value)

/-- What is shown of the entries ahead: the visible ones before the first that is out of bounds. -/
def ahead (entries : List LeafEntry) : List (Key × Option Bytes) :=
  (entries.takeWhile fun e => scan.bounds.contains e.key).filterMap scan.shown

variable {scan} {e : LeafEntry} {rest : List LeafEntry} {c : BTreeCursor}

theorem ahead_cons_of_out (h : scan.bounds.contains e.key = false) : scan.ahead (e :: entries) = [] := by
  simp [ahead, h]

theorem ahead_cons_of_hidden (h : scan.bounds.contains e.key = true) (hvis : scan.visible e = none) :
    scan.ahead (e :: entries) = scan.ahead entries := by
  simp [ahead, h, shown, hvis]

theorem ahead_cons_of_visible (h : scan.bounds.contains e.key = true) (hvis : scan.visible e = some value) :
    scan.ahead (e :: entries) = (e.key, some value) :: scan.ahead entries := by
  simp [ahead, h, shown, hvis]

/-- The cursor has these items ahead: it is at the first of them, or over. -/
inductive Ahead (scan : Scan) (leaves : List LeafPage) : BTreeCursor → List (Key × Option Bytes) → Prop
  | ended {c : BTreeCursor} (hover : c.item = none) : Ahead scan leaves c []
  | placed {c : BTreeCursor} {before after : List LeafPage} {leaf : LeafPage} {e : LeafEntry}
      {value : Bytes} {rest : List LeafEntry} (hinit : c.initialized = true)
      (hgoing : c.exhausted = false) (hleaves : leaves = before ++ leaf :: after)
      (hpage : c.currentPageId = leaf.page)
      (hposition : leaf.entries.drop c.currentPosition = e :: rest)
      (hkey : c.currentKey = some e.key) (hval : c.currentValue = some value) :
      Ahead scan leaves c ((e.key, some value) :: scan.ahead (rest ++ contents after))

theorem item_of_exhausted (h : c.exhausted = true) : c.item = none := by
  simp [BTreeCursor.item, BTreeCursor.valid, h]

variable {leaves : List LeafPage} {leaf : LeafPage} {fuel : ℕ} {items : List (Key × Option Bytes)}
  {before after : List LeafPage} {nextLeaf : PageId}

theorem loadCurrentEntry_eq (hpage : scan.file.pages c.currentPageId = some (.leaf entries nextLeaf))
    (hposition : entries.drop c.currentPosition = e :: rest) : scan.loadCurrentEntry c =
      (if scan.bounds.contains e.key then
        match scan.visible e with
        | none => c.clear
        | some value => { c with currentKey := some e.key, currentValue := some value }
      else c.exhaust, .ok ()) := by
  have hat : entries[c.currentPosition]? = some e := by
    rw [← head?_drop, hposition, head?_cons]
  simp only [loadCurrentEntry, PageFile.readNode, hpage, loadEntry, hat]

/-- **Within a leaf** the cursor finds its place, or passes entries that show nothing. -/
theorem advanceInLeaf_cases (hpage : scan.file.pages c.currentPageId = some (.leaf entries nextLeaf))
    (hposition : entries.drop c.currentPosition = rest) (hgoing : c.exhausted = false)
    (hinit : c.initialized = true) : ∃ c', c'.currentPageId = c.currentPageId ∧ c'.initialized = true ∧
      ((scan.advanceInLeaf rest.length c = (c', .ok false) ∧ c'.exhausted = false ∧
          ∀ more, scan.ahead (rest ++ more) = scan.ahead more) ∨
        (scan.advanceInLeaf rest.length c = (c', .ok true) ∧
          ((c'.exhausted = true ∧ ∀ more, scan.ahead (rest ++ more) = []) ∨
            ∃ e value tail, c'.exhausted = false ∧ entries.drop c'.currentPosition = e :: tail ∧
              c'.currentKey = some e.key ∧ c'.currentValue = some value ∧ ∀ more, scan.ahead (rest ++ more) =
                (e.key, some value) :: scan.ahead (tail ++ more)))) := by
  induction rest generalizing c with
  | nil => exact ⟨c, rfl, hinit, .inl ⟨rfl, hgoing, fun _ => rfl⟩⟩
  | cons e rest ih =>
    have hload := loadCurrentEntry_eq hpage hposition
    simp only [length_cons, advanceInLeaf, hload, andThen_ok]
    by_cases hin : scan.bounds.contains e.key = true
    · rw [if_pos hin]
      cases hvis : scan.visible e with
      | none =>
        -- nothing is shown here: on to the next entry
        have hgo : ¬ (c.clear.currentKey.isSome = true ∨ c.clear.exhausted = true) := by
          simp [BTreeCursor.clear, hgoing]
        simp only [if_neg hgo]
        have hnext : entries.drop (c.currentPosition + 1) = rest := by
          rw [← drop_drop, hposition, drop_one, tail_cons]
        obtain ⟨c', hpage', hinit', hcases⟩ :=
          ih (c := { c.clear with currentPosition := c.currentPosition + 1 }) hpage hnext hgoing hinit
        refine ⟨c', hpage', hinit', ?_⟩
        have hskip : ∀ more, scan.ahead (e :: rest ++ more) = scan.ahead (rest ++ more) := fun more =>
          ahead_cons_of_hidden hin hvis
        simp only [hskip]
        exact hcases
      | some value =>
        simp only [Option.isSome_some, true_or, if_true]
        refine ⟨{ c with currentKey := some e.key, currentValue := some value }, rfl, hinit,
          .inr ⟨rfl, .inr ⟨e, value, rest, hgoing, hposition, rfl, rfl, fun more => ?_⟩⟩⟩
        exact ahead_cons_of_visible hin hvis
    · have hout : scan.bounds.contains e.key = false := by simpa using hin
      rw [if_neg hin]
      refine ⟨c.exhaust, rfl, hinit, .inr ⟨if_pos (.inr rfl), .inl ⟨rfl, fun more => ?_⟩⟩⟩
      exact ahead_cons_of_out hout

/-- **Along the leaves** the cursor comes to have ahead what was ahead of its position. -/
theorem advanceFrom_ahead (hleaves : leaves = before ++ leaf :: after) (hlinked : Linked leaves 0)
    (hpages : ∀ leaf ∈ leaves, 0 < leaf.page ∧
      scan.file.pages leaf.page = some (.leaf leaf.entries leaf.nextLeaf))
    (hat : c.currentPageId = leaf.page) (hgoing : c.exhausted = false)
    (hinit : c.initialized = true) (hfuel : after.length < fuel) :
    ∃ c', scan.advanceFrom fuel c = (c', .ok ()) ∧
      Ahead scan leaves c' (scan.ahead (leaf.entries.drop c.currentPosition ++ contents after)) := by
  induction fuel generalizing before leaf after c with
  | zero => omega
  | succ fuel ih =>
    have hpage := (hpages leaf (by simp [hleaves])).2
    rw [← hat] at hpage
    obtain ⟨c', hpage', hinit', hcases⟩ := advanceInLeaf_cases hpage rfl hgoing hinit
    simp only [advanceFrom, PageFile.readNode, hpage, ← length_drop]
    rcases hcases with ⟨hrun, hgoing', hmore⟩ | ⟨hrun, ⟨hover, hmore⟩ | ⟨e, value, tail, hgoing', hposition,
        hkey, hval, hmore⟩⟩
    · -- the leaf is used up, and the cursor goes on with the next one
      have hlinks := linked_append.mp (hleaves ▸ hlinked : Linked (before ++ leaf :: after) 0)
      rw [hrun, andThen_ok, hmore]
      cases after with
      | nil =>
        have hlast : leaf.nextLeaf = 0 := hlinks.2.1
        simp only [Bool.false_eq_true, if_false, hlast, ne_eq, not_true_eq_false]
        exact ⟨_, rfl, .ended (item_of_exhausted rfl)⟩
      | cons leaf' after =>
        have hnext : leaf.nextLeaf = leaf'.page := hlinks.2.1
        have hpos : leaf.nextLeaf ≠ 0 := hnext ▸ (hpages leaf' (by simp [hleaves])).1.ne'
        simp only [Bool.false_eq_true, if_false, hpos, ne_eq, not_false_eq_true, if_true]
        rw [contents_cons]
        have hrest : leaves = (before ++ [leaf]) ++ leaf' :: after := by simp [hleaves]
        exact ih (c := { c' with currentPageId := leaf.nextLeaf, currentPosition := 0 }) hrest hnext
          hgoing' hinit' (by simpa using hfuel)
    · rw [hrun, andThen_ok, hmore]
      exact ⟨c', rfl, .ended (item_of_exhausted hover)⟩
    · rw [hrun, andThen_ok, hmore]
      exact ⟨c', rfl, .placed hinit' hgoing' hleaves (hpage'.trans hat) hposition hkey hval⟩

section

variable (hwalk : Walk scan.file leaves)
include hwalk

theorem advanceToNextVisible_ahead
    (hleaves : leaves = before ++ leaf :: after) (hat : c.currentPageId = leaf.page)
    (hgoing : c.exhausted = false) (hinit : c.initialized = true) :
    ∃ c', scan.advanceToNextVisible c = (c', .ok ()) ∧
      Ahead scan leaves c' (scan.ahead (leaf.entries.drop c.currentPosition ++ contents after)) := by
  have hlen : after.length < scan.file.nextPage + 1 := by
    have hle := hwalk.length_le
    rw [hleaves, length_append, length_cons] at hle
    omega
  exact advanceFrom_ahead hleaves hwalk.linked hwalk.pages hat hgoing hinit hlen

/-- **One step**: the cursor shows the first item ahead, and `next` leaves the others. -/
theorem Ahead.step (h : Ahead scan leaves c items) :
    c.item = none ∧ items = [] ∨
      ∃ a rest, c.item = some a ∧ items = a :: rest ∧ Ahead scan leaves (scan.next c).1 rest := by
  cases h with
  | ended hover => exact .inl ⟨hover, rfl⟩
  | @placed before after leaf e value rest hinit hgoing hleaves hpage hposition hkey hval =>
    refine .inr ⟨(e.key, some value), _, ?_, rfl, ?_⟩
    · simp [BTreeCursor.item, BTreeCursor.valid, hgoing, hkey, hval]
    · have hnext : leaf.entries.drop (c.currentPosition + 1) = rest := by
        rw [← drop_drop, hposition, drop_one, tail_cons]
      obtain ⟨c', hrun, hahead⟩ := advanceToNextVisible_ahead
        (c := { c with currentPosition := c.currentPosition + 1 }) hwalk hleaves hpage hgoing hinit
      have hstep : scan.next c = (c', .ok ()) := by
        have hon : ¬ c.exhausted = true := by simp [hgoing]
        rw [next, if_pos hinit, nextPositioned, if_neg hon]
        exact hrun
      rw [hstep, ← hnext]
      exact hahead

end

/-! ## Where a cursor starts -/

/-- The keys a new cursor does not come by: all of them if the leftmost leaf is needed and not found,
and the one a search for an excluded start ends on instead of the start. -/
def Overlooked (scan : Scan) (key : Key) : Prop :=
  match scan.bounds with
  | .all => ∀ page, scan.file.findLeftmostLeaf scan.root ≠ .ok page
  | .range .unbounded _ => ∀ page, scan.file.findLeftmostLeaf scan.root ≠ .ok page
  | .range (.excluded k) _ => key ≠ k ∧ ∃ found e, scan.file.searchWithPath scan.root k = .ok found ∧
      found.entries[leafPosition k found.entries]? = some e ∧ e.key = key
  | _ => False

section Start

variable {lo : WithBot Key} {hi : WithTop Key}

theorem findLeftmostLeafFrom_eq {file : PageFile} {height : ℕ} {page found : PageId} {used : Multiset PageId}
    (h : Subtree file.pages height lo hi page leaves used)
    (hfound : file.findLeftmostLeafFrom fuel page = .ok found) : found = firstPage leaves 0 := by
  induction height generalizing lo hi page leaves used fuel with
  | zero =>
    cases fuel with
    | zero => cases hfound
    | succ fuel =>
      obtain ⟨entries, nextLeaf, hpage, -, -, rfl, -⟩ := h
      simp only [PageFile.findLeftmostLeafFrom, PageFile.readNode, hpage] at hfound
      cases hfound
      rfl
  | succ height ih =>
    cases fuel with
    | zero => cases hfound
    | succ fuel =>
      obtain ⟨entries, rightmost, below, hpage, hkids, rfl⟩ := h
      simp only [PageFile.findLeftmostLeafFrom, PageFile.readNode, hpage] at hfound
      cases hkids with
      | last h => cases hfound
      | @cons _ _ _ _ _ leaves leaves' _ _ h _ _ =>
        obtain ⟨leaf, rest, rfl⟩ := exists_cons_of_ne_nil h.laid.nonempty
        have hkid := ih h hfound
        exact hkid

variable {around : Multiset PageId} {right left : List LeafPage} {path : List PageId}

theorem drop_leafPosition (h : Ascending entries) :
    entries.drop (leafPosition key entries) = entries.filter fun e => key ≤ e.key := by
  induction entries with
  | nil => rfl
  | cons e entries ih =>
    by_cases hle : key ≤ e.key
    · have hall : ∀ e' ∈ e :: entries, decide (key ≤ e'.key) = true := by
        intro e' he'
        rcases mem_cons.mp he' with rfl | he'
        · simpa using hle
        · simpa using hle.trans (rel_of_pairwise_cons h he').le
      rw [filter_eq_self.mpr hall]
      simp [leafPosition, findIdx_cons, hle]
    · have ih := ih (List.Pairwise.of_cons h)
      simpa [leafPosition, findIdx_cons, hle] using ih

/-- What a search for a key has ahead: the keys at or above it. -/
theorem drop_leafPosition_append
    (hloc : Located scan.file scan.root leaves key leaf path lo hi left right around) :
    leaf.entries.drop (leafPosition key leaf.entries) ++ contents right =
      (contents leaves).filter fun e => key ≤ e.key := by
  obtain ⟨hleft, hright⟩ := hloc.beside
  have hbefore : (contents left).filter (fun e => decide (key ≤ e.key)) = [] :=
    filter_eq_nil_iff.mpr fun e he => by simpa using hleft e he
  have hafter : (contents right).filter (fun e => decide (key ≤ e.key)) = contents right :=
    filter_eq_self.mpr fun e he => by simpa using (hright e he).le
  rw [hloc.leaves_eq, contents_append, contents_cons, filter_append, filter_append,
    hbefore, hafter, drop_leafPosition hloc.sorted, nil_append]

/-- The cursor has ahead the entries in bounds that are not overlooked, and no entry below the lower
end. -/
def Opened (scan : Scan) (leaves : List LeafPage) (c : BTreeCursor) : Prop :=
  ∃ entries, Ahead scan leaves c (scan.ahead entries) ∧ entries.Sublist (contents leaves) ∧
    (∀ e ∈ entries, scan.bounds.starts e.key = true) ∧
    ∀ e ∈ contents leaves, scan.bounds.contains e.key = true → (e ∈ entries ↔ ¬ scan.Overlooked e.key)

section Seek

variable (htree : Tree scan.file scan.root leaves) (hgoing : c.exhausted = false)
  (hinit : c.initialized = true)

include htree hgoing hinit

theorem seekLeftmost_cases : (∃ page c', scan.file.findLeftmostLeaf scan.root = .ok page ∧
      scan.seekLeftmost c = (c', .ok ()) ∧ Ahead scan leaves c' (scan.ahead (contents leaves))) ∨
    ∃ e, scan.file.findLeftmostLeaf scan.root = .error e ∧ scan.seekLeftmost c = (c, .error e) := by
  rw [seekLeftmost]
  cases hfind : scan.file.findLeftmostLeaf scan.root with
  | error e => exact .inr ⟨e, rfl, rfl⟩
  | ok page =>
    obtain ⟨height, used, hsub, -⟩ := htree.shape
    obtain ⟨leaf, after, rfl⟩ := exists_cons_of_ne_nil hsub.laid.nonempty
    have hpage : page = leaf.page := findLeftmostLeafFrom_eq hsub hfind
    obtain ⟨c', hrun, hahead⟩ := advanceToNextVisible_ahead
      (c := { c with currentPageId := page, currentPosition := 0 }) htree.walk
      (nil_append (leaf :: after)).symm hpage hgoing hinit
    exact .inl ⟨page, c', rfl, hrun, hahead⟩

theorem seekPast_ahead
    (hloc : Located scan.file scan.root leaves key leaf path lo hi left right around) (skip : ℕ) :
    ∃ c', scan.seekPast skip key c = (c', .ok ()) ∧ Ahead scan leaves c' (scan.ahead
        (leaf.entries.drop (leafPosition key leaf.entries + skip) ++ contents right)) := by
  rw [seekPast, PageFile.search, hloc.found]
  exact advanceToNextVisible_ahead (c := { c with
    currentPageId := leaf.page, currentPosition := leafPosition key leaf.entries + skip })
    htree.walk hloc.leaves_eq rfl hgoing hinit

theorem opened_leftmost (hclear : c.currentKey = none) (hstarts : ∀ k, scan.bounds.starts k = true)
    (hoverlooked : ∀ k, scan.Overlooked k ↔ ∀ page, scan.file.findLeftmostLeaf scan.root ≠ .ok page) :
    scan.Opened leaves (scan.seekLeftmost c).1 := by
  rcases seekLeftmost_cases htree hgoing hinit with ⟨page, c', hfind, hrun, hahead⟩ | ⟨e, hfind, hrun⟩
  · rw [hrun]
    refine ⟨contents leaves, hahead, List.Sublist.refl _, fun e _ => hstarts e.key, fun e he _ => ?_⟩
    simp [he, hoverlooked, hfind]
  · rw [hrun]
    refine ⟨[], .ended ?_, nil_sublist _, by simp, fun e _ _ => ?_⟩
    · simp [BTreeCursor.item, BTreeCursor.valid, hclear]
    · simp [hoverlooked, hfind]

theorem opened_at (hstarts : ∀ k, scan.bounds.starts k = true ↔ key ≤ k)
    (hoverlooked : ∀ k, ¬ scan.Overlooked k) : scan.Opened leaves (scan.seekPast 0 key c).1 := by
  obtain ⟨leaf, path, lo, hi, left, right, around, hloc⟩ := htree.search key
  obtain ⟨c', hrun, hahead⟩ := seekPast_ahead htree hgoing hinit hloc 0
  rw [Nat.add_zero, drop_leafPosition_append hloc] at hahead
  rw [hrun]
  refine ⟨_, hahead, filter_sublist, fun e he => ?_, fun e he hin => ?_⟩
  · exact (hstarts e.key).mpr (by simpa using (mem_filter.mp he).2)
  · have hle := (hstarts e.key).mp (starts_of_contains hin)
    simp [he, hle, hoverlooked]

/-- From behind an excluded start: the entry the search ends on is passed over, whatever its key. -/
theorem opened_behind (hstarts : ∀ k, scan.bounds.starts k = true ↔ key < k)
    (hoverlooked : ∀ k, scan.Overlooked k ↔ k ≠ key ∧ ∃ found e,
      scan.file.searchWithPath scan.root key = .ok found ∧
        found.entries[leafPosition key found.entries]? = some e ∧ e.key = k) :
    scan.Opened leaves (scan.seekPast 1 key c).1 := by
  obtain ⟨leaf, path, lo, hi, left, right, around, hloc⟩ := htree.search key
  obtain ⟨c', hrun, hahead⟩ := seekPast_ahead htree hgoing hinit hloc 1
  have hfrom := drop_leafPosition_append hloc
  have hoverlooked : ∀ k, scan.Overlooked k ↔ k ≠ key ∧ ∃ e,
      leaf.entries[leafPosition key leaf.entries]? = some e ∧ e.key = k := by
    intro k
    rw [hoverlooked k, hloc.found]
    simp
  rw [hrun]
  have hsort : Ascending ((contents leaves).filter fun e => key ≤ e.key) :=
    List.Pairwise.filter _ htree.ascending
  cases hdrop : leaf.entries.drop (leafPosition key leaf.entries) with
  | nil =>
    -- the search ends behind the leaf, and nothing is passed over
    have hdrop' : leaf.entries.drop (leafPosition key leaf.entries + 1) = [] := by
      rw [← drop_drop, hdrop, drop_nil]
    have hnone : leaf.entries[leafPosition key leaf.entries]? = none := by
      rw [← head?_drop, hdrop, head?_nil]
    rw [hdrop', nil_append] at hahead
    rw [hdrop, nil_append] at hfrom
    have hright : ∀ e ∈ contents right, key < e.key := hloc.beside.2
    refine ⟨_, hahead, ?_, fun e he => (hstarts e.key).mpr (hright e he), fun e he hin => ?_⟩
    · rw [hfrom]
      exact filter_sublist
    · have hlt := (hstarts e.key).mp (starts_of_contains hin)
      rw [hfrom, hoverlooked, hnone]
      simp [he, hlt.le]
  | cons e₀ tail =>
    have hdrop' : leaf.entries.drop (leafPosition key leaf.entries + 1) = tail := by
      rw [← drop_drop, hdrop, drop_one, tail_cons]
    have hsome : leaf.entries[leafPosition key leaf.entries]? = some e₀ := by
      rw [← head?_drop, hdrop, head?_cons]
    rw [hdrop'] at hahead
    rw [hdrop, cons_append] at hfrom
    rw [← hfrom] at hsort
    have hle₀ : key ≤ e₀.key := by
      have hmem : e₀ ∈ (contents leaves).filter fun e => key ≤ e.key := by simp [← hfrom]
      simpa using (mem_filter.mp hmem).2
    have habove : ∀ e ∈ tail ++ contents right, e₀.key < e.key := fun e he =>
      rel_of_pairwise_cons hsort he
    refine ⟨_, hahead, ?_, fun e he => (hstarts e.key).mpr (hle₀.trans_lt (habove e he)), fun e he hin => ?_⟩
    · have hsub : (e₀ :: (tail ++ contents right)).Sublist (contents leaves) := by
        rw [hfrom]
        exact filter_sublist
      exact (sublist_cons_self _ _).trans hsub
    · have hlt := (hstarts e.key).mp (starts_of_contains hin)
      have hmem : e ∈ e₀ :: (tail ++ contents right) := by
        rw [hfrom]
        exact mem_filter.mpr ⟨he, by simpa using hlt.le⟩
      rw [hoverlooked, hsome]
      constructor
      · rintro hin ⟨-, e', he', hkey⟩
        cases he'
        exact (habove e hin).ne hkey
      · intro hseen
        rcases mem_cons.mp hmem with rfl | htail
        · exact absurd ⟨hlt.ne', e, rfl, rfl⟩ hseen
        · exact htail

end Seek

variable {a : Key × Option Bytes}

theorem Ahead.mem_of_item (hwalk : Walk scan.file leaves)
    (h : Ahead scan leaves c items) (hitem : c.item = some a) : a ∈ items := by
  rcases h.step hwalk with ⟨hnone, -⟩ | ⟨a', rest, hsome, rfl, -⟩
  · rw [hnone] at hitem
    cases hitem
  · rw [hsome, Option.some.injEq] at hitem
    exact hitem ▸ mem_cons_self

theorem exists_of_mem_ahead (h : a ∈ scan.ahead entries) :
    ∃ e ∈ entries, scan.bounds.contains e.key = true ∧ scan.shown e = some a := by
  obtain ⟨e, he, hshown⟩ := mem_filterMap.mp h
  exact ⟨e, ( takeWhile_prefix _).subset he, all_eq_true.mp all_takeWhile e he, hshown⟩

theorem key_of_shown (h : scan.shown e = some a) : a.1 = e.key := by
  obtain ⟨value, -, rfl⟩ := Option.map_eq_some_iff.mp h
  rfl

/-- **A new cursor is opened.** -/
theorem newCursor_opened (htree : Tree scan.file scan.root leaves) : scan.Opened leaves scan.newCursor := by
  rw [newCursor, first]
  cases hbounds : scan.bounds with
  | all =>
    refine opened_leftmost htree rfl rfl rfl (fun k => ?_) (fun k => ?_)
    · simp [hbounds, starts]
    · simp [Overlooked, hbounds]
  | startingWith p =>
    have hin : scan.bounds.contains p = true := by simp [hbounds, ScanBounds.contains]
    simp only [seek, if_pos hin]
    refine opened_at htree rfl rfl (fun k => ?_) (fun k => ?_)
    · simp [hbounds, starts]
    · simp [Overlooked, hbounds]
  | range start finish =>
    cases start with
    | unbounded =>
      refine opened_leftmost htree rfl rfl rfl (fun k => ?_) (fun k => ?_)
      · rw [hbounds]
        rfl
      · simp [Overlooked, hbounds]
    | included k =>
      have hstarts : ∀ k', scan.bounds.starts k' = true ↔ k ≤ k' := fun k' => by
        simp [hbounds, starts, Bound.below]
      by_cases hin : scan.bounds.contains k = true
      · simp only [seek, if_pos hin]
        exact opened_at htree rfl rfl hstarts fun k' => by simp [Overlooked, hbounds]
      · -- the start is above the end
        have hnone : ∀ k', scan.bounds.contains k' = true → False := fun k' hin' =>
          hin (contains_of_starts ((hstarts k).mpr le_rfl) ((hstarts k').mp (starts_of_contains hin')) hin')
        rw [hbounds] at hin
        simp only [seek, hbounds, if_neg hin, lt_irrefl, false_and, if_false]
        exact ⟨[], .ended (item_of_exhausted rfl), nil_sublist _, by simp,
          fun e _ hin' => (hnone e.key hin').elim⟩
    | excluded k =>
      have hstarts : ∀ k', scan.bounds.starts k' = true ↔ k < k' := fun k' => by
        simp [hbounds, starts, Bound.below]
      have hout : ¬ scan.bounds.contains k = true := fun hin =>
        lt_irrefl k ((hstarts k).mp (starts_of_contains hin))
      have hopened := opened_behind (c := ⟨0, 0, none, none, false, true⟩) htree rfl rfl hstarts
        fun k' => by simp [Overlooked, hbounds]
      rw [hbounds] at hout
      simp only [seek, hbounds, if_neg hout, le_refl, if_true]
      obtain ⟨leaf, path, lo, hi, left, right, around, hloc⟩ := htree.search k
      obtain ⟨c', hrun, -⟩ := seekPast_ahead (c := ⟨0, 0, none, none, false, true⟩) htree rfl rfl hloc 1
      rw [hrun] at hopened
      -- the cursor is past the start, so there is no second step
      have hpast : ¬ (c'.valid = true ∧ c'.currentKey = some k) := by
        rintro ⟨hvalid, hkey⟩
        obtain ⟨entries, hahead, -, hbeyond, -⟩ := hopened
        have hitem : c'.item = some (k, c'.currentValue) := by simp [BTreeCursor.item, hvalid, hkey]
        obtain ⟨e, he, -, hshown⟩ := exists_of_mem_ahead (hahead.mem_of_item htree.walk hitem)
        have heq : k = e.key := key_of_shown hshown
        exact absurd heq ((hstarts e.key).mp (hbeyond e he)).ne
      simp only [hrun, andThen_ok, if_neg hpast]
      exact hopened

theorem mem_ahead_append {before after : List LeafEntry}
    (hbefore : ∀ e' ∈ before, scan.bounds.contains e'.key = true)
    (hin : scan.bounds.contains e.key = true) (hshown : scan.shown e = some a) :
    a ∈ scan.ahead (before ++ e :: after) := by
  have hmem : e ∈ (before ++ e :: after).takeWhile fun e => scan.bounds.contains e.key := by
    rw [takeWhile_append_of_pos hbefore, takeWhile_cons, if_pos hin]
    exact mem_append_right _ mem_cons_self
  exact mem_filterMap.mpr ⟨e, hmem, hshown⟩

theorem ahead_pairwise {R : Key → Key → Prop} (h : entries.Pairwise fun e e' => R e.key e'.key) :
    (scan.ahead entries).Pairwise fun a b => R a.1 b.1 := by
  refine List.Pairwise.filterMap _ (fun e e' hrel a ha b hb => ?_) (h.sublist (takeWhile_sublist _))
  rw [key_of_shown ha, key_of_shown hb]
  exact hrel

/-- **What a new cursor shows**: once each, in ascending order, the entries in bounds that are visible
and not overlooked. -/
theorem forward_shows (scan : Scan) (htree : Tree scan.file scan.root leaves) :
    ∃ items, (∃ fuel, scan.forward fuel = some items) ∧ items.Pairwise (fun a b => a.1 < b.1) ∧
      ∀ a, a ∈ items ↔ ∃ e ∈ contents leaves, scan.bounds.contains e.key = true ∧
        ¬ scan.Overlooked e.key ∧ scan.shown e = some a := by
  obtain ⟨entries, hahead, hsub, hstarts, hmem⟩ := newCursor_opened htree
  have hsort : Ascending entries := htree.ascending.sublist hsub
  refine ⟨scan.ahead entries, ⟨_, Stream.collect_eq (fun _ _ h => h.step htree.walk) hahead (Nat.lt_succ_self _)⟩,
    ahead_pairwise hsort, fun a => ⟨fun ha => ?_, ?_⟩⟩
  · obtain ⟨e, he, hin, hshown⟩ := exists_of_mem_ahead ha
    have hconts := hsub.subset he
    exact ⟨e, hconts, hin, (hmem e hconts hin).mp he, hshown⟩
  · rintro ⟨e, he, hin, hseen, hshown⟩
    exact mem_filterMap.mpr ⟨e, mem_takeWhile hsort hstarts ((hmem e he hin).mpr hseen) hin, hshown⟩

end Start

end Scan

/-! ## Scans and reads -/

namespace BTreeTable

variable {table : BTreeTable}

theorem Holds.get_eq_some_iff (h : table.Holds entries) {codec : PageCodec} {bounds : ScanBounds} {s : ℕ} :
    table.get codec key s = .ok (some value) ↔ ∃ e ∈ entries, e.key = key ∧
      ∃ raw, (table.scan bounds s).visible e = some raw ∧ table.volume.resolve codec raw = .ok value := by
  rw [h.get]
  constructor
  · intro hget
    cases hread : readOn entries key s with
    | none => simp [hread, Volume.answer] at hget
    | some raw =>
      obtain ⟨chain, hchain, hraw⟩ := Option.bind_eq_some_iff.mp hread
      obtain ⟨e, hfind, rfl⟩ := Option.map_eq_some_iff.mp hchain
      have hkey : e.key = key := by simpa using find?_some hfind
      refine ⟨e, mem_of_find?_eq_some hfind, hkey, raw, hraw, ?_⟩
      rw [hread] at hget
      cases hresolve : table.volume.resolve codec raw with
      | error e => simp [Volume.answer, hresolve, Except.map] at hget
      | ok data => simpa [Volume.answer, hresolve, Except.map] using hget
  · rintro ⟨e, he, rfl, raw, hraw, hresolve⟩
    have hread : readOn entries e.key s = some raw := by
      rw [readOn, h.ascending.chainOn_of_mem he]
      exact hraw
    rw [hread, Volume.answer, hresolve]
    rfl

/-- The items are the keys in bounds that are read at the snapshot, in ascending order, each with the
value read. -/
structure ScansAs (table : BTreeTable) (codec : PageCodec) (bounds : ScanBounds) (s : ℕ)
    (items : List (Key × Option Bytes)) : Prop where
  ascending : items.Pairwise fun a b => a.1 < b.1
  exact : ∀ key value, (key, value) ∈ items ↔ bounds.contains key = true ∧
    ∃ data, value = some data ∧ table.get codec key s = .ok (some data)

/-- **A scan shows what reads find** if and only if no readable entry in bounds is overlooked, and the
others hold their values and not references to them. -/
theorem scan_exact_iff (codec : PageCodec) (table : BTreeTable) (entries : List LeafEntry)
    (hholds : table.Holds entries) (bounds : ScanBounds) (s : ℕ) :
    (∃ fuel items, (table.scan bounds s).forward fuel = some items ∧ table.ScansAs codec bounds s items) ↔
    ∀ e ∈ entries, bounds.contains e.key = true → ∀ raw, (table.scan bounds s).visible e = some raw →
      ((table.scan bounds s).Overlooked e.key → ∀ value, table.volume.resolve codec raw ≠ .ok value) ∧
      (¬ (table.scan bounds s).Overlooked e.key → table.volume.resolve codec raw = .ok raw) := by
  have hread : ∀ key value, table.get codec key s = .ok (some value) ↔ ∃ e ∈ entries, e.key = key ∧
      ∃ raw, (table.scan bounds s).visible e = some raw ∧
        table.volume.resolve codec raw = .ok value := fun _ _ => hholds.get_eq_some_iff
  obtain ⟨leaves, htree, rfl⟩ := hholds
  obtain ⟨items, ⟨fuel, hfwd⟩, hasc, hmem⟩ := (table.scan bounds s).forward_shows htree
  constructor
  · rintro ⟨fuel', items', hfwd', -, hexact⟩ e he hin raw hraw
    obtain rfl := Stream.collect_unique hfwd hfwd'
    constructor
    · intro hoverlooked value hresolve
      have hget := (hread e.key value).mpr ⟨e, he, rfl, raw, hraw, hresolve⟩
      obtain ⟨e', -, -, hseen, hshown⟩ := (hmem _).mp ((hexact e.key _).mpr ⟨hin, value, rfl, hget⟩)
      rw [← Scan.key_of_shown hshown] at hseen
      exact hseen hoverlooked
    · intro hseen
      have hshown : (table.scan bounds s).shown e = some (e.key, some raw) := by
        simp [Scan.shown, hraw]
      obtain ⟨-, value, hval, hget⟩ := (hexact e.key _).mp ((hmem _).mpr ⟨e, he, hin, hseen, hshown⟩)
      obtain ⟨e', he', hkey, raw', hraw', hresolve⟩ := (hread e.key value).mp hget
      obtain rfl := htree.ascending.eq_of_key he' he hkey
      rw [hraw, Option.some.injEq] at hraw'
      rw [Option.some.injEq] at hval
      rw [← hval, ← hraw'] at hresolve
      exact hresolve
  · intro hcond
    refine ⟨fuel, items, hfwd, hasc, fun key value => ⟨fun hitem => ?_, ?_⟩⟩
    · obtain ⟨e, he, hin, hseen, hshown⟩ := (hmem _).mp hitem
      obtain ⟨raw, hraw, hpair⟩ := Option.map_eq_some_iff.mp hshown
      obtain ⟨rfl, rfl⟩ := Prod.mk.inj hpair
      have hresolve := (hcond e he hin raw hraw).2 hseen
      exact ⟨hin, raw, rfl, (hread e.key raw).mpr ⟨e, he, rfl, raw, hraw, hresolve⟩⟩
    · rintro ⟨hin, data, rfl, hget⟩
      obtain ⟨e, he, rfl, raw, hraw, hresolve⟩ := (hread key data).mp hget
      have hseen : ¬ (table.scan bounds s).Overlooked e.key := fun hoverlooked =>
        (hcond e he hin raw hraw).1 hoverlooked data hresolve
      have hself := (hcond e he hin raw hraw).2 hseen
      rw [hresolve, Except.ok.injEq] at hself
      exact (hmem _).mpr ⟨e, he, hin, hseen, by simp [Scan.shown, hraw, hself]⟩

/-- Over three pages, past the deleted key. -/
theorem scan_exact_iff_split : let table := (execute (exec smallPages) (new emptyVolume) splittingCalls).2
    table.Holds (splittingCalls.foldl onEntries []) ∧
      ∃ fuel items, (table.scan (.range (.excluded [1]) .unbounded) 20).forward fuel = some items ∧
        table.ScansAs noCodec (.range (.excluded [1]) .unbounded) 20 items := by
  intro table
  have hholds : table.Holds (splittingCalls.foldl onEntries []) :=
    (holds_new (by decide)).execute
  refine ⟨hholds, (scan_exact_iff noCodec table _ hholds _ 20).mpr fun e he _ raw hraw => ⟨?_, fun _ => ?_⟩⟩
  · -- the search for the start ends on the start
    rintro ⟨hne, found, e', hfound, hent, hkey⟩
    have hstart : (table.volume.file.searchWithPath table.root [1]).toOption.bind (fun found =>
        found.entries[leafPosition [1] found.entries]?.map LeafEntry.key) = some [1] := by decide
    have hfound' : table.volume.file.searchWithPath table.root [1] = .ok found := hfound
    simp only [hfound', Except.toOption, Option.bind_some, hent, Option.map_some, hkey,
      Option.some.injEq] at hstart
    exact absurd hstart hne
  · have hplain : ∀ e ∈ splittingCalls.foldl onEntries [],
        ((table.scan (.range (.excluded [1]) .unbounded) 20).visible e).all
          (fun raw => !tagged raw) = true := by decide
    have hraw' := hplain e he
    rw [hraw] at hraw'
    exact resolve_of_not_namesPages (not_namesPages_of_not_tagged (by simpa using hraw'))

/-- Keys 1 and 3 are there, and a scan from behind key 2 shows nothing. -/
theorem scan_overlooks : let table := (execute (exec smallPages) (new emptyVolume)
      [.insert 1 [1] [5], .insert 1 [3] [7], .commitVersions 1 10]).2
    let bounds := range (.excluded [2]) .unbounded
    bounds.contains [3] = true ∧ table.get noCodec [3] 10 = .ok (some [7]) ∧
      (table.scan bounds 10).forward 1 = some [] ∧
      ¬ ∃ fuel items, (table.scan bounds 10).forward fuel = some items ∧
        table.ScansAs noCodec bounds 10 items := by
  intro table bounds
  have hget : table.get noCodec [3] 10 = .ok (some [7]) := by decide
  have hfwd : (table.scan bounds 10).forward 1 = some [] := by decide
  refine ⟨by decide, hget, hfwd, ?_⟩
  rintro ⟨fuel, items, hfwd', -, hexact⟩
  obtain rfl := Stream.collect_unique hfwd hfwd'
  exact absurd ((hexact [3] (some [7])).mpr ⟨by decide, [7], rfl, hget⟩) (by decide)

end BTreeTable

end NanoStore.Table
