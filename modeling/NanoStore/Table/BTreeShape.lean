import NanoStore.Table.BTree
/-!
# The paged B-tree — the shape of a tree

What the pages under a root have to be for searches to find what was
inserted. `Subtree` describes the pages below one page: their height, the
range of keys they answer for, the leaves in key order and the pages they
take up. `Context` describes the rest of the tree around one page, along
the path a search has come down. A search turns a tree into a leaf and its
context, and a change to the leaf is plugged back into it.
-/

namespace NanoStore.Table

open Wal Steps Txn List Multiset

/-! ## Ranges and leaves -/

/-- The key lies in the half-open range. -/
def InRange (lo : WithBot Key) (hi : WithTop Key) (key : Key) : Prop :=
  lo ≤ (key : WithBot Key) ∧ (key : WithTop Key) < hi

variable {lo' lo : WithBot Key} {hi' hi : WithTop Key} {key : Key}

theorem InRange.mono (h : InRange lo' hi' key) (hlo : lo ≤ lo') (hhi : hi' ≤ hi) : InRange lo hi key :=
  ⟨hlo.trans h.1, h.2.trans_le hhi⟩

/-- A key that parts the range in two, either of which may be empty. -/
def Between (lo : WithBot Key) (hi : WithTop Key) (key : Key) : Prop :=
  lo ≤ (key : WithBot Key) ∧ (key : WithTop Key) ≤ hi

theorem Between.mono (h : Between lo' hi' key) (hlo : lo ≤ lo') (hhi : hi' ≤ hi) : Between lo hi key :=
  ⟨hlo.trans h.1, h.2.trans hhi⟩

/-- A leaf with its page. -/
structure LeafPage where
  page : PageId
  entries : List LeafEntry
  nextLeaf : PageId
  deriving DecidableEq

/-- The entries of the leaves, in order. -/
def contents (leaves : List LeafPage) : List LeafEntry := leaves.flatMap LeafPage.entries

@[simp] theorem contents_nil : contents [] = [] := rfl

@[simp] theorem contents_cons (leaf : LeafPage) (leaves : List LeafPage) :
    contents (leaf :: leaves) = leaf.entries ++ contents leaves := rfl

@[simp] theorem contents_append (leaves leaves' : List LeafPage) :
    contents (leaves ++ leaves') = contents leaves ++ contents leaves' :=
  flatMap_append

/-- The keys are in strictly ascending order. -/
def Ascending (entries : List LeafEntry) : Prop := entries.Pairwise fun e e' => e.key < e'.key

/-- The page the first leaf is on, or the page to go to where there is none. -/
def firstPage : List LeafPage → PageId → PageId
  | [], next => next
  | leaf :: _, _ => leaf.page

/-- Each leaf points to the one after it, and the last one to `next`. -/
def Linked : List LeafPage → PageId → Prop
  | [], _ => True
  | leaf :: leaves, next => leaf.nextLeaf = firstPage leaves next ∧ Linked leaves next

theorem firstPage_append (leaves leaves' : List LeafPage) (next : PageId) :
    firstPage (leaves ++ leaves') next = firstPage leaves (firstPage leaves' next) := by
  cases leaves with
  | nil | cons leaf leaves => rfl

variable {leaves leaves' : List LeafPage}

theorem linked_append {next : PageId} : Linked (leaves ++ leaves') next ↔
    Linked leaves (firstPage leaves' next) ∧ Linked leaves' next := by
  induction leaves with
  | nil => simp [Linked]
  | cons leaf leaves ih =>
    rw [cons_append, Linked, Linked, ih, firstPage_append, and_assoc]

/-! ## Subtrees -/

/-- What a description says of the pages below a page: the range of keys, the page, the leaves
in key order and the pages taken up. -/
abbrev Description := WithBot Key → WithTop Key → PageId → List LeafPage → Multiset PageId → Prop

/-- The children of an internal page divide its range at the keys between them. Two such keys
can be equal: a leaf with a single entry is split into nothing and that entry. -/
inductive Kids (P : Description) (hi : WithTop Key) :
    WithBot Key → List InternalEntry → PageId → List LeafPage → Multiset PageId → Prop
  | last {lo : WithBot Key} {child : PageId} {leaves : List LeafPage} {used : Multiset PageId}
      (h : P lo hi child leaves used) : Kids P hi lo [] child leaves used
  | cons {lo : WithBot Key} {key : Key} {child rightmost : PageId} {entries : List InternalEntry}
      {leaves leaves' : List LeafPage} {used used' : Multiset PageId}
      (h : P lo key child leaves used) (hkey : Between lo hi key)
      (hrest : Kids P hi key entries rightmost leaves' used') :
      Kids P hi lo (⟨key, child⟩ :: entries) rightmost (leaves ++ leaves') (used + used')

/-- The pages below a page, all leaves at the same depth. -/
def Subtree (pages : PageId → Option BTreeNode) : ℕ → Description
  | 0, lo, hi, page, leaves, used =>
    ∃ entries nextLeaf, pages page = some (.leaf entries nextLeaf) ∧ Ascending entries ∧
      (∀ e ∈ entries, InRange lo hi e.key) ∧ leaves = [⟨page, entries, nextLeaf⟩] ∧ used = {page}
  | height + 1, lo, hi, page, leaves, used =>
    ∃ entries rightmost below, pages page = some (.internal entries rightmost) ∧
      Kids (Subtree pages height) hi lo entries rightmost leaves below ∧ used = page ::ₘ below

variable {P : Description} {rightmost : PageId} {used : Multiset PageId} {Q : Description}
  {entries : List InternalEntry}

theorem Kids.map (h : Kids P hi lo entries rightmost leaves used) (f : LeafPage → LeafPage)
    (hmap : ∀ lo hi page leaves' used', used' ≤ used → P lo hi page leaves' used' →
      Q lo hi page (leaves'.map f) used') : Kids Q hi lo entries rightmost (leaves.map f) used := by
  induction h with
  | last h => exact .last (hmap _ _ _ _ _ le_rfl h)
  | cons h hkey _ ih =>
    rw [map_append]
    refine .cons (hmap _ _ _ _ _ (le_add_right _ _) h) hkey (ih ?_)
    exact fun lo hi page leaves' used' hle =>
      hmap lo hi page leaves' used' (hle.trans (le_add_left _ _))

theorem Kids.imp (h : Kids P hi lo entries rightmost leaves used)
    (himp : ∀ lo hi page leaves' used', used' ≤ used → P lo hi page leaves' used' →
      Q lo hi page leaves' used') : Kids Q hi lo entries rightmost leaves used := by
  simpa using h.map id fun lo hi page leaves' used' hle h => by simpa using himp _ _ _ _ _ hle h

/-- What holds of every child, and of two parts taken together, holds of the children. -/
theorem Kids.additive {Q : WithBot Key → WithTop Key → List LeafPage → Multiset PageId → Prop}
    (h : Kids P hi lo entries rightmost leaves used)
    (hP : ∀ lo hi page leaves used, P lo hi page leaves used → Q lo hi leaves used)
    (hadd : ∀ {lo hi key leaves leaves' used used'}, Between lo hi key → Q lo (key : Key) leaves used →
      Q key hi leaves' used' → Q lo hi (leaves ++ leaves') (used + used')) : Q lo hi leaves used := by
  induction h with
  | last h => exact hP _ _ _ _ _ h
  | cons h hkey _ ih => exact hadd hkey (hP _ _ _ _ _ h) ih

/-- The entries of the leaves are in the range, in key order. -/
structure Sorted (lo : WithBot Key) (hi : WithTop Key) (leaves : List LeafPage) : Prop where
  range : ∀ e ∈ contents leaves, InRange lo hi e.key
  ascending : Ascending (contents leaves)

theorem Sorted.append (hkey : Between lo hi key)
    (h : Sorted lo key leaves) (h' : Sorted key hi leaves') : Sorted lo hi (leaves ++ leaves') := by
  refine ⟨?_, ?_⟩
  · rw [contents_append]
    exact forall_mem_append.mpr ⟨fun e he => (h.range e he).mono le_rfl hkey.2,
      fun e he => (h'.range e he).mono hkey.1 le_rfl⟩
  · rw [contents_append]
    refine pairwise_append.mpr ⟨h.ascending, h'.ascending, fun e he e' he' => ?_⟩
    -- the key between the two parts is above the one and not above the other
    exact (WithTop.coe_lt_coe.mp (h.range e he).2).trans_le (WithBot.coe_le_coe.mp (h'.range e' he').1)

variable {pages pages' : PageId → Option BTreeNode} {height : ℕ} {page : PageId}

theorem Subtree.leaf {entries : List LeafEntry} {nextLeaf : PageId}
    (hpage : pages page = some (.leaf entries nextLeaf)) (hsort : Ascending entries)
    (hrange : ∀ e ∈ entries, InRange lo hi e.key) :
    Subtree pages 0 lo hi page [⟨page, entries, nextLeaf⟩] {page} :=
  ⟨entries, nextLeaf, hpage, hsort, hrange, rfl, rfl⟩

theorem Subtree.internal (hpage : pages page = some (.internal entries rightmost))
    (hkids : Kids (Subtree pages height) hi lo entries rightmost leaves used) :
    Subtree pages (height + 1) lo hi page leaves (page ::ₘ used) :=
  ⟨entries, rightmost, used, hpage, hkids, rfl⟩

/-- **A subtree depends on its own pages only.** -/
theorem Subtree.congr (h : Subtree pages height lo hi page leaves used)
    (hpages : ∀ p ∈ used, pages' p = pages p) : Subtree pages' height lo hi page leaves used := by
  induction height generalizing lo hi page leaves used with
  | zero =>
    obtain ⟨entries, nextLeaf, hpage, hsort, hrange, rfl, rfl⟩ := h
    exact ⟨entries, nextLeaf, (hpages page (by simp)).trans hpage, hsort, hrange, rfl, rfl⟩
  | succ height ih =>
    obtain ⟨entries, rightmost, below, hpage, hkids, rfl⟩ := h
    refine ⟨entries, rightmost, below, (hpages page (by simp)).trans hpage, ?_, rfl⟩
    refine hkids.imp fun lo hi child leaves' used' hle hkid => ih hkid fun p hp => ?_
    exact hpages p (mem_cons_of_mem (mem_of_le hle hp))

theorem Kids.congr (h : Kids (Subtree pages height) hi lo entries rightmost leaves used)
    (hpages : ∀ p ∈ used, pages' p = pages p) :
    Kids (Subtree pages' height) hi lo entries rightmost leaves used :=
  h.imp fun _ _ _ _ _ hle hsub => hsub.congr fun p hp => hpages p (mem_of_le hle hp)

section

variable (h : Subtree pages height lo hi page leaves used)
include h

/-- What holds of each leaf, of an internal page with what is below it, and of two parts taken
together, holds of a subtree. -/
theorem Subtree.additive {Q : WithBot Key → WithTop Key → List LeafPage → Multiset PageId → Prop}
    (hleaf : ∀ lo hi (leaf : LeafPage), pages leaf.page = some (.leaf leaf.entries leaf.nextLeaf) →
      Sorted lo hi [leaf] → Q lo hi [leaf] {leaf.page})
    (hadd : ∀ {lo hi key leaves leaves' used used'}, Between lo hi key → Q lo (key : Key) leaves used →
      Q key hi leaves' used' → Q lo hi (leaves ++ leaves') (used + used'))
    (hpage : ∀ {lo hi page entries rightmost leaves used},
      pages page = some (.internal entries rightmost) → Q lo hi leaves used →
      Q lo hi leaves (page ::ₘ used)) : Q lo hi leaves used := by
  induction height generalizing lo hi page leaves used with
  | zero =>
    obtain ⟨entries, nextLeaf, hnode, hsort, hrange, rfl, rfl⟩ := h
    exact hleaf lo hi ⟨page, entries, nextLeaf⟩ hnode
      ⟨by simpa [contents] using hrange, by simpa [contents] using hsort⟩
  | succ height ih =>
    obtain ⟨entries, rightmost, below, hnode, hkids, rfl⟩ := h
    exact hpage hnode (hkids.additive (fun _ _ _ _ _ h => ih h) hadd)

/-- **The entries below a page are in its range, in key order.** -/
theorem Subtree.sorted : Sorted lo hi leaves :=
  h.additive (Q := fun lo hi leaves _ => Sorted lo hi leaves) (fun _ _ _ _ hsort => hsort)
    Sorted.append fun _ hbelow => hbelow

theorem Subtree.mem_used : page ∈ used := by
  cases height with
  | zero =>
    obtain ⟨_, _, _, _, _, _, rfl⟩ := h
    simp
  | succ height =>
    obtain ⟨_, _, _, _, _, rfl⟩ := h
    simp

theorem Subtree.height_lt : height < used.card := by
  induction height generalizing lo hi page leaves used with
  | zero =>
    obtain ⟨_, _, _, _, _, _, rfl⟩ := h
    simp
  | succ height ih =>
    obtain ⟨_, _, below, _, hkids, rfl⟩ := h
    have hbelow : height < below.card := by
      cases hkids with
      | last h => exact ih h
      | cons h _ _ =>
        rw [card_add]
        exact (ih h).trans_le (Nat.le_add_right _ _)
    rw [card_cons]
    omega

/-- How leaves and internal pages make up the pages of a subtree. -/
structure Laid (pages : PageId → Option BTreeNode) (leaves : List LeafPage)
    (used : Multiset PageId) : Prop where
  nonempty : leaves ≠ []
  leaf : ∀ leaf ∈ leaves, pages leaf.page = some (.leaf leaf.entries leaf.nextLeaf)
  le : (leaves.map LeafPage.page : Multiset PageId) ≤ used
  page : ∀ p ∈ used, p ∈ leaves.map LeafPage.page ∨
    ∃ entries rightmost, pages p = some (.internal entries rightmost)

theorem Subtree.laid : Laid pages leaves used := by
  refine h.additive (Q := fun _ _ leaves used => Laid pages leaves used) ?_ ?_ ?_
  · intro _ _ leaf hleaf _
    exact ⟨by simp, by simpa using hleaf, by simp, by simp⟩
  · intro _ _ _ leaves leaves' used used' _ hl hr
    refine ⟨append_ne_nil_of_left_ne_nil hl.nonempty _, forall_mem_append.mpr ⟨hl.leaf, hr.leaf⟩,
      ?_, fun p hp => ?_⟩
    · rw [map_append, ← coe_add]
      exact add_le_add hl.le hr.le
    · rw [map_append, mem_append]
      rcases mem_add.mp hp with hp | hp
      · exact (hl.page p hp).imp_left .inl
      · exact (hr.page p hp).imp_left .inr
  · intro _ _ page entries rightmost _ _ hpage hbelow
    exact ⟨hbelow.nonempty, hbelow.leaf, hbelow.le.trans (le_cons_self _ _),
      forall_mem_cons.mpr ⟨.inr ⟨entries, rightmost, hpage⟩, hbelow.page⟩⟩

end

/-! ## Contexts -/

/-- The children of an internal page without one of them: its range, and the leaves on either
side. -/
inductive Hole (P : Description) (hi : WithTop Key) :
    WithBot Key → List InternalEntry → PageId → WithBot Key → WithTop Key → PageId →
    List LeafPage → List LeafPage → Multiset PageId → Prop
  | last {lo : WithBot Key} {child : PageId} : Hole P hi lo [] child lo hi child [] [] 0
  | here {lo : WithBot Key} {key : Key} {child rightmost : PageId} {entries : List InternalEntry}
      {leaves : List LeafPage} {used : Multiset PageId} (hkey : Between lo hi key)
      (hrest : Kids P hi key entries rightmost leaves used) :
      Hole P hi lo (⟨key, child⟩ :: entries) rightmost lo key child [] leaves used
  | there {lo lo' : WithBot Key} {hi' : WithTop Key} {key : Key}
      {child child' rightmost : PageId} {entries : List InternalEntry}
      {leaves left right : List LeafPage} {used used' : Multiset PageId}
      (h : P lo key child leaves used) (hkey : Between lo hi key)
      (hrest : Hole P hi key entries rightmost lo' hi' child' left right used') :
      Hole P hi lo (⟨key, child⟩ :: entries) rightmost lo' hi' child' (leaves ++ left) right (used + used')

/-- The tree around a page, along the pages above it, the nearest first: its height, its range,
the leaves on either side and the pages taken up. -/
inductive Context (pages : PageId → Option BTreeNode) (root : PageId) :
    List PageId → ℕ → WithBot Key → WithTop Key → PageId → List LeafPage → List LeafPage →
    Multiset PageId → Prop
  | top {height : ℕ} : Context pages root [] height ⊥ ⊤ root [] [] 0
  | down {path : List PageId} {height : ℕ} {lo lo' : WithBot Key} {hi hi' : WithTop Key}
      {page child rightmost : PageId} {entries : List InternalEntry}
      {left right left' right' : List LeafPage} {used used' : Multiset PageId}
      (h : Context pages root path (height + 1) lo hi page left right used)
      (hpage : pages page = some (.internal entries rightmost))
      (hhole : Hole (Subtree pages height) hi lo entries rightmost lo' hi' child left' right' used') :
      Context pages root (page :: path) height lo' hi' child (left ++ left') (right' ++ right)
        (used + page ::ₘ used')

variable {left right : List LeafPage} {used' : Multiset PageId} {child : PageId}

theorem Hole.imp (h : Hole P hi lo entries rightmost lo' hi' child left right used)
    (himp : ∀ lo hi page leaves' used', used' ≤ used → P lo hi page leaves' used' →
      Q lo hi page leaves' used') : Hole Q hi lo entries rightmost lo' hi' child left right used := by
  induction h with
  | last => exact .last
  | here hkey hrest => exact .here hkey (hrest.imp himp)
  | there h hkey _ ih =>
    refine .there (himp _ _ _ _ _ (le_add_right _ _) h) hkey (ih ?_)
    exact fun lo hi page leaves' used' hle =>
      himp lo hi page leaves' used' (hle.trans (le_add_left _ _))

theorem Hole.congr (h : Hole (Subtree pages height) hi lo entries rightmost lo' hi' child left right used)
    (hpages : ∀ p ∈ used, pages' p = pages p) :
    Hole (Subtree pages' height) hi lo entries rightmost lo' hi' child left right used :=
  h.imp fun _ _ _ _ _ hle hsub => hsub.congr fun p hp => hpages p (mem_of_le hle hp)

/-- **The child a search follows for a key**, with the other children around it. -/
theorem Kids.hole (h : Kids P hi lo entries rightmost leaves used) (hkey : InRange lo hi key) :
    ∃ lo' hi' left middle right around within,
      Hole P hi lo entries rightmost lo' hi' (childFor key entries rightmost) left right around ∧
      P lo' hi' (childFor key entries rightmost) middle within ∧ InRange lo' hi' key ∧
      leaves = left ++ middle ++ right ∧ used = around + within := by
  induction h with
  | @last lo child leaves used h =>
    exact ⟨lo, hi, [], leaves, [], 0, used, .last, h, hkey, by simp, by simp⟩
  | @cons lo sep child rightmost entries leaves leaves' used used' h hsep hrest ih =>
    by_cases hlt : key < sep
    · -- below the separator: this child
      have hkid : childFor key (⟨sep, child⟩ :: entries) rightmost = child := by
        simp [childFor, hlt]
      rw [hkid]
      exact ⟨lo, sep, [], leaves, leaves', used', used, .here hsep hrest, h,
        ⟨hkey.1, WithTop.coe_lt_coe.mpr hlt⟩, by simp, add_comm _ _⟩
    · have hkid : childFor key (⟨sep, child⟩ :: entries) rightmost =
          childFor key entries rightmost := by
        simp [childFor, hlt]
      rw [hkid]
      obtain ⟨lo', hi', left, middle, right, around, within, hhole, hin, hrange, rfl, rfl⟩ :=
        ih ⟨WithBot.coe_le_coe.mpr (not_lt.mp hlt), hkey.2⟩
      exact ⟨lo', hi', leaves ++ left, middle, right, used + around, within, .there h hsep hhole,
        hin, hrange, by simp, (add_assoc _ _ _).symm⟩

section

variable (h : Hole P hi lo entries rightmost lo' hi' child left right used)
include h

theorem Hole.fill
    (hkid : P lo' hi' child leaves used') :
    Kids P hi lo entries rightmost (left ++ leaves ++ right) (used + used') := by
  induction h with
  | last => simpa using Kids.last hkid
  | here hkey hrest => simpa [add_comm] using Kids.cons hkid hkey hrest
  | there h hkey _ ih => simpa [add_assoc] using Kids.cons h hkey (ih hkid)

theorem Hole.bounds :
    lo ≤ lo' ∧ hi' ≤ hi := by
  induction h with
  | last => exact ⟨le_rfl, le_rfl⟩
  | here hkey _ => exact ⟨le_rfl, hkey.2⟩
  | there _ hkey _ ih => exact ⟨hkey.1.trans ih.1, ih.2⟩

theorem Hole.beside
    (hP : ∀ lo hi page leaves used, P lo hi page leaves used → Sorted lo hi leaves) :
    (∀ e ∈ contents left, InRange lo ⊤ e.key ∧ (e.key : WithBot Key) < lo') ∧
      ∀ e ∈ contents right, InRange ⊥ hi e.key ∧ hi' ≤ (e.key : WithTop Key) := by
  induction h with
  | last => simp
  | @here lo sep child rightmost entries leaves used hkey hrest =>
    refine ⟨by simp, fun e he => ?_⟩
    have hrange := (hrest.additive (Q := fun lo hi leaves _ => Sorted lo hi leaves) hP
      Sorted.append).range e he
    exact ⟨hrange.mono bot_le le_rfl, WithTop.coe_le_coe.mpr (WithBot.coe_le_coe.mp hrange.1)⟩
  | @there lo lo' hi' sep child child' rightmost entries leaves left right used used' h hkey hrest
      ih =>
    refine ⟨fun e he => ?_, ih.2⟩
    rw [contents_append, mem_append] at he
    rcases he with he | he
    · have hrange := (hP _ _ _ _ _ h).range e he
      have hsep : (e.key : WithBot Key) < sep :=
        WithBot.coe_lt_coe.mpr (WithTop.coe_lt_coe.mp hrange.2)
      exact ⟨hrange.mono le_rfl le_top, hsep.trans_le hrest.bounds.1⟩
    · exact ⟨(ih.1 e he).1.mono hkey.1 le_rfl, (ih.1 e he).2⟩

end

variable {root : PageId} {path : List PageId} {file : PageFile}

section

variable (h : Context pages root path height lo hi page left right used)
include h

/-- **A context depends on its own pages only.** -/
theorem Context.congr
    (hpages : ∀ p ∈ used, pages' p = pages p) :
    Context pages' root path height lo hi page left right used := by
  induction h with
  | top => exact .top
  | @down path height lo lo' hi hi' page child rightmost entries left right left' right' used used'
      _ hpage hhole ih =>
    have hbelow : ∀ p ∈ page ::ₘ used', pages' p = pages p := fun p hp =>
      hpages p (mem_add.mpr (.inr hp))
    refine .down (ih fun p hp => hpages p (mem_add.mpr (.inl hp)))
      ((hbelow page (mem_cons_self _ _)).trans hpage) (hhole.congr fun p hp => ?_)
    exact hbelow p (mem_cons_of_mem hp)

/-- **A subtree plugged into its context is a tree.** -/
theorem Context.plug
    (hsub : Subtree pages height lo hi page leaves used') :
    ∃ height', Subtree pages height' ⊥ ⊤ root (left ++ leaves ++ right) (used + used') := by
  induction h generalizing leaves used' with
  | @top height => exact ⟨height, by simpa using hsub⟩
  | @down path height lo lo' hi hi' page child rightmost entries left right left' right' used used''
      _ hpage hhole ih =>
    have hpar : Subtree pages (height + 1) lo hi page (left' ++ leaves ++ right')
        (page ::ₘ (used'' + used')) := ⟨entries, rightmost, _, hpage, hhole.fill hsub, rfl⟩
    obtain ⟨height', htree⟩ := ih hpar
    refine ⟨height', ?_⟩
    rw [add_assoc, cons_add]
    simpa using htree

theorem Context.beside :
    (∀ e ∈ contents left, (e.key : WithBot Key) < lo) ∧ ∀ e ∈ contents right, hi ≤ (e.key : WithTop Key) := by
  induction h with
  | top => simp
  | down _ _ hhole ih =>
    have hbeside := hhole.beside fun _ _ _ _ _ h => h.sorted
    have hbounds := hhole.bounds
    constructor
    · intro e he
      rw [contents_append, mem_append] at he
      rcases he with he | he
      · exact (ih.1 e he).trans_le hbounds.1
      · exact (hbeside.1 e he).2
    · intro e he
      rw [contents_append, mem_append] at he
      rcases he with he | he
      · exact (hbeside.2 e he).2
      · exact hbounds.2.trans (ih.2 e he)

end

/-- **A search ends on the leaf that answers for its key**, with the tree around it. -/
theorem Context.search {fuel : ℕ} (h : Context file.pages root path height lo hi page left right used)
    (hsub : Subtree file.pages height lo hi page leaves used') (hkey : InRange lo hi key)
    (hfuel : height < fuel) : ∃ leaf path' lo' hi' left' right' around,
      file.searchFrom key fuel page path = .ok ⟨leaf.page, leaf.entries, leaf.nextLeaf, path'⟩ ∧
      Context file.pages root path' 0 lo' hi' leaf.page left' right' around ∧
      Subtree file.pages 0 lo' hi' leaf.page [leaf] {leaf.page} ∧ InRange lo' hi' key ∧
      left ++ leaves ++ right = left' ++ leaf :: right' ∧ used + used' = around + {leaf.page} := by
  induction height generalizing lo hi page left right used path leaves used' fuel with
  | zero =>
    obtain ⟨entries, nextLeaf, hpage, hsort, hrange, rfl, rfl⟩ := hsub
    obtain ⟨fuel, rfl⟩ : ∃ n, fuel = n + 1 := ⟨fuel - 1, by omega⟩
    refine ⟨⟨page, entries, nextLeaf⟩, path, lo, hi, left, right, used, ?_, h,
      ⟨entries, nextLeaf, hpage, hsort, hrange, rfl, rfl⟩, hkey, by simp, rfl⟩
    simp [PageFile.searchFrom, PageFile.readNode, hpage]
  | succ height ih =>
    obtain ⟨entries, rightmost, below, hpage, hkids, rfl⟩ := hsub
    obtain ⟨fuel, rfl⟩ : ∃ n, fuel = n + 1 := ⟨fuel - 1, by omega⟩
    obtain ⟨lo', hi', inner, middle, outer, around, within, hhole, hkid, hin, rfl, rfl⟩ :=
      hkids.hole hkey
    have hfuel : height < fuel := by omega
    obtain ⟨leaf, path', lo'', hi'', left', right', around', hsearch, hctx, hleaf, hlast, hleaves,
      hused⟩ := ih (h.down hpage hhole) hkid hin hfuel
    refine ⟨leaf, path', lo'', hi'', left', right', around', ?_, hctx, hleaf, hlast, ?_, ?_⟩
    · simpa [PageFile.searchFrom, PageFile.readNode, hpage] using hsearch
    · simpa using hleaves
    · rw [← hused]
      simp [add_assoc]

/-! ## Trees -/

/-- Pages that are each there once and allocated. -/
structure Allocated (file : PageFile) (used : Multiset PageId) : Prop where
  nodup : used.Nodup
  pos : ∀ p ∈ used, 0 < p
  lt : ∀ p ∈ used, p < file.nextPage

/-- The pages under a root are a tree with these leaves: no page is there twice, all of them are
allocated, and the leaves are linked in key order. -/
structure Tree (file : PageFile) (root : PageId) (leaves : List LeafPage) : Prop where
  shape : ∃ height used, Subtree file.pages height ⊥ ⊤ root leaves used ∧ Allocated file used
  linked : Linked leaves 0

/-- Where a search for a key ends in a tree: on a leaf that answers for the key, with the other
leaves beside it and the rest of the tree around it. -/
structure Located (file : PageFile) (root : PageId) (leaves : List LeafPage) (key : Key)
    (leaf : LeafPage) (path : List PageId) (lo : WithBot Key) (hi : WithTop Key)
    (left right : List LeafPage) (around : Multiset PageId) : Prop where
  found : file.searchWithPath root key = .ok ⟨leaf.page, leaf.entries, leaf.nextLeaf, path⟩
  context : Context file.pages root path 0 lo hi leaf.page left right around
  page : file.pages leaf.page = some (.leaf leaf.entries leaf.nextLeaf)
  sorted : Ascending leaf.entries
  range : ∀ e ∈ leaf.entries, InRange lo hi e.key
  answers : InRange lo hi key
  leaves_eq : leaves = left ++ leaf :: right
  allocated : Allocated file (around + {leaf.page})

theorem Allocated.card_le (h : Allocated file used) : used.card ≤ file.nextPage := by
  have hsub : used ≤ (Finset.range file.nextPage).val :=
    (le_iff_subset h.nodup).mpr fun p hp => Finset.mem_range.mpr (h.lt p hp)
  simpa using card_le_card hsub

variable {file' : PageFile}

theorem Allocated.mono (h : Allocated file used)
    (hle : used' ≤ used) (hnext : file.nextPage ≤ file'.nextPage) : Allocated file' used' :=
  ⟨nodup_of_le hle h.nodup, fun p hp => h.pos p (mem_of_le hle hp),
    fun p hp => (h.lt p (mem_of_le hle hp)).trans_le hnext⟩

/-- The next page is allocated. -/
theorem Allocated.next (h : Allocated file used)
    (hpos : 0 < file.nextPage) (hnext : file'.nextPage = file.nextPage + 1) :
    Allocated file' (file.nextPage ::ₘ used) := by
  refine ⟨nodup_cons.mpr ⟨fun hmem => lt_irrefl _ (h.lt _ hmem), h.nodup⟩, ?_, ?_⟩
  · exact forall_mem_cons.mpr ⟨hpos, h.pos⟩
  · rw [hnext]
    exact forall_mem_cons.mpr ⟨Nat.lt_succ_self _, fun p hp => Nat.lt_succ_of_lt (h.lt p hp)⟩

/-- **A search in a tree ends on the leaf that answers for the key.** -/
theorem Tree.search (h : Tree file root leaves) (key : Key) : ∃ leaf path lo hi left right around,
    Located file root leaves key leaf path lo hi left right around := by
  obtain ⟨height, used, hsub, halloc⟩ := h.shape
  have hfuel : height < file.nextPage + 1 :=
    Nat.lt_succ_of_le (hsub.height_lt.le.trans halloc.card_le)
  obtain ⟨leaf, path, lo, hi, left, right, around, hsearch, hctx, hleaf, hkey, hleaves, hused⟩ :=
    Context.top.search hsub ⟨bot_le, WithTop.coe_lt_top _⟩ hfuel
  simp only [nil_append, append_nil, zero_add] at hleaves hused
  subst hused
  obtain ⟨entries, nextLeaf, hpage, hsort, hrange, hself, -⟩ := hleaf
  obtain ⟨page, entries', nextLeaf'⟩ := leaf
  obtain ⟨rfl, rfl⟩ : entries' = entries ∧ nextLeaf' = nextLeaf := by simpa using hself
  exact ⟨_, path, lo, hi, left, right, around, hsearch, hctx, hpage, hsort, hrange, hkey, hleaves, halloc⟩

variable {leaf : LeafPage} {around : Multiset PageId}

theorem Located.beside (h : Located file root leaves key leaf path lo hi left right around) :
    (∀ e ∈ contents left, e.key < key) ∧ ∀ e ∈ contents right, key < e.key :=
  ⟨fun e he => WithBot.coe_lt_coe.mp ((h.context.beside.1 e he).trans_le h.answers.1),
    fun e he => WithTop.coe_lt_coe.mp (h.answers.2.trans_le (h.context.beside.2 e he))⟩

/-- **The leaf holds the chain of the key if any leaf does.** -/
theorem Located.chainOn_eq (h : Located file root leaves key leaf path lo hi left right around) :
    chainOn (contents leaves) key = chainOn leaf.entries key := by
  have hleft : (contents left).find? (fun e => e.key = key) = none := by
    simpa using fun e he => (h.beside.1 e he).ne
  have hright : (contents right).find? (fun e => e.key = key) = none := by
    simpa using fun e he => (h.beside.2 e he).ne'
  rw [h.leaves_eq]
  simp [chainOn, find?_append, hleft, hright]

theorem Tree.ascending (h : Tree file root leaves) : Ascending (contents leaves) := by
  obtain ⟨_, _, hsub, _⟩ := h.shape
  exact hsub.sorted.ascending

/-- Leaves that can be walked along. -/
structure Walk (file : PageFile) (leaves : List LeafPage) : Prop where
  linked : Linked leaves 0
  pages : ∀ leaf ∈ leaves, 0 < leaf.page ∧ file.pages leaf.page = some (.leaf leaf.entries leaf.nextLeaf)
  nodup : (leaves.map LeafPage.page).Nodup
  length_le : leaves.length ≤ file.nextPage

theorem Tree.walk (h : Tree file root leaves) : Walk file leaves := by
  obtain ⟨height, used, hsub, halloc⟩ := h.shape
  have hlaid := hsub.laid
  refine ⟨h.linked, fun leaf hleaf => ⟨?_, hlaid.leaf leaf hleaf⟩,
    coe_nodup.mp (nodup_of_le hlaid.le halloc.nodup), ?_⟩
  · exact halloc.pos _ (mem_of_le hlaid.le (mem_coe.mpr (mem_map_of_mem hleaf)))
  · have hcard := (card_le_card hlaid.le).trans halloc.card_le
    simpa using hcard

/-- **What a tree answers is what its leaves hold.** -/
theorem Tree.getInternal (h : Tree file root leaves) (snapshotLsn : ℕ) :
    file.getInternal root key snapshotLsn = .ok (readOn (contents leaves) key snapshotLsn) := by
  obtain ⟨leaf, path, lo, hi, left, right, around, hloc⟩ := h.search key
  simp [PageFile.getInternal, hloc.found, Except.map, readOn, hloc.chainOn_eq]

end NanoStore.Table
