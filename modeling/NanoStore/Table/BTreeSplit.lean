import NanoStore.Table.BTreeShape
/-!
# The paged B-tree — splits

A page that is too full is split in two and the page above it told. One
split replaces a subtree by two that divide its range; the entry of the
parent is replaced by two; and up the path the context shrinks by one page
at a time until a page has room or a new root is written. At every height
the leaves hold what they held.
-/

namespace NanoStore.Table

open Wal Steps Txn List Multiset PageFile

/-! ## The parent of a split page -/

variable {P : Description} {lo : WithBot Key} {hi : WithTop Key} {entries entries' : List InternalEntry}
  {child rightmost new : PageId} {leaves left right : List LeafPage} {used used₁ used₂ : Multiset PageId}
  {median : Key} {lo' : WithBot Key} {hi' : WithTop Key} {leaves' : List LeafPage}

theorem Kids.rightmost_mem (h : Kids P hi lo entries rightmost leaves used)
    (hP : ∀ lo hi page leaves used, P lo hi page leaves used → page ∈ used) : rightmost ∈ used := by
  induction h with
  | last h => exact hP _ _ _ _ _ h
  | cons _ _ _ ih => exact mem_add.mpr (.inr ih)

/-- **The entry of a split child is replaced by two.** -/
theorem Hole.insertChild (h : Hole P hi lo entries rightmost lo' hi' child left right used)
    (hP : ∀ lo hi page leaves used, P lo hi page leaves used → page ∈ used) (hfresh : child ∉ used)
    (hleft : P lo' median child leaves used₁) (hright : P median hi' new leaves' used₂)
    (hmedian : Between lo' hi' median) :
    ∃ entries' rightmost', insertChild child new median entries rightmost =
        some (.internal entries' rightmost') ∧ entries' ≠ [] ∧
      Kids P hi lo entries' rightmost' (left ++ (leaves ++ leaves') ++ right) (used + (used₁ + used₂)) := by
  induction h with
  | @last lo child =>
    refine ⟨[⟨median, child⟩], new, by simp [PageFile.insertChild], by simp, ?_⟩
    simpa using Kids.cons hleft hmedian (.last hright)
  | @here lo sep child rightmost entries leaves₀ used hkey hrest =>
    have hlast : rightmost ≠ child := by
      rintro rfl
      exact hfresh (hrest.rightmost_mem hP)
    refine ⟨⟨median, child⟩ :: ⟨sep, new⟩ :: entries, rightmost, ?_, by simp, ?_⟩
    · simp [PageFile.insertChild, PageFile.insertBefore, hlast]
    · have hsep : Between median hi sep :=
        ⟨WithBot.coe_le_coe.mpr (WithTop.coe_le_coe.mp hmedian.2), hkey.2⟩
      have hkids := Kids.cons hleft (hmedian.mono le_rfl hkey.2) (.cons hright hsep hrest)
      simpa [add_comm, add_assoc, add_left_comm] using hkids
  | @there lo lo' hi' sep child₀ child rightmost entries leaves₀ left right used₀ used' h₀ hkey hrest
      ih =>
    have hne : child₀ ≠ child := by
      rintro rfl
      exact hfresh (mem_add.mpr (.inl (hP _ _ _ _ _ h₀)))
    have hfresh' : child ∉ used' := fun hmem => hfresh (mem_add.mpr (.inr hmem))
    obtain ⟨entries', rightmost', hins, -, hkids⟩ := ih hfresh' hleft hright hmedian
    refine ⟨⟨sep, child₀⟩ :: entries', rightmost', ?_, by simp, ?_⟩
    · unfold PageFile.insertChild at hins ⊢
      split_ifs at hins ⊢ with hlast
      · cases hins
        rfl
      · obtain ⟨found, hfound, hnode⟩ := Option.map_eq_some_iff.mp hins
        cases hnode
        simp [insertBefore, hne, hfound]
    · simpa [add_assoc] using Kids.cons h₀ hkey hkids

/-! ## One split -/

variable {file : PageFile} {height : ℕ} {page : PageId} {node : BTreeNode}

theorem Kids.part (h : Kids P hi lo (entries ++ ⟨median, child⟩ :: entries') rightmost leaves used) :
    ∃ leaves₁ leaves₂ used₁ used₂, Kids P median lo entries child leaves₁ used₁ ∧
      Kids P hi median entries' rightmost leaves₂ used₂ ∧ Between lo hi median ∧
      leaves = leaves₁ ++ leaves₂ ∧ used = used₁ + used₂ := by
  induction entries generalizing lo leaves used with
  | nil =>
    cases h with
    | cons h hkey hrest => exact ⟨_, _, _, _, .last h, hrest, hkey, rfl, rfl⟩
  | cons e entries ih =>
    cases h with
    | @cons _ sep child₀ _ _ leaves₀ _ used₀ _ h hkey hrest =>
      obtain ⟨leaves₁, leaves₂, used₁, used₂, hleft, hright, hmedian, rfl, rfl⟩ := ih hrest
      have hsep : Between lo median sep :=
        ⟨hkey.1, WithTop.coe_le_coe.mpr (WithBot.coe_le_coe.mp hmedian.1)⟩
      exact ⟨leaves₀ ++ leaves₁, leaves₂, used₀ + used₁, used₂, .cons h hsep hleft, hright,
        hmedian.mono hkey.1 le_rfl, by simp, (add_assoc _ _ _).symm⟩

/-- The pages a change may touch: those of a tree, and pages that were not allocated. -/
structure Within (file file' : PageFile) (used : Multiset PageId) : Prop where
  same : ∀ p < file.nextPage, p ∉ used → file'.pages p = file.pages p
  grown : file.nextPage ≤ file'.nextPage

/-- What a split leaves in place of a page: two subtrees that part its range, with the entries
the page had. The leaves stay linked. -/
structure Parted (pages : PageId → Option BTreeNode) (height : ℕ) (lo : WithBot Key)
    (hi : WithTop Key) (page new : PageId) (leaves : List LeafPage) (used : Multiset PageId)
    (median : Key) (leaves₁ leaves₂ : List LeafPage) (used₁ used₂ : Multiset PageId) : Prop where
  leftHalf : Subtree pages height lo median page leaves₁ used₁
  rightHalf : Subtree pages height median hi new leaves₂ used₂
  between : Between lo hi median
  used_eq : used₁ + used₂ = new ::ₘ used
  contents_eq : contents (leaves₁ ++ leaves₂) = contents leaves
  linked : ∀ next, Linked leaves next → Linked (leaves₁ ++ leaves₂) next
  first : ∀ next, firstPage (leaves₁ ++ leaves₂) next = firstPage leaves next

/-- A page is split into itself and a new one, and the others stay as they are. -/
def Splits (file : PageFile) (height : ℕ) (lo : WithBot Key) (hi : WithTop Key) (page : PageId)
    (node : BTreeNode) (leaves : List LeafPage) (used : Multiset PageId) : Prop :=
  ∃ file' median leaves₁ leaves₂ used₁ used₂,
    file.splitNode page node = (file', .ok (file.nextPage, median)) ∧
    Parted file'.pages height lo hi page file.nextPage leaves used median leaves₁ leaves₂ used₁ used₂ ∧
    file'.nextPage = file.nextPage + 1 ∧
    ∀ p, p ≠ page → p ≠ file.nextPage → file'.pages p = file.pages p

theorem exists_half {α : Type} {l : List α} (hne : l ≠ []) :
    ∃ h : l.length / 2 < l.length, l[l.length / 2]? = some l[l.length / 2] :=
  have h := Nat.div_lt_self (length_pos_iff.mpr hne) one_lt_two
  ⟨h, getElem?_eq_getElem h⟩

theorem splitNode_leaf {leafEntries : List LeafEntry} {nextLeaf : PageId} (hne : leafEntries ≠ [])
    (hsub : Subtree file.pages 0 lo hi page leaves used)
    (hpage : file.pages page = some (.leaf leafEntries nextLeaf)) (hlt : page < file.nextPage) :
    Splits file 0 lo hi page (.leaf leafEntries nextLeaf) leaves used := by
  obtain ⟨entries, next, hpage', hsort, hrange, rfl, rfl⟩ := hsub
  obtain ⟨rfl, rfl⟩ : leafEntries = entries ∧ nextLeaf = next := by
    simpa using hpage.symm.trans hpage'
  obtain ⟨hmid, he⟩ := exists_half hne
  have hdrop := drop_eq_getElem_cons hmid
  generalize leafEntries[leafEntries.length / 2] = e at he hdrop
  -- before the median all keys are smaller, from it on none is
  have hparts := hsort
  rw [Ascending, ← take_append_drop (leafEntries.length / 2) leafEntries, pairwise_append] at hparts
  obtain ⟨htake, hrest, hacross⟩ := hparts
  have hmem : e ∈ leafEntries := mem_of_getElem? he
  have hsmaller : ∀ x ∈ leafEntries.take (leafEntries.length / 2), x.key < e.key := fun x hx =>
    hacross x hx e (by rw [hdrop]; exact mem_cons_self)
  have hlarger : ∀ x ∈ leafEntries.drop (leafEntries.length / 2), e.key ≤ x.key := by
    rw [hdrop] at hrest ⊢
    intro x hx
    rcases mem_cons.mp hx with rfl | hx
    · exact le_rfl
    · exact (rel_of_pairwise_cons hrest hx).le
  have hpages : page ≠ file.nextPage := Nat.ne_of_lt hlt
  obtain ⟨file', hfile'⟩ : ∃ f, f = (file.allocatePage.1.writeNode page
      (.leaf (leafEntries.take (leafEntries.length / 2)) file.nextPage)).writeNode file.nextPage
      (.leaf (leafEntries.drop (leafEntries.length / 2)) nextLeaf) := ⟨_, rfl⟩
  refine ⟨file', e.key, [⟨page, leafEntries.take (leafEntries.length / 2), file.nextPage⟩],
    [⟨file.nextPage, leafEntries.drop (leafEntries.length / 2), nextLeaf⟩], {page},
    {file.nextPage}, ?_, ⟨.leaf ?_ htake ?_, .leaf ?_ hrest ?_, ?_, ?_, ?_, ?_, ?_⟩, by rw [hfile']; rfl, ?_⟩
  · simp only [splitNode, he]
    rw [hfile']
    rfl
  · simp [hfile', writeNode, hpages]
  · exact fun x hx => ⟨(hrange x (mem_of_mem_take hx)).1, WithTop.coe_lt_coe.mpr (hsmaller x hx)⟩
  · simp [hfile', writeNode]
  · exact fun x hx => ⟨WithBot.coe_le_coe.mpr (hlarger x hx), (hrange x (mem_of_mem_drop hx)).2⟩
  · exact ⟨(hrange e hmem).1, (hrange e hmem).2.le⟩
  · rw [add_comm, singleton_add]
  · simp [contents]
  · intro next hlinked
    simpa [Linked, firstPage] using hlinked
  · simp [firstPage]
  · intro p hp hnew
    simp [hfile', writeNode, allocatePage, hp, hnew]

theorem splitNode_internal (hne : entries ≠ [])
    (hsub : Subtree file.pages (height + 1) lo hi page leaves used) (hnd : used.Nodup)
    (hlt : ∀ p ∈ used, p < file.nextPage) (hpage : file.pages page = some (.internal entries rightmost)) :
    Splits file (height + 1) lo hi page (.internal entries rightmost) leaves used := by
  obtain ⟨entries₀, rightmost₀, below, hpage', hkids, rfl⟩ := hsub
  obtain ⟨rfl, rfl⟩ : entries = entries₀ ∧ rightmost = rightmost₀ := by
    simpa using hpage.symm.trans hpage'
  obtain ⟨hmid, he⟩ := exists_half hne
  have hsplit := take_append_drop (entries.length / 2) entries
  rw [drop_eq_getElem_cons hmid] at hsplit
  generalize entries[entries.length / 2] = e at he hsplit
  have hkids' := hkids
  rw [← hsplit] at hkids'
  obtain ⟨leaves₁, leaves₂, used₁, used₂, hleft, hright, hmedian, rfl, rfl⟩ := hkids'.part
  have hpages : page ≠ file.nextPage := Nat.ne_of_lt (hlt page (mem_cons_self _ _))
  have hother : ∀ p ∈ used₁ + used₂, p ≠ page ∧ p ≠ file.nextPage := fun p hp =>
    ⟨fun heq => (nodup_cons.mp hnd).1 (heq ▸ hp), Nat.ne_of_lt (hlt p (mem_cons_of_mem hp))⟩
  obtain ⟨file', hfile'⟩ : ∃ f, f = (file.allocatePage.1.writeNode page
      (.internal (entries.take (entries.length / 2)) e.childPageId)).writeNode file.nextPage
      (.internal (entries.drop (entries.length / 2 + 1)) rightmost) := ⟨_, rfl⟩
  have hsame : ∀ p, p ≠ page → p ≠ file.nextPage → file'.pages p = file.pages p := by
    intro p hp hnew
    simp [hfile', writeNode, allocatePage, hp, hnew]
  refine ⟨file', e.key, leaves₁, leaves₂, page ::ₘ used₁, file.nextPage ::ₘ used₂, ?_,
    ⟨.internal ?_ (hleft.congr ?_), .internal ?_ (hright.congr ?_), hmedian, ?_, rfl, fun _ h => h,
      fun _ => rfl⟩, by rw [hfile']; rfl, hsame⟩
  · simp only [splitNode, he]
    rw [hfile']
    rfl
  · simp [hfile', writeNode, hpages]
  · intro p hp
    have hp := hother p (mem_add.mpr (.inl hp))
    exact hsame p hp.1 hp.2
  · simp [hfile', writeNode]
  · intro p hp
    have hp := hother p (mem_add.mpr (.inr hp))
    exact hsame p hp.1 hp.2
  · rw [cons_add, add_cons, cons_swap]

/-- **A split parts a page in two.** -/
theorem splitNode_parted (hcount : 0 < node.keyCount)
    (hsub : Subtree file.pages height lo hi page leaves used) (hnd : used.Nodup)
    (hlt : ∀ p ∈ used, p < file.nextPage) (hpage : file.pages page = some node) :
    Splits file height lo hi page node leaves used := by
  cases height with
  | zero =>
    have hsub' := hsub
    obtain ⟨leafEntries, nextLeaf, hpage', -⟩ := hsub
    obtain rfl := Option.some.inj (hpage.symm.trans hpage')
    exact splitNode_leaf (length_pos_iff.mp hcount) hsub' hpage (hlt page hsub'.mem_used)
  | succ height =>
    have hsub' := hsub
    obtain ⟨entries, rightmost, below, hpage', -⟩ := hsub
    obtain rfl := Option.some.inj (hpage.symm.trans hpage')
    exact splitNode_internal (length_pos_iff.mp hcount) hsub' hnd hlt hpage

/-! ## Up the path -/

variable {cfg : BTreeConfig} {root : PageId} {path : List PageId} {around within : Multiset PageId}

theorem Context.tree (h : Context file.pages root path height lo hi page left right around)
    (hsub : Subtree file.pages height lo hi page leaves within)
    (hpages : Allocated file (around + within)) (hlinked : Linked (left ++ leaves ++ right) 0) :
    Tree file root (left ++ leaves ++ right) := by
  obtain ⟨height', htree⟩ := h.plug hsub
  exact ⟨⟨height', _, htree, hpages⟩, hlinked⟩

theorem Context.root_eq (h : Context file.pages root path height lo hi page left right around)
    (hpage : page ∉ around) : page = root ↔ path = [] := by
  have hroot : path ≠ [] → root ∈ around := by
    clear hpage
    induction h with
    | top => simp
    | @down path height lo lo' hi hi' page child rightmost entries left right left' right' used used'
        hup hpage hhole ih =>
      intro _
      rw [Multiset.mem_add, Multiset.mem_cons]
      by_cases hpath : path = []
      · subst hpath
        cases hup
        exact .inr (.inl rfl)
      · exact .inl (ih hpath)
  constructor
  · rintro rfl
    by_contra hpath
    exact hpage (hroot hpath)
  · rintro rfl
    cases h
    rfl

/-- What a change to a tree leaves: a tree with these entries, reached by touching its own
pages and new ones. -/
structure Changed (file file' : PageFile) (root' : PageId) (used : Multiset PageId)
    (entries : List LeafEntry) : Prop where
  tree : ∃ leaves', Tree file' root' leaves' ∧ contents leaves' = entries
  within : Within file file' used

variable {leaves₁ leaves₂ : List LeafPage}

theorem Parted.newRoot
    (h : Parted file.pages height ⊥ ⊤ page new leaves within median leaves₁ leaves₂ used₁ used₂)
    (hpages : Allocated file (used₁ + used₂)) (hlinked : Linked (leaves₁ ++ leaves₂) 0)
    (hpos : 0 < file.nextPage) :
    Tree ((file.allocatePage.1.writeNode file.nextPage (.internal [⟨median, page⟩] new)
      ).setRootBtreePage file.nextPage) file.nextPage (leaves₁ ++ leaves₂) := by
  have hother : ∀ p ∈ used₁ + used₂, p ≠ file.nextPage := fun p hp => Nat.ne_of_lt (hpages.lt p hp)
  have hkids : Kids (Subtree file.pages height) ⊤ ⊥ [⟨median, page⟩] new (leaves₁ ++ leaves₂)
      (used₁ + used₂) := .cons h.leftHalf h.between (.last h.rightHalf)
  refine ⟨⟨height + 1, file.nextPage ::ₘ (used₁ + used₂), .internal ?_ (hkids.congr ?_),
    hpages.next hpos rfl⟩, hlinked⟩
  · simp [writeNode, setRootBtreePage]
  · intro p hp
    simp [writeNode, setRootBtreePage, allocatePage, hother p hp]

variable {file' : PageFile}

/-- The pages after a split: one more. -/
theorem Parted.allocated
    (h : Parted file'.pages height lo hi page file.nextPage leaves within median leaves₁ leaves₂ used₁ used₂)
    (hnext : file'.nextPage = file.nextPage + 1) (hpages : Allocated file (around + within))
    (hpage : page ∈ within) : Allocated file' (around + (used₁ + used₂)) := by
  have hused : around + (used₁ + used₂) = file.nextPage ::ₘ (around + within) := by
    rw [h.used_eq, add_cons]
  -- the page that was split is allocated, so the next one is not page 0
  have hpos : 0 < file.nextPage := (hpages.pos page (mem_add.mpr (.inr hpage))).trans
    (hpages.lt page (mem_add.mpr (.inr hpage)))
  rw [hused]
  exact hpages.next hpos hnext

theorem Parted.linked_around {pages : PageId → Option BTreeNode}
    (h : Parted pages height lo hi page new leaves within median leaves₁ leaves₂ used₁ used₂)
    (hlinked : Linked (left ++ leaves ++ right) 0) : Linked (left ++ (leaves₁ ++ leaves₂) ++ right) 0 := by
  rw [linked_append, linked_append] at hlinked ⊢
  obtain ⟨⟨hleft, hmiddle⟩, hright⟩ := hlinked
  exact ⟨⟨by rwa [h.first], h.linked _ hmiddle⟩, hright⟩

theorem Within.trans {file'' : PageFile} {used' : Multiset PageId}
    (h : Within file file' used) (h' : Within file' file'' used')
    (hused : ∀ p ∈ used', p < file.nextPage → p ∈ used) : Within file file'' used :=
  ⟨fun p hp hnot => (h'.same p (hp.trans_le h.grown) fun hmem => hnot (hused p hmem hp)).trans
    (h.same p hp hnot), h.grown.trans h'.grown⟩

/-- **A split goes up the path until it ends**, and leaves a tree with the entries there were. -/
theorem Context.propagate
    (h : Context file.pages root path height lo hi page left right around)
    (hsub : Subtree file.pages height lo hi page leaves within)
    (hpages : Allocated file (around + within)) (hlinked : Linked (left ++ leaves ++ right) 0)
    (hnode : file.pages page = some node) (hcount : 0 < node.keyCount) :
    ∃ file' root', splitAndPropagate cfg root path file page node = (file', .ok root') ∧
      Changed file file' root' (around + within) (contents (left ++ leaves ++ right)) := by
  induction path generalizing file height lo hi page left right leaves around within node with
  | nil =>
    cases h
    have hwithin : within.Nodup ∧ ∀ p ∈ within, p < file.nextPage :=
      ⟨by simpa using hpages.nodup, fun p hp => hpages.lt p (by simpa using hp)⟩
    obtain ⟨file₁, median, leaves₁, leaves₂, used₁, used₂, hsplit, hparted, hnext, hsame⟩ :=
      splitNode_parted hcount hsub hwithin.1 hwithin.2 hnode
    have halloc := hparted.allocated hnext hpages hsub.mem_used
    have hlinked' := hparted.linked_around hlinked
    simp only [zero_add, nil_append, append_nil] at halloc hlinked' ⊢
    have hpos : 0 < file₁.nextPage := hnext ▸ Nat.succ_pos _
    refine ⟨_, _, ?_, ⟨leaves₁ ++ leaves₂, hparted.newRoot halloc hlinked' hpos,
      hparted.contents_eq⟩, fun p hp hnot => ?_, ?_⟩
    · rw [splitAndPropagate, hsplit, andThen_ok]
      simp only [if_true]
      rfl
    · have hnew : p ≠ file₁.nextPage := hnext ▸ Nat.ne_of_lt (Nat.lt_succ_of_lt hp)
      have hpage : p ≠ root := fun heq => hnot (heq ▸ hsub.mem_used)
      simp only [setRootBtreePage, writeNode, allocatePage, Function.update_of_ne hnew]
      exact hsame p hpage (Nat.ne_of_lt hp)
    · show file.nextPage ≤ file₁.nextPage + 1
      rw [hnext]
      exact (Nat.le_succ _).trans (Nat.le_succ _)
  | cons parent path ih =>
    cases h with
    | @down _ _ lo₀ _ hi₀ _ _ _ rightmost entries left₀ right₀ left' right' used₀ used' hup hpar
        hhole =>
    have hwithin : within.Nodup := (nodup_add.mp hpages.nodup).2.1
    have hlt : ∀ p ∈ within, p < file.nextPage := fun p hp =>
      hpages.lt p (mem_add.mpr (.inr hp))
    have hdisj : ∀ p ∈ used₀ + parent ::ₘ used', p ∉ within := fun p hp hp' =>
      disjoint_left.mp (nodup_add.mp hpages.nodup).2.2 hp hp'
    obtain ⟨file₁, median, leaves₁, leaves₂, used₁, used₂, hsplit, hparted, hnext, hsame⟩ :=
      splitNode_parted hcount hsub hwithin hlt hnode
    have halloc := hparted.allocated hnext hpages hsub.mem_used
    have hlinked' := hparted.linked_around hlinked
    -- the split has not touched the pages around it
    have haround : ∀ p ∈ used₀ + parent ::ₘ used', file₁.pages p = file.pages p := fun p hp =>
      hsame p (fun heq => hdisj p hp (heq ▸ hsub.mem_used))
        (Nat.ne_of_lt (hpages.lt p (mem_add.mpr (.inl hp))))
    have hmem : parent ∈ used₀ + parent ::ₘ used' :=
      mem_add.mpr (.inr (mem_cons_self _ _))
    have hread : file₁.readNode parent = .ok (.internal entries rightmost) := by
      simp [readNode, haround parent hmem, hpar]
    have hnotRoot : page ≠ root := fun heq => by
      have hctx := Context.down hup hpar hhole
      have hroot := (hctx.root_eq fun hin => hdisj page hin hsub.mem_used).mp heq
      cases hroot
    -- the parent is given the two halves
    obtain ⟨entries', rightmost', hins, hne, hkids⟩ :=
      (hhole.congr fun p hp => haround p
        (mem_add.mpr (.inr (mem_cons_of_mem hp)))).insertChild (fun _ _ _ _ _ h => h.mem_used)
        (fun hin => hdisj page (mem_add.mpr (.inr (mem_cons_of_mem hin))) hsub.mem_used)
        hparted.leftHalf hparted.rightHalf hparted.between
    obtain ⟨file₂, hfile₂⟩ : ∃ f, f = file₁.writeNode parent (.internal entries' rightmost') :=
      ⟨_, rfl⟩
    have hother : ∀ p, p ≠ parent → file₂.pages p = file₁.pages p := fun p hp => by
      rw [hfile₂]
      exact Function.update_of_ne hp _ _
    have hself : file₂.pages parent = some (.internal entries' rightmost') := by
      rw [hfile₂]
      exact Function.update_self _ _ _
    have hused : used₀ + parent ::ₘ used' + (used₁ + used₂) =
        used₀ + parent ::ₘ (used' + (used₁ + used₂)) := by
      rw [add_assoc, cons_add]
    rw [hused] at halloc
    have honce := (nodup_add.mp halloc.nodup)
    have hctx : Context file₂.pages root path (height + 1) lo₀ hi₀ parent left₀ right₀ used₀ := by
      refine hup.congr fun p hp => ?_
      have hne : p ≠ parent := fun heq =>
        disjoint_left.mp honce.2.2 hp (heq ▸ mem_cons_self _ _)
      rw [hother p hne, haround p (mem_add.mpr (.inl hp))]
    have hsub₂ : Subtree file₂.pages (height + 1) lo₀ hi₀ parent
        (left' ++ (leaves₁ ++ leaves₂) ++ right') (parent ::ₘ (used' + (used₁ + used₂))) := by
      refine .internal hself (hkids.congr fun p hp => hother p fun heq => ?_)
      exact (nodup_cons.mp honce.2.1).1 (heq ▸ hp)
    have halloc₂ : Allocated file₂ (used₀ + parent ::ₘ (used' + (used₁ + used₂))) :=
      halloc.mono le_rfl (by rw [hfile₂]; rfl)
    have hlinked₂ : Linked (left₀ ++ (left' ++ (leaves₁ ++ leaves₂) ++ right') ++ right₀) 0 := by
      simpa using hlinked'
    have hconts : contents (left₀ ++ (left' ++ (leaves₁ ++ leaves₂) ++ right') ++ right₀) =
        contents (left₀ ++ left' ++ leaves ++ (right' ++ right₀)) := by
      have hsplitContents := hparted.contents_eq
      simp only [contents_append, append_assoc] at hsplitContents ⊢
      rw [← append_assoc (contents leaves₁), hsplitContents]
    have hwithin₂ : Within file file₂ (used₀ + parent ::ₘ used' + within) := by
      refine ⟨fun p hp hnot => ?_, ?_⟩
      · have hne : p ≠ parent := fun heq =>
          hnot (mem_add.mpr (.inl (heq ▸ hmem)))
        rw [hother p hne]
        exact hsame p (fun heq => hnot (mem_add.mpr (.inr (heq ▸ hsub.mem_used)))) (Nat.ne_of_lt hp)
      · rw [hfile₂]
        exact (Nat.le_succ _).trans hnext.ge
    rw [splitAndPropagate, hsplit, andThen_ok]
    simp only [if_neg hnotRoot, hread, hins, ← hfile₂]
    by_cases hfull : (BTreeNode.internal entries' rightmost').overfull cfg = true
    · -- the parent is too full in turn
      obtain ⟨file', root', hrun, hchanged⟩ := ih hctx hsub₂ halloc₂ hlinked₂ hself (length_pos_iff.mpr hne)
      refine ⟨file', root', by rw [if_pos hfull]; exact hrun, hconts ▸ hchanged.tree,
        hwithin₂.trans hchanged.within fun p hp hlt => ?_⟩
      rw [← hused, hparted.used_eq, Multiset.add_cons, Multiset.mem_cons] at hp
      exact hp.resolve_left (Nat.ne_of_lt hlt)
    · refine ⟨file₂, root, by rw [if_neg hfull], ⟨_, hctx.tree hsub₂ halloc₂ hlinked₂, hconts⟩, hwithin₂⟩

end NanoStore.Table
