import NanoStore.Table.BTreeHistory
/-!
# The paged B-tree — vacuum

`PagedBTree::vacuum` goes down the whole tree. On a leaf it vacuums every
chain and drops the entries whose newest version is a tombstone, committed
or not. A leaf that is left without entries is freed and its parent forgets
it, and so is an internal page without children; the root stays. The leaf
before a freed one keeps pointing to it.

The chains of a paged B-tree hold inline values, so vacuum frees no page
of a value.
-/

namespace NanoStore.Table

open Wal Steps Txn Function List VersionChain

/-! ## The code -/

/-- The chain of an entry is vacuumed. -/
def vacuumEntry (minVisibleLsn : ℕ) (e : LeafEntry) : LeafEntry :=
  { e with chain := (vacuum minVisibleLsn e.chain).1 }

/-- The loop over the entries of a leaf. -/
def vacuumEntries (minVisibleLsn : ℕ) (entries : List LeafEntry) : List LeafEntry :=
  (entries.map (vacuumEntry minVisibleLsn)).filter fun e => !isTombstone e.chain

/-- The versions that loop counts as removed. -/
def removedVersions (minVisibleLsn : ℕ) (entries : List LeafEntry) : ℕ :=
  (entries.map fun e => (vacuum minVisibleLsn e.chain).2.1).sum

/-- An internal page whose rightmost child was freed: the child of the last entry takes its
place. -/
def closeGap (freed : List PageId) (entries : List InternalEntry) (rightmostChild : PageId) :
    List InternalEntry × PageId :=
  if freed.contains rightmostChild then
    match entries.getLast? with
    | some last => (entries.dropLast, last.childPageId)
    | none => ([], 0)
  else (entries, rightmostChild)

namespace PageFile

/-- The loop over the entries of an internal page: the entries that stay, the versions removed
and the pages freed. -/
def vacuumChildren (visit : PageFile → PageId → Outcome PageFile TreeError (ℕ × List PageId)) :
    PageFile → List InternalEntry → Outcome PageFile TreeError (List InternalEntry × ℕ × List PageId)
  | file, [] => (file, .ok ([], 0, []))
  | file, e :: entries =>
    andThen (visit file e.childPageId) fun file (removed, childFreed) =>
      andThen (vacuumChildren visit file entries) fun file (kept, removed', freed) =>
        (file, .ok (if childFreed.contains e.childPageId then kept else e :: kept,
          removed + removed', childFreed ++ freed))

/-- `vacuum_node`, at most `fuel` pages deep: the versions removed and the pages freed. -/
def vacuumNode (minVisibleLsn : ℕ) :
    ℕ → Bool → PageFile → PageId → Outcome PageFile TreeError (ℕ × List PageId)
  | 0, _, file, _ => (file, .error .endless)
  | fuel + 1, isRoot, file, page =>
    match file.readNode page with
    | .error e => (file, .error e)
    | .ok (.internal entries rightmostChild) =>
      andThen (vacuumChildren (vacuumNode minVisibleLsn fuel false) file entries)
        fun file (kept, removed, freed) =>
          andThen (vacuumNode minVisibleLsn fuel false file rightmostChild) fun file (removed', childFreed) =>
              let (entries, rightmostChild) := closeGap childFreed kept rightmostChild
              if entries = [] ∧ rightmostChild = 0 ∧ isRoot = false then
                (file.freePage page, .ok (removed + removed', freed ++ childFreed ++ [page]))
              else (file.writeNode page (.internal entries rightmostChild),
                .ok (removed + removed', freed ++ childFreed))
    | .ok (.leaf entries nextLeaf) =>
      let kept := vacuumEntries minVisibleLsn entries
      if kept = [] ∧ isRoot = false then
        (file.freePage page, .ok (removedVersions minVisibleLsn entries, [page]))
      else (file.writeNode page (.leaf kept nextLeaf), .ok (removedVersions minVisibleLsn entries, []))

def vacuum (file : PageFile) (root : PageId) (minVisibleLsn : ℕ) : Outcome PageFile TreeError ℕ :=
  if root = 0 then (file, .ok 0)
  else andThen (file.vacuumNode minVisibleLsn (file.nextPage + 1) true root) fun file (removed, _) =>
    (file, .ok removed)

end PageFile

open PageFile

/-! ## Ranges and uniqueness -/

variable {height : ℕ} {lo : WithBot Key} {hi : WithTop Key} {page rightmost : PageId}
  {leaves : List LeafPage} {used : Multiset PageId} {pages : PageId → Option BTreeNode} {height' : ℕ}
  {lo' : WithBot Key} {hi' : WithTop Key} {leaves' : List LeafPage} {used' : Multiset PageId}
  {entries : List InternalEntry} {P Q : Description}

theorem Kids.mono (h : Kids P hi lo entries rightmost leaves used)
    (hP : ∀ lo lo' hi hi' page leaves used, P lo hi page leaves used → lo' ≤ lo → hi ≤ hi' →
      P lo' hi' page leaves used) (hlo : lo' ≤ lo) (hhi : hi ≤ hi') :
    Kids P hi' lo' entries rightmost leaves used := by
  induction h generalizing lo' with
  | last h => exact .last (hP _ _ _ _ _ _ _ h hlo hhi)
  | cons h hkey _ ih => exact .cons (hP _ _ _ _ _ _ _ h hlo le_rfl) (hkey.mono hlo hhi) (ih le_rfl)

theorem Subtree.mono (h : Subtree pages height lo hi page leaves used) (hlo : lo' ≤ lo)
    (hhi : hi ≤ hi') : Subtree pages height lo' hi' page leaves used := by
  induction height generalizing lo hi lo' hi' page leaves used with
  | zero =>
    obtain ⟨entries, nextLeaf, hpage, hsort, hrange, rfl, rfl⟩ := h
    exact .leaf hpage hsort fun e he => (hrange e he).mono hlo hhi
  | succ height ih =>
    obtain ⟨entries, rightmost, below, hpage, hkids, rfl⟩ := h
    exact .internal hpage (hkids.mono (fun _ _ _ _ _ _ _ h hlo hhi => ih h hlo hhi) hlo hhi)

theorem Kids.unique (h : Kids P hi lo entries rightmost leaves used)
    (h' : Kids Q hi' lo' entries rightmost leaves' used')
    (hunique : ∀ lo lo' hi hi' page leaves leaves' used used', P lo hi page leaves used →
      Q lo' hi' page leaves' used' → leaves = leaves' ∧ used = used') : leaves = leaves' ∧ used = used' := by
  induction h generalizing lo' leaves' used' with
  | last h =>
    cases h' with
    | last h' => exact hunique _ _ _ _ _ _ _ _ _ h h'
  | cons h _ _ ih =>
    cases h' with
    | cons h' _ hrest' =>
      obtain ⟨rfl, rfl⟩ := hunique _ _ _ _ _ _ _ _ _ h h'
      obtain ⟨rfl, rfl⟩ := ih hrest'
      exact ⟨rfl, rfl⟩

theorem Subtree.unique (h : Subtree pages height lo hi page leaves used)
    (h' : Subtree pages height' lo' hi' page leaves' used') : leaves = leaves' ∧ used = used' := by
  induction height generalizing height' lo hi lo' hi' page leaves leaves' used used' with
  | zero =>
    obtain ⟨entries, nextLeaf, hpage, -, -, rfl, rfl⟩ := h
    cases height' with
    | zero =>
      obtain ⟨entries', nextLeaf', hpage', -, -, rfl, rfl⟩ := h'
      rw [hpage] at hpage'
      cases hpage'
      exact ⟨rfl, rfl⟩
    | succ height' =>
      obtain ⟨_, _, _, hpage', _⟩ := h'
      rw [hpage] at hpage'
      cases hpage'
  | succ height ih =>
    obtain ⟨entries, rightmost, below, hpage, hkids, rfl⟩ := h
    cases height' with
    | zero =>
      obtain ⟨_, _, hpage', _⟩ := h'
      rw [hpage] at hpage'
      cases hpage'
    | succ height' =>
      obtain ⟨entries', rightmost', below', hpage', hkids', rfl⟩ := h'
      rw [hpage] at hpage'
      cases hpage'
      obtain ⟨rfl, rfl⟩ := hkids.unique hkids' fun _ _ _ _ _ _ _ _ _ h h' => ih h h'
      exact ⟨rfl, rfl⟩

/-! ## What vacuum leaves of the leaves -/

/-- The leaf after its entries were vacuumed. -/
def LeafPage.vacuum (w : ℕ) (leaf : LeafPage) : LeafPage :=
  { leaf with entries := vacuumEntries w leaf.entries }

/-- The leaves that are not freed. -/
def survivors (w : ℕ) (leaves : List LeafPage) : List LeafPage :=
  (leaves.map (LeafPage.vacuum w)).filter fun leaf => !leaf.entries.isEmpty

@[simp] theorem survivors_append (w : ℕ) :
    survivors w (leaves ++ leaves') = survivors w leaves ++ survivors w leaves' := by
  simp [survivors]

/-- What vacuum makes of the pages below a page that is not the root: it leaves all other pages
alone, frees the page exactly if no leaf below it stays, and otherwise keeps a subtree of the leaves
that do. -/
structure Vacuumed (w : ℕ) (file file' : PageFile) (height : ℕ) (lo : WithBot Key)
    (hi : WithTop Key) (page : PageId) (leaves : List LeafPage) (used : Multiset PageId)
    (freed : List PageId) : Prop where
  frame : ∀ p ∉ used, file'.pages p = file.pages p
  nextPage : file'.nextPage = file.nextPage
  freed_used : ∀ p ∈ freed, p ∈ used
  freed_iff : page ∈ freed ↔ survivors w leaves = []
  subtree : survivors w leaves ≠ [] →
    ∃ used' ≤ used, Subtree file'.pages height lo hi page (survivors w leaves) used'

/-- What vacuum makes of the children of a page, given the pages freed under its rightmost
child. -/
structure KidsVacuumed (w : ℕ) (file file' : PageFile) (height : ℕ) (lo : WithBot Key)
    (hi : WithTop Key) (kept : List InternalEntry) (rightmost : PageId) (leaves : List LeafPage)
    (used : Multiset PageId) (freed childFreed : List PageId) : Prop where
  frame : ∀ p ∉ used, file'.pages p = file.pages p
  nextPage : file'.nextPage = file.nextPage
  freed_used : ∀ p ∈ freed ++ childFreed, p ∈ used
  childless_iff : kept = [] ∧ rightmost ∈ childFreed ↔ survivors w leaves = []
  kids : survivors w leaves ≠ [] →
    ∃ used' ≤ used, Kids (Subtree file'.pages height) hi lo (closeGap childFreed kept rightmost).1
      (closeGap childFreed kept rightmost).2 (survivors w leaves) used'

variable {w : ℕ} {file : PageFile} {fuel : ℕ} {freed : List PageId} {kept : List InternalEntry}

theorem closeGap_cons {e : InternalEntry} (h : ¬ (kept = [] ∧ rightmost ∈ freed)) :
    closeGap freed (e :: kept) rightmost =
      (e :: (closeGap freed kept rightmost).1, (closeGap freed kept rightmost).2) := by
  unfold closeGap
  by_cases hfreed : rightmost ∈ freed
  · have hne : kept ≠ [] := fun hnil => h ⟨hnil, hfreed⟩
    obtain ⟨last, hlast⟩ : ∃ last, kept.getLast? = some last :=
      Option.ne_none_iff_exists'.mp fun hnone => hne (getLast?_eq_none_iff.mp hnone)
    simp [hfreed, getLast?_cons, hlast, dropLast_cons_of_ne_nil hne]
  · simp [hfreed]

/-- **The children of a page**, one after the other. -/
theorem Kids.vacuum (h : Kids (Subtree file.pages height) hi lo entries rightmost leaves used)
    (visit : PageFile → PageId → Outcome PageFile TreeError (ℕ × List PageId))
    (hvisit : ∀ file lo hi page leaves used, Subtree file.pages height lo hi page leaves used →
      used.Nodup → 0 ∉ used → ∃ file' removed freed, visit file page = (file', .ok (removed, freed)) ∧
          Vacuumed w file file' height lo hi page leaves used freed)
    (hnd : used.Nodup) (hzero : 0 ∉ used) : ∃ file₁ file' kept removed freed removed' childFreed,
      vacuumChildren visit file entries = (file₁, .ok (kept, removed, freed)) ∧
      visit file₁ rightmost = (file', .ok (removed', childFreed)) ∧
      KidsVacuumed w file file' height lo hi kept rightmost leaves used freed childFreed := by
  induction entries generalizing file lo leaves used with
  | nil =>
    cases h with
    | last h =>
      obtain ⟨file', removed', childFreed, hrun, hvac⟩ := hvisit _ _ _ _ _ _ h hnd hzero
      refine ⟨file, file', [], 0, [], removed', childFreed, rfl, hrun, hvac.frame, hvac.nextPage,
        by simpa using hvac.freed_used, by simpa using hvac.freed_iff, fun hne => ?_⟩
      obtain ⟨used', hle, hsub⟩ := hvac.subtree hne
      have hgap : closeGap childFreed [] rightmost = ([], rightmost) := by
        have hnot : rightmost ∉ childFreed := fun hmem => hne (hvac.freed_iff.mp hmem)
        simp [closeGap, hnot]
      rw [hgap]
      exact ⟨used', hle, .last hsub⟩
  | cons e entries ih =>
    cases h with
    | @cons _ key child _ _ leaves₁ leaves₂ used₁ used₂ h hkey hrest =>
      obtain ⟨hnd₁, hnd₂, hdisj⟩ := Multiset.nodup_add.mp hnd
      rw [Multiset.mem_add, not_or] at hzero
      obtain ⟨file₁, removed₁, freed₁, hrun₁, hvac₁⟩ := hvisit _ _ _ _ _ _ h hnd₁ hzero.1
      -- the other children do not see what happened below the first one
      have hrest₁ : Kids (Subtree file₁.pages height) hi key entries rightmost leaves₂ used₂ :=
        hrest.congr fun p hp => hvac₁.frame p fun hp₁ => Multiset.disjoint_left.mp hdisj hp₁ hp
      obtain ⟨file₂, file', kept, removed, freed, removed', childFreed, hrun, hlast, hvac⟩ :=
        ih hrest₁ hnd₂ hzero.2
      refine ⟨file₂, file', if freed₁.contains child then kept else ⟨key, child⟩ :: kept,
        removed₁ + removed, freed₁ ++ freed, removed', childFreed, ?_, hlast, ?_, ?_, ?_, ?_, ?_⟩
      · simp [vacuumChildren, hrun₁, andThen_ok, hrun]
      · intro p hp
        rw [Multiset.mem_add, not_or] at hp
        rw [hvac.frame p hp.2, hvac₁.frame p hp.1]
      · rw [hvac.nextPage, hvac₁.nextPage]
      · intro p hp
        rw [append_assoc, mem_append] at hp
        rcases hp with hp | hp
        · exact Multiset.mem_add.mpr (.inl (hvac₁.freed_used p hp))
        · exact Multiset.mem_add.mpr (.inr (hvac.freed_used p hp))
      · rw [survivors_append, append_eq_nil_iff, ← hvac.childless_iff, ← hvac₁.freed_iff]
        by_cases hfreed : child ∈ freed₁
        · simp [hfreed]
        · simp [hfreed]
      · intro hne
        rw [survivors_append] at hne ⊢
        by_cases hfreed : child ∈ freed₁
        · -- the child goes, and its range falls to the next one
          have hnone := hvac₁.freed_iff.mp hfreed
          rw [hnone, nil_append] at hne ⊢
          obtain ⟨used', hle, hkids⟩ := hvac.kids hne
          refine ⟨used', hle.trans (Multiset.le_add_left _ _), ?_⟩
          simp only [contains_iff_mem, hfreed, if_true]
          exact hkids.mono (fun _ _ _ _ _ _ _ h hlo hhi => h.mono hlo hhi) hkey.1 le_rfl
        · obtain ⟨used₁', hle₁, hsub₁⟩ := hvac₁.subtree fun hnone => hfreed (hvac₁.freed_iff.mpr hnone)
          have hkid : Subtree file'.pages height lo key child (survivors w leaves₁) used₁' :=
            hsub₁.congr fun p hp => hvac.frame p fun hp₂ =>
              Multiset.disjoint_left.mp hdisj (Multiset.mem_of_le hle₁ hp) hp₂
          simp only [contains_iff_mem, hfreed, if_false]
          by_cases hgone : survivors w leaves₂ = []
          · -- nothing is left to the right of it: it becomes the rightmost child
            obtain ⟨rfl, hlastFreed⟩ := hvac.childless_iff.mpr hgone
            have hgap : closeGap childFreed [⟨key, child⟩] rightmost = ([], child) := by
              simp [closeGap, hlastFreed]
            rw [hgap, hgone, append_nil]
            exact ⟨used₁', hle₁.trans (Multiset.le_add_right _ _), .last (hkid.mono le_rfl hkey.2)⟩
          · obtain ⟨used₂', hle₂, hkids⟩ := hvac.kids hgone
            rw [closeGap_cons fun h => hgone (hvac.childless_iff.mp h)]
            exact ⟨used₁' + used₂', add_le_add hle₁ hle₂, .cons hkid hkey hkids⟩

theorem vacuumEntries_sorted {entries : List LeafEntry} (h : Ascending entries) :
    Ascending (vacuumEntries w entries) :=
  List.Pairwise.filter _ (h.map fun _ => rfl)

theorem mem_vacuumEntries {entries : List LeafEntry} {e : LeafEntry} : e ∈ vacuumEntries w entries ↔
    ∃ e₀ ∈ entries, vacuumEntry w e₀ = e ∧ isTombstone e₀.chain = false := by
  simp only [vacuumEntries, mem_filter, mem_map, Bool.not_eq_true']
  constructor
  · rintro ⟨⟨e₀, he₀, rfl⟩, hkept⟩
    exact ⟨e₀, he₀, rfl, isTombstone_vacuum.symm.trans hkept⟩
  · rintro ⟨e₀, he₀, rfl, hkept⟩
    exact ⟨⟨e₀, he₀, rfl⟩, isTombstone_vacuum.trans hkept⟩

theorem Subtree.vacuumLeaf {leafEntries : List LeafEntry} {nextLeaf : PageId}
    (hsort : Ascending leafEntries) (hrange : ∀ e ∈ leafEntries, InRange lo hi e.key) :
    Subtree (file.writeNode page (.leaf (vacuumEntries w leafEntries) nextLeaf)).pages 0 lo hi page
      [LeafPage.vacuum w ⟨page, leafEntries, nextLeaf⟩] {page} := by
  refine .leaf (update_self _ _ _) (vacuumEntries_sorted hsort) fun e he => ?_
  obtain ⟨e₀, he₀, rfl, -⟩ := mem_vacuumEntries.mp he
  exact hrange e₀ he₀

theorem KidsVacuumed.subtree {file' : PageFile} {childFreed : List PageId}
    (h : KidsVacuumed w file file' height lo hi kept rightmost leaves used freed childFreed)
    (hne : survivors w leaves ≠ []) (hpage : page ∉ used) : ∃ used' ≤ page ::ₘ used,
      Subtree (file'.writeNode page (.internal (closeGap childFreed kept rightmost).1
        (closeGap childFreed kept rightmost).2)).pages (height + 1) lo hi page
        (survivors w leaves) used' := by
  obtain ⟨used', hle, hkids⟩ := h.kids hne
  refine ⟨page ::ₘ used', Multiset.cons_le_cons page hle, .internal (update_self _ _ _) ?_⟩
  refine hkids.congr fun p hp => ?_
  have hne : p ≠ page := fun heq => hpage (heq ▸ Multiset.mem_of_le hle hp)
  exact update_of_ne hne _ _

/-- **Vacuum below a page that is not the root**, by induction on its height. -/
theorem Subtree.vacuum (h : Subtree file.pages height lo hi page leaves used) (hnd : used.Nodup)
    (hzero : 0 ∉ used) (hfuel : height < fuel) :
    ∃ file' removed freed, vacuumNode w fuel false file page = (file', .ok (removed, freed)) ∧
      Vacuumed w file file' height lo hi page leaves used freed := by
  induction height generalizing file lo hi page leaves used fuel with
  | zero =>
    obtain ⟨fuel, rfl⟩ : ∃ n, fuel = n + 1 := ⟨fuel - 1, by omega⟩
    obtain ⟨leafEntries, nextLeaf, hpage, hsort, hrange, rfl, rfl⟩ := h
    simp only [vacuumNode, readNode, hpage, and_true]
    have hother : ∀ node, ∀ p ∉ ({page} : Multiset PageId),
        (file.writeNode page node).pages p = file.pages p := fun node p hp =>
      update_of_ne (by simpa using hp) _ _
    by_cases hkept : vacuumEntries w leafEntries = []
    · have hnone : survivors w [⟨page, leafEntries, nextLeaf⟩] = [] := by
        simp [survivors, LeafPage.vacuum, hkept]
      rw [if_pos hkept]
      exact ⟨_, _, _, rfl, fun _ _ => rfl, rfl, by simp, by simp [hnone], fun hne => absurd hnone hne⟩
    · have hsome : survivors w [⟨page, leafEntries, nextLeaf⟩] =
          [LeafPage.vacuum w ⟨page, leafEntries, nextLeaf⟩] := by
        simp [survivors, LeafPage.vacuum, hkept]
      rw [if_neg hkept]
      refine ⟨_, _, _, rfl, hother _, rfl, by simp, by simp [hsome], fun _ => ⟨{page}, le_rfl, ?_⟩⟩
      rw [hsome]
      exact .vacuumLeaf hsort hrange
  | succ height ih =>
    obtain ⟨fuel, rfl⟩ : ∃ n, fuel = n + 1 := ⟨fuel - 1, by omega⟩
    obtain ⟨entries, rightmost, below, hpage, hkids, rfl⟩ := h
    obtain ⟨hnew, hnd⟩ := Multiset.nodup_cons.mp hnd
    rw [Multiset.mem_cons, not_or] at hzero
    have hfuel : height < fuel := by omega
    obtain ⟨file₁, file', kept, removed, freed, removed', childFreed, hrun, hlast, hvac⟩ :=
      hkids.vacuum (vacuumNode w fuel false) (fun _ _ _ _ _ _ h hnd hzero => ih h hnd hzero hfuel) hnd hzero.2
    simp only [vacuumNode, readNode, hpage, hrun, andThen_ok, hlast, and_true]
    have hbelow : ∀ p ∉ page ::ₘ below, file'.pages p = file.pages p := fun p hp =>
      hvac.frame p fun hmem => hp (Multiset.mem_cons_of_mem hmem)
    have hother : ∀ node, ∀ p ∉ page ::ₘ below,
        (file'.writeNode page node).pages p = file.pages p := fun node p hp =>
      (update_of_ne (fun heq : p = page => hp (heq ▸ Multiset.mem_cons_self page below)) _ _).trans
        (hbelow p hp)
    by_cases hnone : survivors w leaves = []
    · -- no child is left
      obtain ⟨rfl, hgone⟩ := hvac.childless_iff.mpr hnone
      have hgap : closeGap childFreed [] rightmost = ([], 0) := by simp [closeGap, hgone]
      rw [hgap, if_pos ⟨rfl, rfl⟩]
      refine ⟨_, _, _, rfl, hbelow, hvac.nextPage, fun p hp => ?_, by simp [hnone],
        fun hne => absurd hnone hne⟩
      rcases mem_append.mp hp with hp | hp
      · exact Multiset.mem_cons_of_mem (hvac.freed_used p hp)
      · exact mem_singleton.mp hp ▸ Multiset.mem_cons_self page below
    · obtain ⟨used', hle, hsub⟩ := hvac.subtree hnone hnew
      have hkept : ¬ ((closeGap childFreed kept rightmost).1 = [] ∧
          (closeGap childFreed kept rightmost).2 = 0) := by
        rintro ⟨-, hroot⟩
        obtain ⟨used'', hle', hkids'⟩ := hvac.kids hnone
        have hmem := hkids'.rightmost_mem fun _ _ _ _ _ h => h.mem_used
        exact hzero.2 (Multiset.mem_of_le hle' (hroot ▸ hmem))
      rw [if_neg hkept]
      refine ⟨_, _, _, rfl, hother _, hvac.nextPage, fun p hp => ?_, ?_, fun _ => ⟨used', hle, hsub⟩⟩
      · exact Multiset.mem_cons_of_mem (hvac.freed_used p hp)
      · simp only [hnone, iff_false]
        exact fun hmem => hnew (hvac.freed_used page hmem)

/-! ## The root -/

/-- The root is a leaf. -/
def RootIsLeaf (file : PageFile) (root : PageId) : Prop :=
  ∃ entries nextLeaf, file.pages root = some (.leaf entries nextLeaf)

variable {root : PageId}

/-- **What vacuum makes of a tree.** A root that is a leaf stays one; under any other root the
leaves with entries left stay, and the root is left without children if there are none. -/
theorem Tree.vacuum (h : Tree file root leaves) (w : ℕ) :
    ∃ file' removed, file.vacuum root w = (file', .ok removed) ∧
      (RootIsLeaf file root → Tree file' root (leaves.map (LeafPage.vacuum w))) ∧
      (¬ RootIsLeaf file root → survivors w leaves = [] → file'.pages root = some (.internal [] 0)) ∧
      (¬ RootIsLeaf file root → survivors w leaves ≠ [] →
        ∃ height used, Subtree file'.pages height ⊥ ⊤ root (survivors w leaves) used ∧
          Allocated file' used) := by
  obtain ⟨height, used, hsub, halloc⟩ := h.shape
  have hfuel : height < file.nextPage + 1 :=
    Nat.lt_succ_of_le (hsub.height_lt.le.trans halloc.card_le)
  have hzero : 0 ∉ used := fun hmem => (halloc.pos 0 hmem).ne rfl
  rw [PageFile.vacuum, if_neg (halloc.pos root hsub.mem_used).ne']
  cases height with
  | zero =>
    obtain ⟨leafEntries, nextLeaf, hpage, hsort, hrange, rfl, rfl⟩ := hsub
    have hroot : RootIsLeaf file root := ⟨leafEntries, nextLeaf, hpage⟩
    simp only [vacuumNode, readNode, hpage, Bool.true_eq_false, and_false, if_false, andThen_ok]
    refine ⟨_, _, rfl, fun _ => ⟨⟨0, {root}, .vacuumLeaf hsort hrange, ?_⟩, h.linked⟩,
      fun hnot => absurd hroot hnot, fun hnot => absurd hroot hnot⟩
    exact { halloc with }
  | succ height =>
    obtain ⟨entries, rightmost, below, hpage, hkids, rfl⟩ := hsub
    have hroot : ¬ RootIsLeaf file root := by
      rintro ⟨_, _, hleaf⟩
      rw [hpage] at hleaf
      cases hleaf
    obtain ⟨hnew, hnd⟩ := Multiset.nodup_cons.mp halloc.nodup
    rw [Multiset.mem_cons, not_or] at hzero
    have hfuel : height < file.nextPage := by omega
    obtain ⟨file₁, file', kept, removed, freed, removed', childFreed, hrun, hlast, hvac⟩ :=
      hkids.vacuum (vacuumNode w file.nextPage false)
        (fun _ _ _ _ _ _ h hnd hzero => h.vacuum hnd hzero hfuel) hnd hzero.2
    simp only [vacuumNode, readNode, hpage, hrun, andThen_ok, hlast, Bool.true_eq_false, and_false, if_false]
    refine ⟨_, _, rfl, fun hleaf => absurd hleaf hroot, fun _ hnone => ?_, fun _ hne => ?_⟩
    · obtain ⟨rfl, hgone⟩ := hvac.childless_iff.mpr hnone
      have hgap : closeGap childFreed [] rightmost = ([], 0) := by simp [closeGap, hgone]
      rw [hgap]
      exact update_self _ _ _
    · obtain ⟨used', hle, hsub'⟩ := hvac.subtree hne hnew
      exact ⟨height + 1, used', hsub', halloc.mono hle hvac.nextPage.ge⟩

/-! ## The links -/

/-- All entries of the leaf are under tombstones: vacuum frees it. -/
def Doomed (leaf : LeafPage) : Prop := ∀ e ∈ leaf.entries, isTombstone e.chain = true

variable {leaf : LeafPage}

theorem vacuumEntries_eq_nil : vacuumEntries w leaf.entries = [] ↔ Doomed leaf := by
  rw [eq_nil_iff_forall_not_mem]
  constructor
  · intro h e he
    by_contra hkept
    exact h _ (mem_vacuumEntries.mpr ⟨e, he, rfl, by simpa using hkept⟩)
  · intro h e he
    obtain ⟨e₀, he₀, -, hkept⟩ := mem_vacuumEntries.mp he
    rw [h e₀ he₀] at hkept
    cases hkept

theorem survivors_cons_of_doomed (h : Doomed leaf) : survivors w (leaf :: leaves) = survivors w leaves := by
  simp [survivors, LeafPage.vacuum, vacuumEntries_eq_nil.mpr h]

theorem survivors_cons_of_not_doomed (h : ¬ Doomed leaf) :
    survivors w (leaf :: leaves) = leaf.vacuum w :: survivors w leaves := by
  have hne : vacuumEntries w leaf.entries ≠ [] := fun hnil => h (vacuumEntries_eq_nil.mp hnil)
  simp [survivors, LeafPage.vacuum, hne]

theorem survivors_eq_nil : survivors w leaves = [] ↔ ∀ leaf ∈ leaves, Doomed leaf := by
  induction leaves with
  | nil => simp [survivors]
  | cons leaf leaves ih =>
    by_cases h : Doomed leaf
    · simp [survivors_cons_of_doomed h, ih, h]
    · simp [survivors_cons_of_not_doomed h, h]

theorem firstPage_survivors : firstPage (survivors w leaves) 0 = 0 ∨
    ∃ leaf ∈ leaves, leaf.page = firstPage (survivors w leaves) 0 := by
  induction leaves with
  | nil => exact .inl rfl
  | cons leaf leaves ih =>
    by_cases h : Doomed leaf
    · rw [survivors_cons_of_doomed h]
      rcases ih with hzero | ⟨leaf', hleaf', hpage⟩
      · exact .inl hzero
      · exact .inr ⟨leaf', mem_cons_of_mem _ hleaf', hpage⟩
    · rw [survivors_cons_of_not_doomed h]
      exact .inr ⟨leaf, mem_cons_self, rfl⟩

/-- **The leaves that stay are linked** exactly if every leaf before a freed one is freed too: the
links are not touched. -/
theorem linked_survivors_iff (hlinked : Linked leaves 0) (hnd : (leaves.map LeafPage.page).Nodup)
    (hpos : ∀ leaf ∈ leaves, 0 < leaf.page) :
    Linked (survivors w leaves) 0 ↔ leaves.Pairwise fun leaf leaf' => Doomed leaf' → Doomed leaf := by
  induction leaves with
  | nil => simp [survivors, Linked]
  | cons leaf leaves ih =>
    obtain ⟨hlink, hlinked⟩ := hlinked
    obtain ⟨-, hnd⟩ := nodup_cons.mp hnd
    have ih := ih hlinked hnd fun leaf' hleaf' => hpos leaf' (mem_cons_of_mem _ hleaf')
    rw [pairwise_cons, ← ih]
    by_cases h : Doomed leaf
    · simp [survivors_cons_of_doomed h, h]
    · rw [survivors_cons_of_not_doomed h, Linked]
      refine and_congr_left fun hrest => ?_
      have hspared := ih.mp hrest
      have hlink : (leaf.vacuum w).nextLeaf = firstPage leaves 0 := hlink
      rw [hlink]
      cases leaves with
      | nil => simp [survivors, firstPage]
      | cons next rest =>
        constructor
        · intro hnext
          -- the next leaf stays, for a freed page is no page of the others
          have hstays : ¬ Doomed next := by
            intro hdoomed
            rw [survivors_cons_of_doomed hdoomed] at hnext
            have hnext : next.page = firstPage (survivors w rest) 0 := hnext
            rcases firstPage_survivors with hzero | ⟨leaf', hleaf', hpage⟩
            · exact (hpos next (by simp)).ne' (hnext.trans hzero)
            · exact (nodup_cons.mp hnd).1 (mem_map.mpr ⟨leaf', hleaf', hpage.trans hnext.symm⟩)
          intro leaf' hleaf' hdoomed
          rcases mem_cons.mp hleaf' with rfl | hleaf'
          · exact absurd hdoomed hstays
          · exact absurd (rel_of_pairwise_cons hspared hleaf' hdoomed) hstays
        · intro hnone
          rw [survivors_cons_of_not_doomed fun hdoomed => h (hnone next mem_cons_self hdoomed)]
          rfl

/-! ## The entries -/

/-- The versions of a key that are not committed. -/
def openVersions (entries : List LeafEntry) (key : Key) : VersionChain :=
  uncommitted ((chainOn entries key).getD [])

/-- What an entry needs for vacuum to do it no harm: under a tombstone nothing is uncommitted and
nothing is read at or above the watermark; otherwise no uncommitted version stands where the chain
loses one. -/
def Safe (w : ℕ) (e : LeafEntry) : Prop :=
  if isTombstone e.chain then
    uncommitted e.chain = [] ∧ ∀ s, w ≤ s → hideEmpty (shows e.chain s) = none
  else VersionChain.KeepsOpen w e.chain

variable {s : ℕ} {entries : List LeafEntry} {e : LeafEntry} {key : Key}

theorem contents_map_vacuum :
    contents (leaves.map (LeafPage.vacuum w)) = vacuumEntries w (contents leaves) := by
  induction leaves with
  | nil => rfl
  | cons leaf leaves ih =>
    rw [map_cons, contents_cons, ih, contents_cons]
    simp [vacuumEntries, LeafPage.vacuum]

theorem contents_survivors :
    contents (survivors w leaves) = vacuumEntries w (contents leaves) := by
  rw [← contents_map_vacuum, survivors]
  induction leaves.map (LeafPage.vacuum w) with
  | nil => rfl
  | cons leaf leaves ih => cases h : leaf.entries <;> simp [h, contents_cons, ih]

/-- What vacuum leaves of the chain of an entry. -/
def vacuumChain (w : ℕ) (chain : VersionChain) : Option VersionChain :=
  if isTombstone chain then none else some (vacuum w chain).1

theorem chainOn_vacuumEntries (h : Ascending entries) :
    chainOn (vacuumEntries w entries) key = (chainOn entries key).bind (vacuumChain w) := by
  cases hchain : chainOn entries key with
  | none =>
    rw [Option.bind_none, chainOn_eq_none]
    intro e he
    obtain ⟨e₀, he₀, rfl, -⟩ := mem_vacuumEntries.mp he
    exact chainOn_eq_none.mp hchain e₀ he₀
  | some chain =>
    obtain ⟨e, hfind, rfl⟩ := Option.map_eq_some_iff.mp hchain
    have he : e ∈ entries := mem_of_find?_eq_some hfind
    obtain rfl : e.key = key := by simpa using find?_some hfind
    rw [Option.bind_some, vacuumChain]
    by_cases hdead : isTombstone e.chain = true
    · -- another entry that stays would have the same key
      rw [if_pos hdead, chainOn_eq_none]
      intro e' he' hkey
      obtain ⟨e₀, he₀, rfl, hkept⟩ := mem_vacuumEntries.mp he'
      have hsame : chainOn entries e₀.key = some e₀.chain := h.chainOn_of_mem he₀
      have hkey : e₀.key = e.key := hkey
      rw [hkey, hchain] at hsame
      have hchains : e.chain = e₀.chain := Option.some.inj hsame
      rw [← hchains, hdead] at hkept
      cases hkept
    · rw [if_neg hdead]
      exact (vacuumEntries_sorted h).chainOn_of_mem (mem_vacuumEntries.mpr ⟨e, he, rfl, by simpa using hdead⟩)

/-- An entry is safe exactly if what is left of its chain reads the same and has the same uncommitted
versions. -/
theorem safe_iff : Safe w e ↔
    (∀ s, w ≤ s → ((vacuumChain w e.chain).bind fun chain => hideEmpty (shows chain s)) =
      hideEmpty (shows e.chain s)) ∧
    uncommitted ((vacuumChain w e.chain).getD []) = uncommitted e.chain := by
  unfold Safe vacuumChain
  by_cases hdead : isTombstone e.chain = true
  · simp only [if_pos hdead, Option.bind_none, Option.getD_none, @eq_comm _ none]
    exact and_comm.trans (and_congr_right fun _ => eq_comm)
  · simp only [if_neg hdead, Option.bind_some, Option.getD_some]
    rw [vacuum_fst, uncommitted_thin_iff, ← vacuum_fst]
    refine (and_iff_right fun s hs => ?_).symm
    rw [shows_eq, shows_eq, vacuum_fst, find?_thin_of_le hs]

section

variable {α : Type*} {read read' : Option Bytes → α}

/-- What vacuum keeps of an entry that stays is read as before, if the values it shows are. -/
def ReadAlike (read read' : Option Bytes → α) (w : ℕ) (e : LeafEntry) : Prop :=
  isTombstone e.chain = false → ∀ s, w ≤ s → ∀ value, hideEmpty (shows e.chain s) = some value →
    read' (some value) = read (some value)

/-- **What a reader makes of an entry is the same before and after** exactly if nothing is read under
a tombstone, and the values of an entry that stays are read as before. -/
theorem readAlike_iff (hnone : read' none = read none) (hsome : ∀ value, read (some value) ≠ read none) :
    (∀ s, w ≤ s → read' ((vacuumChain w e.chain).bind fun chain => hideEmpty (shows chain s)) =
        read (hideEmpty (shows e.chain s))) ↔
      (∀ s, w ≤ s → ((vacuumChain w e.chain).bind fun chain => hideEmpty (shows chain s)) =
        hideEmpty (shows e.chain s)) ∧ ReadAlike read read' w e := by
  unfold vacuumChain ReadAlike
  cases hdead : isTombstone e.chain with
  | true =>
    simp only [if_true, Option.bind_none, hnone, Bool.true_eq_false, false_implies, and_true]
    refine forall₂_congr fun s _ => ?_
    cases hideEmpty (shows e.chain s) with
    | none => simp
    | some value => simp [(hsome value).symm]
  | false =>
    have hsame : ∀ s, w ≤ s → shows (vacuum w e.chain).1 s = shows e.chain s := fun s hs => by
      rw [shows_eq, shows_eq, vacuum_fst, find?_thin_of_le hs]
    simp only [Bool.false_eq_true, if_false, Option.bind_some, true_implies]
    constructor
    · intro h
      refine ⟨fun s hs => by rw [hsame s hs], fun s hs value hvalue => ?_⟩
      have hread := h s hs
      rwa [hsame s hs, hvalue] at hread
    · rintro ⟨-, h⟩ s hs
      rw [hsame s hs]
      cases hvalue : hideEmpty (shows e.chain s) with
      | none => exact hnone
      | some value => exact h s hs value hvalue

variable (read read') in
/-- **Vacuum does the entries no harm exactly if it does none to each of them.** -/
theorem vacuumEntries_iff (h : Ascending entries) (hnone : read' none = read none)
    (hsome : ∀ value, read (some value) ≠ read none) :
    ((∀ k s, w ≤ s → read' (readOn (vacuumEntries w entries) k s) = read (readOn entries k s)) ∧
      ∀ k, openVersions (vacuumEntries w entries) k = openVersions entries k) ↔
      ∀ e ∈ entries, Safe w e ∧ ReadAlike read read' w e := by
  have hiff : ∀ e, Safe w e ∧ ReadAlike read read' w e ↔
      (∀ s, w ≤ s → read' ((vacuumChain w e.chain).bind fun chain => hideEmpty (shows chain s)) =
        read (hideEmpty (shows e.chain s))) ∧
      uncommitted ((vacuumChain w e.chain).getD []) = uncommitted e.chain := fun e => by
    rw [safe_iff, readAlike_iff hnone hsome]
    exact and_right_comm
  simp only [readOn, openVersions, chainOn_vacuumEntries h]
  constructor
  · rintro ⟨hreads, hopen⟩ e he
    have hchain := h.chainOn_of_mem he
    refine (hiff e).mpr ⟨fun s hs => ?_, ?_⟩
    · simpa [hchain] using hreads e.key s hs
    · simpa [hchain] using hopen e.key
  · intro hsafe
    have hkey : ∀ k chain, chainOn entries k = some chain → Safe w ⟨k, chain⟩ ∧
        ReadAlike read read' w ⟨k, chain⟩ := by
      intro k chain hchain
      obtain ⟨e, hfind, rfl⟩ := Option.map_eq_some_iff.mp hchain
      obtain rfl : e.key = k := by simpa using find?_some hfind
      exact hsafe e (mem_of_find?_eq_some hfind)
    refine ⟨fun k s hs => ?_, fun k => ?_⟩
    · cases hchain : chainOn entries k with
      | none => exact hnone
      | some chain => exact ((hiff _).mp (hkey k chain hchain)).1 s hs
    · cases hchain : chainOn entries k with
      | none => rfl
      | some chain => exact ((hiff _).mp (hkey k chain hchain)).2

end

/-! ## The table -/

namespace BTreeTable

def vacuum (table : BTreeTable) (minVisibleLsn : ℕ) : BTreeTable × Except TreeError ℕ :=
  let (file, result) := table.volume.file.vacuum table.root minVisibleLsn
  (table.withFile file, result)

/-- Vacuum does no harm: it succeeds, no reader at or above the watermark notices, and what it
leaves is a tree, with its leaves linked in key order, that has all uncommitted versions. -/
structure VacuumKeeps (codec : PageCodec) (table : BTreeTable) (leaves : List LeafPage) (w : ℕ) : Prop where
  succeeds : ∃ removed, (table.vacuum w).2 = .ok removed
  reads : ∀ k s, w ≤ s → (table.vacuum w).1.get codec k s = table.get codec k s
  tree : ∃ leaves', Tree (table.vacuum w).1.volume.file (table.vacuum w).1.root leaves' ∧
    ∀ k, openVersions (contents leaves') k = openVersions (contents leaves) k

end BTreeTable

variable {table : BTreeTable} {codec : PageCodec}

theorem answer_some_ne (vol : Volume) (value : Bytes) :
    vol.answer codec (some value) ≠ vol.answer codec none := by
  rw [Volume.answer, Volume.answer]
  cases vol.resolve codec value <;> simp [Except.map]

/-- A root without children leads to page 0, which is no page of a tree. -/
theorem Tree.root_ne_childless (h : Tree file root leaves) : file.pages root ≠ some (.internal [] 0) := by
  intro hpage
  obtain ⟨height, used, hsub, halloc⟩ := h.shape
  cases height with
  | zero =>
    obtain ⟨_, _, hpage', _⟩ := hsub
    rw [hpage] at hpage'
    cases hpage'
  | succ height =>
    obtain ⟨entries, rightmost, below, hpage', hkids, rfl⟩ := hsub
    rw [hpage] at hpage'
    cases hpage'
    have hmem := hkids.rightmost_mem fun _ _ _ _ _ h => h.mem_used
    exact absurd rfl (halloc.pos 0 (Multiset.mem_cons_of_mem hmem)).ne

/-- Two leaves: a key that was deleted at position 5, and two that were not; the value of the last
one is on page 7. -/
def deletedLeaf : LeafPage := ⟨2, [⟨[1], [⟨.inline [], 2, some 5⟩, ⟨.inline [7], 1, some 3⟩]⟩], 3⟩

@[inherit_doc deletedLeaf]
def keptLeaf : LeafPage := ⟨3, [⟨[4], [⟨.inline [8], 1, some 3⟩]⟩,
  ⟨[6], [⟨.inline [1, 7, 0, 0, 0, 0, 0, 2, 0, 0, 0], 1, some 3⟩]⟩], 0⟩

def twoLeaves : BTreeTable where
  root := 4
  volume :=
    { file :=
        { pages := fun page =>
            if page = 2 then some (.leaf deletedLeaf.entries 3)
            else if page = 3 then some (.leaf keptLeaf.entries 0)
            else if page = 4 then some (.internal [⟨[3], 2⟩] 3) else none
          nextPage := 8
          rootBtreePage := 4
          writes := [] }
      others := fun page => if page = 7 then some ⟨.overflow, [9, 9]⟩ else none }

theorem tree_twoLeaves : Tree twoLeaves.volume.file twoLeaves.root [deletedLeaf, keptLeaf] := by
  have hleft : Subtree twoLeaves.volume.file.pages 0 ⊥ ([3] : Key) 2 [deletedLeaf] {2} := by
    refine .leaf rfl (pairwise_singleton _ _) fun e he => ⟨bot_le, WithTop.coe_lt_coe.mpr ?_⟩
    rw [mem_singleton.mp he]
    decide
  have hright : Subtree twoLeaves.volume.file.pages 0 ([3] : Key) ⊤ 3 [keptLeaf] {3} := by
    refine .leaf rfl (pairwise_pair.mpr (by decide)) fun e he =>
      ⟨WithBot.coe_le_coe.mpr ?_, WithTop.coe_lt_top _⟩
    rcases mem_pair.mp he with rfl | rfl <;> decide
  refine ⟨⟨1, 4 ::ₘ ({2} + {3}), .internal rfl (.cons hleft ⟨bot_le, le_top⟩ (.last hright)), ?_⟩,
    rfl, rfl, trivial⟩
  exact ⟨by decide, by decide, by decide⟩

theorem readAlike_of_single {read read' : Option Bytes → Except TableError (Option Bytes)} {value : Bytes}
    {t lsn : ℕ} (h : read' (some value) = read (some value)) :
    ReadAlike read read' w ⟨key, [⟨.inline value, t, some lsn⟩]⟩ := by
  intro _ s _ value' hvalue
  obtain ⟨hshows, -⟩ := hideEmpty_eq_some hvalue
  rw [shows_eq] at hshows
  obtain ⟨v, hv, hinline⟩ := Option.bind_eq_some_iff.mp hshows
  obtain rfl := mem_singleton.mp (mem_of_find?_eq_some hv)
  cases hinline
  exact h

/-- A key put at position 3, and a delete of it that is not committed. -/
def openDelete : BTreeTable :=
  (execute (BTreeTable.exec smallPages) (BTreeTable.new emptyVolume)
    [.insert 1 [1] [5], .commitVersions 1 3, .delete 2 [1]]).2

/-- Four keys on two leaves, the last two deleted at position 20. -/
def emptiedLeaf : BTreeTable :=
  (execute (BTreeTable.exec smallPages) (BTreeTable.new emptyVolume)
    [.insert 1 [1] [5], .insert 1 [2] [6], .insert 1 [3] [7], .insert 1 [4] [8],
      .commitVersions 1 10, .delete 2 [3], .delete 2 [4], .commitVersions 2 20]).2

end NanoStore.Table
