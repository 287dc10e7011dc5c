import NanoStore.Table.BTreeSplit
/-!
# The paged B-tree — what its calls do to the entries

An insert, a delete and the stamping of a transaction take a tree to a
tree, and the entries of its leaves, read as one list in key order, change
as the entries of a single leaf would. Searches that end on a leaf and
walks along the leaves thus speak of one sorted list, however many pages
it is spread over.
-/

namespace NanoStore.Table

open Wal Steps Txn Function List

/-! ## Sorted entries -/

variable {entries : List LeafEntry} {key : Key} {v : Version} {lo : WithBot Key} {hi : WithTop Key}
  {before after : List LeafEntry} {k : Key} {e : LeafEntry}

theorem mem_insertEntry_key (he : e ∈ insertEntry key v entries) :
    e.key = key ∨ ∃ e' ∈ entries, e'.key = e.key := by
  induction entries with
  | nil =>
    rw [insertEntry, mem_singleton] at he
    exact .inl (he ▸ rfl)
  | cons e₀ entries ih =>
    simp only [insertEntry] at he
    split_ifs at he with hlt heq
    · rcases mem_cons.mp he with rfl | he
      · exact .inl rfl
      · exact .inr ⟨e, he, rfl⟩
    · rcases mem_cons.mp he with rfl | he
      · exact .inl heq
      · exact .inr ⟨e, mem_cons_of_mem _ he, rfl⟩
    · rcases mem_cons.mp he with rfl | he
      · exact .inr ⟨e, mem_cons_self, rfl⟩
      · rcases ih he with hkey | ⟨e', he', hkey⟩
        · exact .inl hkey
        · exact .inr ⟨e', mem_cons_of_mem _ he', hkey⟩

theorem insertEntry_ne_nil : insertEntry key v entries ≠ [] := by
  cases entries with
  | nil => simp [insertEntry]
  | cons e entries =>
    simp only [insertEntry]
    split_ifs <;> simp

/-- An insert keeps the keys in order. -/
theorem Ascending.insertEntry (h : Ascending entries) : Ascending (insertEntry key v entries) := by
  induction entries with
  | nil => simp [Table.insertEntry, Ascending]
  | cons e₀ entries ih =>
    have hhead : ∀ e ∈ entries, e₀.key < e.key := fun e he => rel_of_pairwise_cons h he
    have htail : Ascending entries := List.Pairwise.of_cons h
    simp only [Table.insertEntry]
    split_ifs with hlt heq
    · refine pairwise_cons.mpr ⟨fun e he => ?_, h⟩
      rcases mem_cons.mp he with rfl | he
      · exact hlt
      · exact hlt.trans (hhead e he)
    · exact pairwise_cons.mpr ⟨hhead, htail⟩
    · -- the key comes after the first entry, and so does all that follows it
      have hgt : e₀.key < key := lt_of_le_of_ne (not_lt.mp hlt) heq
      refine pairwise_cons.mpr ⟨fun e he => ?_, ih htail⟩
      rcases mem_insertEntry_key he with hkey | ⟨e', he', hkey⟩
      · exact hkey ▸ hgt
      · exact hkey ▸ hhead e' he'

theorem insertEntry_append_left (h : ∀ e ∈ before, e.key < key) :
    insertEntry key v (before ++ entries) = before ++ insertEntry key v entries := by
  induction before with
  | nil => rfl
  | cons e before ih =>
    have hlt : e.key < key := h e mem_cons_self
    rw [cons_append, insertEntry, if_neg hlt.not_gt, if_neg hlt.ne,
      ih fun e he => h e (mem_cons_of_mem _ he), cons_append]

theorem insertEntry_append_right (h : ∀ e ∈ after, key < e.key) :
    insertEntry key v (entries ++ after) = insertEntry key v entries ++ after := by
  induction entries with
  | nil =>
    cases after with
    | nil => rfl
    | cons e after => simp [insertEntry, h e mem_cons_self]
  | cons e entries ih =>
    simp only [cons_append, insertEntry]
    split_ifs <;> simp [ih]

variable {f : LeafEntry → LeafEntry}

theorem Ascending.map (h : Ascending entries)
    (hf : ∀ e, (f e).key = e.key) : Ascending (entries.map f) := by
  rw [Ascending, pairwise_map]
  simp only [hf]
  exact h

theorem updateEntry_key (e : LeafEntry) :
    (if e.key = key then { e with chain := v :: e.chain } else e).key = e.key := by
  split_ifs <;> rfl

theorem updateEntry_append (entries' : List LeafEntry) : updateEntry key v (entries ++ entries') =
    updateEntry key v entries ++ updateEntry key v entries' :=
  map_append

theorem updateEntry_of_not_mem (h : ∀ e ∈ entries, e.key ≠ key) : updateEntry key v entries = entries := by
  have hsame : updateEntry key v entries = entries.map id :=
    map_congr_left fun e he => if_neg (h e he)
  rw [hsame, map_id]

theorem chainOn_eq_none : chainOn entries key = none ↔ ∀ e ∈ entries, e.key ≠ key := by
  simp [chainOn]

theorem chainOn_cons :
    chainOn (e :: entries) k = if e.key = k then some e.chain else chainOn entries k := by
  by_cases h : e.key = k
  · simp [chainOn, h]
  · simp [chainOn, h]

theorem Ascending.chainOn_of_mem (h : Ascending entries) (he : e ∈ entries) :
    chainOn entries e.key = some e.chain := by
  induction entries with
  | nil => cases he
  | cons e₀ entries ih =>
    rw [chainOn_cons]
    rcases mem_cons.mp he with rfl | he
    · rw [if_pos rfl]
    · rw [if_neg (rel_of_pairwise_cons h he).ne, ih (List.Pairwise.of_cons h) he]

theorem Ascending.eq_of_key {e' : LeafEntry} (h : Ascending entries) (he : e ∈ entries)
    (he' : e' ∈ entries) (hkey : e.key = e'.key) : e = e' := by
  have hnd : (entries.map LeafEntry.key).Nodup := (pairwise_map.mpr h).imp fun hlt => hlt.ne
  exact inj_on_of_nodup_map hnd he he' hkey

/-- A key before all entries has no chain. -/
theorem chainOn_of_lt {e : LeafEntry} (h : Ascending (e :: entries)) (hlt : key < e.key) :
    chainOn (e :: entries) key = none := by
  refine chainOn_eq_none.mpr fun e' he' => ?_
  rcases mem_cons.mp he' with rfl | he'
  · exact hlt.ne'
  · exact (hlt.trans (rel_of_pairwise_cons h he')).ne'

/-- An insert changes the chain of its key only. -/
theorem chainOn_insertEntry (h : Ascending entries) (k : Key) : chainOn (insertEntry key v entries) k =
    if k = key then some (v :: (chainOn entries key).getD []) else chainOn entries k := by
  induction entries with
  | nil => simp [insertEntry, chainOn, eq_comm]
  | cons e entries ih =>
    have ih := ih (List.Pairwise.of_cons h)
    rcases lt_trichotomy key e.key with hlt | rfl | hgt
    · rw [insertEntry, if_pos hlt, chainOn_cons, chainOn_of_lt h hlt, Option.getD_none]
      simp [eq_comm]
    · rw [insertEntry, if_neg (lt_irrefl _), if_pos rfl, chainOn_cons]
      by_cases hk : k = e.key
      · simp [chainOn_cons, hk]
      · simp [chainOn_cons, hk, Ne.symm hk]
    · rw [insertEntry, if_neg hgt.not_gt, if_neg hgt.ne, chainOn_cons, ih, chainOn_cons,
        chainOn_cons, if_neg hgt.ne]
      by_cases hk : k = key
      · subst hk
        rw [if_neg hgt.ne, if_pos rfl, if_pos rfl]
      · simp [if_neg hk]

theorem chainOn_map (hf : ∀ e, (f e).key = e.key) :
    chainOn (entries.map f) k = (entries.find? fun e => e.key = k).map fun e => (f e).chain := by
  simp [chainOn, find?_map, comp_def, hf]

theorem chainOn_updateEntry : chainOn (updateEntry key v entries) k =
    if k = key then (chainOn entries key).map (v :: ·) else chainOn entries k := by
  rw [updateEntry, chainOn_map updateEntry_key, chainOn, chainOn]
  by_cases hk : k = key
  · subst hk
    cases hfind : entries.find? fun e => e.key = k with
    | none => simp
    | some e =>
      have hkey : e.key = k := by simpa using find?_some hfind
      simp [hkey]
  · cases hfind : entries.find? fun e => e.key = k with
    | none => simp [hk]
    | some e =>
      have hkey : e.key = k := by simpa using find?_some hfind
      simp [hkey, hk]

/-- The change a commit makes to an entry. -/
def stampEntry (t : TransactionId) (lsn : ℕ) (e : LeafEntry) : LeafEntry :=
  { e with chain := VersionChain.stamp t lsn e.chain }

/-- A commit changes the versions of the transaction only. -/
theorem chainOn_stampEntries (t : TransactionId) (lsn : ℕ) :
    chainOn (stampEntries t lsn entries) k =
      (chainOn entries k).map (VersionChain.stamp t lsn) := by
  rw [chainOn.eq_def entries, Option.map_map]
  exact chainOn_map (fun _ => rfl)

/-! ## Writes to one leaf -/

variable {file : PageFile} {root : PageId} {path : List PageId} {left right : List LeafPage}
  {around : Multiset PageId} {leaf : LeafPage}

/-- A leaf with other entries. -/
def LeafPage.node (leaf : LeafPage) (entries : List LeafEntry) : BTreeNode :=
  .leaf entries leaf.nextLeaf

/-- A leaf may change in its place. -/
theorem Context.setLeaf (h : Context file.pages root path 0 lo hi leaf.page left right around)
    (hpages : Allocated file (around + {leaf.page})) (hsort : Ascending entries)
    (hrange : ∀ e ∈ entries, InRange lo hi e.key) :
    Context (file.writeNode leaf.page (leaf.node entries)).pages root path 0 lo hi leaf.page left
        right around ∧ Subtree (file.writeNode leaf.page (leaf.node entries)).pages 0 lo hi leaf.page
        [{ leaf with entries := entries }] {leaf.page} ∧
      Allocated (file.writeNode leaf.page (leaf.node entries)) (around + {leaf.page}) := by
  refine ⟨h.congr fun p hp => ?_, .leaf (update_self _ _ _) hsort hrange, hpages.nodup, hpages.pos, hpages.lt⟩
  have hne : p ≠ leaf.page := by
    rintro rfl
    exact Multiset.disjoint_left.mp (Multiset.nodup_add.mp hpages.nodup).2.2 hp
      (Multiset.mem_singleton_self _)
  exact update_of_ne hne _ _

/-- The leaves stay linked. -/
theorem linked_setLeaf (h : Linked (left ++ leaf :: right) 0) :
    Linked (left ++ [{ leaf with entries := entries }] ++ right) 0 := by
  rw [linked_append] at h
  rw [append_assoc, linked_append]
  exact ⟨h.1, h.2⟩

variable {leaves : List LeafPage}

/-- **An insert puts its version before the chain of its key.** -/
theorem Tree.insertInternal (h : Tree file root leaves) {cfg : BTreeConfig} (t : TransactionId)
    (key : Key) (value : Bytes) :
    ∃ file' root', file.insertInternal cfg root t key value = (file', .ok root') ∧
      ∃ leaves', Tree file' root' leaves' ∧
        contents leaves' = insertEntry key (.new value t) (contents leaves) := by
  obtain ⟨leaf, path, lo, hi, left, right, around, hloc⟩ := h.search key
  have hlinked := h.linked
  obtain rfl := hloc.leaves_eq
  obtain ⟨entries, hents⟩ : ∃ es, es = insertEntry key (.new value t) leaf.entries := ⟨_, rfl⟩
  have hrange : ∀ e ∈ entries, InRange lo hi e.key := by
    intro e he
    rw [hents] at he
    rcases mem_insertEntry_key he with hsame | ⟨e', he', hsame⟩
    · exact hsame ▸ hloc.answers
    · exact hsame ▸ hloc.range e' he'
  obtain ⟨hctx, hleaf, halloc⟩ := hloc.context.setLeaf hloc.allocated (hents ▸ hloc.sorted.insertEntry) hrange
  have hlinked' : Linked (left ++ [{ leaf with entries := entries }] ++ right) 0 :=
    linked_setLeaf hlinked
  -- the leaf's entries change as the whole list does
  have hconts : contents (left ++ [{ leaf with entries := entries }] ++ right) =
      insertEntry key (.new value t) (contents (left ++ leaf :: right)) := by
    simp only [contents_append, contents_cons, contents_nil, append_nil, append_assoc]
    rw [insertEntry_append_left hloc.beside.1, insertEntry_append_right hloc.beside.2, hents]
  simp only [PageFile.insertInternal, hloc.found, ← hents]
  by_cases hfull : (leaf.node entries).overfull cfg = true
  · have hcount : 0 < (leaf.node entries).keyCount :=
      length_pos_iff.mpr (hents ▸ insertEntry_ne_nil)
    obtain ⟨file', root', hrun, hchanged⟩ :=
      hctx.propagate hleaf halloc hlinked' (update_self _ _ _) hcount
    exact ⟨file', root', (if_pos hfull).trans hrun, hconts ▸ hchanged.tree⟩
  · exact ⟨_, root, if_neg hfull, _, hctx.tree hleaf halloc hlinked', hconts⟩

variable {t : TransactionId}

/-- **A delete puts a tombstone before the chain of a key that has one**, and says whether it
has. -/
theorem Tree.deleteInternal (h : Tree file root leaves) :
    ∃ file', file.deleteInternal root t key =
        (file', .ok (chainOn (contents leaves) key).isSome) ∧ ∃ leaves', Tree file' root leaves' ∧
        contents leaves' = updateEntry key (.new [] t) (contents leaves) := by
  obtain ⟨leaf, path, lo, hi, left, right, around, hloc⟩ := h.search key
  rw [hloc.chainOn_eq]
  simp only [PageFile.deleteInternal, hloc.found]
  cases hchain : chainOn leaf.entries key with
  | none =>
    have hnone : updateEntry key (.new [] t) (contents leaves) = contents leaves :=
      updateEntry_of_not_mem (chainOn_eq_none.mp (hloc.chainOn_eq.trans hchain))
    exact ⟨file, rfl, leaves, h, hnone.symm⟩
  | some chain =>
    have hlinked := h.linked
    obtain rfl := hloc.leaves_eq
    obtain ⟨entries, hents⟩ : ∃ es, es = updateEntry key (.new [] t) leaf.entries := ⟨_, rfl⟩
    have hrange : ∀ e ∈ entries, InRange lo hi e.key := by
      rw [hents]
      intro e he
      obtain ⟨e₀, he₀, rfl⟩ := mem_map.mp he
      rw [updateEntry_key]
      exact hloc.range e₀ he₀
    obtain ⟨hctx, hleaf, halloc⟩ := hloc.context.setLeaf hloc.allocated
      (hents ▸ hloc.sorted.map updateEntry_key) hrange
    have hbeside := hloc.beside
    have hconts : contents (left ++ [{ leaf with entries := entries }] ++ right) =
        updateEntry key (.new [] t) (contents (left ++ leaf :: right)) := by
      simp only [contents_append, contents_cons, contents_nil, append_nil, updateEntry_append, append_assoc]
      rw [updateEntry_of_not_mem fun e he => (hbeside.1 e he).ne,
        updateEntry_of_not_mem fun e he => (hbeside.2 e he).ne', hents]
    exact ⟨_, by rw [← hents]; rfl, _, hctx.tree hleaf halloc (linked_setLeaf hlinked), hconts⟩

/-! ## Walks along the leaves -/

/-- The entries of a leaf changed one by one. -/
def BTreeNode.mapEntries (g : LeafEntry → LeafEntry) : BTreeNode → BTreeNode
  | .internal entries rightmostChild => .internal entries rightmostChild
  | .leaf entries nextLeaf => .leaf (entries.map g) nextLeaf

@[inherit_doc BTreeNode.mapEntries]
def LeafPage.mapEntries (g : LeafEntry → LeafEntry) (leaf : LeafPage) : LeafPage :=
  { leaf with entries := leaf.entries.map g }

variable {fuel : ℕ} {pages pages' : PageId → Option BTreeNode} {height : ℕ} {page : PageId}
  {used : Multiset PageId} {g : LeafEntry → LeafEntry}

theorem linked_mapEntries {next : PageId} :
    Linked (leaves.map (LeafPage.mapEntries g)) next ↔ Linked leaves next := by
  induction leaves with
  | nil => rfl
  | cons leaf leaves ih =>
    have hfst : firstPage (leaves.map (LeafPage.mapEntries g)) next = firstPage leaves next := by
      cases leaves <;> rfl
    rw [map_cons, Linked, Linked, ih, hfst]
    rfl

/-- **Changing the chains on every leaf of a subtree leaves its shape.** -/
theorem Subtree.mapEntries (hg : ∀ e, (g e).key = e.key) (h : Subtree pages height lo hi page leaves used)
    (hpages : ∀ p ∈ used, pages' p = (pages p).map (BTreeNode.mapEntries g)) :
    Subtree pages' height lo hi page (leaves.map (LeafPage.mapEntries g)) used := by
  induction height generalizing lo hi page leaves used with
  | zero =>
    obtain ⟨entries, nextLeaf, hpage, hsort, hrange, rfl, rfl⟩ := h
    refine .leaf ?_ (hsort.map hg) fun e he => ?_
    · rw [hpages page (by simp), hpage]
      rfl
    · obtain ⟨e₀, he₀, rfl⟩ := mem_map.mp he
      exact (hg e₀).symm ▸ hrange e₀ he₀
  | succ height ih =>
    obtain ⟨entries, rightmost, below, hpage, hkids, rfl⟩ := h
    refine .internal ?_ (hkids.map _ fun lo hi child leaves' used' hle hkid => ?_)
    · rw [hpages page (by simp), hpage]
      rfl
    · exact ih hkid fun p hp =>
        hpages p (Multiset.mem_cons_of_mem (Multiset.mem_of_le hle hp))

/-- The way down the left ends at the first leaf. -/
theorem Subtree.leftmostLeaf (h : Subtree file.pages height lo hi page leaves used) (hfuel : height < fuel) :
    file.leftmostLeaf fuel page = .ok (firstPage leaves 0) := by
  induction height generalizing lo hi page leaves used fuel with
  | zero =>
    obtain ⟨fuel, rfl⟩ : ∃ n, fuel = n + 1 := ⟨fuel - 1, by omega⟩
    obtain ⟨entries, nextLeaf, hpage, -, -, rfl, -⟩ := h
    simp [PageFile.leftmostLeaf, PageFile.readNode, hpage, firstPage]
  | succ height ih =>
    obtain ⟨fuel, rfl⟩ : ∃ n, fuel = n + 1 := ⟨fuel - 1, by omega⟩
    obtain ⟨entries, rightmost, below, hpage, hkids, rfl⟩ := h
    have hfuel : height < fuel := by omega
    simp only [PageFile.leftmostLeaf, PageFile.readNode, hpage]
    cases hkids with
    | last h => exact ih h hfuel
    | @cons _ _ _ _ _ leaves leaves' _ _ h _ _ =>
      -- the first child has a leaf, so the leaves after it do not matter
      obtain ⟨leaf, rest, rfl⟩ := exists_cons_of_ne_nil h.laid.nonempty
      have hkid := ih h hfuel
      exact hkid

variable {lsn : ℕ}

theorem stampLeaves_linked (hne : leaves ≠ [])
    (hpages : ∀ leaf ∈ leaves, 0 < leaf.page ∧ file.pages leaf.page = some (.leaf leaf.entries leaf.nextLeaf))
    (hnd : (leaves.map LeafPage.page).Nodup) (hlinked : Linked leaves 0) (hfuel : leaves.length ≤ fuel) :
    ∃ file', PageFile.stampLeaves t lsn fuel file (firstPage leaves 0) = (file', .ok ()) ∧
      file'.nextPage = file.nextPage ∧ ∀ p, file'.pages p =
        if p ∈ leaves.map LeafPage.page then
          (file.pages p).map (BTreeNode.mapEntries (stampEntry t lsn)) else file.pages p := by
  induction leaves generalizing file fuel with
  | nil => exact absurd rfl hne
  | cons leaf leaves ih =>
    obtain ⟨fuel, rfl⟩ : ∃ n, fuel = n + 1 := ⟨fuel - 1, by rw [length_cons] at hfuel; omega⟩
    have hpage := (hpages leaf mem_cons_self).2
    obtain ⟨hnew, hrest⟩ := nodup_cons.mp hnd
    obtain ⟨file₁, hfile₁⟩ : ∃ f, f = file.writeNode leaf.page
        (.leaf (stampEntries t lsn leaf.entries) leaf.nextLeaf) := ⟨_, rfl⟩
    have hself : file₁.pages leaf.page =
        (file.pages leaf.page).map (BTreeNode.mapEntries (stampEntry t lsn)) := by
      rw [hfile₁, hpage]
      exact update_self _ _ _
    have hother : ∀ p, p ≠ leaf.page → file₁.pages p = file.pages p := fun p hp => by
      rw [hfile₁]
      exact update_of_ne hp _ _
    have hnext : file₁.nextPage = file.nextPage := by rw [hfile₁]; rfl
    simp only [PageFile.stampLeaves, firstPage, PageFile.readNode, hpage, ← hfile₁]
    cases leaves with
    | nil =>
      refine ⟨file₁, if_pos hlinked.1, hnext, fun p => ?_⟩
      by_cases hp : p = leaf.page
      · subst hp
        simpa using hself
      · simpa [hp] using hother p hp
    | cons leaf' leaves =>
      have hlink : leaf.nextLeaf = leaf'.page := hlinked.1
      have hpos' : leaf.nextLeaf ≠ 0 := by
        rw [hlink]
        exact (hpages leaf' (by simp)).1.ne'
      have hpages₁ : ∀ leaf'' ∈ leaf' :: leaves, 0 < leaf''.page ∧
          file₁.pages leaf''.page = some (.leaf leaf''.entries leaf''.nextLeaf) := by
        intro leaf'' hleaf
        rw [hother leaf''.page fun heq => hnew (heq ▸ mem_map_of_mem hleaf)]
        exact hpages leaf'' (mem_cons_of_mem _ hleaf)
      have hfuel₁ : (leaf' :: leaves).length ≤ fuel := by simpa using hfuel
      obtain ⟨file', hrun, hnext', hpages'⟩ := ih (by simp) hpages₁ hrest hlinked.2 hfuel₁
      refine ⟨file', ?_, hnext'.trans hnext, fun p => ?_⟩
      · rw [if_neg hpos', hlink]
        exact hrun
      · rw [hpages' p]
        by_cases hp : p = leaf.page
        · subst hp
          rw [if_neg hnew, hself]
          simp
        · simp [hp, hother p hp]

/-- **Stamping the versions of a transaction stamps them on every leaf.** -/
theorem Tree.commitVersions (h : Tree file root leaves) :
    ∃ file', file.commitVersions root t lsn = (file', .ok ()) ∧ ∃ leaves', Tree file' root leaves' ∧
        contents leaves' = stampEntries t lsn (contents leaves) := by
  have hwalk := h.walk
  obtain ⟨height, used, hsub, halloc⟩ := h.shape
  have hfst := hsub.leftmostLeaf (Nat.lt_succ_of_le (hsub.height_lt.le.trans halloc.card_le))
  obtain ⟨file', hrun, hnext, hpages⟩ := stampLeaves_linked hsub.laid.nonempty hwalk.pages
    hwalk.nodup h.linked (hwalk.length_le.trans (Nat.le_succ _))
  refine ⟨file', by simp only [PageFile.commitVersions, hfst]; exact hrun,
    leaves.map (LeafPage.mapEntries (stampEntry t lsn)), ⟨⟨height, used, ?_, ?_⟩, ?_⟩, ?_⟩
  · refine hsub.mapEntries (fun _ => rfl) fun p hp => ?_
    rw [hpages p]
    split_ifs with hleaf
    · rfl
    · -- a page that is no leaf is internal, and left as it is
      obtain ⟨entries, rightmost, hint⟩ := (hsub.laid.page p hp).resolve_left hleaf
      rw [hint]
      rfl
  · exact halloc.mono le_rfl hnext.ge
  · exact linked_mapEntries.mpr h.linked
  · simp only [contents, flatMap_map, stampEntries, map_flatMap]
    rfl

/-- **A new tree is an empty leaf.** -/
theorem tree_newTree (hpos : 0 < file.nextPage) :
    Tree file.newTree.1 file.newTree.2 [⟨file.nextPage, [], 0⟩] := by
  refine ⟨⟨0, {file.nextPage}, .leaf (update_self _ _ _) List.Pairwise.nil (by simp), ?_⟩, rfl, trivial⟩
  refine ⟨Multiset.nodup_singleton _, fun p hp => ?_, fun p hp => ?_⟩
  · exact Multiset.mem_singleton.mp hp ▸ hpos
  · exact Multiset.mem_singleton.mp hp ▸ Nat.lt_succ_self _

end NanoStore.Table
