import NanoStore.Lsm.History
/-!
# The LSM tree — versions of the manifest

Every file of a version is in its level, no identifier is used twice, and
below the first level the files are in key order and apart. Opening a
manifest checks the first two, and `verify` reports an error where the
third is not so. Flushes keep it so, and so does removing files, or adding
one that keeps apart from the others of its level.
-/

namespace NanoStore.Lsm

open Wal Steps Txn Table List

namespace TreeVersion

/-- The files of a level. -/
def levelFiles (version : TreeVersion) (level : ℕ) : List FileMetadata :=
  version.levels.getD level []

/-- `apply_edits`: all of them, or none. -/
def applyEdits (version : TreeVersion) : List VersionEdit → Except LsmError TreeVersion
  | [] => .ok version
  | edit :: edits =>
    match version.apply edit with
    | .error e => .error e
    | .ok version => version.applyEdits edits

/-- A version without the files of some numbers. -/
def without (version : TreeVersion) (ids : List ℕ) : TreeVersion :=
  { version with levels := version.levels.map fun files => files.filter fun f => f.id ∉ ids }

end TreeVersion

/-- The keys of one file are all below the keys of the other. -/
def Apart (f g : FileMetadata) : Prop := f.maxKey < g.minKey ∨ g.maxKey < f.minKey

/-- Every file is in its level, identifiers are not shared, and below the first level the files are
in key order and apart. -/
structure TreeVersion.WellFormed (version : TreeVersion) : Prop where
  placed : ∀ level, ∀ f ∈ version.levelFiles level, f.level = level
  distinct : (version.files.map FileMetadata.id).Nodup
  apart : ∀ level, 0 < level → (version.levelFiles level).Pairwise fun f g => f.maxKey < g.minKey

/-! ## Files and levels -/

variable {version version' : TreeVersion} {ids : List ℕ} {level : ℕ} {f g : FileMetadata} {k : Key}

theorem Apart.symm (h : Apart f g) : Apart g f := Or.symm h

theorem FileMetadata.containsKey_iff : f.containsKey k = true ↔ f.minKey ≤ k ∧ k ≤ f.maxKey := by
  simp [FileMetadata.containsKey]

/-- Of two files apart only one has the key in its range. -/
theorem Apart.not_containsKey (h : Apart f g) (hf : f.containsKey k = true) : g.containsKey k = false := by
  obtain ⟨hmin, hmax⟩ := FileMetadata.containsKey_iff.mp hf
  refine Bool.eq_false_iff.mpr fun hg => ?_
  obtain ⟨hgmin, hgmax⟩ := FileMetadata.containsKey_iff.mp hg
  rcases h with hlt | hlt
  · exact absurd (hmax.trans_lt hlt) hgmin.not_gt
  · exact absurd (hgmax.trans_lt hlt) hmin.not_gt

namespace TreeVersion

theorem levelFiles_eq : version.levelFiles level = version.levels[level]?.getD [] :=
  getD_eq_getElem?_getD

theorem mem_files_of_mem (h : f ∈ version.levelFiles level) : f ∈ version.files := by
  rw [levelFiles_eq] at h
  cases hlvl : version.levels[level]? with
  | none => simp [hlvl] at h
  | some files =>
    rw [hlvl] at h
    exact mem_flatten.mpr ⟨files, mem_of_getElem? hlvl, h⟩

/-- The files that are asked are files of the version. -/
theorem mem_filesFor (h : f ∈ version.filesFor k) : f ∈ version.files := by
  obtain ⟨levels, next⟩ := version
  cases levels with
  | nil => cases h
  | cons level0 deeper =>
    rcases mem_append.mp h with hlevel0 | hdeeper
    · have hf := mem_reverse.mp (mem_of_mem_filter hlevel0)
      exact mem_flatten.mpr ⟨level0, mem_cons_self, hf⟩
    · obtain ⟨files, hfiles, hfound⟩ := mem_filterMap.mp hdeeper
      exact mem_flatten.mpr ⟨files, mem_cons_of_mem _ hfiles, mem_of_find?_eq_some hfound⟩

section

variable (h : version.WellFormed)
include h

/-- Two files of a deeper level are apart. -/
theorem WellFormed.apart_of_mem (hlvl : 0 < level)
    (hf : f ∈ version.levelFiles level) (hg : g ∈ version.levelFiles level) (hne : f ≠ g) : Apart f g := by
  have hsymm : Std.Symm Apart := ⟨fun _ _ => Apart.symm⟩
  have hapart : (version.levelFiles level).Pairwise Apart := (h.apart level hlvl).imp Or.inl
  exact hapart.forall hf hg hne

end

/-! ## Removing files -/

/-- Each level loses the files of the numbers. -/
theorem levelFiles_without : (version.without ids).levelFiles level =
    (version.levelFiles level).filter fun f => f.id ∉ ids := by
  rw [levelFiles_eq, levelFiles_eq, without, getElem?_map]
  cases version.levels[level]? with
  | none | some files => rfl

/-- To remove files keeps a version well-formed. -/
theorem WellFormed.without (h : version.WellFormed) : (version.without ids).WellFormed where
  placed level f hf := by
    rw [levelFiles_without] at hf
    exact h.placed level f (mem_of_mem_filter hf)
  distinct := by
    have hfiles : (version.without ids).files = version.files.filter fun f => f.id ∉ ids := by
      rw [files, files, TreeVersion.without, filter_flatten]
    rw [hfiles]
    exact h.distinct.sublist (filter_sublist.map _)
  apart level hlvl := by
    rw [levelFiles_without]
    exact (h.apart level hlvl).filter _

/-- The edit that removes a file is `without` its number. -/
theorem WellFormed.apply_removeSstable (h : version.WellFormed) {id : ℕ}
    (happ : version.apply (.removeSstable id) = .ok version') : version' = version.without [id] := by
  rw [apply] at happ
  cases hfind : version.files.find? fun f => f.id = id with
  | none =>
    rw [hfind] at happ
    cases happ
  | some file =>
    rw [hfind] at happ
    cases happ
    have hmem := mem_of_find?_eq_some hfind
    have hid : file.id = id := by simpa using find?_some hfind
    rw [TreeVersion.without]
    congr 1
    refine ext_getElem? fun i => ?_
    rw [getElem?_modify, getElem?_map]
    cases hi : version.levels[i]? with
    | none => simp
    | some files =>
      split_ifs with heq
      · simp
      · -- no file of another level has the identifier
        have hkept : files.filter (fun f => f.id ∉ [id]) = files := by
          refine filter_eq_self.mpr fun g hg => ?_
          have hlvl : g ∈ version.levelFiles i := by
            rw [levelFiles_eq, hi]
            exact hg
          have hne : g.id ≠ id := by
            intro hgid
            have hsame := inj_on_of_nodup_map h.distinct (mem_files_of_mem hlvl) hmem (hgid.trans hid.symm)
            rw [hsame] at hlvl
            exact heq (h.placed i file hlvl)
          simpa using hne
        exact congrArg some hkept.symm

theorem without_without (ids' : List ℕ) :
    (version.without ids).without ids' = version.without (ids ++ ids') := by
  simp only [without, map_map]
  congr 1
  refine map_congr_left fun files _ => ?_
  simp [filter_filter, Bool.and_comm]

/-- Edits that remove files come to `without`, then to the edits behind them. -/
theorem WellFormed.applyEdits_remove (h : version.WellFormed) {edits : List VersionEdit}
    (happ : version.applyEdits (ids.map .removeSstable ++ edits) = .ok version') :
    (version.without ids).applyEdits edits = .ok version' := by
  induction ids generalizing version with
  | nil =>
    have hsame : version.without [] = version := by simp [TreeVersion.without]
    rw [hsame]
    exact happ
  | cons id ids ih =>
    rw [map_cons, cons_append, applyEdits] at happ
    cases hremove : version.apply (.removeSstable id) with
    | error e =>
      rw [hremove] at happ
      cases happ
    | ok version₁ =>
      rw [hremove, h.apply_removeSstable hremove] at happ
      have hrest := ih h.without happ
      rw [without_without] at hrest
      exact hrest

/-! ## Adding a file -/

theorem perm_addToLevel (f : FileMetadata) (files : List FileMetadata) :
    (addToLevel f files).Perm (files ++ [f]) := by
  unfold addToLevel
  split_ifs
  · exact perm_insertionSort _ _
  · exact .refl _

theorem perm_flatten_modify {levels : List (List FileMetadata)} (hlvl : level < levels.length) :
    (levels.modify level (addToLevel f)).flatten.Perm (levels.flatten ++ [f]) := by
  induction levels generalizing level with
  | nil => cases hlvl
  | cons files levels ih =>
    cases level with
    | zero =>
      rw [modify_zero_cons, flatten_cons, flatten_cons]
      have hfst := (perm_addToLevel f files).append_right levels.flatten
      refine hfst.trans ?_
      rw [append_assoc, append_assoc]
      exact perm_append_comm.append_left files
    | succ level =>
      rw [modify_succ_cons, flatten_cons, flatten_cons, append_assoc]
      exact (ih (Nat.lt_of_succ_lt_succ hlvl)).append_left files

theorem apply_addSstable_cases (happ : version.apply (.addSstable f) = .ok version') :
    f.level < version.levels.length ∧ (∀ g ∈ version.files, g.id ≠ f.id) ∧
      version' = { version with levels := version.levels.modify f.level (addToLevel f) } := by
  rw [apply] at happ
  split_ifs at happ with hshort hused
  cases happ
  exact ⟨not_le.mp hshort, by simpa using hused, rfl⟩

/-- A file is added to its own level. -/
theorem levelFiles_addSstable (happ : version.apply (.addSstable f) = .ok version') :
    version'.levelFiles level =
      if f.level = level then addToLevel f (version.levelFiles level) else version.levelFiles level := by
  obtain ⟨hlt, -, rfl⟩ := apply_addSstable_cases happ
  rw [levelFiles_eq, levelFiles_eq, getElem?_modify]
  split_ifs with heq
  · subst heq
    rw [getElem?_eq_getElem hlt]
    simp
  · simp

/-- **A file that keeps apart from the others of its level may be added.** -/
theorem WellFormed.addSstable (h : version.WellFormed) (happ : version.apply (.addSstable f) = .ok version')
    (hapart : 0 < f.level → ∀ g ∈ version.levelFiles f.level, Apart g f) : version'.WellFormed where
  placed level g hg := by
    rw [levelFiles_addSstable happ] at hg
    split_ifs at hg with heq
    · rcases mem_append.mp ((perm_addToLevel f _).subset hg) with hg | hg
      · exact h.placed level g hg
      · rw [mem_singleton.mp hg, heq]
    · exact h.placed level g hg
  distinct := by
    obtain ⟨hlt, hfresh, rfl⟩ := apply_addSstable_cases happ
    rw [files, ((perm_flatten_modify hlt).map _).nodup_iff, map_append, nodup_append]
    refine ⟨h.distinct, nodup_singleton _, fun id hid id' hid' => ?_⟩
    obtain ⟨g, hg, rfl⟩ := mem_map.mp hid
    rw [map_singleton, mem_singleton] at hid'
    rw [hid']
    exact hfresh g hg
  apart level hlvl := by
    rw [levelFiles_addSstable happ]
    split_ifs with heq
    · subst heq
      have hall : (addToLevel f (version.levelFiles f.level)).Pairwise Apart := by
        rw [(perm_addToLevel f _).pairwise_iff Apart.symm]
        refine pairwise_append.mpr
          ⟨(h.apart _ hlvl).imp Or.inl, pairwise_singleton _ _, fun g hg f' hf' => ?_⟩
        rw [mem_singleton.mp hf']
        exact hapart hlvl g hg
      have hsort : (addToLevel f (version.levelFiles f.level)).Pairwise
          fun g g' => g.minKey ≤ g'.minKey := by
        have htot : Std.Total fun g g' : FileMetadata => g.minKey ≤ g'.minKey :=
          ⟨fun g g' => le_total _ _⟩
        have htrans : IsTrans FileMetadata fun g g' => g.minKey ≤ g'.minKey :=
          ⟨fun _ _ _ => le_trans⟩
        rw [addToLevel, if_pos hlvl]
        exact pairwise_insertionSort _ _
      -- of two files that keep apart, the one that starts first ends first
      refine (hall.and hsort).imp fun {g g'} hg => ?_
      rcases hg.1 with hlt | hlt
      · exact hlt
      · exact absurd (hlt.trans_le (hg.2.trans g'.minKey_le_maxKey)) (lt_irrefl _)
    · exact h.apart level hlvl

end TreeVersion

/-! ## Reads of a version -/

variable {files : List FileMetadata} {s : ℕ}

/-- What a level below the first answers. -/
def levelAnswer (k : Key) (s : ℕ) (files : List FileMetadata) : Option Bytes :=
  (files.find? (·.containsKey k)).bind fun f => shows (f.contents.chain k) s

theorem levelAnswer_eq_none (h : ∀ f ∈ files, f.containsKey k = false) : levelAnswer k s files = none := by
  have hnone : files.find? (·.containsKey k) = none :=
    find?_eq_none.mpr fun f hf => by simp [h f hf]
  rw [levelAnswer, hnone, Option.bind_none]

/-- The one file whose range has the key answers for the level. -/
theorem levelAnswer_eq (hone : ∀ g ∈ files, g.containsKey k = true → g = f) (hf : f ∈ files)
    (hk : f.containsKey k = true) : levelAnswer k s files = shows (f.contents.chain k) s := by
  have hsome : (files.find? (·.containsKey k)).isSome = true := find?_isSome.mpr ⟨f, hf, hk⟩
  obtain ⟨g, hg⟩ := Option.isSome_iff_exists.mp hsome
  have hgk : g.containsKey k = true := find?_some (p := fun f : FileMetadata => f.containsKey k) hg
  rw [levelAnswer, hg, hone g (mem_of_find?_eq_some hg) hgk, Option.bind_some]

/-- Level 0 answers first, its newest file before the others, then level by level. -/
theorem shows_filesFor {level0 : List FileMetadata} {deeper : List (List FileMetadata)}
    (h : version.levels = level0 :: deeper) : shows (filesChain (version.filesFor k) k) s =
      (shows (filesChain level0.reverse k) s).or (deeper.findSome? (levelAnswer k s)) := by
  obtain ⟨levels, next⟩ := version
  obtain rfl : levels = level0 :: deeper := h
  rw [TreeVersion.filesChain_cons, shows_append LsmTree.inline_files]
  congr 1
  rw [filesChain, shows_flatMap (fun f => f.contents.inline_chain)]
  induction deeper with
  | nil => rfl
  | cons files deeper ih =>
    rw [filterMap_cons, findSome?_cons, levelAnswer]
    cases files.find? (·.containsKey k) with
    | none => exact ih
    | some f =>
      simp only [Option.bind_some, findSome?_cons]
      rw [ih]

/-- **A file below the first level that shows nothing is not noticed.** -/
theorem TreeVersion.WellFormed.shows_addSstable (h' : version'.WellFormed)
    (happ : version.apply (.addSstable f) = .ok version') (hlvl : 0 < f.level)
    (hblank : shows (f.contents.chain k) s = none) :
    shows (filesChain (version'.filesFor k) k) s = shows (filesChain (version.filesFor k) k) s := by
  have hfiles : version'.levelFiles f.level = addToLevel f (version.levelFiles f.level) := by
    rw [levelFiles_addSstable happ, if_pos rfl]
  have hperm := perm_addToLevel f (version.levelFiles f.level)
  have hone : ∀ g ∈ addToLevel f (version.levelFiles f.level), g.containsKey k = true →
      ∀ g' ∈ addToLevel f (version.levelFiles f.level), g'.containsKey k = true → g' = g := by
    intro g hg hgk g' hg' hgk'
    rw [← hfiles] at hg hg'
    by_contra hne
    rw [(h'.apart_of_mem hlvl hg' hg hne).not_containsKey hgk'] at hgk
    cases hgk
  have hans : levelAnswer k s (addToLevel f (version.levelFiles f.level)) =
      levelAnswer k s (version.levelFiles f.level) := by
    by_cases hheld : ∃ g ∈ version.levelFiles f.level, g.containsKey k = true
    · obtain ⟨g, hg, hgk⟩ := hheld
      have hsub : ∀ g ∈ version.levelFiles f.level, g ∈ addToLevel f (version.levelFiles f.level) :=
        fun g hg => hperm.symm.subset (mem_append_left _ hg)
      rw [levelAnswer_eq (hone g (hsub g hg) hgk) (hsub g hg) hgk,
        levelAnswer_eq (fun g' hg' => hone g (hsub g hg) hgk g' (hsub g' hg')) hg hgk]
    · have hnot : ∀ g ∈ version.levelFiles f.level, g.containsKey k = false := fun g hg =>
        Bool.eq_false_iff.mpr fun hgk => hheld ⟨g, hg, hgk⟩
      have hmem : f ∈ addToLevel f (version.levelFiles f.level) :=
        hperm.symm.subset (mem_append_right _ (mem_singleton_self f))
      rw [levelAnswer_eq_none hnot]
      by_cases hfk : f.containsKey k = true
      · rw [levelAnswer_eq (hone f hmem hfk) hmem hfk, hblank]
      · refine levelAnswer_eq_none fun g hg => ?_
        rcases mem_append.mp (hperm.subset hg) with hg | hg
        · exact hnot g hg
        · rw [mem_singleton.mp hg]
          exact Bool.eq_false_iff.mpr hfk
  obtain ⟨hlt, -, rfl⟩ := apply_addSstable_cases happ
  cases hlvls : version.levels with
  | nil => simp [hlvls] at hlt
  | cons level0 deeper =>
    obtain ⟨t, ht⟩ : ∃ t, f.level = t + 1 := ⟨f.level - 1, by omega⟩
    have hlvls' : levels
        { version with levels := version.levels.modify f.level (addToLevel f) } =
        level0 :: deeper.modify t (addToLevel f) := by
      rw [hlvls, ht, modify_succ_cons]
    rw [hlvls] at hlvls'
    rw [shows_filesFor hlvls, shows_filesFor hlvls']
    congr 1
    -- the level of the file answers as it did, and the others are the same
    have hmap : (deeper.modify t (addToLevel f)).map (levelAnswer k s) =
        deeper.map (levelAnswer k s) := by
      refine ext_getElem? fun i => ?_
      rw [getElem?_map, getElem?_map, getElem?_modify]
      cases hi : deeper[i]? with
      | none => rfl
      | some files =>
        by_cases heq : t = i
        · have hlevelFiles : version.levelFiles f.level = files := by
            rw [levelFiles_eq, hlvls, ht, heq, getElem?_cons_succ, hi, Option.getD_some]
          rw [hlevelFiles] at hans
          simp [heq, hans]
        · simp [heq]
    have hfst : ∀ l : List (List FileMetadata), l.findSome? (levelAnswer k s) =
        (l.map (levelAnswer k s)).findSome? id := fun l => by rw [findSome?_map]; rfl
    rw [hfst, hfst, hmap]

/-! ## The versions of a run -/

variable {cfg : LsmConfig} {tree : LsmTree}

/-- A new version has no files. -/
theorem TreeVersion.wellFormed_new {numLevels : ℕ} : (new numLevels).WellFormed := by
  have hemp : ∀ level, (new numLevels).levelFiles level = [] := by
    intro level
    rw [levelFiles_eq, new, getElem?_replicate]
    split_ifs <;> rfl
  refine ⟨fun level f hf => ?_, ?_, fun level _ => ?_⟩
  · rw [hemp] at hf
    cases hf
  · simp [files, new]
  · rw [hemp]
    exact .nil

/-- The flush of a memtable keeps the version well-formed. -/
theorem TreeVersion.WellFormed.flushSingleMemtable (h : version.WellFormed) {m : Memtable} {id : ℕ} :
    (LsmTree.flushSingleMemtable cfg version m id).1.WellFormed := by
  unfold LsmTree.flushSingleMemtable
  split
  · exact h
  · split_ifs with hne
    · exact h
    · split
      · exact h
      · rename_i happ
        exact h.addSstable happ fun hlvl => absurd hlvl (lt_irrefl 0)

theorem TreeVersion.WellFormed.flushImmutableMemtables (h : tree.version.WellFormed)
    {clock : ℕ → ℕ} : (tree.flushImmutableMemtables cfg clock).1.version.WellFormed := by
  have heach : (LsmTree.flushEach cfg clock tree.version tree.immutable.zipIdx).1.WellFormed :=
    forEach_fst (P := WellFormed) (fun _ m _ hver => hver.flushSingleMemtable) h
  unfold LsmTree.flushImmutableMemtables
  split
  all_goals
    rename_i hflush
    rw [hflush] at heach
    exact heach

/-- **The versions of a run without compaction are well formed.** -/
theorem TreeVersion.WellFormed.exec (h : tree.version.WellFormed) {call : LsmCall} :
    (tree.exec cfg call).1.version.WellFormed := by
  have hins : ∀ key value t,
      (tree.insertInternal cfg key value t none).1.version = tree.version := by
    intro key value t
    obtain ⟨base, hbase, hins⟩ := LsmTree.insertInternal_cases cfg tree key value t none
    have hver : base.version = tree.version := by
      rcases hbase with rfl | ⟨rfl, -⟩
      · rfl
      · rfl
    rcases hins with ⟨e, he⟩ | ⟨active, hact, -⟩
    · rw [he]
      exact hver
    · rw [hact]
      exact hver
  cases call with
  | insert t key value =>
    rw [LsmTree.exec, hins]
    exact h
  | delete t key =>
    rw [LsmTree.exec, LsmTree.deleteInternal, hins]
    exact h
  | commitVersions t lsn | rotateMemtable => exact h
  | flushMemtable clock =>
    rw [LsmTree.exec, LsmTree.flushMemtable]
    split_ifs
    · exact h
    · have hrotated : (tree.rotateMemtable cfg).version.WellFormed := h
      exact hrotated.flushImmutableMemtables
  | flushImmutableMemtables clock => exact h.flushImmutableMemtables

/-- **Every run** leaves the version well-formed. -/
theorem wellFormed_execute {calls : List LsmCall} :
    (execute (LsmTree.exec cfg) (.new cfg) calls).2.version.WellFormed :=
  (run_execute (LsmTree.exec cfg) (.new cfg) calls).invariant
    (P := fun _ tree => tree.version.WellFormed) TreeVersion.wellFormed_new
    fun _ _ _ h _ => h.exec

end NanoStore.Lsm
