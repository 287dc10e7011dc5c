import NanoStore.Lsm.Iterator
import NanoStore.Lsm.Versions
/-!
# The LSM tree — compaction

`CompactionPicker` and `CompactionExecutor`. A job merges files of one
level with the files of the next that overlap them, and puts what the merge
shows at the highest snapshot into new files of that next level. Each value
is written as a new version chain that nobody commits, so no read ever
finds it: a compaction does to the reads what deleting its inputs would do.
-/

namespace NanoStore.Lsm

open Wal Steps Txn Table List

/-! ## Picking a job -/

/-- `CompactionJob`, without its priority and the estimate of its output. -/
structure CompactionJob where
  sourceLevel : ℕ
  targetLevel : ℕ
  sourceFiles : List FileMetadata
  targetFiles : List FileMetadata

/-- The files a job merges, those of the source level first. -/
def CompactionJob.inputFiles (job : CompactionJob) : List FileMetadata :=
  job.sourceFiles ++ job.targetFiles

/-- The inputs of a job in the order of the merge. -/
def CompactionJob.sources (job : CompactionJob) : List Source := job.inputFiles.map (·.source)

/-- The entries that can be read of the inputs. -/
def CompactionJob.entries (job : CompactionJob) : List (List LeafEntry) :=
  job.sources.map Source.entries

/-- The least and the greatest key of some files. -/
def keyRange (files : List FileMetadata) : Option (Key × Key) :=
  match (files.map (·.minKey)).min?, (files.map (·.maxKey)).max? with
  | some minKey, some maxKey => some (minKey, maxKey)
  | _, _ => none

namespace TreeVersion

variable (cfg : LsmConfig) (version : TreeVersion)

/-- The bytes of a level. -/
def levelSize (level : ℕ) : ℕ := ((version.levelFiles level).map (·.totalSize)).sum

/-- `get_overlapping_files_in_level`. -/
def overlappingFilesInLevel (level : ℕ) (minKey maxKey : Key) : List FileMetadata :=
  (version.levelFiles level).filter (·.overlaps minKey maxKey)

/-- The files merged into the next level, with those of that level that overlap them. Without a file
there is no least key, and the source panics. -/
def jobFor (level : ℕ) (sourceFiles : List FileMetadata) : Option CompactionJob :=
  (keyRange sourceFiles).map fun range =>
    ⟨level, level + 1, sourceFiles, version.overlappingFilesInLevel (level + 1) range.1 range.2⟩

/-- The first files of level 0, with what they overlap in the next. -/
def pickL0Compaction : Option CompactionJob :=
  if version.levelFiles 0 = [] then none
  else
    let sourceFiles := (version.levelFiles 0).take cfg.maxMergeWidth
    if sourceFiles.length < cfg.minMergeWidth then none else version.jobFor 0 sourceFiles

/-- `pick_ln_compaction`: the range of one file is the file's. -/
def pickLnCompaction (sourceLevel : ℕ) : Option CompactionJob :=
  match version.levelFiles sourceLevel with
  | [] => none
  | sourceFile :: _ => version.jobFor sourceLevel [sourceFile]

/-- A job out of a level that has files and a next level. -/
def pickLevelCompaction (level : ℕ) : Option CompactionJob :=
  if version.levelFiles level = [] then none
  else if version.levels.length ≤ level + 1 then none
  else if level = 0 then version.pickL0Compaction cfg
  else version.pickLnCompaction level

/-- The jobs of the levels above their limits, with their priorities. -/
def candidates : List (ℕ × CompactionJob) :=
  cfg.levels.filterMap fun levelConfig =>
    let currentSize := version.levelSize levelConfig.level
    if currentSize ≤ levelConfig.maxSize then none
    else (version.pickLevelCompaction cfg levelConfig.level).map fun job =>
      (cfg.sizeRatio currentSize levelConfig.maxSize, job)

/-- `pick_compaction`: the job with the highest priority, of several the last one. -/
def pickCompaction : Option CompactionJob :=
  ((version.candidates cfg).foldl (fun best candidate => match best with
    | none => some candidate
    | some b => if b.1 ≤ candidate.1 then some candidate else some b) none).map Prod.snd

/-- The file has keys in a range that may be open. -/
def inManualRange (startKey endKey : Option Key) (f : FileMetadata) : Bool :=
  match startKey, endKey with
  | some start, some finish => start ≤ f.maxKey && f.minKey ≤ finish
  | some start, none => start ≤ f.maxKey
  | none, some finish => f.minKey ≤ finish
  | none, none => true

/-- The files of a level in a range, with what they overlap. -/
def pickManualCompaction (level : ℕ) (startKey endKey : Option Key) : Option CompactionJob :=
  if version.levelFiles level = [] then none
  else if version.levels.length ≤ level + 1 then none
  else
    let sourceFiles := (version.levelFiles level).filter (inManualRange startKey endKey)
    if sourceFiles = [] then none else version.jobFor level sourceFiles

end TreeVersion

open TreeVersion

/-! ## Running a job -/

/-- `SStableWriter::add` of a value with a chain of its own: one version, not committed. -/
def ChainMap.add (m : ChainMap) (key : Key) (value : Bytes) : Except LsmError ChainMap :=
  if h : ∀ e ∈ m.entries.getLast?, e.key < key then
    .ok {
      entries := m.entries ++ [⟨key, [.new value 0]⟩]
      ascending := by
        refine List.pairwise_append.mpr ⟨m.ascending, List.pairwise_singleton _ _, ?_⟩
        intro e he e' he'
        have hne := List.ne_nil_of_mem he
        have hlast := h _ (List.getLast?_eq_some_getLast hne)
        rw [List.mem_singleton.mp he']
        exact (Ascending.le_getLast m.ascending hne he).trans_lt hlast
      inline := by
        refine List.forall_mem_append.mpr ⟨m.inline, ?_⟩
        simpa using ⟨value, rfl⟩ }
  else .error (.invalidOperationState "SStableBuilder::add" "Keys must be added in sorted order")

/-- The layout of the files that a job writes, whatever the configuration of the tree. -/
def SStableLayout.compacted (layout : SStableLayout) : SStableLayout where
  blockSize := 4 * 1024
  pageSize := layout.pageSize
  blockLen := plainBlockLen

/-- `SStableWriter::finish` of a job. -/
def FileMetadata.finish (cfg : LsmConfig) (id level : ℕ) (contents : ChainMap) :
    Except LsmError FileMetadata :=
  if hne : contents.entries = [] then
    .error (.invalidOperationState "SStableBuilder::build" "Cannot create empty SSTable")
  else .ok (.ofEntries { cfg with layout := cfg.layout.compacted } id level contents hne)

/-- What a job has written: the files it has finished, the writer it has open, and its counters. -/
structure Output where
  nextSstableId : ℕ
  keysProcessed : ℕ
  writer : Option (ℕ × ChainMap)
  files : List FileMetadata

namespace Output

variable (cfg : LsmConfig) (level : ℕ) (out : Output)

/-- The open writer, or a new one with the next identifier. -/
def openWriter : Output × ℕ × ChainMap :=
  match out.writer with
  | some (id, contents) => (out, id, contents)
  | none => ({ out with nextSstableId := out.nextSstableId + 1 }, out.nextSstableId, .empty)

/-- The file of a writer joins the output. -/
def finishWriter (id : ℕ) (contents : ChainMap) : Outcome Output LsmError Unit :=
  match FileMetadata.finish cfg id level contents with
  | .error e => (out, .error e)
  | .ok file => ({ out with writer := none, files := out.files ++ [file] }, .ok ())

/-- One key and value written; after every thousand keys the writer is finished. -/
def write (key : Key) (value : Bytes) : Outcome Output LsmError Unit :=
  let (out, id, contents) := { out with keysProcessed := out.keysProcessed + 1 }.openWriter
  match contents.add key value with
  | .error e => (out, .error e)
  | .ok contents =>
    if out.keysProcessed % 1000 = 0 then out.finishWriter cfg level id contents
    else ({ out with writer := some (id, contents) }, .ok ())

/-- The last writer finished. -/
def close : Outcome Output LsmError Unit :=
  match out.writer with
  | none => (out, .ok ())
  | some (id, contents) => out.finishWriter cfg level id contents

/-- The loop of `execute_internal`, for at most `fuel` keys. -/
def writeAll : ℕ → MergeIterator → Output → Outcome Output LsmError Unit
  | 0, _, out => (out, .ok ())
  | fuel + 1, it, out =>
    match it.current with
    | none => (out, .ok ())
    | some (key, value) =>
      andThen (out.write cfg level key value) fun out _ =>
        match it.advance with
        | (_, .error e) => (out, .error e)
        | (it, .ok ()) => writeAll fuel it out

end Output

/-- `execute_internal`: the merge of the inputs, the first file of the source level before the
others. -/
def executeInternal (cfg : LsmConfig) (nextSstableId : ℕ) (job : CompactionJob) :
    Outcome Output LsmError Unit :=
  let out : Output := ⟨nextSstableId, 0, none, []⟩
  if cfg.levels.length ≤ job.sourceLevel ∨ cfg.levels.length ≤ job.targetLevel then
    (out, .error .panicked)
  else match openAll job.sources with
    | .error e => (out, .error e)
    | .ok sources =>
      match MergeIterator.new sources (2 ^ 64 - 1) with
      | (_, .error e) => (out, .error e)
      | (it, .ok ()) =>
        andThen (out.writeAll cfg job.targetLevel (Merge.size job.entries) it) fun out _ =>
          out.close cfg job.targetLevel

/-- `compact_range` and the body of `compaction_loop`, for a job that was picked. -/
def LsmTree.compact (cfg : LsmConfig) (tree : LsmTree) (job : CompactionJob) :
    Outcome LsmTree LsmError Unit :=
  match executeInternal cfg tree.version.nextSstableId job with
  | (out, .error e) =>
    ({ tree with version := { tree.version with nextSstableId := out.nextSstableId } }, .error e)
  | (out, .ok ()) =>
    let version := { tree.version with nextSstableId := out.nextSstableId }
    match version.applyEdits ((job.inputFiles.map FileMetadata.id).map .removeSstable ++
        out.files.map .addSstable) with
    | .error e => ({ tree with version }, .error e)
    | .ok version => ({ tree with version }, .ok ())

/-! ## The jobs that are picked -/

/-- The job merges files of one level with all files of the next that overlap them. -/
structure CompactionJob.Chosen (version : TreeVersion) (job : CompactionJob) : Prop where
  target : job.targetLevel = job.sourceLevel + 1
  sources : ∀ f ∈ job.sourceFiles, f ∈ version.levelFiles job.sourceLevel
  targets : ∃ lo hi, (∀ f ∈ job.sourceFiles, lo ≤ f.minKey ∧ f.maxKey ≤ hi) ∧
    job.targetFiles = version.overlappingFilesInLevel job.targetLevel lo hi

variable {job : CompactionJob}

namespace TreeVersion

variable {cfg : LsmConfig} {version : TreeVersion} {level : ℕ} {sourceFiles : List FileMetadata}

theorem chosen_jobFor (h : version.jobFor level sourceFiles = some job)
    (hsources : ∀ f ∈ sourceFiles, f ∈ version.levelFiles level) : job.Chosen version := by
  obtain ⟨⟨lo, hi⟩, hrange, rfl⟩ := Option.map_eq_some_iff.mp h
  refine ⟨rfl, hsources, lo, hi, fun f hf => ?_, rfl⟩
  unfold keyRange at hrange
  split at hrange
  · rename_i lo' hi' hmin hmax
    cases hrange
    exact ⟨(min?_eq_some_iff.mp hmin).2 _ (mem_map_of_mem hf),
      (max?_eq_some_iff.mp hmax).2 _ (mem_map_of_mem hf)⟩
  · cases hrange

theorem chosen_pickLevelCompaction (h : version.pickLevelCompaction cfg level = some job) :
    job.Chosen version := by
  unfold pickLevelCompaction at h
  split_ifs at h with _ _ hlvl
  · subst hlvl
    unfold pickL0Compaction at h
    simp only at h
    split_ifs at h
    exact chosen_jobFor h fun f hf => mem_of_mem_take hf
  · unfold pickLnCompaction at h
    split at h
    · cases h
    · rename_i sourceFile others hfiles
      refine chosen_jobFor h fun f hf => ?_
      rw [mem_singleton.mp hf, hfiles]
      exact mem_cons_self

theorem chosen_pickCompaction (h : version.pickCompaction cfg = some job) : job.Chosen version := by
  obtain ⟨⟨priority, best⟩, hbest, rfl⟩ := Option.map_eq_some_iff.mp h
  -- the best of the candidates is one of them
  have hmem : ∀ (l : List (ℕ × CompactionJob)) (start : Option (ℕ × CompactionJob)) best,
      l.foldl (fun best candidate => match best with
        | none => some candidate
        | some b => if b.1 ≤ candidate.1 then some candidate else some b) start = some best →
      best ∈ l ∨ start = some best := by
    intro l
    induction l with
    | nil => exact fun start best hbest => .inr hbest
    | cons candidate l ih =>
      intro start best hbest
      rcases ih _ best hbest with hl | hstart
      · exact .inl (mem_cons_of_mem _ hl)
      · cases start with
        | none =>
          cases hstart
          exact .inl mem_cons_self
        | some b =>
          simp only at hstart
          split_ifs at hstart
          · cases hstart
            exact .inl mem_cons_self
          · exact .inr hstart
  rcases hmem _ _ _ hbest with hcandidate | hnone
  · obtain ⟨levelConfig, -, hpick⟩ := mem_filterMap.mp hcandidate
    simp only at hpick
    split_ifs at hpick
    obtain ⟨job, hjob, hsame⟩ := Option.map_eq_some_iff.mp hpick
    cases hsame
    exact chosen_pickLevelCompaction hjob
  · cases hnone

end TreeVersion

/-! ## What a job writes -/

/-- The entry a job writes for a key and its value. -/
def fresh (item : Key × Bytes) : LeafEntry := ⟨item.1, [.new item.2 0]⟩

/-- The range of the file goes from its first key to its last. -/
def FileMetadata.Tight (f : FileMetadata) : Prop :=
  (∃ e ∈ f.contents.entries, e.key = f.minKey) ∧ ∃ e ∈ f.contents.entries, e.key = f.maxKey

/-- The entries written so far, in order. -/
def Output.entries (out : Output) : List LeafEntry :=
  out.files.flatMap (·.contents.entries) ++ (out.writer.toList.flatMap fun w => w.2.entries)

/-- The files finished so far are files of the level, and their ranges are tight. -/
def Output.Finished (level : ℕ) (out : Output) : Prop := ∀ f ∈ out.files, f.level = level ∧ f.Tight

variable {next : ℕ} {cfg : LsmConfig} {level s : ℕ} {out out' : Output} {version version' : TreeVersion}
  {f g : FileMetadata} {k : Key}

theorem Output.Finished.finishWriter (h : out.Finished level) {id : ℕ} {contents : ChainMap}
    (hfinish : out.finishWriter cfg level id contents = (out', .ok ())) :
    out'.Finished level ∧ out'.writer = none ∧
      out'.entries = out.files.flatMap (·.contents.entries) ++ contents.entries := by
  unfold Output.finishWriter FileMetadata.finish at hfinish
  by_cases hne : contents.entries = []
  · rw [dif_pos hne] at hfinish
    cases hfinish
  rw [dif_neg hne] at hfinish
  cases hfinish
  refine ⟨forall_mem_append.mpr ⟨h, fun f hf => ?_⟩, rfl, ?_⟩
  · rw [mem_singleton.mp hf]
    exact ⟨rfl, ⟨_, head_mem hne, rfl⟩, ⟨_, getLast_mem hne, rfl⟩⟩
  · simp [entries, FileMetadata.ofEntries]

theorem ChainMap.entries_add {m m' : ChainMap} {key : Key} {value : Bytes}
    (hadd : m.add key value = .ok m') : m'.entries = m.entries ++ [fresh (key, value)] := by
  unfold ChainMap.add at hadd
  split_ifs at hadd
  cases hadd
  rfl

theorem Output.Finished.write (h : out.Finished level) {item : Key × Bytes}
    (hwrite : out.write cfg level item.1 item.2 = (out', .ok ())) :
    out'.Finished level ∧ out'.entries = out.entries ++ [fresh item] := by
  obtain ⟨opened, id, contents, hopen, hfiles, hents⟩ : ∃ opened id contents,
      { out with keysProcessed := out.keysProcessed + 1 }.openWriter = (opened, id, contents) ∧
      opened.files = out.files ∧
      out.entries = out.files.flatMap (·.contents.entries) ++ contents.entries := by
    unfold openWriter entries
    cases out.writer with
    | none => exact ⟨_, _, _, rfl, rfl, rfl⟩
    | some w => exact ⟨_, _, _, rfl, rfl, by simp⟩
  have hopened : opened.Finished level := by rwa [Output.Finished, hfiles]
  rw [Output.write, hopen] at hwrite
  simp only at hwrite
  cases hadd : contents.add item.1 item.2 with
  | error e =>
    rw [hadd] at hwrite
    cases hwrite
  | ok contents' =>
    have hadded := ChainMap.entries_add hadd
    rw [hadd] at hwrite
    simp only at hwrite
    split_ifs at hwrite
    · obtain ⟨hfin, -, hents'⟩ := hopened.finishWriter hwrite
      rw [hfiles, hadded, ← append_assoc, ← hents] at hents'
      exact ⟨hfin, hents'⟩
    · cases hwrite
      refine ⟨hopened, ?_⟩
      rw [hents, entries, hfiles, append_assoc, ← hadded]
      simp

theorem Output.Finished.writeAll (h : out.Finished level) {l : List (Key × Bytes)} {fuel : ℕ}
    (hfuel : l.length ≤ fuel) {it : MergeIterator} (hit : it.Ahead l)
    (hwrite : out.writeAll cfg level fuel it = (out', .ok ())) :
    out'.Finished level ∧ out'.entries = out.entries ++ l.map fresh := by
  induction l generalizing fuel out it with
  | nil =>
    have hnone := hit.nil
    cases fuel with
    | zero =>
      cases hwrite
      exact ⟨h, by simp⟩
    | succ fuel =>
      rw [writeAll, hnone] at hwrite
      cases hwrite
      exact ⟨h, by simp⟩
  | cons item l ih =>
    cases fuel with
    | zero => simp at hfuel
    | succ fuel =>
      rw [writeAll, hit.cons.1] at hwrite
      obtain ⟨out₁, _, hwritten, hrest⟩ := andThen_eq_ok.mp hwrite
      split at hrest
      · cases hrest
      rename_i it' hadvance
      have hit' := hit.advance_eq_ok hadvance
      obtain ⟨hfin, hents⟩ :
          out₁.Finished level ∧ out₁.entries = out.entries ++ [fresh item] := h.write hwritten
      obtain ⟨hfin', hents'⟩ := ih hfin (by simpa using hfuel) hit' hrest
      refine ⟨hfin', ?_⟩
      rw [hents', hents, map_cons, append_assoc]
      rfl

theorem CompactionJob.readable (job : CompactionJob) : Readable job.entries := by
  rw [entries, sources, map_map]
  intro l hl
  obtain ⟨g, -, rfl⟩ := mem_map.mp hl
  exact g.readable_source

section

variable (h : executeInternal cfg next job = (out, .ok ()))
include h

/-- **A job writes what the merge of its inputs shows**, one uncommitted version for each key, cut
into files. -/
theorem executeInternal_spec :
    out.Finished job.targetLevel ∧
      out.files.flatMap (·.contents.entries) = (items (2 ^ 64 - 1) job.entries).map fresh := by
  have hemp : Output.Finished job.targetLevel ⟨next, 0, none, []⟩ := nofun
  unfold executeInternal at h
  simp only at h
  split_ifs at h
  · cases h
  split at h
  · cases h
  rename_i sources hopen
  split at h
  · cases h
  · rename_i it hnew
    have hit : it.Ahead (items (2 ^ 64 - 1) job.entries) := MergeIterator.new_ahead job.readable hopen hnew
    obtain ⟨written, _, hwrite, hclose⟩ := andThen_eq_ok.mp h
    obtain ⟨hwritten, hents⟩ := hemp.writeAll length_items_le hit hwrite
    have hstart : Output.entries ⟨next, 0, none, []⟩ = [] := rfl
    rw [hstart, nil_append] at hents
    unfold Output.close at hclose
    split at hclose
    · rename_i hwriter
      cases hclose
      refine ⟨hwritten, ?_⟩
      rw [← hents, Output.entries, hwriter]
      simp
    · rename_i id contents hwriter
      obtain ⟨hfin, hclosed, hall⟩ := hwritten.finishWriter hclose
      refine ⟨hfin, ?_⟩
      rw [Output.entries, hclosed, Option.toList_none, flatMap_nil, append_nil] at hall
      rw [hall, ← hents, Output.entries, hwriter]
      simp

/-! ## Reads after a job -/

theorem shows_output (hf : f ∈ out.files) :
    shows (f.contents.chain k) s = none := by
  refine shows_of_uncommitted fun v hv => ?_
  obtain ⟨e, he, hv⟩ := f.contents.mem_chain hv
  have hent : e ∈ out.files.flatMap (·.contents.entries) := mem_flatMap.mpr ⟨f, hf, he⟩
  rw [(executeInternal_spec h).2] at hent
  obtain ⟨item, -, rfl⟩ := mem_map.mp hent
  rw [mem_singleton.mp hv]
  rfl

theorem range_of_output (hf : f ∈ out.files)
    {e : LeafEntry} (he : e ∈ f.contents.entries) :
    ∃ g ∈ job.inputFiles, g.minKey ≤ e.key ∧ e.key ≤ g.maxKey := by
  have hent : e ∈ out.files.flatMap (·.contents.entries) := mem_flatMap.mpr ⟨f, hf, he⟩
  rw [(executeInternal_spec h).2] at hent
  obtain ⟨item, hitem, rfl⟩ := mem_map.mp hent
  obtain ⟨e', hheld, -⟩ := (mem_items job.readable).mp hitem
  obtain ⟨⟨l, hl, he'⟩, hkey⟩ := Merge.mem_of_held hheld
  rw [CompactionJob.entries, CompactionJob.sources, map_map] at hl
  obtain ⟨g, hg, rfl⟩ := mem_map.mp hl
  have hwithin := g.within e' (mem_of_mem_take he')
  rw [hkey] at hwithin
  exact ⟨g, hg, hwithin⟩

theorem apart_outputs :
    out.files.Pairwise Apart := by
  obtain ⟨hfin, hents⟩ := executeInternal_spec h
  have hsort : (out.files.flatMap (·.contents.entries)).Pairwise fun e e' => e.key < e'.key := by
    rw [hents, pairwise_map]
    exact items_ascending job.readable
  refine (pairwise_flatMap.mp hsort).2.imp_of_mem fun {f g} hf hg hlt => ?_
  obtain ⟨-, e, he, hmax⟩ := (hfin f hf).2
  obtain ⟨⟨e', he', hmin⟩, -⟩ := (hfin g hg).2
  refine .inl ?_
  rw [← hmax, ← hmin]
  exact hlt e he e' he'

end

theorem CompactionJob.Chosen.beside (h : job.Chosen version) (hwf : version.WellFormed)
    (hf : f ∈ version.levelFiles job.targetLevel) (hkept : f ∉ job.targetFiles) :
    (∀ g ∈ job.inputFiles, f.maxKey < g.minKey) ∨ ∀ g ∈ job.inputFiles, g.maxKey < f.minKey := by
  obtain ⟨lo, hi, hsources, htargets⟩ := h.targets
  have hlvl : 0 < job.targetLevel := by
    rw [h.target]
    omega
  -- a target file overlaps the range of the sources
  have htarget : ∀ g ∈ job.targetFiles, g ∈ version.levelFiles job.targetLevel ∧
      lo ≤ g.maxKey ∧ g.minKey ≤ hi := by
    intro g hg
    rw [htargets] at hg
    obtain ⟨hmem, hoverlaps⟩ := mem_filter.mp hg
    unfold FileMetadata.overlaps at hoverlaps
    split_ifs at hoverlaps with hlo hhi
    exact ⟨hmem, not_lt.mp hlo, not_lt.mp hhi⟩
  have hapart : ∀ g ∈ job.targetFiles, Apart f g := fun g hg =>
    hwf.apart_of_mem hlvl hf (htarget g hg).1 fun heq => hkept (heq ▸ hg)
  have hbeside : f.maxKey < lo ∨ hi < f.minKey := by
    by_contra hnot
    obtain ⟨hlo, hhi⟩ := not_or.mp hnot
    refine hkept ?_
    rw [htargets]
    exact mem_filter.mpr ⟨hf, by simp [FileMetadata.overlaps, hlo, hhi]⟩
  have hrange := f.minKey_le_maxKey
  rcases hbeside with hbelow | habove
  · refine .inl (forall_mem_append.mpr ⟨fun g hg => hbelow.trans_le (hsources g hg).1,
      fun g hg => ?_⟩)
    rcases hapart g hg with hlt | hlt
    · exact hlt
    · exact absurd (hlt.trans_le (hrange.trans hbelow.le)) (htarget g hg).2.1.not_gt
  · refine .inr (forall_mem_append.mpr ⟨fun g hg => (hsources g hg).2.trans_lt habove,
      fun g hg => ?_⟩)
    rcases hapart g hg with hlt | hlt
    · exact absurd ((habove.trans_le hrange).trans hlt) (htarget g hg).2.2.not_gt
    · exact hlt

theorem CompactionJob.Chosen.apart_output (hchosen : job.Chosen version) (hwf : version.WellFormed)
    (h : executeInternal cfg next job = (out, .ok ()))
    (hg : g ∈ (version.without (job.inputFiles.map FileMetadata.id)).levelFiles job.targetLevel)
    (hf : f ∈ out.files) : Apart g f := by
  rw [levelFiles_without] at hg
  obtain ⟨hmem, hkept⟩ := mem_filter.mp hg
  have hnotinput : g ∉ job.targetFiles := by
    intro hinput
    have hid : g.id ∈ job.inputFiles.map FileMetadata.id :=
      mem_map_of_mem (mem_append_right _ hinput)
    simp [hid] at hkept
  obtain ⟨⟨e, he, hmin⟩, e', he', hmax⟩ := ((executeInternal_spec h).1 f hf).2
  obtain ⟨g₁, hg₁, hlo, -⟩ := range_of_output h hf he
  obtain ⟨g₂, hg₂, -, hhi⟩ := range_of_output h hf he'
  rcases hchosen.beside hwf hmem hnotinput with hbelow | habove
  · refine .inl ?_
    rw [← hmin]
    exact (hbelow g₁ hg₁).trans_le hlo
  · refine .inr ?_
    rw [← hmax]
    exact hhi.trans_lt (habove g₂ hg₂)

theorem TreeVersion.WellFormed.applyEdits_add (h : version.WellFormed) {target : ℕ}
    (htarget : 0 < target) {outputs : List FileMetadata} (hlvl : ∀ f ∈ outputs, f.level = target)
    (hblank : ∀ f ∈ outputs, ∀ k s, shows (f.contents.chain k) s = none)
    (hapart : outputs.Pairwise Apart)
    (hothers : ∀ g ∈ version.levelFiles target, ∀ f ∈ outputs, Apart g f)
    (happ : version.applyEdits (outputs.map .addSstable) = .ok version') :
    version'.WellFormed ∧ ∀ k s, shows (filesChain (version'.filesFor k) k) s =
      shows (filesChain (version.filesFor k) k) s := by
  induction outputs generalizing version with
  | nil =>
    cases happ
    exact ⟨h, fun _ _ => rfl⟩
  | cons f outputs ih =>
    obtain ⟨rfl, hlvls⟩ := forall_mem_cons.mp hlvl
    obtain ⟨hfblank, hblanks⟩ := forall_mem_cons.mp hblank
    obtain ⟨hfapart, haparts⟩ := pairwise_cons.mp hapart
    rw [map_cons, applyEdits] at happ
    cases hadd : version.apply (.addSstable f) with
    | error e =>
      rw [hadd] at happ
      cases happ
    | ok version₁ =>
      rw [hadd] at happ
      have hwf₁ := h.addSstable hadd fun _ g hg => hothers g hg f mem_cons_self
      have hothers₁ : ∀ g ∈ version₁.levelFiles f.level, ∀ f' ∈ outputs, Apart g f' := by
        intro g hg f' hf'
        rw [levelFiles_addSstable hadd, if_pos rfl] at hg
        rcases mem_append.mp ((perm_addToLevel f _).subset hg) with hg | hg
        · exact hothers g hg f' (mem_cons_of_mem _ hf')
        · rw [mem_singleton.mp hg]
          exact hfapart f' hf'
      obtain ⟨hwf', hsame⟩ := ih hwf₁ hlvls hblanks haparts hothers₁ happ
      refine ⟨hwf', fun k s => ?_⟩
      rw [hsame, hwf₁.shows_addSstable hadd htarget (hfblank k s)]

/-- **Installing what a job wrote is removing what it read**, to all readers, and the version stays
well formed. -/
theorem CompactionJob.Chosen.install (hchosen : job.Chosen version) (hwf : version.WellFormed)
    (hexec : executeInternal cfg next job = (out, .ok ()))
    (happ : version.applyEdits ((job.inputFiles.map FileMetadata.id).map .removeSstable ++
      out.files.map .addSstable) = .ok version') :
    version'.WellFormed ∧ ∀ k s, shows (filesChain (version'.filesFor k) k) s =
      shows (filesChain ((version.without (job.inputFiles.map FileMetadata.id)).filesFor k) k) s := by
  have hlvl : 0 < job.targetLevel := by
    rw [hchosen.target]
    omega
  exact hwf.without.applyEdits_add hlvl (fun f hf => ((executeInternal_spec hexec).1 f hf).1)
    (fun f hf k s => shows_output hexec hf) (apart_outputs hexec)
    (fun g hg f hf => hchosen.apart_output hwf hexec hg hf) (hwf.applyEdits_remove happ)

/-- Reads that get past the memtables are answered without some files as with them. -/
def LsmTree.Redundant (tree : LsmTree) (files : List FileMetadata) : Prop :=
  ∀ k s, shows (memtablesChain tree.memtables k) s = none →
    hideEmpty (shows (filesChain
      ((tree.version.without (files.map FileMetadata.id)).filesFor k) k) s) =
      hideEmpty (shows (filesChain (tree.version.filesFor k) k) s)

variable {tree : LsmTree}

theorem get_eq_get_iff {tree' : LsmTree} (h : tree'.memtables = tree.memtables) :
    tree'.get k s = tree.get k s ↔ (shows (memtablesChain tree.memtables k) s = none →
      hideEmpty (shows (filesChain (tree'.version.filesFor k) k) s) =
        hideEmpty (shows (filesChain (tree.version.filesFor k) k) s)) := by
  rw [LsmTree.get_eq, LsmTree.get_eq, LsmTree.chain, LsmTree.chain, h,
    shows_append LsmTree.inline_memtables, shows_append LsmTree.inline_memtables]
  cases shows (memtablesChain tree.memtables k) s with
  | none | some value => simp

theorem LsmTree.compact_cases (tree : LsmTree) :
    (∃ e next, tree.compact cfg job =
      ({ tree with version := { tree.version with nextSstableId := next } }, .error e)) ∨
    ∃ out next version', tree.compact cfg job = ({ tree with version := version' }, .ok ()) ∧
      executeInternal cfg tree.version.nextSstableId job = (out, .ok ()) ∧
      applyEdits { tree.version with nextSstableId := next }
        ((job.inputFiles.map FileMetadata.id).map .removeSstable ++ out.files.map .addSstable) =
          .ok version' := by
  unfold LsmTree.compact
  split
  · exact .inl ⟨_, _, rfl⟩
  · rename_i out hexec
    simp only
    split
    · exact .inl ⟨_, _, rfl⟩
    · rename_i version' happ
      exact .inr ⟨out, _, version', rfl, hexec, happ⟩

/-- A job that one of the pickers returns. -/
def CompactionJob.Picked (cfg : LsmConfig) (version : TreeVersion) (job : CompactionJob) : Prop :=
  version.pickCompaction cfg = some job ∨
    ∃ level startKey endKey, version.pickManualCompaction level startKey endKey = some job

theorem CompactionJob.Picked.chosen (h : job.Picked cfg version) : job.Chosen version := by
  rcases h with hpick | ⟨level, startKey, endKey, hpick⟩
  · exact chosen_pickCompaction hpick
  · unfold pickManualCompaction at hpick
    simp only at hpick
    split_ifs at hpick
    exact chosen_jobFor hpick fun f hf => mem_of_mem_filter hf

theorem TreeVersion.WellFormed.compact (h : tree.version.WellFormed)
    (hpicked : job.Picked cfg tree.version) : (tree.compact cfg job).1.version.WellFormed := by
  rcases tree.compact_cases with ⟨e, next, hfail⟩ | ⟨out, next, version', hdone, hexec, happ⟩
  · rw [hfail]
    exact { h with }
  · have hchosen : job.Chosen { tree.version with nextSstableId := next } := { hpicked.chosen with }
    rw [hdone]
    exact (hchosen.install { h with } hexec happ).1

/-- What happens to a tree: a call, or the compaction of a job that was picked. -/
def LsmTree.Moves (cfg : LsmConfig) (tree tree' : LsmTree) : Prop :=
  (∃ call, (tree.exec cfg call).1 = tree') ∨ ∃ job, job.Picked cfg tree.version ∧ (tree.compact cfg job).1 = tree'

/-- **Calls and compactions, in any order and whether they fail or not, leave a well-formed version.** -/
theorem wellFormed_of_moves (h : Relation.ReflTransGen (LsmTree.Moves cfg) (.new cfg) tree) :
    tree.version.WellFormed := by
  induction h with
  | refl => exact wellFormed_new
  | tail _ hmove ih =>
    rcases hmove with ⟨call, rfl⟩ | ⟨job, hpicked, rfl⟩
    · exact ih.exec
    · exact ih.compact hpicked

/-- The calls of a run are moves. -/
theorem LsmTree.moves_of_run {trace : List (LsmCall × Except LsmError Unit)}
    (h : Run (LsmTree.exec cfg) anyCall (.new cfg) trace tree) :
    Relation.ReflTransGen (LsmTree.Moves cfg) (.new cfg) tree :=
  h.invariant .refl fun _ _ call hmoves _ => hmoves.tail (.inl ⟨call, rfl⟩)

/-- Two files of the first level, their versions committed. -/
def committedCalls : List LsmCall :=
  [.insert 1 [1] [5], .commitVersions 1 10, .flushMemtable fun _ => 7, .insert 2 [2] [6],
    .commitVersions 2 20, .flushMemtable fun _ => 8]

/-- Two memtables are flushed, the two files are merged into one of the next level, and a third memtable is
flushed after that. -/
theorem wellFormed_of_moves_merged :
    let tree := (execute (LsmTree.exec smallMemtables) (.new smallMemtables) committedCalls).2
    ∃ job, job.Picked smallMemtables tree.version ∧ (tree.compact smallMemtables job).2 = .ok () ∧
      let later := (execute (LsmTree.exec smallMemtables) (tree.compact smallMemtables job).1
        [.insert 3 [1] [9], .flushMemtable fun _ => 9]).2
      tree.version.levels.map List.length = [2, 0] ∧ later.version.levels.map List.length = [1, 1] ∧
        later.version.WellFormed := by
  intro tree
  have hpick : (tree.version.pickCompaction smallMemtables).map (fun job =>
      ((tree.compact smallMemtables job).2, (execute (LsmTree.exec smallMemtables)
        (tree.compact smallMemtables job).1 [.insert 3 [1] [9], .flushMemtable fun _ => 9]).2.version.levels.map
          List.length)) = some (.ok (), [1, 1]) := by decide +kernel
  obtain ⟨job, hjob, hdone⟩ := Option.map_eq_some_iff.mp hpick
  have hmoves := LsmTree.moves_of_run (run_execute (LsmTree.exec smallMemtables) (.new smallMemtables) committedCalls)
  refine ⟨job, .inl hjob, congrArg Prod.fst hdone, by decide +kernel, congrArg Prod.snd hdone, ?_⟩
  exact wellFormed_of_moves (((hmoves.tail (.inr ⟨job, .inl hjob, rfl⟩)).tail
    (.inl ⟨.insert 3 [1] [9], rfl⟩)).tail (.inl ⟨.flushMemtable fun _ => 9, rfl⟩))

theorem LsmTree.redundant_of_uncommitted
    (h : ∀ f ∈ tree.version.files, ∀ e ∈ f.contents.entries, ∀ v ∈ e.chain, v.commitLsn = none)
    {files : List FileMetadata} : tree.Redundant files := by
  intro k s _
  have hnone : ∀ version : TreeVersion, (∀ f ∈ version.files, f ∈ tree.version.files) →
      shows (filesChain (version.filesFor k) k) s = none := by
    intro version hsub
    refine shows_of_uncommitted fun v hv => ?_
    obtain ⟨f, hf, hv⟩ := mem_flatMap.mp hv
    obtain ⟨e, he, hv⟩ := f.contents.mem_chain hv
    exact h f (hsub f (mem_filesFor hf)) e he v hv
  have hsub : ∀ f ∈ (tree.version.without (files.map FileMetadata.id)).files,
      f ∈ tree.version.files := by
    intro f hf
    obtain ⟨l, hl, hf⟩ := mem_flatten.mp hf
    obtain ⟨l₀, hl₀, rfl⟩ := mem_map.mp hl
    exact mem_flatten.mpr ⟨l₀, hl₀, mem_of_mem_filter hf⟩
  rw [hnone _ hsub, hnone _ fun f hf => hf]

/-- Two files of the first level, without a commit. -/
def uncommittedCalls : List LsmCall :=
  [.insert 1 [1] [5], .flushMemtable fun _ => 7, .insert 2 [2] [6], .flushMemtable fun _ => 8]

end NanoStore.Lsm
