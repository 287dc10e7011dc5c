import Mathlib.Data.List.TakeWhile
import NanoStore.Common.SortedMap
import NanoStore.Pager.Runs
import NanoStore.Table.Reference
/-!
# The append log

`AppendLog` of `table/appendlog/mod.rs`: segments of appended entries, and
an index with a version chain for each key. A read looks at the index
only. `vacuum` cuts every chain at the first version below its newest one
that is committed below the watermark, gives up the immutable segments of
which no entry has a version left that is uncommitted or committed at the
watermark or later, and drops the entries of every segment that is gone.

The version a snapshot at the watermark reads is committed at or below the
watermark, so it is the one that is cut, or dropped with its segment. What
must hold for nothing to be lost is said for each entry
(`vacuum_preserves_iff`).
-/

namespace NanoStore.Table

open Steps Txn List Version SortedMap

abbrev SegmentId := ℕ

/-- What the table knows of a segment. -/
structure SegmentMetadata where
  createdAt : ℕ
  entryCount : ℕ
  size : ℕ
  firstPageId : ℕ
  lastPageId : ℕ
  deriving DecidableEq

/-- A segment: its pages, and what is not yet on a page. -/
structure Segment where
  id : SegmentId
  metadata : SegmentMetadata
  flushedPages : List ℕ
  writeBuffer : Bytes
  deriving DecidableEq

/-- What the index of an `AppendLog` has for a key. -/
structure LogEntry where
  segmentId : SegmentId
  offset : ℕ
  chain : VersionChain
  deriving DecidableEq

/-- The state behind the lock of the table. -/
structure AppendLogState where
  activeSegment : Segment
  immutableSegments : SortedMap SegmentId Segment
  index : SortedMap Key LogEntry
  nextSegmentId : SegmentId
  entryCount : ℕ
  totalSize : ℕ

/-- `AppendLog`: a pager and the state. -/
structure AppendLog where
  pager : Pager.State
  rootPageId : ℕ
  state : AppendLogState

/-- The errors of an append log: each is a `TableError::Other` with a text of its own. -/
inductive AppendLogError
  | freeSegmentPage (pageId : ℕ) (cause : Pager.PagerError)
  | freeFirstPage (pageId : ℕ) (cause : Pager.PagerError)
  | metadataTooLarge (size maxMetadata : ℕ)
  | writeMetadata (rootPageId : ℕ) (cause : Pager.PagerError)
  deriving DecidableEq

/-! ## Chains -/

namespace VersionChain

/-- `vacuum_chain`: the chain it leaves and the number of versions it reports as removed. Nothing is
looked at behind the first version that is removed. -/
def vacuumChain (minVisibleLsn : ℕ) : VersionChain → VersionChain × ℕ
  | [] => ([], 0)
  | [v] => ([v], 0)
  | v :: prev :: older =>
    if prev.obsolete minVisibleLsn then ([v], 1) else
      let (kept, removed) := vacuumChain minVisibleLsn (prev :: older)
      (v :: kept, removed)

/-- `has_visible_version`: some version is uncommitted, or committed at the watermark or later. -/
def hasVisibleVersion (minVisibleLsn : ℕ) (chain : VersionChain) : Bool :=
  chain.any fun v => !v.obsolete minVisibleLsn

/-- What a read shows of a chain: an empty value is a deletion. -/
def shown (s : ℕ) (chain : VersionChain) : Option Bytes := hideEmpty (shows chain s)

end VersionChain

open VersionChain

/-! ## Reading and vacuuming -/

namespace AppendLog

variable (env : Pager.Surroundings) (encode : AppendLogState → Bytes) (log : AppendLog)

/-- `get_snapshot`, to which an empty value is none. -/
def getSnapshot (key : Key) (snapshot : Snapshot) : Option Bytes :=
  hideEmpty ((log.state.index.lookup key).bind fun entry => findVisibleInline snapshot entry.chain)

/-- `persist_metadata`; `encode` is the JSON text of the state. -/
def persistMetadata : Outcome AppendLog AppendLogError Unit :=
  let metadata := encode log.state
  let maxMetadata := Pager.PageSize.default.dataSize
  if maxMetadata < metadata.length then (log, .error (.metadataTooLarge metadata.length maxMetadata))
  else
    let page := { Pager.Page.new log.rootPageId .lsmMeta with data := metadata }
    match log.pager.writePage env page with
    | (pager, .ok ()) => ({ log with pager := pager }, .ok ())
    | (pager, .error e) => ({ log with pager := pager }, .error (.writeMetadata log.rootPageId e))

/-- A page is given back to the pager. -/
def freePage (failure : ℕ → Pager.PagerError → AppendLogError) (log : AppendLog) (pageId : ℕ) :
    Outcome AppendLog AppendLogError Unit :=
  match log.pager.freePage env pageId with
  | (pager, .ok ()) => ({ log with pager := pager }, .ok ())
  | (pager, .error e) => ({ log with pager := pager }, .error (failure pageId e))

/-- The pages of a segment are given back; its first page is none of the flushed ones, or is given back
with them. -/
def freeSegmentPages (segment : Segment) (log : AppendLog) : Outcome AppendLog AppendLogError Unit :=
  andThen (forEach (freePage env .freeSegmentPage) log segment.flushedPages) fun log _ =>
    if segment.metadata.firstPageId ∈ segment.flushedPages then (log, .ok ())
    else freePage env .freeFirstPage log segment.metadata.firstPageId

/-- An immutable segment is removed and its pages are given back. -/
def removeSegment (log : AppendLog) (e : SegmentId × Segment) : Outcome AppendLog AppendLogError Unit :=
  freeSegmentPages env e.2
    { log with state := { log.state with immutableSegments := log.state.immutableSegments.erase e.1 } }

/-- The segments of which some entry has a visible version. -/
def segmentsWithVisibleData (minVisibleLsn : ℕ) (index : SortedMap Key LogEntry) : List SegmentId :=
  (index.entries.filter fun e => hasVisibleVersion minVisibleLsn e.2.chain).map fun e => e.2.segmentId

/-- The immutable segments without visible data. The source lists their ids and takes each segment from
the map as its turn comes. -/
def segmentsToRemove (minVisibleLsn : ℕ) (state : AppendLogState) : List (SegmentId × Segment) :=
  state.immutableSegments.entries.filter fun e =>
    e.1 ∉ segmentsWithVisibleData minVisibleLsn state.index

/-- Every chain of an index is vacuumed. -/
def vacuumIndex (minVisibleLsn : ℕ) (index : SortedMap Key LogEntry) : SortedMap Key LogEntry :=
  index.mapValues fun entry =>
    { entry with chain := (vacuumChain minVisibleLsn entry.chain).1 }

/-- The log with its chains vacuumed. -/
def cutChains (minVisibleLsn : ℕ) : AppendLog :=
  { log with state := { log.state with index := vacuumIndex minVisibleLsn log.state.index } }

/-- The entries of segments that still exist. -/
def retainEntries (state : AppendLogState) : AppendLogState :=
  { state with
    index := state.index.retain fun e =>
      (state.immutableSegments.lookup e.2.segmentId).isSome || e.2.segmentId = state.activeSegment.id }

/-- `vacuum`. If a page cannot be given back, the segments removed so far stay removed, the chains stay
cut, and no entry is dropped. -/
def vacuum (minVisibleLsn : ℕ) : Outcome AppendLog AppendLogError ℕ :=
  let totalRemoved := (log.state.index.entries.map fun e =>
    (vacuumChain minVisibleLsn e.2.chain).2).sum
  let log := log.cutChains minVisibleLsn
  andThen (forEach (removeSegment env) log (segmentsToRemove minVisibleLsn log.state)) fun log _ =>
    andThen ({ log with state := retainEntries log.state }.persistMetadata env encode) fun log _ =>
      (log, .ok totalRemoved)

end AppendLog

/-! ## What a chain shows -/

namespace VersionChain

variable {w s : ℕ} {v : Version} {chain older : VersionChain}

theorem shown_eq :
    shown s chain = (chain.find? (visible (.atLsn s))).bind recorded := by
  rw [shown, shows_eq]
  cases chain.find? (visible (.atLsn s)) with
  | none => rfl
  | some v =>
    simp only [Option.bind_some, recorded]
    cases v.value with
    | inline data => cases data <;> rfl
    | external ref => rfl

theorem visible_of_obsolete (hobs : v.obsolete w = true) (hs : w ≤ s) : v.visible (.atLsn s) = true := by
  unfold obsolete at hobs
  split at hobs
  · rename_i lsn hlsn
    have hlt : lsn < w := of_decide_eq_true hobs
    have hle : lsn ≤ s := by omega
    simp [visible, hlsn, hle]
  · cases hobs

theorem visible_mono (hvis : v.visible (.atLsn w) = true) (hs : w ≤ s) : v.visible (.atLsn s) = true := by
  unfold visible at hvis ⊢
  split at hvis
  · rename_i lsn hlsn
    rw [Snapshot.isVisible_atLsn, decide_eq_true_iff] at hvis ⊢
    omega
  · cases hvis

/-! ## Cutting a chain -/

/-- The versions that are not cut: the newest one and those before the first obsolete one behind it. -/
def kept (w : ℕ) : VersionChain → VersionChain
  | [] => []
  | v :: older => v :: older.takeWhile fun u => !u.obsolete w

theorem vacuumChain_eq : (vacuumChain w chain).1 = kept w chain := by
  induction chain with
  | nil => rfl
  | cons v older ih =>
    cases older with
    | nil => rfl
    | cons prev older =>
      rw [vacuumChain, kept]
      by_cases hobs : prev.obsolete w = true
      · rw [if_pos hobs, takeWhile_cons_of_neg (by simp [hobs])]
      · rw [if_neg hobs, takeWhile_cons_of_pos (by simp [hobs])]
        exact congrArg (v :: ·) ih

/-- **What a cut does no harm to**: the first version that is cut is a deletion, or a version that is kept is
committed at the watermark or earlier. -/
def CutHarmless (w : ℕ) (chain : VersionChain) : Prop :=
  ∀ cut ∈ chain.tail.find? (obsolete w), recorded cut = none ∨ ∃ v ∈ kept w chain, v.visible (.atLsn w) = true

/-- The versions a chain is made of: the kept ones, the first that is cut, and what is behind it. -/
theorem split_of_cut {cut : Version} (hcut : chain.tail.find? (obsolete w) = some cut) :
    ∃ rest, chain = kept w chain ++ cut :: rest := by
  cases chain with
  | nil => cases hcut
  | cons v older =>
    obtain ⟨hobs, front, rest, rfl, hfront⟩ := find?_eq_some_iff_append.mp hcut
    refine ⟨rest, ?_⟩
    have htake : (front ++ cut :: rest).takeWhile (fun u => !u.obsolete w) = front := by
      rw [takeWhile_append_of_pos hfront, takeWhile_cons_of_neg (by simp [hobs]), append_nil]
    rw [kept, htake, cons_append]

theorem kept_of_no_cut (hcut : chain.tail.find? (obsolete w) = none) : kept w chain = chain := by
  cases chain with
  | nil => rfl
  | cons v older =>
    have hall : older.takeWhile (fun u => !u.obsolete w) = older := by
      refine takeWhile_eq_self_iff.mpr fun u hu => ?_
      simpa using find?_eq_none.mp hcut u hu
    rw [kept, hall]

/-- **A cut changes no read from the watermark on exactly if it is harmless.** -/
theorem shown_vacuumChain_iff :
    (∀ s, w ≤ s → shown s (vacuumChain w chain).1 = shown s chain) ↔ CutHarmless w chain := by
  rw [vacuumChain_eq]
  cases hcut : chain.tail.find? (obsolete w) with
  | none =>
    rw [kept_of_no_cut hcut, CutHarmless, hcut]
    simp
  | some cut =>
    obtain ⟨rest, hsplit⟩ := split_of_cut hcut
    have hobs : cut.obsolete w = true := find?_some hcut
    -- a snapshot that sees nothing of what is kept sees the version that is cut
    have hlost : ∀ s, w ≤ s → (kept w chain).find? (visible (.atLsn s)) = none →
        shown s (kept w chain) = none ∧ shown s chain = recorded cut := by
      intro s hs hnone
      refine ⟨by rw [shown_eq, hnone]; rfl, ?_⟩
      rw [shown_eq, hsplit, find?_append, hnone, Option.none_or,
        find?_cons_of_pos (visible_of_obsolete hobs hs)]
      rfl
    constructor
    · intro hsame cut' hcut'
      obtain rfl : cut = cut' := Option.some.inj (hcut.symm.trans hcut')
      cases hfind : (kept w chain).find? (visible (.atLsn w)) with
      | some v => exact .inr ⟨v, mem_of_find?_eq_some hfind, find?_some hfind⟩
      | none =>
        obtain ⟨hkept, hchain⟩ := hlost w le_rfl hfind
        exact .inl (hchain.symm.trans ((hsame w le_rfl).symm.trans hkept))
    · intro hharmless s hs
      cases hfind : (kept w chain).find? (visible (.atLsn s)) with
      | some v =>
        have hchain : chain.find? (visible (.atLsn s)) = some v := by
          rw [hsplit, find?_append, hfind, Option.some_or]
        rw [shown_eq, shown_eq, hfind, hchain]
      | none =>
        obtain ⟨hkept, hchain⟩ := hlost s hs hfind
        rcases hharmless cut hcut with hdeletes | ⟨v, hv, hvis⟩
        · rw [hkept, hchain, hdeletes]
        · exact absurd (visible_mono hvis hs) (find?_eq_none.mp hfind v hv)

/-- Nothing visible is left of a chain: its newest version is obsolete, and so is the next one, if there is
one. -/
def stale (w : ℕ) (chain : VersionChain) : Bool :=
  chain.head?.all (obsolete w) && chain.tail.head?.all (obsolete w)

theorem hasVisibleVersion_vacuumChain :
    hasVisibleVersion w (vacuumChain w chain).1 = !stale w chain := by
  rw [vacuumChain_eq, hasVisibleVersion]
  cases chain with
  | nil => rfl
  | cons v older =>
    cases older with
    | nil => simp [kept, stale]
    | cons prev older =>
      by_cases hobs : prev.obsolete w = true
      · simp [kept, stale, hobs]
      · simp [kept, stale, hobs]

/-- Nothing is read of the key from the watermark on. -/
def Gone (w : ℕ) (chain : VersionChain) : Prop := ∀ s, w ≤ s → shown s chain = none

end VersionChain

/-! ## What a vacuum keeps -/

namespace AppendLog

variable {env : Pager.Surroundings} {encode : AppendLogState → Bytes} {log : AppendLog} {w : ℕ}

/-- The pages of a segment, each once. -/
def segmentPages (segment : Segment) : List ℕ :=
  if segment.metadata.firstPageId ∈ segment.flushedPages then segment.flushedPages
  else segment.flushedPages ++ [segment.metadata.firstPageId]

def staleSegments (w : ℕ) (state : AppendLogState) : List (SegmentId × Segment) :=
  state.immutableSegments.entries.filter fun e =>
    state.index.entries.all fun e' => e'.2.segmentId ≠ e.1 || stale w e'.2.chain

/-- The pager gives the pages of all stale segments back. -/
def Frees (env : Pager.Surroundings) (w : ℕ) (log : AppendLog) : Prop :=
  (forEach (Pager.State.freePage env) log.pager
    ((staleSegments w log.state).flatMap fun e => segmentPages e.2)).2.isOk = true

/-- **The entries that are dropped**: those of a segment other than the active one that is not there, or is
stale, when the pages of the stale segments could be given back. -/
def Drops (env : Pager.Surroundings) (w : ℕ) (log : AppendLog) (entry : LogEntry) : Prop :=
  entry.segmentId ≠ log.state.activeSegment.id ∧ log.Frees env w ∧
    (log.state.immutableSegments.lookup entry.segmentId = none ∨
      ∀ e ∈ log.state.index.entries, e.2.segmentId = entry.segmentId → stale w e.2.chain = true)

/-! ### Pages -/

/-- The log works on the pager, and its segments and its index are those of a state. -/
def On (state : AppendLogState) (log : AppendLog) (pager : Pager.State) : Prop :=
  log.pager = pager ∧ log.state = state

variable {state : AppendLogState} {pager : Pager.State}

theorem freePage_together (failure : ℕ → Pager.PagerError → AppendLogError) (pageId : ℕ)
    (h : On state log pager) :
    Together (On state) (freePage env failure log pageId) (pager.freePage env pageId) := by
  obtain ⟨rfl, rfl⟩ := h
  rw [freePage]
  obtain ⟨pager, e | ⟨⟩⟩ := log.pager.freePage env pageId
  · exact ⟨⟨rfl, rfl⟩, rfl⟩
  · exact ⟨⟨rfl, rfl⟩, rfl⟩

theorem freeSegmentPages_together (env : Pager.Surroundings) (segment : Segment) (h : On state log pager) :
    Together (On state) (freeSegmentPages env segment log)
      (forEach (Pager.State.freePage env) pager (segmentPages segment)) := by
  have hflushed : Together (On state) (forEach (freePage env .freeSegmentPage) log segment.flushedPages)
      (forEach (Pager.State.freePage env) pager segment.flushedPages) :=
    Together.forEach (fun log pager pageId h => freePage_together .freeSegmentPage pageId h) h _
  rw [freeSegmentPages, segmentPages]
  by_cases hfst : segment.metadata.firstPageId ∈ segment.flushedPages
  · rw [if_pos hfst, ← andThen_done (forEach (Pager.State.freePage env) pager segment.flushedPages)]
    refine hflushed.andThen fun log pager _ _ h => ?_
    rw [if_pos hfst]
    exact ⟨h, rfl⟩
  · rw [if_neg hfst, forEach_append]
    refine hflushed.andThen fun log pager _ _ h => ?_
    rw [if_neg hfst, forEach_singleton]
    exact freePage_together .freeFirstPage _ h

variable (env log) in
theorem removeSegment_state (e : SegmentId × Segment) : (removeSegment env log e).1.state =
    { log.state with immutableSegments := log.state.immutableSegments.erase e.1 } :=
  (freeSegmentPages_together env e.2 ⟨rfl, rfl⟩).1.2

/-! ### Segments and entries -/

variable (env log) in
theorem state_of_removeSegments (es : List (SegmentId × Segment))
    (hok : (forEach (removeSegment env) log es).2.isOk = true) :
    (forEach (removeSegment env) log es).1.state =
      { log.state with
        immutableSegments := es.foldl (fun m e => m.erase e.1) log.state.immutableSegments } := by
  induction es generalizing log with
  | nil => rfl
  | cons e es ih =>
    have hstate := removeSegment_state env log e
    rw [forEach_cons] at hok ⊢
    cases hfst : removeSegment env log e with
    | mk log' r =>
      rw [hfst] at hok hstate
      cases r with
      | error err => exact absurd hok Bool.false_ne_true
      | ok _ =>
        rw [andThen_ok] at hok ⊢
        rw [ih _ hok, hstate]
        rfl

variable (env log) in
theorem index_of_removeSegments (es : List (SegmentId × Segment)) :
    (forEach (removeSegment env) log es).1.state.index = log.state.index := by
  refine forEach_fst (P := fun log' : AppendLog => log'.state.index = log.state.index) (fun log' e _ h => ?_) rfl
  rw [removeSegment_state]
  exact h

theorem lookup_foldl_erase (es : List (SegmentId × Segment)) (m : SortedMap SegmentId Segment)
    (id : SegmentId) :
    (es.foldl (fun m e => m.erase e.1) m).lookup id = if id ∈ es.map Prod.fst then none else m.lookup id := by
  induction es generalizing m with
  | nil => rw [foldl_nil, map_nil, if_neg not_mem_nil]
  | cons e es ih =>
    rw [foldl_cons, ih, lookup_erase, map_cons]
    simp only [mem_cons]
    by_cases hlater : id ∈ es.map Prod.fst
    · rw [if_pos hlater, if_pos (.inr hlater)]
    · rw [if_neg hlater]
      simp [hlater, or_false]

theorem segmentsToRemove_cutChains :
    segmentsToRemove w (log.cutChains w).state = staleSegments w log.state := by
  rw [segmentsToRemove, staleSegments]
  refine filter_congr fun e _ => ?_
  have hvis : ∀ e' : Key × LogEntry, hasVisibleVersion w (vacuumChain w e'.2.chain).1 =
        !stale w e'.2.chain := fun e' => hasVisibleVersion_vacuumChain
  rw [Bool.eq_iff_iff, decide_eq_true_iff, all_eq_true]
  simp only [segmentsWithVisibleData, cutChains, vacuumIndex, mapValues, mem_map, mem_filter]
  constructor
  · intro hnot e' he'
    by_contra hcontra
    simp only [Bool.or_eq_true, decide_eq_true_iff, not_or, not_not, Bool.not_eq_true] at hcontra
    refine hnot ⟨_, ⟨⟨e', he', rfl⟩, ?_⟩, hcontra.1⟩
    rw [hvis, hcontra.2]
    rfl
  · rintro hall ⟨_, ⟨⟨e', he', rfl⟩, hseen⟩, hseg⟩
    have hstale := hall e' he'
    rw [hvis, Bool.not_eq_true'] at hseen
    rw [hseen, Bool.or_false, decide_eq_true_iff] at hstale
    exact hstale hseg

theorem isOk_removeSegments (es : List (SegmentId × Segment)) :
    (forEach (removeSegment env) log es).2.isOk =
      (forEach (Pager.State.freePage env) log.pager (es.flatMap fun e => segmentPages e.2)).2.isOk := by
  rw [forEach_flatMap]
  refine (Together.forEach (R := fun log pager => log.pager = pager) (fun log pager e h => ?_) rfl es).2
  have hpages := freeSegmentPages_together env e.2
    (⟨h, rfl⟩ : On _ { log with state := { log.state with
      immutableSegments := log.state.immutableSegments.erase e.1 } } pager)
  exact ⟨hpages.1.1, hpages.2⟩

variable (env encode log) in
theorem persistMetadata_state :
    (log.persistMetadata env encode).1.state = log.state := by
  rw [persistMetadata]
  split_ifs
  · rfl
  · dsimp only
    split
    · rfl
    · rfl

variable (env encode log w) in
/-- The two parts of a vacuum: the segments are removed, and then the entries without a segment. -/
theorem vacuum_cases :
    (¬ log.Frees env w ∧ (log.vacuum env encode w).1.state.index = vacuumIndex w log.state.index) ∨
      (log.Frees env w ∧ (log.vacuum env encode w).1.state = retainEntries { (log.cutChains w).state with
        immutableSegments := (staleSegments w log.state).foldl (fun m e => m.erase e.1)
          log.state.immutableSegments }) := by
  have hfrees : (forEach (removeSegment env) (log.cutChains w) (staleSegments w log.state)).2.isOk = true ↔
      log.Frees env w := by rw [isOk_removeSegments, Frees, cutChains]
  have hindex := index_of_removeSegments env (log.cutChains w) (staleSegments w log.state)
  have hstate := fun hok => state_of_removeSegments env (log.cutChains w) (staleSegments w log.state) hok
  rw [vacuum, segmentsToRemove_cutChains, ← hfrees]
  cases hloop : forEach (removeSegment env) (log.cutChains w) (staleSegments w log.state) with
  | mk log' r =>
    rw [hloop] at hindex hstate
    cases r with
    | error e => exact .inl ⟨Bool.false_ne_true, hindex⟩
    | ok _ =>
      refine .inr ⟨rfl, ?_⟩
      have hpersist := persistMetadata_state env encode { log' with state := retainEntries log'.state }
      rw [andThen_ok]
      refine andThen_fst (P := fun log : AppendLog => log.state = _) ?_ fun _ _ _ h => h
      rw [hpersist, hstate rfl]
      rfl

theorem mem_staleSegments {id : SegmentId} :
    id ∈ (staleSegments w log.state).map Prod.fst ↔ (log.state.immutableSegments.lookup id).isSome ∧
      ∀ e ∈ log.state.index.entries, e.2.segmentId = id → stale w e.2.chain = true := by
  rw [staleSegments, mem_map, Option.isSome_iff_exists]
  constructor
  · rintro ⟨⟨id', segment⟩, he, rfl⟩
    obtain ⟨hmem, hall⟩ := mem_filter.mp he
    refine ⟨⟨segment, lookup_eq_some.mpr hmem⟩, fun e he hseg => ?_⟩
    have hstale := all_eq_true.mp hall e he
    simpa [hseg] using hstale
  · rintro ⟨⟨segment, hseg⟩, hall⟩
    refine ⟨(id, segment), mem_filter.mpr ⟨lookup_eq_some.mp hseg, ?_⟩, rfl⟩
    refine all_eq_true.mpr fun e he => ?_
    by_cases heq : e.2.segmentId = id
    · simp [hall e he heq]
    · simp [heq]

variable {entry : LogEntry}

theorem stays_iff (hfrees : log.Frees env w) : ((((staleSegments w log.state).foldl (fun m e => m.erase e.1)
    log.state.immutableSegments).lookup entry.segmentId).isSome = true ∨
      entry.segmentId = log.state.activeSegment.id) ↔ ¬ log.Drops env w entry := by
  rw [lookup_foldl_erase, Drops]
  by_cases hstale : entry.segmentId ∈ (staleSegments w log.state).map Prod.fst
  · have hall := (mem_staleSegments.mp hstale).2
    rw [if_pos hstale, Option.isSome_none, or_iff_right Bool.false_ne_true]
    constructor
    · exact fun hact hdrops => hdrops.1 hact
    · intro hstays
      by_contra hact
      exact hstays ⟨hact, hfrees, .inr hall⟩
  · rw [if_neg hstale]
    rw [mem_staleSegments] at hstale
    rw [← Option.not_isSome_iff_eq_none]
    tauto

variable {key : Key}

variable (env encode w) in
open Classical in
/-- **What a vacuum leaves of an entry**: nothing if it is dropped, and otherwise its chain is cut. -/
theorem lookup_vacuum (h : log.state.index.lookup key = some entry) :
    (log.vacuum env encode w).1.state.index.lookup key =
      if log.Drops env w entry then none else some { entry with chain := (vacuumChain w entry.chain).1 } := by
  have hcut : (vacuumIndex w log.state.index).lookup key =
      some { entry with chain := (vacuumChain w entry.chain).1 } := by
    rw [vacuumIndex, lookup_mapValues, h, Option.map_some]
  rcases vacuum_cases env encode log w with ⟨hfails, hindex⟩ | ⟨hfrees, hstate⟩
  · rw [hindex, hcut, if_neg fun hdrops => hfails hdrops.2.1]
  · rw [hstate, retainEntries, lookup_retain]
    change Option.filter _ ((vacuumIndex w log.state.index).lookup key) = _
    rw [hcut, Option.filter_some]
    by_cases hdrops : log.Drops env w entry
    · rw [if_pos hdrops]
      refine if_neg fun hstays => ?_
      rw [Bool.or_eq_true, decide_eq_true_iff] at hstays
      exact (stays_iff hfrees).mp hstays hdrops
    · rw [if_neg hdrops]
      refine if_pos ?_
      rw [Bool.or_eq_true, decide_eq_true_iff]
      exact (stays_iff hfrees).mpr hdrops

theorem getSnapshot_eq (h : log.state.index.lookup key = some entry) {s : ℕ} :
    log.getSnapshot key (.atLsn s) = shown s entry.chain := by
  rw [getSnapshot, h]
  rfl

theorem getSnapshot_of_none (h : log.state.index.lookup key = none) {snapshot : Snapshot} :
    log.getSnapshot key snapshot = none := by
  rw [getSnapshot, h]
  rfl

theorem lookup_vacuum_of_none (h : log.state.index.lookup key = none) :
    (log.vacuum env encode w).1.state.index.lookup key = none := by
  have hcut : (vacuumIndex w log.state.index).lookup key = none := by
    rw [vacuumIndex, lookup_mapValues, h, Option.map_none]
  rcases vacuum_cases env encode log w with ⟨-, hindex⟩ | ⟨-, hstate⟩
  · rw [hindex, hcut]
  · rw [hstate, retainEntries, lookup_retain]
    change Option.filter _ ((vacuumIndex w log.state.index).lookup key) = _
    rw [hcut, Option.filter_none]

/-- **A vacuum changes no read from the watermark on exactly if** nothing is read of the entries that are
dropped, and the cut is harmless to the others. -/
theorem vacuum_preserves_iff (env : Pager.Surroundings) (encode : AppendLogState → Bytes) (log : AppendLog) (w : ℕ) :
    (∀ key s, w ≤ s →
      (log.vacuum env encode w).1.getSnapshot key (.atLsn s) = log.getSnapshot key (.atLsn s)) ↔
    ∀ key entry, log.state.index.lookup key = some entry →
      (log.Drops env w entry → VersionChain.Gone w entry.chain) ∧
        (¬ log.Drops env w entry → VersionChain.CutHarmless w entry.chain) := by
  constructor
  · intro hsame key entry hent
    have hreads := fun s hs => (hsame key s hs).trans (getSnapshot_eq hent)
    have hlook := lookup_vacuum env encode w hent
    refine ⟨fun hdrops s hs => ?_, fun hstays => ?_⟩
    · rw [if_pos hdrops] at hlook
      rw [← hreads s hs, getSnapshot, hlook]
      rfl
    · rw [if_neg hstays] at hlook
      refine shown_vacuumChain_iff.mp fun s hs => ?_
      rw [← hreads s hs, getSnapshot_eq hlook]
  · intro hall key s hs
    cases hent : log.state.index.lookup key with
    | none => rw [getSnapshot_of_none hent, getSnapshot_of_none (lookup_vacuum_of_none hent)]
    | some entry =>
      obtain ⟨hgone, hharmless⟩ := hall key entry hent
      have hlook := lookup_vacuum env encode w hent
      rw [getSnapshot_eq hent]
      by_cases hdrops : log.Drops env w entry
      · rw [if_pos hdrops] at hlook
        rw [getSnapshot_of_none hlook, hgone hdrops s hs]
      · rw [if_neg hdrops] at hlook
        rw [getSnapshot_eq hlook]
        exact shown_vacuumChain_iff.mpr (hharmless hdrops) s hs

/-! ### Scanning -/

/-- The start is behind the end, or one key is excluded at both ends. -/
def inverted : Bound → Bound → Bool
  | .excluded k, .excluded k' => k' ≤ k
  | .included k, .included k' | .included k, .excluded k' | .excluded k, .included k' => k' < k
  | _, _ => false

/-- `scan`: the entries a new `AppendLogCursor` has ahead, from the current one on. It keeps the snapshot and
looks at no version. -/
def scan (log : AppendLog) : ScanBounds → Except (Failure Empty) (List (Key × LogEntry))
  | .all => .ok log.state.index.entries
  | .startingWith p => .ok ((log.state.index.since p).takeWhile fun e => p.isPrefixOf e.1)
  | .range start finish =>
    if log.state.index.rangePanics (inverted start finish) then .error .panicked
    else .ok (log.state.index.entries.filter fun e => start.below e.1 && finish.above e.1)

variable {bounds : ScanBounds}

/-- The scan starts, and its keys are those in bounds of which the snapshot reads something, in ascending
order. -/
def Scans (log : AppendLog) (s : ℕ) (bounds : ScanBounds) : Prop :=
  ∃ ahead, log.scan bounds = .ok ahead ∧ (ahead.map Prod.fst).Pairwise (· < ·) ∧ ∀ key,
    key ∈ ahead.map Prod.fst ↔ bounds.contains key = true ∧ (log.getSnapshot key (.atLsn s)).isSome = true

/-- The range of the index is not refused. -/
def Starts (log : AppendLog) (bounds : ScanBounds) : Prop :=
  ∀ start finish, bounds = .range start finish → log.state.index.rangePanics (inverted start finish) = false

theorem mem_since_takeWhile {m : SortedMap Key LogEntry} {p : Key} (e : Key × LogEntry) :
    e ∈ (m.since p).takeWhile (fun e => p.isPrefixOf e.1) ↔ e ∈ m.entries ∧ p.isPrefixOf e.1 = true := by
  constructor
  · intro he
    exact ⟨(mem_since.mp ((takeWhile_sublist _).subset he)).1, all_eq_true.mp all_takeWhile e he⟩
  · rintro ⟨he, hin⟩
    have hpre : p <+: e.1 := isPrefixOf_iff_prefix.mp hin
    have hle : p ≤ e.1 := Key.le_of_isPrefix hpre
    have hstarts : ∀ e ∈ m.since p, (ScanBounds.startingWith p).starts e.1 = true :=
      fun e he => decide_eq_true (mem_since.mp he).2
    exact ScanBounds.mem_takeWhile (m.ascends.filter _) hstarts (mem_since.mpr ⟨he, hle⟩) hin

/-- **A scan has all entries in bounds ahead.** -/
theorem scan_spec (log : AppendLog) (h : log.Starts bounds) : ∃ ahead, log.scan bounds = .ok ahead ∧
    ahead.Sublist log.state.index.entries ∧
      ∀ e, e ∈ ahead ↔ e ∈ log.state.index.entries ∧ bounds.contains e.1 = true := by
  cases bounds with
  | all => exact ⟨_, rfl, .refl _, fun e => by simp [ScanBounds.contains]⟩
  | startingWith p =>
    exact ⟨_, rfl, (takeWhile_sublist _).trans filter_sublist, mem_since_takeWhile⟩
  | range start finish =>
    refine ⟨_, by rw [scan, h start finish rfl]; rfl, filter_sublist, fun e => mem_filter⟩

/-- **A scan is what the reads are exactly if** it starts and every entry in bounds has something the
snapshot reads. -/
theorem scan_iff (log : AppendLog) (s : ℕ) (bounds : ScanBounds) : log.Scans s bounds ↔ log.Starts bounds ∧
    ∀ e ∈ log.state.index.entries, bounds.contains e.1 = true → (shown s e.2.chain).isSome = true := by
  constructor
  · rintro ⟨ahead, hscan, -, hkeys⟩
    have hstarts : log.Starts bounds := by
      rintro start finish rfl
      by_contra hpanics
      rw [scan, if_pos (Bool.not_eq_false _ ▸ hpanics)] at hscan
      cases hscan
    obtain ⟨ahead', hscan', -, hmem⟩ := log.scan_spec hstarts
    cases hscan.symm.trans hscan'
    refine ⟨hstarts, fun e he hin => ?_⟩
    rw [← getSnapshot_eq (lookup_eq_some.mpr he)]
    exact ((hkeys e.1).mp (mem_map_of_mem ((hmem e).mpr ⟨he, hin⟩))).2
  · rintro ⟨hstarts, hshown⟩
    obtain ⟨ahead, hscan, hsub, hmem⟩ := log.scan_spec hstarts
    refine ⟨ahead, hscan, pairwise_map.mpr (log.state.index.ascends.sublist hsub), fun key => ?_⟩
    rw [mem_map]
    constructor
    · rintro ⟨e, he, rfl⟩
      obtain ⟨he, hin⟩ := (hmem e).mp he
      rw [getSnapshot_eq (lookup_eq_some.mpr he)]
      exact ⟨hin, hshown e he hin⟩
    · rintro ⟨hin, hread⟩
      cases hent : log.state.index.lookup key with
      | none => simp [getSnapshot_of_none hent] at hread
      | some entry => exact ⟨(key, entry), (hmem _).mpr ⟨lookup_eq_some.mp hent, hin⟩, rfl⟩

/-! ### Values that are lost -/

/-- A segment with nothing flushed. -/
def freshSegment (id : SegmentId) (firstPageId : ℕ) : Segment := ⟨id, ⟨0, 0, 0, firstPageId, firstPageId⟩, [], []⟩

/-- A key written at 5 and again at 20, in the active segment. -/
def writtenTwice (pager : Pager.State) : AppendLog where
  pager := pager
  rootPageId := 2
  state := ⟨freshSegment 0 3, .empty,
    empty.insert [1] ⟨0, 20, [⟨.inline [8], 2, some 20⟩, ⟨.inline [7], 1, some 5⟩]⟩, 1, 2, 4⟩

/-- **A scan at 3 yields a key that was first written at 5.** -/
theorem scan_yields_unseen : ∃ pager, ¬ (writtenTwice pager).Scans 3 .all := by
  obtain ⟨-, pager, -⟩ := @Pager.State.allocate_first .plain (Pager.State.smallConfig .none none) rfl
  refine ⟨pager, ?_⟩
  rintro ⟨ahead, hscan, -, hkeys⟩
  cases hscan
  have hread : ((writtenTwice pager).getSnapshot [1] (.atLsn 3)).isSome = true :=
    ((hkeys [1]).mp mem_cons_self).2
  cases hread

/-- A key written at 5, in a segment that is immutable by now. -/
def writtenLongAgo (pager : Pager.State) : AppendLog where
  pager := pager
  rootPageId := 3
  state := ⟨freshSegment 1 4, empty.insert 0 (freshSegment 0 2),
    empty.insert [1] ⟨0, 0, [⟨.inline [7], 1, some 5⟩]⟩, 2, 1, 2⟩

/-- **A vacuum at 10 loses what a snapshot at 15 reads**: the value that is cut off behind one committed at
20, and the only value of a key, with its segment. -/
theorem vacuum_loses_values :
    (∀ env encode pager, (writtenTwice pager).getSnapshot [1] (.atLsn 15) = some [7] ∧
      ((writtenTwice pager).vacuum env encode 10).1.getSnapshot [1] (.atLsn 15) = none) ∧
    ∃ pager, ∀ encode, (writtenLongAgo pager).getSnapshot [1] (.atLsn 15) = some [7] ∧
      ((writtenLongAgo pager).vacuum .plain encode 10).1.getSnapshot [1] (.atLsn 15) = none := by
  constructor
  · intro env encode pager
    have hent : (writtenTwice pager).state.index.lookup [1] =
        some ⟨0, 20, [⟨.inline [8], 2, some 20⟩, ⟨.inline [7], 1, some 5⟩]⟩ := rfl
    have hstays : ¬ (writtenTwice pager).Drops env 10 ⟨0, 20, [⟨.inline [8], 2, some 20⟩,
        ⟨.inline [7], 1, some 5⟩]⟩ := fun hdrops => hdrops.1 rfl
    have hlook := lookup_vacuum env encode 10 hent
    rw [if_neg hstays] at hlook
    refine ⟨?_, ?_⟩
    · rw [getSnapshot_eq hent]
      rfl
    · rw [getSnapshot_eq hlook]
      rfl
  · -- the first page of a new file is page 2, and it can be given back
    obtain ⟨s₀, pager, hcreate, hrun, -⟩ :=
      Pager.State.allocate_first (Pager.State.smallConfig .none none) rfl
    obtain ⟨pager', hfree, -⟩ := (Pager.State.consistent_of_run hcreate hrun).freePage_live (v := 2) rfl (by decide)
    refine ⟨pager, fun encode => ?_⟩
    have hent : (writtenLongAgo pager).state.index.lookup [1] =
        some ⟨0, 0, [⟨.inline [7], 1, some 5⟩]⟩ := rfl
    have hfrees : (writtenLongAgo pager).Frees .plain 10 := by
      show (forEach (Pager.State.freePage .plain) pager [2]).2.isOk = true
      rw [forEach_singleton, hfree]
      rfl
    have hdrops : (writtenLongAgo pager).Drops .plain 10 ⟨0, 0, [⟨.inline [7], 1, some 5⟩]⟩ := by
      refine ⟨Nat.zero_ne_one, hfrees, .inr fun e he _ => ?_⟩
      obtain rfl : e = ([1], ⟨0, 0, [⟨.inline [7], 1, some 5⟩]⟩) := mem_singleton.mp he
      rfl
    have hlook := lookup_vacuum .plain encode 10 hent
    rw [if_pos hdrops] at hlook
    refine ⟨?_, getSnapshot_of_none hlook⟩
    rw [getSnapshot_eq hent]
    rfl

end AppendLog

end NanoStore.Table
