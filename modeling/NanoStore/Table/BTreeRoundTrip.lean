import NanoStore.Table.BTreeDisk
/-!
# The paged B-tree — values put and read back

`PagedBTreeWriter`: a put is buffered, a flush applies the buffered
changes, and the versions are stamped when the transaction commits. Before
a change is applied the pages that the old value refers to are freed, and
whether it refers to pages is read off its bytes.

Every byte string is accepted. The empty one reads as a deletion, one that
has the form of a reference reads as what its pages hold, `get_stream`
takes every value that begins with the tag of a reference for one, and a
value that makes its leaf outgrow the page is read as long as the page
cache keeps the leaf.
-/

namespace NanoStore.Table

open Wal Steps Txn List

/-! ## Freeing pages -/

namespace Volume

variable (codec : PageCodec) (vol : Volume)

/-- `free_page`; its check reads the slot, not the cache. -/
def freePage (page : PageId) : Outcome Volume PagerError Unit :=
  if page = 0 ∨ page = 1 then (vol, .error (.invalidPageId page))
  else if page ∈ vol.file.freed then (vol, .error (.pageAlreadyFree page))
  else match vol.readPage codec page with
    | .error e => (vol, .error e)
    | .ok raw =>
      if raw.pageType = .free ∨ raw.pageType = .freeList then
        (vol, .error (.pageAlreadyFree page))
      else ({ vol with file := vol.file.freePage page }, .ok ())

/-- The loop of `free_overflow_chain`, for at most `fuel` pages. -/
def freeOverflowChainFrom : ℕ → Volume → PageId → Outcome Volume PagerError Unit
  | 0, vol, _ => (vol, .error .endless)
  | fuel + 1, vol, page =>
    match vol.readOverflowHeader codec page with
    | .error e => (vol, .error e)
    | .ok (_, header) =>
      andThen (vol.freePage codec page) fun vol _ =>
        match header.next with
        | none => (vol, .ok ())
        | some next => freeOverflowChainFrom fuel vol next

/-- `free_value_ref`: the pages of a value are freed. -/
def freeValueRef : ValueRef → Outcome Volume PagerError Unit
  | .inline => (vol, .ok ())
  | .singlePage pageId _ _ => vol.freePage codec pageId
  | .overflowChain firstPageId _ _ =>
    freeOverflowChainFrom codec (vol.file.nextPage + 1) vol firstPageId

end Volume

/-! ## The writer -/

/-- `PendingChange`, but for the values `put_stream` has written to pages of their own. -/
inductive PendingChange
  | inline (key : Key) (value : Bytes)
  | delete (key : Key)
  deriving DecidableEq

/-- `PagedBTreeWriter`. -/
structure BTreeWriter where
  txId : TransactionId
  snapshotLsn : ℕ
  pendingChanges : List PendingChange

namespace PendingChange

def key : PendingChange → Key
  | .inline key _ => key
  | .delete key => key

/-- The call on the tree that applies the change. -/
def toTreeCall (txId : TransactionId) : PendingChange → TreeCall
  | .inline key value => .insert txId key value
  | .delete key => .delete txId key

end PendingChange

namespace BTreeTable

variable (cfg : BTreeConfig) (codec : PageCodec) (table : BTreeTable)

/-- `get_stream` and its stream read to the end, with a buffer of `room` bytes. -/
def getStreamed (room : ℕ) (key : Key) (snapshotLsn : ℕ) : Except TableError (Option Bytes) :=
  table.volume.getStreamed codec room table.root key snapshotLsn

/-- The pages the old value of a key refers to are freed. -/
def releaseOld (key : Key) (snapshotLsn : ℕ) : Outcome Volume TableError Unit :=
  match table.get codec key snapshotLsn with
  | .error e => (table.volume, .error e)
  | .ok none => (table.volume, .ok ())
  | .ok (some oldValue) =>
    if isExternalValue oldValue then
      match ValueRef.decode oldValue with
      | .error e => (table.volume, .error (.invalidValueRef s!"Failed to decode ValueRef: {e.debug}"))
      | .ok ref =>
        match table.volume.freeValueRef codec ref with
        | (vol, .error e) => (vol, .error (.pager e))
        | (vol, .ok _) => (vol, .ok ())
    else (table.volume, .ok ())

/-- A call on the tree as a step that may fail. -/
def step (call : TreeCall) : Outcome BTreeTable TableError Unit :=
  match table.exec cfg call with
  | (table, .error e) => (table, .error (.tree e))
  | (table, .ok _) => (table, .ok ())

/-- One change of a flush. -/
def applyChange (txId : TransactionId) (snapshotLsn : ℕ) (table : BTreeTable)
    (change : PendingChange) : Outcome BTreeTable TableError Unit :=
  match table.releaseOld codec change.key snapshotLsn with
  | (vol, .error e) => ({ table with volume := vol }, .error e)
  | (vol, .ok _) => { table with volume := vol }.step cfg (change.toTreeCall txId)

end BTreeTable

open BTreeTable

namespace BTreeWriter

variable (cfg : BTreeConfig) (codec : PageCodec) (writer : BTreeWriter) (table : BTreeTable)

/-- `put`, with the size it returns. -/
def put (key : Key) (value : Bytes) : BTreeWriter × ℕ :=
  ({ writer with pendingChanges := writer.pendingChanges ++ [.inline key value] },
    key.length + value.length + 16)

/-- `flush`; the writer has no changes left. -/
def flush : Outcome BTreeTable TableError Unit :=
  forEach (applyChange cfg codec writer.txId writer.snapshotLsn) table writer.pendingChanges

def commitVersions (commitLsn : ℕ) : Outcome BTreeTable TableError Unit :=
  table.step cfg (.commitVersions writer.txId commitLsn)

/-- A put, a flush and a commit. -/
def putFlushCommit (key : Key) (value : Bytes) (commitLsn : ℕ) : Outcome BTreeTable TableError Unit :=
  let writer := (writer.put key value).1
  andThen (writer.flush cfg codec table) fun table _ => writer.commitVersions cfg table commitLsn

end BTreeWriter

/-! ## Reading back -/

namespace BTreeTable

/-- From a position on, `get` and `get_stream` both return the value. -/
def ReadsBack (codec : PageCodec) (table : BTreeTable) (key : Key) (value : Bytes) (lsn : ℕ) :
    Prop :=
  ∀ s, lsn ≤ s → table.get codec key s = .ok (some value) ∧
    ∀ room, 0 < room → table.getStreamed codec room key s = .ok (some value)

end BTreeTable

/-- The bytes are a reference, and the pages they name hold these very bytes, read at once as well
as in pieces. -/
structure Volume.HoldsItself (codec : PageCodec) (vol : Volume) (value : Bytes) : Prop where
  names : NamesPages value
  whole : vol.resolve codec value = .ok value
  pieces : ∀ room, 0 < room → ∀ stream, Volume.streamOf value = .ok stream →
    vol.readToEnd codec room stream = .ok value

/-- The newest version of the key holds the value and was committed at the position. -/
def Newest (entries : List LeafEntry) (key : Key) (value : Bytes) (lsn : ℕ) : Prop :=
  ∃ t older, chainOn entries key = some (⟨.inline value, t, some lsn⟩ :: older)

/-- The call writes no version of the key. -/
def TreeCall.Spares (key : Key) : TreeCall → Prop
  | .insert _ key' _ => key' ≠ key
  | .delete _ key' => key' ≠ key
  | .commitVersions _ _ => True

variable {cfg : BTreeConfig} {codec : PageCodec} {table : BTreeTable} {entries : List LeafEntry}
  {key : Key} {value : Bytes} {lsn s room : ℕ}

section

variable (h : Newest entries key value lsn)
include h

/-- **The newest version stays what it is until the key is written again.** -/
theorem Newest.onEntries (hsort : Ascending entries)
    {call : TreeCall} (hspares : call.Spares key) : Newest (onEntries entries call) key value lsn := by
  obtain ⟨t, older, hchain⟩ := h
  cases call with
  | insert t' key' value' =>
    refine ⟨t, older, ?_⟩
    rw [BTreeTable.onEntries, chainOn_insertEntry hsort, if_neg (Ne.symm hspares), hchain]
  | delete t' key' =>
    refine ⟨t, older, ?_⟩
    rw [BTreeTable.onEntries, chainOn_updateEntry, if_neg (Ne.symm hspares), hchain]
  | commitVersions t' lsn' =>
    refine ⟨t, VersionChain.stamp t' lsn' older, ?_⟩
    rw [BTreeTable.onEntries, chainOn_stampEntries, hchain]
    simp [VersionChain.stamp]

theorem Newest.readOn (hs : lsn ≤ s) :
    readOn entries key s = if value = [] then none else some value := by
  obtain ⟨t, older, hchain⟩ := h
  have hvis : Version.visible (.atLsn s) ⟨.inline value, t, some lsn⟩ = true := by
    simp [Version.visible, hs]
  rw [Table.readOn, hchain, Option.bind_some, shows, VersionChain.findVisibleInline_of_visible hvis]
  cases value with
  | nil | cons b value => rfl

theorem Newest.get (hget : ∀ s, table.get codec key s = table.volume.answer codec (Table.readOn entries key s))
    (hval : value ≠ []) (hs : lsn ≤ s) :
    table.get codec key s = (table.volume.resolve codec value).map some := by
  rw [hget, h.readOn hs, if_neg hval, Volume.answer]

end

theorem getStreamed_of_get {value : Bytes} (h : table.get codec key s = .ok (some value)) :
    table.getStreamed codec room key s =
      match Volume.streamOf value with
      | .error e => .error e
      | .ok stream => (table.volume.readToEnd codec room stream).map some := by
  have hget : table.volume.get codec table.root key s = .ok (some value) := h
  rw [getStreamed, Volume.getStreamed, Volume.getStream, hget]
  cases hstream : Volume.streamOf value with
  | error e | ok stream => simp [hstream, Except.map]

theorem streamOf_of_not_tagged (h : tagged value = false) : Volume.streamOf value = .ok (.slice value 0) := by
  rw [Volume.streamOf, h]
  rfl

theorem ok_of_map_some {read : Except TableError Bytes} (h : read.map some = .ok (some value)) :
    read = .ok value := by
  cases read with
  | error e => cases h
  | ok data =>
    cases h
    rfl

/-- **The newest version of a key is read back** exactly if its value is not empty, and either has
not the tag of a reference or names pages that hold it. -/
theorem Newest.shown_iff (h : Newest entries key value lsn)
    (hanswer : ∀ s, table.get codec key s = table.volume.answer codec (Table.readOn entries key s)) :
    table.ReadsBack codec key value lsn ↔
      value ≠ [] ∧ (tagged value = true → table.volume.HoldsItself codec value) := by
  constructor
  · intro hreads
    have hget := (hreads lsn le_rfl).1
    have hval : value ≠ [] := by
      rintro rfl
      rw [hanswer, h.readOn le_rfl, if_pos rfl] at hget
      cases hget
    refine ⟨hval, fun htag => ?_⟩
    have hwhole := ok_of_map_some ((h.get hanswer hval le_rfl).symm.trans hget)
    have hpieces := fun room hroom =>
      (getStreamed_of_get hget).symm.trans ((hreads lsn le_rfl).2 room hroom)
    refine ⟨?_, hwhole, fun room hroom stream hstream => ?_⟩
    · -- bytes that do not decode have no stream
      have hstream := hpieces 1 Nat.one_pos
      simp only [Volume.streamOf, htag, if_true] at hstream
      cases hdecode : ValueRef.decode value with
      | error e =>
        rw [hdecode] at hstream
        cases hstream
      | ok ref =>
        refine ⟨ref, hdecode, ?_⟩
        rintro rfl
        rw [not_tagged_of_decode_inline hdecode] at htag
        cases htag
    · have hread := hpieces room hroom
      simp only [hstream] at hread
      exact ok_of_map_some hread
  · rintro ⟨hval, hheld⟩ s hs
    have hresolve : table.volume.resolve codec value = .ok value := by
      cases htag : tagged value with
      | false => exact resolve_of_not_namesPages (not_namesPages_of_not_tagged htag)
      | true => exact (hheld htag).whole
    have hget : table.get codec key s = .ok (some value) := by
      rw [h.get hanswer hval hs, hresolve]
      rfl
    refine ⟨hget, fun room hroom => ?_⟩
    rw [getStreamed_of_get hget]
    cases htag : tagged value with
    | false =>
      rw [streamOf_of_not_tagged htag]
      simp only [readToEnd_slice hroom]
      rfl
    | true =>
      obtain ⟨ref, hdecode, -⟩ := (hheld htag).names
      have hpieces := (hheld htag).pieces room hroom
      cases hstream : Volume.streamOf value with
      | error e =>
        simp only [Volume.streamOf, htag, if_true, hdecode] at hstream
        cases ref <;> cases hstream
      | ok stream =>
        simp only [hpieces stream hstream]
        rfl

/-- **The newest version of a key is read back whatever the slots hold** exactly if besides every page
on the way to it is whole. -/
theorem Newest.served_iff {slots : Slots} (h : Newest entries key value lsn) (hholds : table.Holds entries) :
    (∀ junk, (table.served slots junk).ReadsBack codec key value lsn) ↔
      value ≠ [] ∧ (tagged value = true → ∀ junk, (table.volume.served slots junk).HoldsItself codec value) ∧
        table.WholePath slots key := by
  constructor
  · intro hreads
    have hpath : table.WholePath slots key := wholePath_of_get fun junk => (hreads junk lsn le_rfl).1
    have hiff : ∀ junk, value ≠ [] ∧ (tagged value = true →
        (table.served slots junk).volume.HoldsItself codec value) := fun junk =>
      (h.shown_iff fun s => hholds.get_served hpath).mp (hreads junk)
    exact ⟨(hiff table.volume).1, fun htag junk => (hiff junk).2 htag, hpath⟩
  · rintro ⟨hval, hheld, hpath⟩ junk
    exact (h.shown_iff fun s => hholds.get_served hpath).mpr ⟨hval, fun htag => hheld htag junk⟩

/-! ## What is freed -/

/-- The page file after the pages were freed, the last one first. -/
def Volume.freePages (vol : Volume) (pages : List PageId) : Volume :=
  { vol with file := { vol.file with writes := pages.map (⟨·, none⟩) ++ vol.file.writes } }

/-- The reference names a page that can be freed. -/
def Volume.Freeable (codec : PageCodec) (vol : Volume) : ValueRef → Prop
  | .inline => False
  | .singlePage pageId _ _ => (vol.freePage codec pageId).2 = .ok ()
  | .overflowChain firstPageId _ _ =>
    (vol.readOverflowHeader codec firstPageId).isOk = true ∧ (vol.freePage codec firstPageId).2 = .ok ()

/-- The old value of the key has the form of a reference, to pages that can be freed. -/
def FindsPages (codec : PageCodec) (table : BTreeTable) (key : Key) (snapshotLsn : ℕ) : Prop :=
  ∃ oldValue ref, table.get codec key snapshotLsn = .ok (some oldValue) ∧
    isExternalValue oldValue = true ∧ ValueRef.decode oldValue = .ok ref ∧ table.volume.Freeable codec ref

variable {vol : Volume} {page : PageId}

theorem freePages_append (pages more : List PageId) :
    (vol.freePages pages).freePages more = vol.freePages (more ++ pages) := by
  simp [Volume.freePages]

@[simp] theorem freed_freePages (pages : List PageId) :
    (vol.freePages pages).file.freed = pages ++ vol.file.freed := by
  have hkept : (pages.map fun page => (⟨page, none⟩ : PageWrite)).filter (fun w => w.node.isNone) =
      pages.map (⟨·, none⟩) := filter_eq_self.mpr (by simp)
  simp [Volume.freePages, PageFile.freed, hkept, Function.comp_def]

theorem freePage_cases (codec : PageCodec) (vol : Volume) (page : PageId) :
    vol.freePage codec page = (vol.freePages [page], .ok ()) ∨ ∃ e, vol.freePage codec page = (vol, .error e) := by
  rw [Volume.freePage]
  split_ifs
  · exact .inr ⟨_, rfl⟩
  · exact .inr ⟨_, rfl⟩
  · cases vol.readPage codec page with
    | error e => exact .inr ⟨_, rfl⟩
    | ok raw =>
      dsimp only
      split_ifs
      · exact .inr ⟨_, rfl⟩
      · exact .inl rfl

theorem freeOverflowChainFrom_cases (codec : PageCodec) (fuel : ℕ) (vol : Volume) (page : PageId) :
    ∃ pages, (Volume.freeOverflowChainFrom codec fuel vol page).1 = vol.freePages pages := by
  induction fuel generalizing vol page with
  | zero => exact ⟨[], rfl⟩
  | succ fuel ih =>
    rw [Volume.freeOverflowChainFrom]
    cases vol.readOverflowHeader codec page with
    | error e => exact ⟨[], rfl⟩
    | ok read =>
      dsimp only
      rcases freePage_cases codec vol page with hfree | ⟨e, hfree⟩
      · rw [hfree, andThen_ok]
        cases read.2.next with
        | none => exact ⟨[page], rfl⟩
        | some next =>
          obtain ⟨pages, hpages⟩ := ih (vol.freePages [page]) next
          exact ⟨pages ++ [page], hpages.trans (freePages_append _ _)⟩
      · rw [hfree]
        exact ⟨[], rfl⟩

/-- **The pages of a reference are freed** exactly if the first of them can be. -/
theorem freeValueRef_cases (codec : PageCodec) (vol : Volume) (ref : ValueRef) :
    (¬ vol.Freeable codec ref ∧ (vol.freeValueRef codec ref).1 = vol) ∨
      vol.Freeable codec ref ∧ ∃ pages ≠ [], (vol.freeValueRef codec ref).1 = vol.freePages pages := by
  cases ref with
  | inline => exact .inl ⟨id, rfl⟩
  | singlePage pageId offset length =>
    rw [Volume.freeValueRef, Volume.Freeable]
    rcases freePage_cases codec vol pageId with hfree | ⟨e, hfree⟩
    · exact .inr ⟨by rw [hfree], [pageId], by simp, by rw [hfree]⟩
    · exact .inl ⟨by simp [hfree], by rw [hfree]⟩
  | overflowChain firstPageId totalLength pageCount =>
    rw [Volume.freeValueRef, Volume.Freeable, Volume.freeOverflowChainFrom]
    cases vol.readOverflowHeader codec firstPageId with
    | error e => exact .inl ⟨by simp [Except.isOk, Except.toBool], rfl⟩
    | ok read =>
      rcases freePage_cases codec vol firstPageId with hfree | ⟨e, hfree⟩
      · refine .inr ⟨⟨rfl, by rw [hfree]⟩, ?_⟩
        simp only [hfree, andThen_ok]
        cases read.2.next with
        | none => exact ⟨[firstPageId], by simp, rfl⟩
        | some next =>
          obtain ⟨pages, hpages⟩ :=
            freeOverflowChainFrom_cases codec vol.file.nextPage (vol.freePages [firstPageId]) next
          exact ⟨pages ++ [firstPageId], by simp, hpages.trans (freePages_append _ _)⟩
      · exact .inl ⟨by simp [hfree], by simp [hfree]⟩

/-- **What the release of an old value does to the volume.** -/
theorem releaseOld_cases (codec : PageCodec) (table : BTreeTable) (key : Key) (s : ℕ) :
    (¬ FindsPages codec table key s ∧ (table.releaseOld codec key s).1 = table.volume) ∨
      FindsPages codec table key s ∧
        ∃ pages ≠ [], (table.releaseOld codec key s).1 = table.volume.freePages pages := by
  unfold FindsPages releaseOld
  cases table.get codec key s with
  | error e => exact .inl ⟨by rintro ⟨_, _, ⟨⟩, _⟩, rfl⟩
  | ok found =>
    cases found with
    | none => exact .inl ⟨by rintro ⟨_, _, ⟨⟩, _⟩, rfl⟩
    | some oldValue =>
      dsimp only
      split_ifs with hform
      · cases hdecode : ValueRef.decode oldValue with
        | error e =>
          refine .inl ⟨?_, rfl⟩
          rintro ⟨_, ref, ⟨⟩, _, href, _⟩
          rw [hdecode] at href
          cases href
        | ok ref =>
          have hvol : ∀ released : Outcome Volume PagerError Unit, (match released with
              | (vol, .error e) => (vol, .error (TableError.pager e))
              | (vol, .ok _) => (vol, .ok ()) : Outcome Volume TableError Unit).1 = released.1 := by
            rintro ⟨vol, e | _⟩ <;> rfl
          rcases freeValueRef_cases codec table.volume ref with ⟨hnot, hsame⟩ | ⟨hfree, pages, hne, hpages⟩
          · refine .inl ⟨?_, (hvol _).trans hsame⟩
            rintro ⟨_, ref', ⟨⟩, _, hdecode', hfree⟩
            rw [hdecode] at hdecode'
            cases hdecode'
            exact hnot hfree
          · exact .inr ⟨⟨oldValue, ref, rfl, hform, hdecode, hfree⟩, pages, hne, (hvol _).trans hpages⟩
      · refine .inl ⟨?_, rfl⟩
        rintro ⟨_, _, ⟨⟩, hform', _⟩
        exact hform hform'

theorem BTreeTable.Holds.freePages (h : table.Holds entries) (pages : List PageId) :
    BTreeTable.Holds { table with volume := table.volume.freePages pages } entries := by
  obtain ⟨leaves, ⟨⟨height, used, hsub, halloc⟩, hlinked⟩, hconts⟩ := h
  exact ⟨leaves, ⟨⟨height, used, hsub, { halloc with }⟩, hlinked⟩, hconts⟩

/-- What is freed for a change is no loss to the table, as long as the cache serves it. -/
theorem BTreeTable.Holds.releaseOld (h : table.Holds entries) (codec : PageCodec) (key : Key) (s : ℕ) :
    BTreeTable.Holds { table with volume := (table.releaseOld codec key s).1 } entries := by
  rcases releaseOld_cases codec table key s with ⟨-, hsame⟩ | ⟨-, pages, -, hpages⟩
  · rw [hsame]
    exact h
  · rw [hpages]
    exact h.freePages pages

/-! ## A put -/

/-- A put that is flushed and committed is the newest version of its key, if what the old value
refers to can be freed. -/
theorem putFlushCommit_cases (hholds : table.Holds entries)
    {writer : BTreeWriter} (hnew : writer.pendingChanges = []) :
    ((table.releaseOld codec key writer.snapshotLsn).2 = .ok () ∧
      ∃ table' entries', writer.putFlushCommit cfg codec table key value lsn = (table', .ok ()) ∧
        table'.Holds entries' ∧ Newest entries' key value lsn) ∨
    ((table.releaseOld codec key writer.snapshotLsn).2 ≠ .ok () ∧
      (writer.putFlushCommit cfg codec table key value lsn).2 ≠ .ok ()) := by
  have hput : writer.putFlushCommit cfg codec table key value lsn =
      andThen (table.applyChange cfg codec writer.txId writer.snapshotLsn (.inline key value))
        fun table _ => table.step cfg (.commitVersions writer.txId lsn) := by
    rw [BTreeWriter.putFlushCommit, BTreeWriter.flush, BTreeWriter.put, hnew, List.nil_append,
      forEach_cons, andThen_assoc]
    rfl
  have hsame := hholds.releaseOld codec key writer.snapshotLsn
  obtain ⟨vol, released, hrelease⟩ : ∃ vol released,
      table.releaseOld codec key writer.snapshotLsn = (vol, released) := ⟨_, _, rfl⟩
  rw [hrelease] at hsame ⊢
  have hkey : (PendingChange.inline key value).key = key := rfl
  rw [hput, applyChange, hkey, hrelease]
  cases released with
  | error e => exact .inr ⟨by simp, by simp⟩
  | ok u =>
    refine .inl ⟨rfl, ?_⟩
    obtain ⟨table₁, hins, hholds₁⟩ := hsame.exec cfg (.insert writer.txId key value)
    obtain ⟨table₂, hcom, hholds₂⟩ := hholds₁.exec cfg (.commitVersions writer.txId lsn)
    refine ⟨table₂, _, ?_, hholds₂, writer.txId,
      VersionChain.stamp writer.txId lsn ((chainOn entries key).getD []), ?_⟩
    · simp [step, PendingChange.toTreeCall, hins, hcom, andThen_ok]
    · rw [onEntries, onEntries, chainOn_stampEntries, chainOn_insertEntry hsame.ascending, if_pos rfl]
      simp [VersionChain.stamp, Version.new]

/-- **Until its key is written again** a newest version stays the newest, whatever is called. -/
theorem Newest.run (h : Newest entries key value lsn) (hholds : table.Holds entries)
    {P : BTreeTable → Prop} {trace : List (TreeCall × Except TreeError Unit)} {later : BTreeTable}
    (hrun : Run (exec cfg) (fun _ table call => call.Spares key ∧ P table) table trace later) :
    ∃ entries', later.Holds entries' ∧ Newest entries' key value lsn := by
  refine hrun.invariant ⟨entries, hholds, h⟩ ?_
  rintro _ table call ⟨entries, hholds, h⟩ ⟨hspares, -⟩
  obtain ⟨table', hexec, hholds'⟩ := hholds.exec cfg call
  rw [hexec]
  exact ⟨_, hholds', h.onEntries hholds.ascending hspares⟩

/-- A transaction with nothing buffered. -/
def newWriter : BTreeWriter := ⟨1, 0, []⟩

/-- Pages of 4096 bytes without compression, each in the slot of its number. -/
def plainSlots : Slots where
  span node := (64 + node.serializedLen .default + 4095) / 4096
  slotOf page := page

/-- A volume without readable pages. -/
def noPages : Volume := ⟨⟨fun _ => none, 0, 0, []⟩, fun _ => none⟩

/-- No change that a flush comes to finds, at its turn, an old value in the form of a reference to
pages that can be freed. -/
def NeverFindsPages (cfg : BTreeConfig) (codec : PageCodec) (t : TransactionId) (s : ℕ) :
    BTreeTable → List PendingChange → Prop
  | _, [] => True
  | table, change :: changes =>
    ¬ FindsPages codec table change.key s ∧ ((table.applyChange cfg codec t s change).2 = .ok () →
      NeverFindsPages cfg codec t s (table.applyChange cfg codec t s change).1 changes)

section

variable {P : PageFile → Prop} (hwrite : ∀ file page node, P file → P (file.writeNode page node))
  (halloc : ∀ file, P file → P file.allocatePage.1)
  (hroot : ∀ file page, P file → P (file.setRootBtreePage page)) {file : PageFile}
include hwrite

theorem stampLeaves_keeps {t lsn fuel : ℕ} (h : P file) : P (file.stampLeaves t lsn fuel page).1 := by
  induction fuel generalizing file page with
  | zero => exact h
  | succ fuel ih =>
    rw [PageFile.stampLeaves]
    split
    · exact h
    · exact h
    · dsimp only
      split_ifs
      · exact hwrite _ _ _ h
      · exact ih (hwrite _ _ _ h)

include halloc

theorem splitNode_keeps {node : BTreeNode} (h : P file) : P (file.splitNode page node).1 := by
  cases node with
  | internal entries _ | leaf entries _ =>
    rw [PageFile.splitNode]
    dsimp only
    split
    · exact h
    · exact hwrite _ _ _ (hwrite _ _ _ (halloc _ h))

include hroot

theorem splitAndPropagate_keeps {root : PageId} {path : List PageId} {node : BTreeNode} (h : P file) :
    P (PageFile.splitAndPropagate cfg root path file page node).1 := by
  induction path generalizing file page node with
  | nil =>
    rw [PageFile.splitAndPropagate]
    refine andThen_fst (splitNode_keeps hwrite halloc h) fun file' read _ h' => ?_
    dsimp only
    split_ifs
    · exact hroot _ _ (hwrite _ _ _ (halloc _ h'))
    · exact h'
  | cons parent path ih =>
    rw [PageFile.splitAndPropagate]
    refine andThen_fst (splitNode_keeps hwrite halloc h) fun file' read _ h' => ?_
    dsimp only
    split_ifs
    · exact hroot _ _ (hwrite _ _ _ (halloc _ h'))
    · split
      · exact h'
      · exact h'
      · split
        · exact h'
        · split_ifs
          · exact ih (hwrite _ _ _ h')
          · exact hwrite _ _ _ h'

theorem insertInternal_keeps {root : PageId} {t : TransactionId} (h : P file) :
    P (file.insertInternal cfg root t key value).1 := by
  rw [PageFile.insertInternal]
  split
  · exact h
  · dsimp only
    split_ifs
    · exact splitAndPropagate_keeps hwrite halloc hroot (hwrite _ _ _ h)
    · exact hwrite _ _ _ h

omit halloc hroot in
theorem deleteInternal_keeps {root : PageId} {t : TransactionId} (h : P file) :
    P (file.deleteInternal root t key).1 := by
  rw [PageFile.deleteInternal]
  split
  · exact h
  · split
    · exact h
    · exact hwrite _ _ _ h

omit halloc hroot in
theorem commitVersions_keeps {root : PageId} {t : TransactionId} (h : P file) :
    P (file.commitVersions root t lsn).1 := by
  rw [PageFile.commitVersions]
  split
  · exact h
  · exact stampLeaves_keeps hwrite h

/-- **What the writes of nodes and the allocations keep every call keeps.** -/
theorem exec_keeps {call : TreeCall} (h : P table.volume.file) : P (table.exec cfg call).1.volume.file := by
  cases call with
  | insert t key value =>
    have hins : P (table.volume.file.insertInternal cfg table.root t key value).1 :=
      insertInternal_keeps hwrite halloc hroot h
    rw [exec]
    split <;> next heq => rwa [heq] at hins
  | delete t key =>
    have hdel : P (table.volume.file.deleteInternal table.root t key).1 := deleteInternal_keeps hwrite h
    rw [exec]
    split <;> next heq => rwa [heq] at hdel
  | commitVersions t lsn =>
    have hcom : P (table.volume.file.commitVersions table.root t lsn).1 := commitVersions_keeps hwrite h
    rw [exec]
    split <;> next heq => rwa [heq] at hcom

end

theorem freed_exec (cfg : BTreeConfig) (table : BTreeTable) (call : TreeCall) :
    (table.exec cfg call).1.volume.file.freed = table.volume.file.freed :=
  exec_keeps (P := fun file => file.freed = table.volume.file.freed) (fun _ _ _ h => h) (fun _ h => h)
    (fun _ _ h => h) rfl

variable {t : TransactionId} {change : PendingChange} {changes : List PendingChange}

theorem freed_step (cfg : BTreeConfig) (table : BTreeTable) (call : TreeCall) :
    (table.step cfg call).1.volume.file.freed = table.volume.file.freed := by
  have hexec := freed_exec cfg table call
  rw [step]
  split <;> next heq => rwa [heq] at hexec

/-- A change frees what the release of the old value frees. -/
theorem freed_applyChange : (table.applyChange cfg codec t s change).1.volume.file.freed =
    (table.releaseOld codec change.key s).1.file.freed := by
  rw [applyChange]
  split
  · next heq => rw [heq]
  · next heq => rw [freed_step, heq]

theorem freed_suffix_flush : table.volume.file.freed <:+
    (forEach (applyChange cfg codec t s) table changes).1.volume.file.freed := by
  refine forEach_fst (P := fun later : BTreeTable => table.volume.file.freed <:+ later.volume.file.freed)
    (fun later change _ h => ?_) (suffix_refl _)
  rw [freed_applyChange]
  rcases releaseOld_cases codec later change.key s with ⟨-, hsame⟩ | ⟨-, pages, -, hpages⟩
  · rwa [hsame]
  · rw [hpages, freed_freePages]
    exact h.trans (suffix_append _ _)

theorem BTreeTable.Holds.applyChange (h : table.Holds entries) :
    ∃ entries', (table.applyChange cfg codec t s change).1.Holds entries' := by
  have hsame := h.releaseOld codec change.key s
  rw [BTreeTable.applyChange]
  split
  · next heq =>
    rw [heq] at hsame
    exact ⟨entries, hsame⟩
  · next heq =>
    rw [heq] at hsame
    obtain ⟨table', hexec, hholds⟩ := hsame.exec cfg (change.toTreeCall t)
    rw [step, hexec]
    exact ⟨_, hholds⟩

/-- Two keys with plain values and one whose value is on page 7. -/
def mixedTable : BTreeTable := (execute (exec smallPages)
  (new ⟨⟨fun _ => none, 8, 0, []⟩, fun page => if page = 7 then some ⟨.overflow, [5, 5, 5]⟩ else none⟩)
  [.insert 1 [7] [1, 1], .insert 1 [8] [4], .insert 1 [9] [1, 7, 0, 0, 0, 0, 0, 3, 0, 0, 0],
    .commitVersions 1 10]).2

/-- The values of keys 8 and 9 have the form of references, to what pages 7 and 5 hold behind their
headers; page 5 holds what has the form of a reference to page 7. -/
def strayTable : BTreeTable := (execute (exec smallPages)
  (new ⟨⟨fun _ => none, 8, 0, []⟩, fun page =>
    if page = 5 then some ⟨.overflow, List.replicate 32 0 ++ [1, 7, 0, 0, 0, 32, 0, 3, 0, 0, 0]⟩
    else if page = 7 then some ⟨.overflow, List.replicate 32 0 ++ [5, 5, 5]⟩ else none⟩)
  [.insert 1 [8] [1, 7, 0, 0, 0, 32, 0, 3, 0, 0, 0], .insert 1 [9] [1, 5, 0, 0, 0, 32, 0, 11, 0, 0, 0],
    .commitVersions 1 10]).2

/-- What the slot of a freed page holds. -/
def freeSlots : Volume := ⟨⟨fun _ => none, 0, 0, []⟩, fun _ => some ⟨.free, []⟩⟩

end NanoStore.Table
