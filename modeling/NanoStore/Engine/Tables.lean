import NanoStore.Engine.Calls
import NanoStore.Table.BTree
/-!
# The database — its tables and their ids

The catalog of a database with tables of every kind, the page it is
written to, and the registry of the engines. The id of a new table is one
more than the number of tables there are, and after a drop that id may
still be in use: the table is then refused. What never happens is that two
tables share an id or an engine.
-/

namespace NanoStore.Engine

open Wal Steps Txn Table Function List

/-! ## Kinds of tables -/

inductive TableEngineKind
  | bTree
  | bPlusTree
  | lsmTree
  | art
  | hash
  | memory
  | appendLog
  | columnarSegment
  | sparseOrdered
  | bloom
  | bitmap
  | fullText
  | vectorHnsw
  | vectorIvf
  | geoSpatial
  | timeSeries
  | graphAdjacency
  | blob
  | custom (n : ℕ)
  deriving DecidableEq

/-- Where the engines of a kind keep their tables, if the registry can create any. -/
inductive EngineStorage
  | pages
  | memory
  | unsupported
  deriving DecidableEq

namespace TableEngineKind

/-- The text `Debug` gives a kind. -/
def debug : TableEngineKind → String
  | .bTree => "BTree"
  | .bPlusTree => "BPlusTree"
  | .lsmTree => "LsmTree"
  | .art => "Art"
  | .hash => "Hash"
  | .memory => "Memory"
  | .appendLog => "AppendLog"
  | .columnarSegment => "ColumnarSegment"
  | .sparseOrdered => "SparseOrdered"
  | .bloom => "Bloom"
  | .bitmap => "Bitmap"
  | .fullText => "FullText"
  | .vectorHnsw => "VectorHnsw"
  | .vectorIvf => "VectorIvf"
  | .geoSpatial => "GeoSpatial"
  | .timeSeries => "TimeSeries"
  | .graphAdjacency => "GraphAdjacency"
  | .blob => "Blob"
  | .custom n => s!"Custom({n})"

/-- The branches of `create_engine`: an engine with a root page, one without, or none. -/
def storage : TableEngineKind → EngineStorage
  | .appendLog | .bTree | .lsmTree | .bloom | .geoSpatial | .timeSeries | .fullText | .blob =>
    .pages
  | .memory | .hash | .art => .memory
  | _ => .unsupported

end TableEngineKind

/-- `RegistryError`, as creating, opening and registering return it. -/
inductive RegistryError
  | engineCreationFailed (engine : TableEngineKind) (details : String)
  | engineOpenFailed (engine : TableEngineKind) (details : String)
  | engineAlreadyRegistered (id : TableId)
  | unsupportedEngine (engine : TableEngineKind)
  deriving DecidableEq

/-- The text `Display` gives it. -/
def RegistryError.message : RegistryError → String
  | .engineCreationFailed engine details => s!"Failed to create {engine.debug} engine: {details}"
  | .engineOpenFailed engine details => s!"Failed to open {engine.debug} engine: {details}"
  | .engineAlreadyRegistered id => s!"Engine TableId({id}) is already registered"
  | .unsupportedEngine engine => s!"Unsupported engine type: {engine.debug}"

/-- What the page file does while an engine is created: the pages it hands out, the root page
apart, and whether the constructor gets through. -/
structure PagesIo where
  taken : ℕ
  result : Except String Unit

/-- What it does while the catalog is written: whether it hands out a page, and whether the
catalog page is written. A write that fails may have changed the cached page all the same. -/
structure CatalogIo where
  allocated : Bool
  write : Except (String × Bool) Unit

/-- A page file that does what it is asked. -/
def CatalogIo.works : CatalogIo := ⟨true, .ok ()⟩

namespace Tables

/-- `TableInfo`, as far as creating, dropping and opening tables read it. -/
structure TableInfo where
  id : TableId
  name : String
  engine : TableEngineKind
  root : Option PageId
  deriving DecidableEq

/-- `TableEngineInstance`: the table an engine was created or opened for, its kind, and the root
page it started from. -/
structure TableEngineInstance where
  tableId : TableId
  name : String
  kind : TableEngineKind
  root : Option PageId
  deriving DecidableEq

/-- The engine a catalog entry asks for. -/
def TableInfo.ownEngine (info : TableInfo) : TableEngineInstance :=
  ⟨info.id, info.name, info.engine, info.root⟩

end Tables

/-- The catalog of a database, the page it is written to, and the engine registry. The hash maps
of the source are a list of entries and a partial function; nothing read here depends on their
order. -/
structure Tables where
  catalog : List Tables.TableInfo
  catalogPage : List Tables.TableInfo
  engines : TableId → Option Tables.TableEngineInstance
  nextPage : PageId

namespace Tables

/-! ## The registry -/

/-- `create_engine`, with the next page it leaves. -/
def createEngine (nextPage : PageId) (id : TableId) (name : String) (kind : TableEngineKind)
    (io : PagesIo) : Outcome PageId RegistryError TableEngineInstance :=
  match kind.storage with
  | .unsupported => (nextPage, .error (.unsupportedEngine kind))
  | .memory => (nextPage, .ok ⟨id, name, kind, none⟩)
  | .pages =>
    match io.result with
    | .error details => (nextPage + io.taken, .error (.engineCreationFailed kind details))
    | .ok () => (nextPage + 1 + io.taken, .ok ⟨id, name, kind, some nextPage⟩)

/-- `open_engine`. B-trees and blob tables are opened without reading a page. -/
def openEngine (id : TableId) (name : String) (kind : TableEngineKind) (root : PageId)
    (io : Except String Unit) : Except RegistryError TableEngineInstance :=
  match kind.storage with
  | .unsupported => .error (.unsupportedEngine kind)
  | .memory => .ok ⟨id, name, kind, none⟩
  | .pages =>
    if kind = .bTree ∨ kind = .blob then .ok ⟨id, name, kind, some root⟩
    else
      match io with
      | .error details => .error (.engineOpenFailed kind details)
      | .ok () => .ok ⟨id, name, kind, some root⟩

/-- `register`: one engine for a number. -/
def register (engines : TableId → Option TableEngineInstance) (engine : TableEngineInstance) :
    Except RegistryError (TableId → Option TableEngineInstance) :=
  if (engines engine.tableId).isSome then .error (.engineAlreadyRegistered engine.tableId)
  else .ok (update engines engine.tableId (some engine))

/-! ## The catalog -/

variable (tables : Tables)

/-- `persist_catalog`: the catalog is written to its page. -/
def persistCatalog (io : CatalogIo) : Outcome Tables EngineError Unit :=
  let nextPage := if io.allocated then tables.nextPage + 1 else tables.nextPage
  match io.write with
  | .ok () => ({ tables with nextPage := nextPage, catalogPage := tables.catalog }, .ok ())
  | .error (e, reached) =>
    ({ tables with
        nextPage := nextPage
        catalogPage := if reached then tables.catalog else tables.catalogPage },
      .error (.pagerFailed ("Failed to write catalog page: " ++ e)))

/-- The tables of `StorageEngine::new`: the header, the superblock and the catalog have the
pages 0, 1 and 2. -/
def new : Tables := (persistCatalog ⟨[], [], fun _ => none, 2⟩ .works).1

/-- `create_table`, whose steps may each fail. -/
def createTable (name : String) (kind : TableEngineKind) (pages : PagesIo) (io : CatalogIo) :
    Outcome Tables EngineError TableId :=
  if tables.catalog.any fun info => info.name = name then
    (tables, .error (.tableAlreadyExists name))
  else
    let id := tables.catalog.length + 1
    match createEngine tables.nextPage id name kind pages with
    | (nextPage, .error e) =>
      ({ tables with nextPage := nextPage },
        .error (.other ("Failed to create storage engine: " ++ e.message)))
    | (nextPage, .ok engine) =>
      match register tables.engines engine with
      | .error e =>
        ({ tables with nextPage := nextPage },
          .error (.other ("Failed to register storage engine: " ++ e.message)))
      | .ok engines =>
        andThen (persistCatalog { tables with
            nextPage := nextPage
            engines := engines
            catalog := tables.catalog ++ [⟨id, name, kind, engine.root⟩] } io)
          fun tables () => (tables, .ok id)

/-- `drop_table`. -/
def dropTable (table : TableId) (io : CatalogIo) : Outcome Tables EngineError Unit :=
  match tables.catalog.find? fun info => info.id = table with
  | none => (tables, .error (.notFound table))
  | some info =>
    persistCatalog
      { tables with
        catalog := tables.catalog.filter fun other => other.name ≠ info.name
        engines := update tables.engines table none } io

/-- What the files do while a database is closed and opened: whether it closes, whether the
catalog page can be read, and whether the engine of an entry can be opened or created. -/
structure ReopenIo where
  close : Except EngineError Unit
  read : Except String Unit
  opens : TableInfo → Except String Unit
  creates : TableInfo → PagesIo

/-- The engine of one entry in `recover_catalog`: opened at its root page, or a fresh one. -/
def recoverEngine (io : ReopenIo) (info : TableInfo) : Outcome PageId String TableEngineInstance :=
  match info.root with
  | some root =>
    match openEngine info.id info.name info.engine root (io.opens info) with
    | .error e =>
      (tables.nextPage, .error (s!"Failed to reopen storage engine for table '{info.name}': " ++ e.message))
    | .ok engine => (tables.nextPage, .ok engine)
  | none =>
    match createEngine tables.nextPage info.id info.name info.engine (io.creates info) with
    | (nextPage, .error e) =>
      (nextPage, .error (s!"Failed to create storage engine for table '{info.name}': " ++ e.message))
    | (nextPage, .ok engine) => (nextPage, .ok engine)

/-- One entry of `recover_catalog`. -/
def recoverTable (io : ReopenIo) (info : TableInfo) : Except EngineError Tables :=
  match recoverEngine tables io info with
  | (_, .error details) => .error (.other details)
  | (nextPage, .ok engine) =>
    match register tables.engines engine with
    | .error e =>
      .error (.other (s!"Failed to register storage engine for table '{info.name}': " ++ e.message))
    | .ok engines =>
      .ok { tables with
        nextPage := nextPage
        engines := engines
        catalog := (tables.catalog.filter fun other => other.name ≠ info.name) ++ [info] }

/-- `recover_catalog`, in a registry that is still empty. -/
def recoverCatalog (io : ReopenIo) : Except EngineError Tables :=
  match io.read with
  | .error e => .error (.pagerFailed ("Failed to read catalog page: " ++ e))
  | .ok () =>
    tables.catalogPage.foldlM (fun tables info => recoverTable tables io info)
      ⟨[], tables.catalogPage, fun _ => none, tables.nextPage⟩

/-- `close` and `StorageEngine::open`. A database that is not opened leaves its files as they
are. -/
def reopen (io : ReopenIo) : Outcome Tables EngineError Unit :=
  match io.close with
  | .error e => (tables, .error e)
  | .ok () =>
    match recoverCatalog tables io with
    | .error e => (tables, .error e)
    | .ok tables' => (tables', .ok ())

/-! ## Histories -/

/-- A call that changes which tables there are. -/
inductive Call
  | createTable (name : String) (kind : TableEngineKind) (pages : PagesIo) (io : CatalogIo)
  | dropTable (table : TableId) (io : CatalogIo)
  | reopen (io : ReopenIo)

inductive Answer
  | created (result : Except EngineError TableId)
  | dropped (result : Except EngineError Unit)
  | reopened (result : Except EngineError Unit)

/-- The tables a call leaves, and its answer. -/
def exec : Call → Tables × Answer
  | .createTable name kind pages io =>
    let (tables, result) := createTable tables name kind pages io
    (tables, .created result)
  | .dropTable table io =>
    let (tables, result) := dropTable tables table io
    (tables, .dropped result)
  | .reopen io =>
    let (tables, result) := reopen tables io
    (tables, .reopened result)

/-! ## What always holds -/

/-- A list of catalog entries: ids, names and root pages are the entries' own, the root pages
are allocated, and exactly the entries of paged kinds have one. -/
structure Listed (nextPage : PageId) (infos : List TableInfo) : Prop where
  ids : (infos.map TableInfo.id).Nodup
  names : (infos.map TableInfo.name).Nodup
  roots : ∀ info ∈ infos, ∀ other ∈ infos, ∀ page,
    info.root = some page → other.root = some page → info = other
  fresh : ∀ info ∈ infos, ∀ page, info.root = some page → page < nextPage
  stored : ∀ info ∈ infos, (info.engine.storage = .pages ∧ info.root.isSome) ∨
    (info.engine.storage = .memory ∧ info.root = none)

/-- The engines registered are those of the catalog. -/
def Registered (engines : TableId → Option TableEngineInstance) (infos : List TableInfo) : Prop :=
  ∀ i engine, engines i = some engine ↔ ∃ info ∈ infos, info.id = i ∧ info.ownEngine = engine

/-- The invariant of every history. -/
structure Consistent : Prop where
  listed : Listed tables.nextPage tables.catalog
  saved : Listed tables.nextPage tables.catalogPage
  registered : Registered tables.engines tables.catalog

variable {kind : TableEngineKind} {name : String} {pages : PagesIo}

section Invariant

variable {tables} {n m : PageId} {infos : List TableInfo} {info : TableInfo}
  {engines engines' : TableId → Option TableEngineInstance} {engine : TableEngineInstance}

theorem Listed.mono (h : Listed n infos) (hle : n ≤ m) : Listed m infos :=
  { h with fresh := fun info hinfo page hpage => lt_of_lt_of_le (h.fresh info hinfo page hpage) hle }

theorem Listed.filter (h : Listed n infos) {p : TableInfo → Bool} : Listed n (infos.filter p) where
  ids := h.ids.sublist (filter_sublist.map _)
  names := h.names.sublist (filter_sublist.map _)
  roots info hinfo other hother :=
    h.roots info (mem_of_mem_filter hinfo) other (mem_of_mem_filter hother)
  fresh info hinfo := h.fresh info (mem_of_mem_filter hinfo)
  stored info hinfo := h.stored info (mem_of_mem_filter hinfo)

theorem Listed.snoc (h : Listed n infos) (hlt : n < m ∨ info.root = none ∧ n ≤ m)
    (hid : ∀ other ∈ infos, other.id ≠ info.id) (hname : ∀ other ∈ infos, other.name ≠ info.name)
    (hroot : ∀ page, info.root = some page → page = n)
    (hstored : (info.engine.storage = .pages ∧ info.root.isSome) ∨
      (info.engine.storage = .memory ∧ info.root = none)) : Listed m (infos ++ [info]) := by
  have hold : ∀ other ∈ infos, ∀ page, other.root = some page → info.root ≠ some page := by
    intro other hother page hpage hinfo
    exact absurd (hroot page hinfo) (Nat.ne_of_lt (h.fresh other hother page hpage))
  refine ⟨?_, ?_, ?_, ?_, ?_⟩
  · simpa [nodup_append, h.ids] using hid
  · simpa [nodup_append, h.names] using hname
  · intro x hx y hy page hxp hyp
    rw [mem_append, mem_singleton] at hx hy
    rcases hx with hx | rfl <;> rcases hy with hy | rfl
    · exact h.roots x hx y hy page hxp hyp
    · exact absurd hyp (hold x hx page hxp)
    · exact absurd hxp (hold y hy page hyp)
    · rfl
  · intro x hx page hpage
    rw [mem_append, mem_singleton] at hx
    rcases hx with hx | rfl
    · have hle : n ≤ m := by
        rcases hlt with hlt | hlt
        · exact hlt.le
        · exact hlt.2
      exact lt_of_lt_of_le (h.fresh x hx page hpage) hle
    · rcases hlt with hlt | hlt
      · exact (hroot page hpage).symm ▸ hlt
      · rw [hlt.1] at hpage
        cases hpage
  · intro x hx
    rw [mem_append, mem_singleton] at hx
    rcases hx with hx | rfl
    · exact h.stored x hx
    · exact hstored

/-- **An id is taken exactly by a table that has it.** -/
theorem Registered.isSome_iff (h : Registered engines infos) (i : TableId) :
    (engines i).isSome ↔ ∃ info ∈ infos, info.id = i := by
  constructor
  · intro hsome
    obtain ⟨engine, hengine⟩ := Option.isSome_iff_exists.mp hsome
    obtain ⟨info, hinfo, hid, -⟩ := (h i engine).mp hengine
    exact ⟨info, hinfo, hid⟩
  · rintro ⟨info, hinfo, hid⟩
    exact Option.isSome_of_eq_some ((h i info.ownEngine).mpr ⟨info, hinfo, hid, rfl⟩)

theorem register_eq_ok : register engines engine = .ok engines' ↔ (engines engine.tableId = none ∧
    engines' = update engines engine.tableId (some engine)) := by
  unfold register
  cases engines engine.tableId with
  | some other => simp
  | none => simp [eq_comm]

theorem Registered.snoc (h : Registered engines infos) (info : TableInfo)
    (hid : ∀ other ∈ infos, other.id ≠ info.id) :
    Registered (update engines info.id (some info.ownEngine)) (infos ++ [info]) := by
  intro i engine
  rw [update_eq_some_iff]
  constructor
  · rintro (⟨rfl, hengine⟩ | ⟨-, hold⟩)
    · exact ⟨info, by simp, rfl, Option.some.inj hengine⟩
    · obtain ⟨other, hother, hrest⟩ := (h i engine).mp hold
      exact ⟨other, mem_append_left _ hother, hrest⟩
  · rintro ⟨other, hother, hi, hengine⟩
    rw [mem_append, mem_singleton] at hother
    rcases hother with hother | rfl
    · refine .inr ⟨?_, (h i engine).mpr ⟨other, hother, hi, hengine⟩⟩
      rintro rfl
      exact hid other hother hi
    · exact .inl ⟨hi.symm, congrArg some hengine⟩

theorem Registered.drop (h : Registered engines infos) (hlisted : Listed n infos) (hinfo : info ∈ infos) :
    Registered (update engines info.id none) (infos.filter fun other => other.name ≠ info.name) := by
  intro i engine
  rw [update_eq_some_iff]
  constructor
  · rintro (⟨-, hnone⟩ | ⟨hne, hold⟩)
    · cases hnone
    · obtain ⟨other, hother, rfl, hengine⟩ := (h i engine).mp hold
      refine ⟨other, mem_filter.mpr ⟨hother, ?_⟩, rfl, hengine⟩
      -- the name of the dropped entry is its own, and so is its id
      have hname : other.name ≠ info.name := fun hname =>
        hne (congrArg TableInfo.id (inj_on_of_nodup_map hlisted.names hother hinfo hname))
      simpa using hname
  · rintro ⟨other, hother, rfl, hengine⟩
    obtain ⟨hother, hname⟩ := mem_filter.mp hother
    refine .inr ⟨fun hid => ?_, (h _ engine).mpr ⟨other, hother, rfl, hengine⟩⟩
    have hsame : other = info := inj_on_of_nodup_map hlisted.ids hother hinfo hid
    simp [hsame] at hname

/-! ### Calls -/

variable {nextPage : PageId}

/-- What `create_engine` returns when it returns an engine. -/
theorem createEngine_eq_ok {nextPage' : PageId} {id : TableId} {io : PagesIo}
    (h : createEngine nextPage id name kind io = (nextPage', .ok engine)) :
    engine = ⟨id, name, kind, engine.root⟩ ∧
      ((kind.storage = .pages ∧ engine.root = some nextPage ∧ nextPage < nextPage') ∨
        (kind.storage = .memory ∧ engine.root = none ∧ nextPage' = nextPage)) := by
  unfold createEngine at h
  split at h
  · cases h
  · rename_i hmemory
    cases h
    exact ⟨rfl, .inr ⟨hmemory, rfl, rfl⟩⟩
  · rename_i hpages
    split at h
    · cases h
    · cases h
      exact ⟨rfl, .inl ⟨hpages, rfl, Nat.lt_of_lt_of_le (Nat.lt_succ_self _) (Nat.le_add_right _ _)⟩⟩

theorem le_createEngine (nextPage : PageId) (id : TableId) (name : String)
    (kind : TableEngineKind) (io : PagesIo) : nextPage ≤ (createEngine nextPage id name kind io).1 := by
  unfold createEngine
  split
  · exact le_rfl
  · exact le_rfl
  · split
    · exact Nat.le_add_right _ _
    · exact (Nat.le_succ _).trans (Nat.le_add_right _ _)

/-- `create_engine` supports the kind, and the page file lets its constructor through. -/
def Creatable (kind : TableEngineKind) (pages : PagesIo) : Prop :=
  kind.storage = .memory ∨ kind.storage = .pages ∧ pages.result = .ok ()

theorem creatable_iff (nextPage : PageId) (id : TableId) (name : String) (kind : TableEngineKind)
    (pages : PagesIo) :
    Creatable kind pages ↔ ∃ engine, (createEngine nextPage id name kind pages).2 = .ok engine := by
  unfold Creatable createEngine
  cases kind.storage with
  | unsupported | memory => simp
  | pages =>
    obtain ⟨taken, e | _⟩ := pages
    · simp
    · simp

/-- `create_table` gives up before it registers anything: the name is taken, there is no engine of the kind,
or the id is taken. -/
def Refuses (tables : Tables) (name : String) (kind : TableEngineKind) (pages : PagesIo) : Prop :=
  (∃ info ∈ tables.catalog, info.name = name) ∨ ¬ Creatable kind pages ∨
    (tables.engines (tables.catalog.length + 1)).isSome

/-- **What `create_table` does**: it refuses, at the cost of some pages, or the table joins the catalog and
the registry, and only then the catalog is written. -/
theorem createTable_cases
    {io : CatalogIo} : (Refuses tables name kind pages ∧ ∃ m e, tables.nextPage ≤ m ∧
      createTable tables name kind pages io = ({ tables with nextPage := m }, .error e)) ∨
    (¬ Refuses tables name kind pages ∧ ∃ m engine,
      createEngine tables.nextPage (tables.catalog.length + 1) name kind pages = (m, .ok engine) ∧
      createTable tables name kind pages io = andThen (persistCatalog { tables with
          nextPage := m
          engines := update tables.engines (tables.catalog.length + 1) (some engine)
          catalog := tables.catalog ++ [⟨tables.catalog.length + 1, name, kind, engine.root⟩] } io)
        fun after () => (after, .ok (tables.catalog.length + 1))) := by
  unfold createTable
  by_cases hname : (tables.catalog.any fun info => info.name = name) = true
  · rw [if_pos hname]
    exact .inl ⟨.inl (by simpa using hname), _, _, le_rfl, rfl⟩
  rw [if_neg hname]
  dsimp only
  have hle := le_createEngine tables.nextPage (tables.catalog.length + 1) name kind pages
  have hcreate := creatable_iff tables.nextPage (tables.catalog.length + 1) name kind pages
  generalize hengine : createEngine tables.nextPage (tables.catalog.length + 1) name kind pages = x
    at hle hcreate ⊢
  obtain ⟨m, e | engine⟩ := x
  · exact .inl ⟨.inr (.inl (by simp [hcreate])), m, _, hle, rfl⟩
  have hat : engine.tableId = tables.catalog.length + 1 := by
    rw [(createEngine_eq_ok hengine).1]
  dsimp only
  rw [register, hat]
  by_cases htaken : (tables.engines (tables.catalog.length + 1)).isSome = true
  · rw [if_pos htaken]
    exact .inl ⟨.inr (.inr htaken), m, _, hle, rfl⟩
  · rw [if_neg htaken]
    refine .inr ⟨?_, m, engine, rfl, rfl⟩
    rintro (hsame | hno | hsome)
    · exact hname (by simpa using hsame)
    · exact hno (hcreate.mpr ⟨engine, rfl⟩)
    · exact htaken hsome

theorem Consistent.grow (h : Consistent tables) (hle : tables.nextPage ≤ m) :
    Consistent { tables with nextPage := m } :=
  ⟨h.listed.mono hle, h.saved.mono hle, h.registered⟩

variable {io : CatalogIo}

section

variable (h : Consistent tables)
include h

theorem persistCatalog_consistent : Consistent (persistCatalog tables io).1 := by
  have hle : tables.nextPage ≤ if io.allocated then tables.nextPage + 1 else tables.nextPage := by
    split_ifs
    · exact Nat.le_succ _
    · exact le_rfl
  unfold persistCatalog
  generalize (if io.allocated then tables.nextPage + 1 else tables.nextPage) = next at hle ⊢
  obtain ⟨e, reached⟩ | _ := io.write
  · refine ⟨h.listed.mono hle, ?_, h.registered⟩
    dsimp only
    split_ifs
    · exact h.listed.mono hle
    · exact h.saved.mono hle
  · exact ⟨h.listed.mono hle, h.listed.mono hle, h.registered⟩

/-- **A table with an id of its own joins the catalog and the registry.** -/
theorem Consistent.create (hname : ∀ other ∈ tables.catalog, other.name ≠ name)
    (hid : ∀ other ∈ tables.catalog, other.id ≠ tables.catalog.length + 1)
    (hengine : createEngine tables.nextPage (tables.catalog.length + 1) name kind pages =
      (nextPage, .ok engine)) : Consistent { tables with
        nextPage := nextPage
        engines := update tables.engines (tables.catalog.length + 1) (some engine)
        catalog := tables.catalog ++ [⟨tables.catalog.length + 1, name, kind, engine.root⟩] } := by
  have hle := le_createEngine tables.nextPage (tables.catalog.length + 1) name kind pages
  rw [hengine] at hle
  obtain ⟨hself, hroot⟩ := createEngine_eq_ok hengine
  refine ⟨h.listed.snoc ?_ hid hname ?_ ?_, h.saved.mono hle, ?_⟩
  · rcases hroot with ⟨-, -, hlt⟩ | ⟨-, hnone, heq⟩
    · exact .inl hlt
    · exact .inr ⟨hnone, heq.ge⟩
  · intro page hpage
    rcases hroot with ⟨-, hsome, -⟩ | ⟨-, hnone, -⟩
    · exact Option.some.inj (hpage.symm.trans hsome)
    · exact absurd (hpage.symm.trans hnone) (Option.some_ne_none _)
  · rcases hroot with ⟨hkind, hsome, -⟩ | ⟨hkind, hnone, -⟩
    · exact .inl ⟨hkind, Option.isSome_of_eq_some hsome⟩
    · exact .inr ⟨hkind, hnone⟩
  · -- the engine is the one the new entry asks for
    have hnew := h.registered.snoc ⟨tables.catalog.length + 1, name, kind, engine.root⟩ hid
    simpa only [TableInfo.ownEngine, ← hself] using hnew

theorem createTable_consistent :
    Consistent (createTable tables name kind pages io).1 := by
  rcases createTable_cases with
    ⟨-, m, e, hle, href⟩ | ⟨hnot, m, engine, hengine, hcreated⟩
  · rw [href]
    exact h.grow hle
  · rw [hcreated]
    refine andThen_fst (P := Consistent) (persistCatalog_consistent (h.create ?_ ?_ hengine))
      fun _ _ _ h' => h'
    · exact fun other hother hsame => hnot (.inl ⟨other, hother, hsame⟩)
    · intro other hother hsame
      exact hnot (.inr (.inr ((h.registered.isSome_iff _).mpr ⟨other, hother, hsame⟩)))

end

theorem dropTable_consistent {table : TableId} (h : Consistent tables) :
    Consistent (dropTable tables table io).1 := by
  unfold dropTable
  cases hfind : tables.catalog.find? fun info => info.id = table with
  | none => exact h
  | some info =>
    have hid : info.id = table := by simpa using find?_some hfind
    have hinfo : info ∈ tables.catalog := mem_of_find?_eq_some hfind
    refine persistCatalog_consistent ⟨h.listed.filter, h.saved, ?_⟩
    rw [← hid]
    exact h.registered.drop h.listed hinfo

theorem recoverEngine_eq_ok {io : ReopenIo} (hstored : (info.engine.storage = .pages ∧ info.root.isSome) ∨
      (info.engine.storage = .memory ∧ info.root = none))
    (h : recoverEngine tables io info = (nextPage, .ok engine)) :
    nextPage = tables.nextPage ∧ engine = info.ownEngine := by
  obtain ⟨id, name, kind, root⟩ := info
  rcases hstored with ⟨hkind, hsome⟩ | ⟨hkind, rfl⟩
  · obtain ⟨root, rfl⟩ := Option.isSome_iff_exists.mp hsome
    have hkind : kind.storage = .pages := hkind
    simp only [recoverEngine, openEngine, hkind] at h
    split at h
    · cases h
    · rename_i hopen
      split_ifs at hopen
      · cases hopen
        cases h
        exact ⟨rfl, rfl⟩
      · split at hopen
        · cases hopen
        · cases hopen
          cases h
          exact ⟨rfl, rfl⟩
  · have hkind : kind.storage = .memory := hkind
    simp only [recoverEngine, createEngine, hkind] at h
    cases h
    exact ⟨rfl, rfl⟩

/-- **The entries of the catalog page are taken up one after the other.** -/
theorem recoverTables_consistent {io : ReopenIo} {done todo page : List TableInfo}
    (hlisted : Listed n (done ++ todo)) (hpage : Listed n page) (hregistered : Registered engines done)
    (h : todo.foldlM (fun tables info => recoverTable tables io info) ⟨done, page, engines, n⟩ =
      .ok tables) : Consistent tables := by
  induction todo generalizing done engines with
  | nil =>
    cases h
    exact ⟨by simpa using hlisted, hpage, hregistered⟩
  | cons info todo ih =>
    have hsplit : done ++ info :: todo = (done ++ [info]) ++ todo := by simp
    have hnew : ∀ other ∈ done, other.id ≠ info.id ∧ other.name ≠ info.name := by
      intro other hother
      have hids := hlisted.ids
      have hnames := hlisted.names
      rw [map_append, nodup_append] at hids hnames
      exact ⟨hids.2.2 _ (mem_map_of_mem hother) _ (by simp), hnames.2.2 _ (mem_map_of_mem hother) _ (by simp)⟩
    rw [foldlM_cons] at h
    unfold recoverTable at h
    generalize hengine : recoverEngine ⟨done, page, engines, n⟩ io info = x at h
    obtain ⟨nextPage, e | engine⟩ := x
    · cases h
    obtain ⟨rfl, rfl⟩ := recoverEngine_eq_ok (hlisted.stored info (by simp)) hengine
    cases hreg : register engines info.ownEngine with
    | error e => simp [hreg, bind, Except.bind] at h
    | ok engines' =>
      obtain ⟨-, rfl⟩ := register_eq_ok.mp hreg
      have hkeep : (done.filter fun other => other.name ≠ info.name) = done := by
        rw [filter_eq_self]
        intro other hother
        simpa using (hnew other hother).2
      simp only [hreg, hkeep, bind, Except.bind] at h
      rw [hsplit] at hlisted
      exact ih hlisted (hregistered.snoc info fun other hother => (hnew other hother).1) h

theorem reopen_consistent {io : ReopenIo} (h : Consistent tables) : Consistent (reopen tables io).1 := by
  unfold reopen
  split
  · exact h
  cases hrec : recoverCatalog tables io with
  | error e => exact h
  | ok tables' =>
    unfold recoverCatalog at hrec
    split at hrec
    · cases hrec
    · refine recoverTables_consistent (by simpa using h.saved) h.saved ?_ hrec
      simp [Registered]

theorem exec_consistent {call : Call} (h : Consistent tables) : Consistent (exec tables call).1 := by
  cases call with
  | createTable name kind pages io => exact createTable_consistent h
  | dropTable table io => exact dropTable_consistent h
  | reopen io => exact reopen_consistent h

theorem new_consistent : Consistent new := by
  have hnil : Listed 2 [] := ⟨by simp, by simp, by simp, by simp, by simp⟩
  exact persistCatalog_consistent ⟨hnil, hnil, by simp [Registered]⟩

end Invariant

/-! ## Ids and engines -/

/-- The tables have ids of their own, and each id is registered to the engine of its table,
which shares its root page with no other. -/
structure Apart : Prop where
  ids : (tables.catalog.map TableInfo.id).Nodup
  engines : ∀ info ∈ tables.catalog, tables.engines info.id = some info.ownEngine
  roots : ∀ info ∈ tables.catalog, ∀ other ∈ tables.catalog, ∀ page,
    info.root = some page → other.root = some page → info = other

variable {tables}

theorem Consistent.apart (h : Consistent tables) : Apart tables :=
  ⟨h.listed.ids, fun info hinfo => (h.registered _ _).mpr ⟨info, hinfo, rfl, rfl⟩, h.listed.roots⟩

theorem persistCatalog_eq_ok {io : CatalogIo} :
    (persistCatalog tables io).2 = .ok () ↔ io.write = .ok () := by
  unfold persistCatalog
  obtain ⟨e, reached⟩ | _ := io.write
  · simp
  · simp

/-- **A table under a free name is created exactly if its id is free**, given an engine and a
page file that work. -/
theorem createTable_eq_ok (h : Consistent tables)
    (hname : ∀ info ∈ tables.catalog, info.name ≠ name)
    {io : CatalogIo} : (∃ id, (createTable tables name kind pages io).2 = .ok id) ↔
      Creatable kind pages ∧ io.write = .ok () ∧
        ∀ info ∈ tables.catalog, info.id ≠ tables.catalog.length + 1 := by
  have htaken := h.registered.isSome_iff (tables.catalog.length + 1)
  rcases createTable_cases with
    ⟨hrefuses, m, e, -, href⟩ | ⟨hnot, m, engine, -, hcreated⟩
  · rw [href]
    refine iff_of_false (by simp) ?_
    rintro ⟨hcreate, -, hno⟩
    rcases hrefuses with ⟨info, hinfo, hsame⟩ | hnone | hsome
    · exact hname info hinfo hsame
    · exact hnone hcreate
    · obtain ⟨info, hinfo, hid⟩ := htaken.mp hsome
      exact hno info hinfo hid
  · have hcreate : Creatable kind pages := by
      by_contra hnone
      exact hnot (.inr (.inl hnone))
    have hno : ∀ info ∈ tables.catalog, info.id ≠ tables.catalog.length + 1 :=
      fun info hinfo hid => hnot (.inr (.inr (htaken.mpr ⟨info, hinfo, hid⟩)))
    rw [hcreated, ← persistCatalog_eq_ok]
    generalize persistCatalog _ io = x
    obtain ⟨after, e | _⟩ := x
    · simp
    · simpa using ⟨hcreate, hno⟩

/-- **In every history the tables keep apart, and a table under a free name is created exactly
if no table has the id it is given.** -/
theorem tables_apart {trace : List (Call × Answer)} (h : Run exec anyCall new trace tables) :
    Apart tables ∧ ∀ (name : String) (kind : TableEngineKind) (pages : PagesIo) (io : CatalogIo),
      (∀ info ∈ tables.catalog, info.name ≠ name) →
      ((∃ id, (createTable tables name kind pages io).2 = .ok id) ↔ Creatable kind pages ∧ io.write = .ok () ∧
          ∀ info ∈ tables.catalog, info.id ≠ tables.catalog.length + 1) := by
  have hcons : Consistent tables :=
    Run.invariant new_consistent (fun _ _ call h _ => exec_consistent h) h
  exact ⟨hcons.apart, fun name kind pages io hname =>
    createTable_eq_ok hcons hname⟩

/-- A B-tree table created with nothing in its way. -/
def createBTree (name : String) : Call := .createTable name .bTree ⟨0, .ok ()⟩ .works

/-- The tables that calls leave in turn. -/
def after (calls : List Call) : Tables := (execute exec new calls).2

theorem tables_apart_two : (∀ info ∈ (after [createBTree "a", createBTree "b"]).catalog, info.name ≠ "c") ∧
    Apart (after [createBTree "a", createBTree "b"]) ∧
    ∃ id, (createTable (after [createBTree "a", createBTree "b"]) "c" .memory ⟨0, .ok ()⟩
      .works).2 = .ok id := by
  have hrun : Run exec anyCall new _ (after [createBTree "a", createBTree "b"]) :=
    run_execute exec new [createBTree "a", createBTree "b"]
  have hname : ∀ info ∈ (after [createBTree "a", createBTree "b"]).catalog, info.name ≠ "c" := by
    decide
  have hapart := tables_apart hrun
  refine ⟨hname, hapart.1, (hapart.2 "c" .memory ⟨0, .ok ()⟩ .works hname).mpr ?_⟩
  exact ⟨.inl rfl, rfl, by decide⟩

/-- **After a drop the next id is still in use.** Two tables are created and the first is
dropped; a third, under a name no table has, is refused. -/
theorem create_refused_after_drop : ∃ trace, Run exec anyCall new trace
      (after [createBTree "a", createBTree "b", .dropTable 1 .works]) ∧
    (∀ info ∈ (after [createBTree "a", createBTree "b", .dropTable 1 .works]).catalog, info.name ≠ "c") ∧
    (createTable (after [createBTree "a", createBTree "b", .dropTable 1 .works]) "c" .bTree
        ⟨0, .ok ()⟩ .works).2 =
      .error (.other "Failed to register storage engine: Engine TableId(2) is already registered") :=
  ⟨_, run_execute exec new [createBTree "a", createBTree "b", .dropTable 1 .works], by decide, by decide⟩

/-! ## A table that is not created -/

/-- The catalog with its names, the page it was written to and the registry are what they were. -/
def Untouched (tables tables' : Tables) : Prop :=
  tables'.catalog = tables.catalog ∧ tables'.catalogPage = tables.catalogPage ∧
    tables'.engines = tables.engines

/-- **A table that is not created leaves nothing behind** unless it was the catalog page that could not be
written: then it is in the catalog and in the registry. -/
theorem createTable_untouched_iff (tables : Tables) (name : String) (kind : TableEngineKind)
    (pages : PagesIo) (io : CatalogIo) : ((∃ e, (createTable tables name kind pages io).2 = .error e) →
      Untouched tables (createTable tables name kind pages io).1) ↔
    io.write = .ok () ∨ Refuses tables name kind pages := by
  rcases createTable_cases with
    ⟨hrefuses, m, e, -, href⟩ | ⟨hnot, m, engine, -, hcreated⟩
  · rw [href]
    exact iff_of_true (fun _ => ⟨rfl, rfl, rfl⟩) (.inr hrefuses)
  · rw [hcreated, or_iff_left hnot]
    unfold persistCatalog
    cases io.write with
    | ok _ => simp
    | error failed =>
      simp only [andThen_error, Except.error.injEq, exists_eq', true_implies, reduceCtorEq, iff_false]
      rintro ⟨hcatalog, -⟩
      simp at hcatalog

/-- The first table of a database whose catalog page cannot be written: the call fails, and the table is
listed and registered. -/
theorem createTable_untouched_fails :
    let io : CatalogIo := ⟨true, .error ("VFS error: No space left on device", false)⟩
    (∃ e, (createTable new "a" .memory ⟨0, .ok ()⟩ io).2 = .error e) ∧
      (createTable new "a" .memory ⟨0, .ok ()⟩ io).1.catalog = [⟨1, "a", .memory, none⟩] ∧
      ((createTable new "a" .memory ⟨0, .ok ()⟩ io).1.engines 1).isSome ∧
      ¬ Untouched new (createTable new "a" .memory ⟨0, .ok ()⟩ io).1 := by
  refine ⟨⟨_, rfl⟩, rfl, rfl, ?_⟩
  rintro ⟨hcatalog, -⟩
  cases hcatalog

end Tables

end NanoStore.Engine
