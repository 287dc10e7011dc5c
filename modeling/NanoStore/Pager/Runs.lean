import NanoStore.Pager.Reopen
/-!
# Pager — runs

Over every run of calls that are careful — pages are allocated with a type
that is read back, and written only while they are live and only if they
fit their slot — the pager has the live pages and nothing else. A file is
opened again only if no key was used, since `open` takes none, and while
the mapper has room in the superblock, since the rest of it is lost.
-/

namespace NanoStore.Pager

open Steps InPlace

/-- The calls that keep the pages. -/
def Careful (env : Surroundings) (trace : List Event) (s : State) : Action → Prop
  | .allocate pageType => pageType.Known ∧ s.pageMapper.nextVirtualId + 1 < 256 ^ 8
  | .write page => Live (pagesOf trace) page.header.pageId ∧ s.Storable env page
  | .free v => Live (pagesOf trace) v
  | .read v => v ≠ 0
  | .flush | .clear | .sync => True
  | .reopen => s.config.encryptionKey = none ∧ s.pageMapper.mapping.entries.length ≤ 15

namespace State

variable {env : Surroundings} {s s₀ : State} {trace : List Event} {a : Action} {config : PagerConfig}
  {v : ℕ} {c : Contents} {pages : Pages}

/-! ## One call -/

theorem Consistent.sync (h : s.Consistent env pages) :
    ∃ s', s.sync env = (s', .ok ()) ∧ s'.Consistent env pages ∧ s'.config = s.config ∧
      s'.pageMapper.mapping = s.pageMapper.mapping ∧ s'.pageMapper.dirty = false ∧
      (s.pageMapper.dirty = true →
        ∃ page, s'.Holds env 1 page ∧ page.header.encryption = s.config.encryption) := by
  rw [State.sync, h.flushCache, andThen_ok]
  exact h.persistPageMapper

/-- **A file that is opened again has the same pages.** -/
theorem Consistent.reopen (h : s.Consistent env pages) (hkey : s.config.encryptionKey = none)
    (hroom : s.pageMapper.mapping.entries.length ≤ 15) :
    ∃ s', s.exec env .reopen = (s', .ok .done) ∧ s'.Consistent env pages := by
  obtain ⟨s₁, hsync, h₁, hcfg, hmap, hclean, -⟩ := h.sync
  rw [← hcfg] at hkey
  rw [← hmap] at hroom
  obtain ⟨s', hopen, h'⟩ := h₁.openFile hclean hkey hroom
  refine ⟨s', ?_, h'⟩
  rw [exec, hsync, andThen_ok, hopen]

/-- **A careful call keeps the pages.** -/
theorem Consistent.exec (h : s.Consistent env (pagesOf trace)) (hcare : Careful env trace s a) :
    (s.exec env a).1.Consistent env (pagesOf ((a, (s.exec env a).2) :: trace)) := by
  cases a with
  | allocate pageType =>
    obtain ⟨s', hres, h', -⟩ := h.allocatePage hcare.1 hcare.2
    rw [exec, hres, andThen_ok]
    exact h'
  | write page =>
    obtain ⟨s', hres, h'⟩ := h.writePage hcare.1 hcare.2
    obtain ⟨c, hc⟩ := exists_of_live hcare.1
    have hpages : pagesOf ((.write page, .ok .done) :: trace) =
        Function.update (pagesOf trace) page.header.pageId (some page.contents) := by
      rw [pagesOf, hc, Option.map_some]
    rw [exec, hres, andThen_ok, hpages]
    exact h'
  | free v =>
    rcases h.freePage hcare with hfail | ⟨s', hres, h'⟩
    · rw [exec, hfail, andThen_error]
      exact h
    · rw [exec, hres, andThen_ok]
      exact h'
  | read v =>
    have h' := h.readPage hcare
    rcases hres : s.readPage env v with ⟨s', answer⟩
    rw [hres] at h'
    cases answer with
    | error e =>
      rw [exec, hres, andThen_error]
      exact h'
    | ok page =>
      rw [exec, hres, andThen_ok]
      exact h'
  | flush =>
    rw [exec, h.flushCache, andThen_ok]
    exact h
  | clear =>
    obtain ⟨hans, h'⟩ := h.clearCache
    rcases hres : s.clearCache env with ⟨s', answer⟩
    rw [hres] at hans h'
    dsimp only at hans
    rw [exec, hres, hans, andThen_ok]
    exact h'
  | sync =>
    obtain ⟨s', hsync, h', -⟩ := h.sync
    rw [exec, hsync, andThen_ok]
    exact h'
  | reopen =>
    obtain ⟨s', hreopen, h'⟩ := h.reopen hcare.1 hcare.2
    rw [hreopen]
    exact h'

/-! ## Every run -/

section Run

variable (hcreate : create env config = .ok s₀) (hrun : Run (exec env) (Careful env) s₀ trace s)
include hcreate hrun

theorem consistent_of_run : s.Consistent env (pagesOf trace) :=
  hrun.invariant (consistent_create hcreate) fun _ _ _ h hcare => h.exec hcare

/-- A run goes on with an allocation. -/
theorem run_allocate {allocator : Allocator} (halloc : s.toAllocator = allocator)
    (hroom : allocator.pageMapper.nextVirtualId + 1 < 256 ^ 8) : ∃ s', Run (exec env) (Careful env) s₀
        ((.allocate .bTreeLeaf, .ok (.allocated allocator.pageMapper.nextVirtualId)) :: trace) s' ∧
      s'.config = s.config ∧ s'.cache = s.cache ∧ s'.toAllocator = allocator.allocate.1 := by
  subst halloc
  have hcare : Careful env trace s (.allocate .bTreeLeaf) := ⟨by decide, hroom⟩
  obtain ⟨s', hres, -, hkept⟩ := (consistent_of_run hcreate hrun).allocatePage hcare.1 hroom
  exact ⟨s', hrun.call_of_eq hcare (by rw [exec, hres, andThen_ok]), hkept⟩

/-- A run goes on with the end of a page in use. -/
theorem run_free (hc : pagesOf trace v = some c) (hused : c.pageType ≠ .free ∧ c.pageType ≠ .freeList) :
    ∃ s', Run (exec env) (Careful env) s₀ ((.free v, .ok .done) :: trace) s' ∧
      s'.config = s.config ∧ s'.cache = s.cache ∧ s'.toAllocator = s.toAllocator.release v := by
  have hcare : Careful env trace s (.free v) := live_of_eq_some hc
  obtain ⟨s', hres, -, hkept⟩ := (consistent_of_run hcreate hrun).freePage_live hc hused
  exact ⟨s', hrun.call_of_eq hcare (by rw [exec, hres, andThen_ok]), hkept⟩

/-- A run goes on with a write. -/
theorem run_write (page : Page) (hlive : Live (pagesOf trace) page.header.pageId) (hpage : s.Storable env page) :
    ∃ s', Run (exec env) (Careful env) s₀ ((.write page, .ok .done) :: trace) s' ∧
      s'.config = s.config ∧ s'.toAllocator = s.toAllocator := by
  have hcare : Careful env trace s (.write page) := ⟨hlive, hpage⟩
  obtain ⟨file, cache, -, hres, -⟩ := writePage_spec (consistent_of_run hcreate hrun).toIntact hpage
  have hexec : s.exec env (.write page) = ({ s with file, cache, ticks := s.ticks + 1 }, .ok .done) := by
    rw [exec, hres, andThen_ok]
  exact ⟨_, hrun.call_of_eq hcare hexec, rfl, rfl⟩

end Run

theorem allocate_first (config : PagerConfig) (hvalidate : config.validate = .ok ()) :
    ∃ s₀ s, create env config = .ok s₀ ∧ Run (exec env) (Careful env) s₀
        [(.allocate .bTreeLeaf, .ok (.allocated 2))] s ∧ s.config = config ∧ s.cache = newCache config ∧
      s.toAllocator = (Allocator.allocate ⟨.new, .new, newMapper .new⟩).1 := by
  obtain ⟨s₀, hcreate, -, hcfg, hcache, halloc⟩ := create_spec hvalidate
  obtain ⟨s, hrun, hcfg', hcache', halloc'⟩ := run_allocate hcreate .nil halloc (by decide)
  exact ⟨s₀, s, hcreate, hrun, hcfg'.trans hcfg, hcache'.trans hcache, halloc'⟩

/-- **After every careful run, a live page is read as it was last written.** -/
theorem readPage_of_run (hcreate : create env config = .ok s₀)
    (hrun : Run (exec env) (Careful env) s₀ trace s) (hv : pagesOf trace v = some c) :
    ∃ page, (s.readPage env v).2 = .ok page ∧ page.contents = c :=
  (consistent_of_run hcreate hrun).toStores.readPage hv

/-- A file of 4096-byte pages, with no cache. -/
def smallConfig (encryption : EncryptionType) (encryptionKey : Option Bytes) : PagerConfig :=
  ⟨.size4KB, .none, encryption, encryptionKey, true, 0, false⟩

/-- A page that is allocated and written is read. -/
theorem readPage_of_run_written : ∃ s₀ s trace, create .plain (smallConfig .none none) = .ok s₀ ∧
    Run (exec .plain) (Careful .plain) s₀ trace s ∧ pagesOf trace 2 = some ⟨.bTreeLeaf, [1, 2, 3]⟩ ∧
    ∃ page, (s.readPage .plain 2).2 = .ok page ∧ page.contents = ⟨.bTreeLeaf, [1, 2, 3]⟩ := by
  obtain ⟨s₀, s, hcreate, hrun, hcfg, -⟩ := allocate_first (smallConfig .none none) rfl
  obtain ⟨s', hrun', -⟩ := run_write hcreate hrun { Page.new 2 .bTreeLeaf with data := [1, 2, 3] }
    (by decide) ⟨by decide, by decide, by decide, by decide, [1, 2, 3], rfl, by
      rw [pageSize, hcfg]
      decide⟩
  exact ⟨s₀, s', _, hcreate, hrun', rfl, readPage_of_run hcreate hrun' rfl⟩

/-! ## A page that is too long -/

/-- **A page whose image is longer than its slot is lost.** With no cache the write succeeds, and the page
cannot be read. -/
theorem Consistent.writePage_oversized (h : s.Consistent env pages) (hcache : s.cache = none) (page : Page)
    (hlive : Live pages page.header.pageId) (hknown : page.header.pageType.Known)
    (hfits : page.header.pageId < 256 ^ 8 ∧ page.header.virtualPageId < 256 ^ 8 ∧ page.data.length < 256 ^ 4)
    (stored : Bytes)
    (hstored : env.crates.sealData s.config.encryptionKey (env.nonce s.ticks) page.header.compression
      page.header.encryption page.data = .ok stored)
    (hlong : s.pageSize - 32 < 32 + stored.length) (hsmall : stored.length < 256 ^ 4) :
    ∃ s' details, s.writePage env page = (s', .ok ()) ∧
      (s'.readPage env page.header.pageId).2 = .error (.invalidDataLength page.header.pageId details) := by
  let bytes := Page.image env.crates s.pageSize (page.withSizes stored).header stored
  let s' := { s with ticks := s.ticks + 1 }.writeAt (s.slotOf page.header.pageId) bytes
  have hsize := s.le_pageSize
  have hslot := (h.live_slot _ hlive).2
  have hend := h.slot_le hslot
  have hhdr : (page.withSizes stored).header.Fits := ⟨hfits.1, hfits.2.2, hsmall, hfits.2.1⟩
  obtain ⟨details, hread⟩ : ∃ details, Page.fromBytes env.crates s.config.encryptionKey
      s.config.enableChecksums (bytes.take s.pageSize) = .error (.invalidDataLength page.header.pageId details) :=
    Page.fromBytes_take_image hhdr hknown rfl (by omega) hlong
  have hlen : s.pageSize ≤ bytes.length := by
    simp only [bytes, Page.image, Page.checksum, List.length_append, PageHeader.length_toBytes,
      List.length_replicate, env.crates.length_sha256]
    omega
  have hwrite : s.writePage env page = (s', .ok ()) := by
    rw [State.writePage, hcache]
    dsimp only
    rw [writePageToDisk, storePage, Page.toBytes, hstored]
  have hfile : (s.slotOf page.header.pageId + 1) * s.pageSize ≤ s'.file.length :=
    Nat.le_trans hend (by rw [show s'.file = overwrite 0 s.file _ bytes from rfl, length_overwrite]; omega)
  have hbytes : readAt 0 s'.file (s.slotOf page.header.pageId * s.pageSize) s.pageSize = bytes.take s.pageSize := by
    rw [readAt_eq_slot hfile]
    exact slot_overwrite_of_le hlen
  have hload : s'.loadPage env (s.slotOf page.header.pageId) =
      .error (.invalidDataLength page.header.pageId details) := by
    rw [← hread, ← hbytes]
    rfl
  refine ⟨s', details, hwrite, ?_⟩
  have htot : ¬ s'.superblock.totalPages ≤ s'.pageMapper.translate page.header.pageId := Nat.not_le.mpr hslot
  have hnone : s'.cache = none := hcache
  rw [State.readPage, if_neg htot, hnone]
  dsimp only
  rw [readUncached]
  simp [show s'.loadPage env (s'.pageMapper.translate page.header.pageId) = _ from hload]

/-- 4096 bytes are written to a page of 4096 bytes, which has room for 4032 of them. -/
theorem readPage_oversized : ∃ s₀ s page details, create .plain (smallConfig .none none) = .ok s₀ ∧
    Run (exec .plain) anyCall s₀ [(.write page, .ok .done), (.allocate .bTreeLeaf, .ok (.allocated 2))] s ∧
    pagesOf [(.write page, .ok .done), (.allocate .bTreeLeaf, .ok (.allocated 2))] 2 =
      some ⟨.bTreeLeaf, List.replicate 4096 0⟩ ∧
    (s.readPage .plain 2).2 = .error (.invalidDataLength 2 details) := by
  obtain ⟨s₀, s, hcreate, hrun, hcfg, hcache, -⟩ :=
    allocate_first (smallConfig .none none) rfl
  let page : Page := { Page.new 2 .bTreeLeaf with data := List.replicate 4096 0 }
  have hlen : (List.replicate 4096 (0 : Byte)).length = 4096 := List.length_replicate
  obtain ⟨s', details, hwrite, hread⟩ := (consistent_of_run hcreate hrun).writePage_oversized hcache
    page (by decide) (by decide) ⟨by decide, by decide, by dsimp only [page]; omega⟩
    (List.replicate 4096 0) rfl (by rw [pageSize, hcfg, hlen]; decide) (by omega)
  have hexec : s.exec .plain (.write page) = (s', .ok .done) := by
    rw [exec, hwrite, andThen_ok]
  have hany : Run (exec .plain) anyCall s₀ _ s := hrun.mono fun _ _ _ _ => trivial
  exact ⟨s₀, s', page, details, hcreate, hany.call_of_eq trivial hexec, rfl, hread⟩

/-! ## Reopening -/

/-- **After every careful run the file can be opened again**, if no key was used and the mapper fits the
superblock. Whatever careful calls follow, every live page is read as it was last written, and the next
allocation gives neither the number nor the slot of a live page. -/
theorem reopen_of_run (hcreate : create env config = .ok s₀)
    (hrun : Run (exec env) (Careful env) s₀ trace s) (hkey : s.config.encryptionKey = none)
    (hroom : s.pageMapper.mapping.entries.length ≤ 15) : (s.exec env .reopen).2 = .ok .done ∧
      ∀ later s', Run (exec env) (fun later => Careful env (later ++ trace)) (s.exec env .reopen).1 later s' →
        (∀ v c, pagesOf (later ++ trace) v = some c →
          ∃ page, (s'.readPage env v).2 = .ok page ∧ page.contents = c) ∧
        ∀ v, Live (pagesOf (later ++ trace)) v →
          s'.toAllocator.allocate.2.1 ≠ v ∧ s'.toAllocator.allocate.2.2 ≠ s'.slotOf v := by
  obtain ⟨s₁, hreopen, h₁⟩ := (consistent_of_run hcreate hrun).reopen hkey hroom
  rw [hreopen]
  refine ⟨rfl, fun later s' hlater => ?_⟩
  have h' : s'.Consistent env (pagesOf (later ++ trace)) :=
    hlater.invariant h₁
      fun _ _ _ h hcare => h.exec hcare
  refine ⟨fun v c hv => h'.toStores.readPage hv, fun v hv => ?_⟩
  have hgrant := h'.sound.granted
  have hlt := (h'.sound.live_lt v hv).2
  have hvirt := hgrant.virtual
  exact ⟨by omega, (hgrant.slot_ne v hv).symm⟩

/-- Page 2 is freed and page 4 gets its slot and is written. The file is opened again: page 4 is read as it
was written, and the next allocation gives neither its number nor its slot. -/
theorem reopen_of_run_reused : ∃ s₀ s s' trace, create .plain (smallConfig .none none) = .ok s₀ ∧
    Run (exec .plain) (Careful .plain) s₀ trace s ∧ pagesOf trace 4 = some ⟨.bTreeLeaf, [1, 2, 3]⟩ ∧
    s.slotOf 4 = 2 ∧ s.exec .plain .reopen = (s', .ok .done) ∧
    (∃ page, (s'.readPage .plain 4).2 = .ok page ∧ page.contents = ⟨.bTreeLeaf, [1, 2, 3]⟩) ∧
    s'.toAllocator.allocate.2.1 ≠ 4 ∧ s'.toAllocator.allocate.2.2 ≠ s'.slotOf 4 := by
  obtain ⟨s₀, s₁, hcreate, hrun₁, hcfg₁, -, halloc₁⟩ := allocate_first (smallConfig .none none) rfl
  obtain ⟨s₂, hrun₂, hcfg₂, -, halloc₂⟩ := run_allocate hcreate hrun₁ halloc₁ (by decide)
  obtain ⟨s₃, hrun₃, hcfg₃, -, halloc₃⟩ :=
    run_free hcreate hrun₂ (v := 2) (c := ⟨.bTreeLeaf, []⟩) rfl (by decide)
  rw [halloc₂] at halloc₃
  obtain ⟨s₄, hrun₄, hcfg₄, -, halloc₄⟩ := run_allocate hcreate hrun₃ halloc₃ (by decide)
  have hcfg : s₄.config = smallConfig .none none := by rw [hcfg₄, hcfg₃, hcfg₂, hcfg₁]
  obtain ⟨s, hrun, hcfg', halloc⟩ := run_write hcreate hrun₄ { Page.new 4 .bTreeLeaf with
    data := [1, 2, 3] } (by decide) ⟨by decide, by decide, by decide, by decide, [1, 2, 3], rfl, by
      rw [pageSize, hcfg]
      decide⟩
  rw [halloc₄] at halloc
  obtain ⟨hans, hlater⟩ := reopen_of_run hcreate hrun (by rw [hcfg', hcfg]; rfl) (by rw [halloc]; decide)
  obtain ⟨hread, hallocate⟩ := hlater [] _ .nil
  exact ⟨s₀, s, _, _, hcreate, hrun, rfl, by rw [halloc]; decide, Prod.ext rfl hans, hread 4 _ rfl,
    hallocate 4 (by decide)⟩

/-- **A pager with encryption cannot be opened again** once its mapper was stored: the superblock is
encrypted, and `open` takes no key. -/
theorem Consistent.reopen_encrypted (h : s.Consistent env pages) (hdirty : s.pageMapper.dirty = true)
    (henc : s.config.encryption ≠ .none) :
    ∃ s' id, s.exec env .reopen = (s', .error (.ofSeal id .missingKey)) := by
  obtain ⟨s₁, hsync, h₁, hcfg, -, -, hsuper⟩ := h.sync
  obtain ⟨page, hholds, hsealed⟩ := hsuper hdirty
  obtain ⟨header, hfitting, hslot⟩ := h₁.described.header
  obtain ⟨back, hfront⟩ := h₁.readAt_header hfitting.toSized hslot
  obtain ⟨header', hhdr, -, hpageSize, -⟩ := FileHeader.fromBytes_toBytes_append hfitting.toSized
  have hsize : header'.pageSize.toU32 = s₁.pageSize := by rw [hpageSize, hfitting.pageSize, pageSize]
  have hsecond := h₁.readAt_second
  have hread := Page.fromBytes_without_key hholds.read (by rw [hsealed]; exact henc)
  have hopen : State.openFile env s₁.ticks s₁.file = .error (.ofSeal page.header.pageId .missingKey) := by
    rw [State.openFile, hfront, hhdr]
    simp [hsize, hsecond, hread]
  refine ⟨s₁, page.header.pageId, ?_⟩
  rw [State.exec, hsync, andThen_ok, hopen]

/-- A file with a key, one page and a sync. -/
theorem reopen_with_key : ∃ s₀ s s' id,
    create .plain (smallConfig .aes256Gcm (some (List.replicate 32 0))) = .ok s₀ ∧
    Run (exec .plain) (Careful .plain) s₀ [(.allocate .bTreeLeaf, .ok (.allocated 2))] s ∧
    (s.sync .plain).2 = .ok () ∧ s.exec .plain .reopen = (s', .error (.ofSeal id .missingKey)) := by
  obtain ⟨s₀, s, hcreate, hrun, hcfg, -, halloc⟩ :=
    allocate_first (smallConfig .aes256Gcm (some (List.replicate 32 0))) rfl
  have h := consistent_of_run hcreate hrun
  obtain ⟨s₁, hsync, -⟩ := h.sync
  have hdirty : s.pageMapper.dirty = true := by
    rw [halloc]
    rfl
  obtain ⟨s', id, hreopen⟩ := h.reopen_encrypted hdirty (by rw [hcfg]; decide)
  exact ⟨s₀, s, s', id, hcreate, hrun, by rw [hsync], hreopen⟩

end State

end NanoStore.Pager
