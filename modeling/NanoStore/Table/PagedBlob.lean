import NanoStore.Pager.Plain
import NanoStore.Pager.Runs
import NanoStore.Table.Blob
/-!
# Blobs in pages

`PagedBlob` of `table/blob/paged.rs`: a value is cut into chunks, each in
a page of its own behind the number of the next page. The last chunk is
filled up with zeros, and what is read of a value is the payload of all of
its pages: the size in the metadata is not looked at. A deletion is
metadata with page number 0, and that page is read like any other.

A value that was put and committed is read back exactly if it fills its
pages and is not empty; after a deletion nothing is read exactly if the
key had no version (`get_put_iff`). The loop of a read has no bound in the
source; here it has as many steps as it is given.
-/

namespace NanoStore.Table

open Steps Txn LittleEndian Pager Function List State

/-- `BlobMetadata` of linked pages. -/
structure PagedMetadata where
  firstPageId : ℕ
  size : ℕ
  pageCount : ℕ
  deriving DecidableEq

/-- The errors of a `PagedBlob`. `outOfFuel` is none of them: the loop was not followed to its end. -/
inductive PagedBlobError
  | pager (cause : PagerError)
  | corruption (location corruptionType details : String)
  | notInline
  | deserialize
  | panicked
  | outOfFuel
  deriving DecidableEq

/-- `PagedBlob`: a pager and the chains. -/
structure PagedBlob where
  pager : State
  rootPageId : ℕ
  index : BlobChains

namespace PagedBlob

variable (env : Surroundings)

/-! ## Pages of a value -/

/-- What a call of the pager comes to. -/
def onPager {α : Type} (x : Outcome State PagerError α) : Outcome State PagedBlobError α :=
  (x.1, x.2.mapError .pager)

/-- The data of a chain of pages. -/
def readBlobData : ℕ → State → ℕ → Outcome State PagedBlobError Bytes
  | 0, s, _ => (s, .error .outOfFuel)
  | fuel + 1, s, pageId =>
    andThen (onPager (s.readPage env pageId)) fun s page =>
      if page.data.length < 8 then
        (s, .error (.corruption "PagedBlob::read_blob_data" "page_too_small"
          "Page data is too small to contain next page ID")) else
        let nextPageId := decode (page.data.take 8)
        if nextPageId = 0 then (s, .ok (page.data.drop 8))
        else andThen (readBlobData fuel s nextPageId) fun s rest => (s, .ok (page.data.drop 8 ++ rest))

/-- The data of a page: the number of the next page, and a chunk, filled up with zeros. -/
def pageData (pageDataSize nextPageId : ℕ) (chunk : Bytes) : Bytes :=
  encode 8 nextPageId ++ (chunk ++ replicate (pageDataSize - 8 - chunk.length) 0)

/-- A page with a chunk, the last one for now. -/
def chunkPage (pageDataSize pageId : ℕ) (chunk : Bytes) : Page :=
  { Page.new pageId .overflow with data := pageData pageDataSize 0 chunk }

/-- The number of the next page is entered in a page. -/
def linkPage (prevId pageId : ℕ) (s : State) : Outcome State PagedBlobError Unit :=
  andThen (onPager (s.readPage env prevId)) fun s prevPage =>
    if prevPage.data.length < 8 then (s, .error .panicked)
    else onPager (s.writePage env { prevPage with data := encode 8 pageId ++ prevPage.data.drop 8 })

/-- A chunk goes to a new page. -/
def newChunkPage (chunk : Bytes) (s : State) : Outcome State PagedBlobError ℕ :=
  let pageDataSize := s.config.pageSize.dataSize
  andThen (onPager (s.allocatePage env .overflow)) fun s pageId =>
    andThen (onPager (s.writePage env (chunkPage pageDataSize pageId chunk))) fun s _ => (s, .ok pageId)

/-- A value in pieces of a page each. -/
def chunks (payload : ℕ) : ℕ → Bytes → List Bytes
  | 0, _ => []
  | fuel + 1, value =>
    if value = [] then [] else value.take payload :: chunks payload fuel (value.drop payload)

/-- The loop of `write_blob_data`: the number of the first page and how many there are. -/
def writeChunks : List Bytes → Option ℕ → Option ℕ → ℕ → State → Outcome State PagedBlobError (Option ℕ × ℕ)
  | [], firstPageId, _, pageCount, s => (s, .ok (firstPageId, pageCount))
  | chunk :: rest, firstPageId, prevPageId, pageCount, s =>
    andThen (newChunkPage env chunk s) fun s pageId =>
      andThen (match prevPageId with
        | none => (s, .ok ())
        | some prevId => linkPage env prevId pageId s) fun s _ =>
        writeChunks rest (some (firstPageId.getD pageId)) (some pageId) (pageCount + 1) s

/-- `write_blob_data`: the pieces, each on a page that names the next. -/
def writeBlobData (value : Bytes) (s : State) : Outcome State PagedBlobError PagedMetadata :=
  let payload := s.config.pageSize.dataSize - 8
  andThen (writeChunks env (chunks payload value.length value) none none 0 s) fun s (firstPageId, pageCount) =>
    match firstPageId with
    | some firstPageId => (s, .ok ⟨firstPageId, value.length, pageCount⟩)
    | none => andThen (newChunkPage env [] s) fun s pageId => (s, .ok ⟨pageId, value.length, 1⟩)

/-! ## Calls -/

variable (postcard : Postcard PagedMetadata) (table : PagedBlob)

def readVersion (fuel : ℕ) : VersionValue → Outcome PagedBlob PagedBlobError (Option Bytes)
  | .external _ => (table, .error .notInline)
  | .inline metadataBytes =>
    match postcard.decode metadataBytes with
    | none => (table, .error .deserialize)
    | some metadata =>
      let (pager, result) := readBlobData env fuel table.pager metadata.firstPageId
      ({ table with pager := pager }, result.map some)

/-- `get`: the newest committed version. -/
def get (fuel : ℕ) (key : Key) : Outcome PagedBlob PagedBlobError (Option Bytes) :=
  match ((table.index.lookup key).getD []).find? fun v => v.commitLsn.isSome with
  | none => (table, .ok none)
  | some v => table.readVersion env postcard fuel v.value

/-- `get_snapshot`. -/
def getSnapshot (fuel : ℕ) (key : Key) (snapshot : Snapshot) : Outcome PagedBlob PagedBlobError (Option Bytes) :=
  match VersionChain.findVisibleVersion snapshot ((table.index.lookup key).getD []) with
  | none => (table, .ok none)
  | some value => table.readVersion env postcard fuel value

/-- `put_tx`: first the pages, then the version. -/
def putTx (key value : Bytes) (txId : TransactionId) : Outcome PagedBlob PagedBlobError ℕ :=
  match writeBlobData env value table.pager with
  | (pager, .error e) => ({ table with pager := pager }, .error e)
  | (pager, .ok metadata) =>
    ({ table with pager := pager, index := table.index.prepend key (postcard.encode metadata) txId },
      .ok value.length)

/-- The metadata of a deletion. -/
def tombstone : PagedMetadata := ⟨0, 0, 0⟩

def deleteTx (key : Key) (txId : TransactionId) : PagedBlob × Bool :=
  match table.index.lookup key with
  | none => (table, false)
  | some _ => ({ table with index := table.index.prepend key (postcard.encode tombstone) txId }, true)

def commitVersions (txId : TransactionId) (commitLsn : ℕ) : PagedBlob :=
  { table with index := table.index.commitVersions txId commitLsn }

/-! ## Chunks -/

variable {fuel : ℕ} {value chunk : Bytes} {cs : List Bytes} {payload : ℕ}

/-- A chunk as its page holds it. -/
def padded (payload : ℕ) (chunk : Bytes) : Bytes := chunk ++ replicate (payload - chunk.length) 0

/-- The chunks the pages of a value have: an empty value has a page too. -/
def valueChunks (payload : ℕ) (value : Bytes) : List Bytes :=
  if value = [] then [[]] else chunks payload value.length value

theorem length_padded (h : chunk.length ≤ payload) : (padded payload chunk).length = payload := by
  rw [padded, length_append, length_replicate]
  omega

theorem length_of_mem_chunks (h : chunk ∈ chunks payload fuel value) : chunk.length ≤ payload := by
  induction fuel generalizing value with
  | zero => cases h
  | succ fuel ih =>
    rw [chunks] at h
    split_ifs at h
    · cases h
    · rcases mem_cons.mp h with rfl | hrest
      · exact length_take_le _ _
      · exact ih hrest

theorem length_of_mem_valueChunks (h : chunk ∈ valueChunks payload value) : chunk.length ≤ payload := by
  rw [valueChunks] at h
  split_ifs at h
  · obtain rfl := mem_singleton.mp h
    exact Nat.zero_le _
  · exact length_of_mem_chunks h

theorem flatMap_chunks (hpay : 0 < payload) (hfuel : value.length ≤ fuel) (hdvd : payload ∣ value.length) :
    (chunks payload fuel value).flatMap (padded payload) = value := by
  induction fuel generalizing value with
  | zero =>
    obtain rfl := length_eq_zero_iff.mp (Nat.le_zero.mp hfuel)
    rfl
  | succ fuel ih =>
    rw [chunks]
    split_ifs with hemp
    · rw [hemp, flatMap_nil]
    · have hle : payload ≤ value.length := Nat.le_of_dvd (length_pos_iff.mpr hemp) hdvd
      have hfull : padded payload (value.take payload) = value.take payload := by
        rw [padded, length_take_of_le hle, Nat.sub_self, replicate_zero, append_nil]
      have hrest : (value.drop payload).length = value.length - payload := length_drop
      rw [flatMap_cons, hfull, ih (by omega) (by rw [hrest]; exact Nat.dvd_sub hdvd dvd_rfl),
        take_append_drop]

theorem length_flatMap_padded (h : ∀ c ∈ cs, c.length ≤ payload) :
    (cs.flatMap (padded payload)).length = cs.length * payload := by
  induction cs with
  | nil => rw [flatMap_nil, length_nil, length_nil, Nat.zero_mul]
  | cons c cs ih =>
    rw [flatMap_cons, length_append, length_padded (h c mem_cons_self),
      ih fun c hc => h c (mem_cons_of_mem _ hc), length_cons, Nat.succ_mul, Nat.add_comm]

/-- **The pages of a value hold exactly the value if it fills them and is not empty.** -/
theorem flatMap_valueChunks_iff (hpay : 0 < payload) :
    (valueChunks payload value).flatMap (padded payload) = value ↔ value ≠ [] ∧ payload ∣ value.length := by
  constructor
  · intro heq
    have hlen := length_flatMap_padded fun c (hc : c ∈ valueChunks payload value) =>
      length_of_mem_valueChunks hc
    rw [heq] at hlen
    refine ⟨?_, Dvd.intro_left _ hlen.symm⟩
    rintro rfl
    rw [valueChunks, if_pos rfl] at hlen
    simp only [length_nil, length_cons, Nat.zero_add, Nat.one_mul] at hlen
    omega
  · rintro ⟨hne, hdvd⟩
    rw [valueChunks, if_neg hne]
    exact flatMap_chunks hpay le_rfl hdvd

/-! ## Linked pages -/

variable {pages : Pages} {s : State} {size : ℕ} {env} {v : ℕ}

/-- The pages from a page on hold the chunks. -/
inductive Linked (size : ℕ) (pages : Pages) : ℕ → List Bytes → Prop
  | last {v : ℕ} {c : Bytes} (h : pages v = some ⟨.overflow, pageData size 0 c⟩) : Linked size pages v [c]
  | cons {v next : ℕ} {c : Bytes} {cs : List Bytes} (h : pages v = some ⟨.overflow, pageData size next c⟩)
      (hnext : next ≠ 0) (hlt : next < 256 ^ 8) (hrest : Linked size pages next cs) :
      Linked size pages v (c :: cs)

theorem le_length_pageData (next : ℕ) (c : Bytes) : ¬ (pageData size next c).length < 8 := by
  rw [pageData, length_append, length_encode]
  omega

theorem take_pageData (next : ℕ) (c : Bytes) : (pageData size next c).take 8 = encode 8 next :=
  take_left' length_encode

theorem drop_pageData (next : ℕ) (c : Bytes) : (pageData size next c).drop 8 = padded (size - 8) c :=
  drop_left' length_encode

theorem onPager_ok {α : Type} (a : α) : onPager (s, .ok a) = (s, .ok a) := rfl

theorem readPage_live (h : s.Consistent env pages) {c : Contents} (hv : pages v = some c) :
    ∃ s' page, s.readPage env v = (s', .ok page) ∧ s'.Consistent env pages ∧ page.data = c.data := by
  have htwo := (h.sound.live_lt v (live_of_eq_some hv)).1
  have hcons := h.readPage (show v ≠ 0 by omega)
  obtain ⟨page, hpage, hconts⟩ := h.toStores.readPage hv
  rcases hread : s.readPage env v with ⟨s', r⟩
  rw [hread] at hpage hcons
  obtain rfl : r = .ok page := hpage
  exact ⟨s', page, rfl, hcons, congrArg Contents.data hconts⟩

/-- **What is read from linked pages**: their payload, if the loop is followed to its end. -/
theorem readBlobData_of_linked (hlinked : Linked size pages v cs) (fuel : ℕ) (h : s.Consistent env pages) :
    (readBlobData env fuel s v).2 =
      if cs.length ≤ fuel then .ok (cs.flatMap (padded (size - 8))) else .error .outOfFuel := by
  -- over the pages, with the number of steps that are left
  induction hlinked generalizing fuel s with
  | @last v c hv =>
    cases fuel with
    | zero => rfl
    | succ fuel =>
      obtain ⟨s', page, hread, -, hdata⟩ := readPage_live h hv
      rw [readBlobData, hread, onPager_ok, andThen_ok, hdata, if_neg (le_length_pageData _ _)]
      simp only [take_pageData, drop_pageData]
      rw [if_pos (decode_encode_of_lt (by norm_num)), if_pos (by simp)]
      simp
  | @cons v next c cs hv hnext hlt hrest ih =>
    cases fuel with
    | zero => rfl
    | succ fuel =>
      obtain ⟨s', page, hread, h', hdata⟩ := readPage_live h hv
      rw [readBlobData, hread, onPager_ok, andThen_ok, hdata, if_neg (le_length_pageData _ _)]
      simp only [take_pageData, drop_pageData, decode_encode_of_lt hlt]
      rw [if_neg hnext]
      have hloop := ih fuel h'
      rcases hread' : readBlobData env fuel s' next with ⟨s'', r⟩
      rw [hread'] at hloop
      obtain rfl : r = _ := hloop
      by_cases hle : cs.length ≤ fuel
      · rw [if_pos hle, andThen_ok, if_pos (by simpa using hle), flatMap_cons]
      · rw [if_neg hle, andThen_error, if_neg (by simpa using hle)]

/-! ## Writing a value -/

/-- The bytes of data a page has. -/
def dataSize (s : State) : ℕ := s.config.pageSize.dataSize

variable {c : Bytes}

theorem length_pageData {next : ℕ} (hsize : 8 ≤ size) (h : c.length ≤ size - 8) :
    (pageData size next c).length = size := by
  rw [pageData, length_append, length_encode]
  have hpadded := length_padded h
  rw [padded] at hpadded
  omega

theorem dataSize_eq : dataSize s = s.pageSize - 64 := by
  rw [dataSize, PageSize.dataSize, pageSize]
  omega

theorem le_dataSize (s : State) : 4032 ≤ dataSize s := by
  have hle := s.le_pageSize
  rw [dataSize_eq]
  omega

/-- **A new page for a chunk.** -/
theorem newChunkPage_spec (h : s.Consistent env pages) (hchunk : chunk.length ≤ dataSize s - 8)
    (hroom : s.pageMapper.nextVirtualId + 1 < 256 ^ 8) :
    ∃ s', newChunkPage env chunk s = (s', .ok s.pageMapper.nextVirtualId) ∧
      s'.Consistent env (update pages s.pageMapper.nextVirtualId
        (some ⟨.overflow, pageData (dataSize s) 0 chunk⟩)) ∧
      s'.config = s.config ∧ s'.pageMapper.nextVirtualId = s.pageMapper.nextVirtualId + 1 ∧
      s'.PlainAt env s.pageMapper.nextVirtualId ∧ ∀ v, Live pages v → s.PlainAt env v → s'.PlainAt env v := by
  have hknown : PageType.overflow.Known := by decide
  obtain ⟨s₁, hallocate, h₁, hcfg₁, hnext₁, hplain₁⟩ := h.allocatePlain hknown hroom
  let page := chunkPage (dataSize s) s.pageMapper.nextVirtualId chunk
  have hsize₁ : s₁.pageSize = s.pageSize := by rw [pageSize, hcfg₁, pageSize]
  have hlen : page.data.length ≤ s₁.pageSize - 64 := by
    rw [hsize₁, ← dataSize_eq]
    exact (length_pageData (by have := le_dataSize s; omega) hchunk).le
  have hplain : page.Plain := ⟨rfl, rfl⟩
  have hstor : s₁.Storable env page := storable_of_plain hplain
    (show s.pageMapper.nextVirtualId < 256 ^ 8 by omega) (show 0 < 256 ^ 8 by norm_num) hknown hlen
  have hlive : Live (update pages s.pageMapper.nextVirtualId (some ⟨.overflow, []⟩)) page.header.pageId :=
    live_update_some.mpr (.inl rfl)
  obtain ⟨s₂, hwrite, h₂, hcfg₂, halloc₂, hself, hothers⟩ := h₁.writePlain hlive hplain hstor
  rw [show page.header.pageId = s.pageMapper.nextVirtualId from rfl, update_idem] at h₂
  refine ⟨s₂, ?_, h₂, hcfg₂.trans hcfg₁, ?_, hself, fun v hv hold => ?_⟩
  · rw [newChunkPage, hallocate, onPager_ok, andThen_ok]
    show andThen (onPager (s₁.writePage env page)) _ = _
    rw [hwrite, onPager_ok, andThen_ok]
  · rw [halloc₂, hnext₁]
  · have hlt := (h.sound.live_lt v hv).2
    refine hothers v (live_update_some.mpr (.inr hv)) ?_ (hplain₁ v hv hold)
    exact Nat.ne_of_lt hlt

variable {prev : ℕ}

/-- **The number of the next page is entered in a page.** -/
theorem linkPage_spec (pageId : ℕ) (h : s.Consistent env pages)
    (hprev : pages prev = some ⟨.overflow, pageData size 0 c⟩) (hplain : s.PlainAt env prev)
    (hsize : size = dataSize s) (hc : c.length ≤ size - 8) : ∃ s', linkPage env prev pageId s = (s', .ok ()) ∧
      s'.Consistent env (update pages prev (some ⟨.overflow, pageData size pageId c⟩)) ∧
      s'.config = s.config ∧ s'.pageMapper.nextVirtualId = s.pageMapper.nextVirtualId ∧
      ∀ v, Live pages v → v ≠ prev → s.PlainAt env v → s'.PlainAt env v := by
  obtain ⟨s₁, page, hread, h₁, hcfg₁, halloc₁, hid, hconts, hpage, hstor, hplain₁⟩ :=
    h.readPlain hprev hplain
  have hdata : page.data = pageData size 0 c := congrArg Contents.data hconts
  have htype : page.header.pageType = .overflow := congrArg Contents.pageType hconts
  have hlinked : encode 8 pageId ++ page.data.drop 8 = pageData size pageId c := by
    rw [hdata, drop_pageData]
    rfl
  let page' : Page := { page with data := pageData size pageId c }
  have hsize₁ : s₁.pageSize = s.pageSize := by rw [pageSize, hcfg₁, pageSize]
  have hlen : page'.data.length ≤ s₁.pageSize - 64 := by
    rw [hsize₁, ← dataSize_eq, ← hsize]
    exact (length_pageData (by have := le_dataSize s; omega) hc).le
  have hstor' : s₁.Storable env page' :=
    storable_of_plain hpage hstor.pageId hstor.virtualPageId hstor.known hlen
  have hlive : Live pages page'.header.pageId := by
    rw [show page'.header.pageId = prev from hid]
    exact live_of_eq_some hprev
  obtain ⟨s₂, hwrite, h₂, hcfg₂, halloc₂, -, hothers⟩ := h₁.writePlain hlive hpage hstor'
  have hconts' : page'.contents = ⟨.overflow, pageData size pageId c⟩ := by rw [Page.contents, htype]
  rw [hconts', show page'.header.pageId = prev from hid] at h₂
  refine ⟨s₂, ?_, h₂, hcfg₂.trans hcfg₁, ?_, fun v hv hne hold => ?_⟩
  · rw [linkPage, hread, onPager_ok, andThen_ok, if_neg (by rw [hdata]; exact le_length_pageData _ _), hlinked,
      hwrite, onPager_ok]
  · rw [halloc₂, halloc₁]
  · exact hothers v hv (by rwa [show page'.header.pageId = prev from hid]) (hplain₁ v hold)

/-- **The loop of a write** goes on behind a page: the chunks are linked to it, and no other page changes. -/
theorem writeChunks_spec (first count : ℕ)
    (h : s.Consistent env pages) (hprev : pages prev = some ⟨.overflow, pageData size 0 c⟩)
    (hplain : s.PlainAt env prev) (hsize : size = dataSize s) (hc : c.length ≤ size - 8)
    (hcs : ∀ c ∈ cs, c.length ≤ size - 8) (hroom : s.pageMapper.nextVirtualId + cs.length < 256 ^ 8) :
    ∃ s' pages', writeChunks env cs (some first) (some prev) count s = (s', .ok (some first, count + cs.length)) ∧
      s'.Consistent env pages' ∧ Linked size pages' prev (c :: cs) ∧
      ∀ v, Live pages v → v ≠ prev → pages' v = pages v := by
  -- each step allocates a page, writes a chunk to it, and links it to the one before
  induction cs generalizing s pages prev c count with
  | nil => exact ⟨s, pages, rfl, h, .last hprev, fun v _ _ => rfl⟩
  | cons c' cs ih =>
    rw [length_cons] at hroom
    have hc' := hcs c' mem_cons_self
    obtain ⟨s₁, hnew, h₁, hcfg₁, hnext₁, hself, hothers⟩ :=
      newChunkPage_spec h (hsize ▸ hc') (by omega)
    have hprevlt := (h.sound.live_lt prev (live_of_eq_some hprev)).2
    have hnextpos := h.sound.two_le.trans h.sound.next_le
    have hne : prev ≠ s.pageMapper.nextVirtualId := Nat.ne_of_lt hprevlt
    have hprev₁ : update pages s.pageMapper.nextVirtualId
        (some ⟨.overflow, pageData (dataSize s) 0 c'⟩) prev = some ⟨.overflow, pageData size 0 c⟩ := by
      rw [update_of_ne hne, hprev]
    have hsize₁ : size = dataSize s₁ := by rw [hsize, dataSize, dataSize, hcfg₁]
    obtain ⟨s₂, hlink, h₂, hcfg₂, hnext₂, hothers₂⟩ :=
      linkPage_spec s.pageMapper.nextVirtualId h₁ hprev₁
        (hothers prev (live_of_eq_some hprev) hplain) hsize₁ hc
    have hnew₂ : update (update pages s.pageMapper.nextVirtualId
        (some ⟨.overflow, pageData (dataSize s) 0 c'⟩)) prev
          (some ⟨.overflow, pageData size s.pageMapper.nextVirtualId c⟩) s.pageMapper.nextVirtualId =
        some ⟨.overflow, pageData size 0 c'⟩ := by
      rw [update_of_ne hne.symm, update_self, hsize]
    have hsize₂ : size = dataSize s₂ := by rw [hsize₁, dataSize, dataSize, hcfg₂]
    obtain ⟨s', pages', hloop, h', hlinked, hkept⟩ := ih (count + 1) h₂ hnew₂
      (hothers₂ _ (live_update_some.mpr (.inl rfl)) hne.symm hself) hsize₂ hc'
      (fun c hc => hcs c (mem_cons_of_mem _ hc)) (by omega)
    have hlive₂ : ∀ v, v = prev ∨ Live pages v → Live (update (update pages
        s.pageMapper.nextVirtualId (some ⟨.overflow, pageData (dataSize s) 0 c'⟩)) prev
          (some ⟨.overflow, pageData size s.pageMapper.nextVirtualId c⟩)) v := by
      intro v hv
      exact live_update_some.mpr (hv.imp_right fun hv => live_update_some.mpr (.inr hv))
    refine ⟨s', pages', ?_, h', ?_, fun v hv hvprev => ?_⟩
    · rw [writeChunks, hnew, andThen_ok]
      dsimp only
      rw [hlink, andThen_ok, Option.getD_some, hloop, length_cons,
        show count + 1 + cs.length = count + (cs.length + 1) by omega]
    · refine .cons ?_ (by omega) (by omega) hlinked
      rw [hkept prev (hlive₂ prev (.inl rfl)) hne, update_self]
    · have hvlt := (h.sound.live_lt v hv).2
      have hvne : v ≠ s.pageMapper.nextVirtualId := Nat.ne_of_lt hvlt
      rw [hkept v (hlive₂ v (.inr hv)) hvne, update_of_ne hvprev, update_of_ne hvne]

/-! ## Values that come back -/

variable {postcard table} {key : Bytes} {txId : TransactionId} {lsn : ℕ}

/-- The chunks of a value in the pages of a pager. -/
def chunksOf (s : State) (value : Bytes) : List Bytes := valueChunks (dataSize s - 8) value

/-- **A value is written to pages of its own.** -/
theorem writeBlobData_spec (h : s.Consistent env pages)
    (hroom : s.pageMapper.nextVirtualId + (chunksOf s value).length < 256 ^ 8) :
    ∃ s' pages', writeBlobData env value s =
        (s', .ok ⟨s.pageMapper.nextVirtualId, value.length, (chunksOf s value).length⟩) ∧
      s'.Consistent env pages' ∧ Linked (dataSize s) pages' s.pageMapper.nextVirtualId (chunksOf s value) := by
  have hshort := fun c (hc : c ∈ chunksOf s value) => length_of_mem_valueChunks hc
  rw [writeBlobData]
  by_cases hemp : value = []
  · subst hemp
    have hchunks : chunksOf s [] = [[]] := by rw [chunksOf, valueChunks, if_pos rfl]
    rw [hchunks] at hroom hshort ⊢
    obtain ⟨s', hnew, h', -⟩ := newChunkPage_spec h (hshort [] mem_cons_self) hroom
    refine ⟨s', _, ?_, h', .last (update_self ..)⟩
    show andThen (newChunkPage env [] s) _ = _
    rw [hnew]
    rfl
  · -- the first page, and then the loop
    have hchunks : chunksOf s value = chunks (dataSize s - 8) value.length value := if_neg hemp
    rw [hchunks] at hroom hshort ⊢
    change ∃ s' pages', andThen (writeChunks env (chunks (dataSize s - 8) value.length value) none none 0 s) _ = _ ∧ _
    cases hcs : chunks (dataSize s - 8) value.length value with
    | nil =>
      obtain ⟨n, hn⟩ := Nat.exists_eq_succ_of_ne_zero (mt length_eq_zero_iff.mp hemp)
      rw [hn, chunks, if_neg hemp] at hcs
      cases hcs
    | cons c cs =>
      rw [hcs, length_cons] at hroom
      rw [hcs] at hshort
      obtain ⟨s₁, hnew, h₁, hcfg, hnext, hself, -⟩ :=
        newChunkPage_spec h (hshort c mem_cons_self) (by omega)
      have hsize : dataSize s = dataSize s₁ := by rw [dataSize, dataSize, hcfg]
      obtain ⟨s', pages', hloop, h', hlinked, -⟩ :=
        writeChunks_spec s.pageMapper.nextVirtualId 1 h₁ (update_self ..) hself hsize
          (hshort c mem_cons_self) (fun c hc => hshort c (mem_cons_of_mem _ hc)) (by omega)
      refine ⟨s', pages', ?_, h', hlinked⟩
      rw [writeChunks, hnew, andThen_ok]
      dsimp only
      rw [andThen_ok, Option.getD_none, hloop, andThen_ok, length_cons, Nat.add_comm]

/-- The version of a key a commit leaves as its newest one. -/
def newest (postcard : Postcard PagedMetadata) (metadata : PagedMetadata) (txId : TransactionId) (lsn : ℕ) : Version :=
  ⟨.inline (postcard.encode metadata), txId, some lsn⟩

/-- What `get` answers, and `get_snapshot` for every snapshot that sees what a transaction committed. -/
def Answers (env : Surroundings) (postcard : Postcard PagedMetadata) (table : PagedBlob) (key : Key)
    (txId : TransactionId) (lsn fuel : ℕ) (result : Except PagedBlobError (Option Bytes)) : Prop :=
  (table.get env postcard fuel key).2 = result ∧ ∀ snapshot : Snapshot, snapshot.isVisible lsn txId = true →
      (table.getSnapshot env postcard fuel key snapshot).2 = result

/-- `get` and `get_snapshot` return a value. -/
def Returns (env : Surroundings) (postcard : Postcard PagedMetadata) (table : PagedBlob) (key : Key)
    (txId : TransactionId) (lsn : ℕ) (value : Option Bytes) : Prop :=
  ∃ fuel, Answers env postcard table key txId lsn fuel (.ok value)

variable (env postcard table) in
/-- **What is read of a key whose newest version was committed last**: the pages its metadata name. -/
theorem answers_prepend (key : Key)
    (metadata : PagedMetadata) (txId : TransactionId) (lsn fuel : ℕ) : Answers env postcard (commitVersions
        { table with index := table.index.prepend key (postcard.encode metadata) txId } txId lsn) key txId lsn fuel
      ((readBlobData env fuel table.pager metadata.firstPageId).2.map some) := by
  have hchain : (commitVersions { table with
      index := table.index.prepend key (postcard.encode metadata) txId } txId lsn).index.lookup key =
      some (newest postcard metadata txId lsn ::
        BlobChains.commitAllUncommitted lsn ((table.index.lookup key).getD [])) := by
    rw [commitVersions, BlobChains.lookup_commitVersions, BlobChains.lookup_prepend, if_pos rfl]
    rfl
  have hread : ∀ table : PagedBlob,
      (table.readVersion env postcard fuel (newest postcard metadata txId lsn).value).2 =
        (readBlobData env fuel table.pager metadata.firstPageId).2.map some := by
    intro table
    simp [readVersion, newest, postcard.decode_encode]
  constructor
  · rw [get, hchain, Option.getD_some, find?_cons_of_pos rfl]
    exact hread _
  · intro snapshot hvis
    have hseen : (newest postcard metadata txId lsn).visible snapshot = true := hvis
    rw [getSnapshot, hchain, Option.getD_some, VersionChain.findVisibleVersion, find?_cons_of_pos hseen]
    exact hread _

variable (postcard table) in
/-- **What is read of a value that was put and committed**: the payload of its pages, if the loop is followed
to its end. -/
theorem answers_put (h : table.pager.Consistent env pages)
    (hroom : table.pager.pageMapper.nextVirtualId + (chunksOf table.pager value).length < 256 ^ 8) :
    ∃ table', table.putTx env postcard key value txId = (table', .ok value.length) ∧ ∀ fuel,
      Answers env postcard (table'.commitVersions txId lsn) key txId lsn fuel
        (if (chunksOf table.pager value).length ≤ fuel then
          .ok (some ((chunksOf table.pager value).flatMap (padded (dataSize table.pager - 8))))
        else .error .outOfFuel) := by
  obtain ⟨s', pages', hwrite, h', hlinked⟩ := writeBlobData_spec h hroom
  refine ⟨_, by rw [putTx, hwrite], fun fuel => ?_⟩
  have hres : (if (chunksOf table.pager value).length ≤ fuel then
        .ok (some ((chunksOf table.pager value).flatMap (padded (dataSize table.pager - 8))))
      else .error .outOfFuel : Except PagedBlobError (Option Bytes)) =
      (readBlobData env fuel s' table.pager.pageMapper.nextVirtualId).2.map some := by
    rw [readBlobData_of_linked hlinked fuel h']
    split_ifs
    · rfl
    · rfl
  rw [hres]
  exact answers_prepend env postcard ⟨s', table.rootPageId, table.index⟩ key _ txId lsn fuel

theorem not_returns_delete {chain : VersionChain}
    (hchain : table.index.lookup key = some chain) :
    ¬ Returns env postcard ((table.deleteTx postcard key txId).1.commitVersions txId lsn) key txId lsn none := by
  rintro ⟨fuel, hget, -⟩
  have hdel : (table.deleteTx postcard key txId).1 =
      { table with index := table.index.prepend key (postcard.encode tombstone) txId } := by
    rw [deleteTx, hchain]
  have hans := (answers_prepend env postcard table key tombstone txId lsn fuel).1
  rw [hdel, hans] at hget
  cases hread : (readBlobData env fuel table.pager tombstone.firstPageId).2 with
  | error e | ok data =>
    rw [hread] at hget
    cases hget

variable (env postcard) in
theorem returns_none (hnone : table.index.lookup key = none) :
    Returns env postcard ((table.deleteTx postcard key txId).1.commitVersions txId lsn) key txId lsn none := by
  have hdel : (table.deleteTx postcard key txId).1 = table := by rw [deleteTx, hnone]
  have hlook : (table.commitVersions txId lsn).index.lookup key = none := by
    show SortedMap.lookup (BlobChains.commitVersions _ txId _) key = _
    rw [BlobChains.lookup_commitVersions, hnone, Option.map_none]
  rw [hdel]
  refine ⟨0, ?_, fun snapshot _ => ?_⟩
  · rw [get, hlook]
    rfl
  · rw [getSnapshot, hlook]
    rfl

/-- **A value that was put and committed comes back exactly if it fills its pages and is not empty, and after
a committed deletion nothing is read exactly if the key had no version.** -/
theorem get_put_iff (env : Surroundings) (postcard : Postcard PagedMetadata) (table : PagedBlob)
    (h : table.pager.Consistent env pages) (key value : Bytes) (txId : TransactionId) (lsn : ℕ)
    (hroom : table.pager.pageMapper.nextVirtualId + (chunksOf table.pager value).length < 256 ^ 8) :
    (∃ table', table.putTx env postcard key value txId = (table', .ok value.length) ∧
      (Returns env postcard (table'.commitVersions txId lsn) key txId lsn (some value) ↔
        value ≠ [] ∧ dataSize table.pager - 8 ∣ value.length)) ∧
    (Returns env postcard ((table.deleteTx postcard key txId).1.commitVersions txId lsn) key txId lsn none ↔
      table.index.lookup key = none) := by
  have hpay : 0 < dataSize table.pager - 8 := by
    have hsize := le_dataSize table.pager
    omega
  constructor
  · obtain ⟨table', hput, hans⟩ := answers_put postcard table h hroom
    refine ⟨table', hput, ?_⟩
    rw [← flatMap_valueChunks_iff hpay]
    constructor
    · rintro ⟨fuel, hget, -⟩
      have hpages := (hans fuel).1
      rw [hget] at hpages
      split_ifs at hpages
      exact (Option.some.inj (Except.ok.inj hpages)).symm
    · intro hval
      have hpages := hans (chunksOf table.pager value).length
      rw [if_pos le_rfl, chunksOf, hval] at hpages
      exact ⟨_, hpages⟩
  · constructor
    · intro hreturns
      cases hchain : table.index.lookup key with
      | none => rfl
      | some chain => exact absurd hreturns (not_returns_delete hchain)
    · exact fun hnone => returns_none env postcard hnone

/-! ## A value that comes back and one that does not -/

/-- A codec to try values with: the three numbers in ones, separated by zeros. -/
def plainPostcard : Postcard PagedMetadata where
  encode m := replicate m.firstPageId 1 ++ 0 :: (replicate m.size 1 ++ 0 :: replicate m.pageCount 1)
  decode bytes :=
    let rest := (bytes.dropWhile (· = 1)).tail
    some ⟨(bytes.takeWhile (· = 1)).length, (rest.takeWhile (· = 1)).length,
      (rest.dropWhile (· = 1)).tail.length⟩
  decode_encode m := by
    have hones : ∀ n, ∀ b ∈ replicate n (1 : Byte), decide (b = 1) = true := by
      intro n b hb
      exact decide_eq_true (eq_of_mem_replicate hb)
    rw [dropWhile_append_of_pos (hones _), takeWhile_append_of_pos (hones _)]
    simp [dropWhile_append_of_pos (hones _), takeWhile_append_of_pos (hones _)]

/-- `PagedBlob::open`: nothing is read, and the index is empty. -/
def openTable (pager : State) (rootPageId : ℕ) : PagedBlob := ⟨pager, rootPageId, .empty⟩

theorem length_chunks_le (payload fuel : ℕ) (value : Bytes) : (chunks payload fuel value).length ≤ fuel := by
  induction fuel generalizing value with
  | zero => exact le_rfl
  | succ fuel ih =>
    rw [chunks]
    split_ifs
    · exact Nat.zero_le _
    · exact Nat.succ_le_succ (ih _)

theorem length_valueChunks_le (payload : ℕ) (value : Bytes) :
    (valueChunks payload value).length ≤ value.length + 1 := by
  rw [valueChunks]
  split_ifs
  · exact Nat.le_add_left _ _
  · exact (length_chunks_le _ _ _).trans (Nat.le_succ _)

theorem exists_pager : ∃ pager : State, pager.Consistent .plain (fun _ => none) ∧
    pager.pageMapper.nextVirtualId = 2 ∧ dataSize pager = 4032 := by
  have hvalidate : (smallConfig .none none).validate = .ok () := rfl
  obtain ⟨s₀, -, h₀, hcfg, -, halloc⟩ := create_spec hvalidate
  refine ⟨s₀, h₀, by rw [halloc]; rfl, ?_⟩
  rw [dataSize, hcfg]
  rfl

/-- A value of 4024 bytes fills a page of 4096 and comes back. -/
theorem get_put_iff_full_page : ∃ (pager : State) (table' : PagedBlob) (value : Bytes),
    pager.Consistent .plain (fun _ => none) ∧ value.length = 4024 ∧
    (openTable pager 2).putTx .plain plainPostcard [1] value 1 = (table', .ok 4024) ∧
    Returns .plain plainPostcard (table'.commitVersions 1 10) [1] 1 10 (some value) := by
  obtain ⟨pager, h, hnext, hsize⟩ := exists_pager
  have hlen : (replicate 4024 (7 : Byte)).length = 4024 := length_replicate
  have hchunks := length_valueChunks_le (dataSize pager - 8) (replicate 4024 (7 : Byte))
  have hroom : pager.pageMapper.nextVirtualId + (chunksOf pager (replicate 4024 7)).length < 256 ^ 8 := by
    rw [chunksOf]
    omega
  obtain ⟨table', hput, hreturns⟩ :=
    (get_put_iff .plain plainPostcard (openTable pager 2) h [1] (replicate 4024 7) 1 10 hroom).1
  rw [hlen] at hput hreturns
  refine ⟨pager, table', _, h, hlen, hput, hreturns.mpr ⟨?_, ?_⟩⟩
  · exact ne_nil_of_length_pos (by omega)
  · rw [show dataSize (openTable pager 2).pager = 4032 from hsize]

/-- **A value of one byte comes back with 4023 zeros behind it, and when it is deleted it does not read as
gone.** -/
theorem get_put_short : ∃ (pager : State) (table' : PagedBlob), pager.Consistent .plain (fun _ => none) ∧
    (openTable pager 2).putTx .plain plainPostcard [1] [5] 1 = (table', .ok 1) ∧
    (∃ fuel, ((table'.commitVersions 1 10).get .plain plainPostcard fuel [1]).2 =
      .ok (some (5 :: replicate 4023 0))) ∧
    ¬ Returns .plain plainPostcard (table'.commitVersions 1 10) [1] 1 10 (some [5]) ∧
    ¬ Returns .plain plainPostcard
      (((table'.commitVersions 1 10).deleteTx plainPostcard [1] 2).1.commitVersions 2 20) [1] 2 20 none := by
  obtain ⟨pager, h, hnext, hsize⟩ := exists_pager
  have hchunks : chunksOf pager [5] = [[5]] := by rw [chunksOf, hsize]; rfl
  have hroom : pager.pageMapper.nextVirtualId + (chunksOf pager [5]).length < 256 ^ 8 := by
    rw [hnext, hchunks]
    decide
  obtain ⟨table', hput, hans⟩ := answers_put plainPostcard (openTable pager 2) h hroom
  have hpay : [[(5 : Byte)]].flatMap (padded (4032 - 8)) = 5 :: replicate 4023 0 := by
    rw [flatMap_cons, flatMap_nil, append_nil, padded, singleton_append, length_singleton]
  have hpages : ∀ fuel, ((table'.commitVersions 1 10).get .plain plainPostcard fuel [1]).2 =
      if [[(5 : Byte)]].length ≤ fuel then .ok (some (5 :: replicate 4023 0)) else .error .outOfFuel := by
    intro fuel
    have hget := (hans fuel).1
    rw [show chunksOf (openTable pager 2).pager [5] = [[5]] from hchunks,
      show dataSize (openTable pager 2).pager = 4032 from hsize, hpay] at hget
    exact hget
  refine ⟨pager, table', h, hput, ⟨1, (hpages 1).trans (if_pos le_rfl)⟩, ?_, ?_⟩
  · rintro ⟨fuel, hget, -⟩
    rw [hpages] at hget
    split_ifs at hget
    have hlen := congrArg length (Option.some.inj (Except.ok.inj hget))
    rw [length_cons, length_replicate, length_singleton] at hlen
    omega
  · cases hchain : (table'.commitVersions 1 10).index.lookup [1] with
    | some chain => exact not_returns_delete hchain
    | none =>
      have hget := (hpages 1).trans (if_pos le_rfl)
      rw [get, hchain] at hget
      cases hget

end PagedBlob

end NanoStore.Table
