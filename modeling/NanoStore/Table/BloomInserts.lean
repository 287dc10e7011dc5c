import NanoStore.Table.PagedBloom
/-!
# Concurrent inserts into a Bloom filter

Several calls of `insert` of `table/bloom/paged.rs` on one filter, between
page reads and page writes in any order. A bit is set by reading its page
and writing it back, with no lock in between: bits that another insert
wrote to the page meanwhile are lost.
-/

namespace NanoStore.Table

open Steps Pager Function List PagedBloomFilter

/-- An insert: the hash function it is at, the page it has read for it, with the position of the bit, and
what it has returned. -/
structure BloomInsert where
  next : ℕ
  held : Option (ℕ × ℕ × Bytes)
  result : Option (Except (Failure PagerError) Unit)

/-- A filter, its pages and the inserts. -/
structure BloomInserts (ι : Type) where
  filter : PagedBloomFilter
  store : BloomStore
  inserts : ι → BloomInsert

namespace PagedBloomFilter

variable (f : PagedBloomFilter) (store : BloomStore)

/-- The bytes of a page with a bit set, as `set_bit` writes them. -/
def withBit (pos : ℕ) (data : Bytes) : Bytes :=
  let byte := pos % f.bitsPerPage / 8
  let data := if data.length ≤ byte then data ++ replicate (f.pageSize.dataSize - data.length) 0 else data
  data.modify byte (setByteBit (pos % f.bitsPerPage % 8))

/-- An insert goes on to its next page read or write. No page leaves the cache meanwhile. -/
def stepInsert (key : Bytes) (insert : BloomInsert) : PagedBloomFilter × BloomStore × BloomInsert :=
  match insert.result, insert.held with
  | some _, _ => (f, store, insert)
  | none, some (pos, p, data) =>
    (f, store.writePage (fun _ => false) p .bloomData (.bitmap (f.withBit pos data)),
      { insert with next := insert.next + 1, held := none })
  | none, none =>
    if insert.next < f.numHashFunctions then
      match f.getBitPosition key insert.next with
      | .error e => (f, store, { insert with result := some (.error e) })
      | .ok pos =>
        match f.readBitmap store pos with
        | (store, .error e) => (f, store, { insert with result := some (.error e) })
        | (store, .ok (p, data)) => (f, store, { insert with held := some (pos, p, data) })
    else
      let f := { f with numItems := f.numItems + 1 }
      let (store, result) := f.writeMetadata store fun _ => false
      (f, store, { insert with result := some result })

/-- What holds of an insert: the bits it has been through are set. -/
structure Fits (key : Bytes) (insert : BloomInsert) : Prop where
  bits : ∀ i < insert.next, f.HasKeyBit store key i
  held : ∀ pos p data, insert.held = some (pos, p, data) →
    f.getBitPosition key insert.next = .ok pos ∧ f.bitmapPages[pos / f.bitsPerPage]? = some p
  done : insert.result = some (.ok ()) → f.numHashFunctions ≤ insert.next

/-- The pages of the filter are in the cache. -/
def AllCached : Prop := ∀ p ∈ f.rootPageId :: f.bitmapPages, (store.cached p).isSome = true

variable {f store} {p pos : ℕ} {data : Bytes}

theorem AllCached.writePage {pageType : PageType} {page : BloomPage} (h : f.AllCached store) :
    f.AllCached (store.writePage (fun _ => false) p pageType page) := by
  intro q hq
  simp only [BloomStore.writePage, Bool.and_false, Bool.false_eq_true, if_false, update_apply]
  split_ifs
  · rfl
  · exact h q hq

/-- **A page that is written as it was read, but for the bit.** -/
theorem setBit_eq (h : f.Stored store) (hall : f.AllCached store) (hpos : pos < f.numBits)
    (hpage : f.bitmapPages[pos / f.bitsPerPage]? = some p)
    (hdisk : store.disk p = some (.bloomData, .bitmap data)) : f.setBit store pos =
      (store.writePage (fun _ => false) p .bloomData (.bitmap (f.withBit pos data)), .ok ()) := by
  obtain ⟨p', data', hpage', hdisk', -, hread⟩ := h.readBitmap hpos
  cases hpage.symm.trans hpage'
  cases hdisk.symm.trans hdisk'
  rw [setBit, hread, if_pos (hall p (mem_cons_of_mem _ (mem_of_getElem? hpage))), andThen_ok]
  rfl

end PagedBloomFilter

namespace BloomInserts

variable {ι : Type} [DecidableEq ι]

/-- An insert goes on. -/
def exec (keys : ι → Bytes) (s : BloomInserts ι) (me : ι) : BloomInserts ι × Unit :=
  let (f, store, after) := s.filter.stepInsert s.store (keys me) (s.inserts me)
  (⟨f, store, update s.inserts me after⟩, ())

/-- A page that is written is still what the insert has read. -/
def Undisturbed (_ : List (ι × Unit)) (s : BloomInserts ι) (me : ι) : Prop :=
  ∀ e ∈ (s.inserts me).held, s.store.disk e.2.1 = some (.bloomData, .bitmap e.2.2)

/-- What holds in every state. -/
structure Sound (keys : ι → Bytes) (s : BloomInserts ι) : Prop where
  stored : s.filter.Stored s.store
  cached : s.filter.AllCached s.store
  fits : ∀ i, s.filter.Fits s.store (keys i) (s.inserts i)

variable {keys : ι → Bytes} {s : BloomInserts ι} {me : ι} {trace : List (ι × Unit)}

/-- An insert goes on, and no bit is lost. -/
theorem Sound.step (h : Sound keys s) {n : ℕ} {store : BloomStore} {insert : BloomInsert}
    (hstored : { s.filter with numItems := n }.Stored store)
    (hbits : ∀ pos, s.filter.HasBit s.store pos → s.filter.HasBit store pos) (hcached : s.filter.AllCached store)
    (hme : s.filter.Fits store (keys me) insert) :
    Sound keys ⟨{ s.filter with numItems := n }, store, update s.inserts me insert⟩ := by
  refine ⟨hstored, hcached, (forall_update_iff s.inserts (p := fun i insert =>
    Fits { s.filter with numItems := n } store (keys i) insert)).mpr ⟨{ hme with }, fun i _ => ?_⟩⟩
  refine { h.fits i with bits := fun j hj => ?_ }
  obtain ⟨pos, hpos, hbit⟩ := (h.fits i).bits j hj
  exact ⟨pos, hpos, hbits pos hbit⟩

/-- **One step.** -/
theorem Sound.exec (h : Sound keys s) (hguard : Undisturbed trace s me) : Sound keys (exec keys s me).1 := by
  obtain ⟨hbits, hheld, -⟩ := h.fits me
  simp only [BloomInserts.exec, stepInsert]
  cases hres : (s.inserts me).result with
  | some r => exact h.step h.stored (fun _ h => h) h.cached (h.fits me)
  | none =>
    cases hread : (s.inserts me).held with
    | some e =>
      obtain ⟨pos, p, data⟩ := e
      obtain ⟨hpos, hpage⟩ := hheld pos p data hread
      have hset := setBit_eq h.stored h.cached (getBitPosition_lt hpos) hpage (hguard _ hread)
      obtain ⟨hkeeps, hbit⟩ := h.stored.setBit (getBitPosition_lt hpos)
      rw [hset] at hkeeps hbit
      refine h.step hkeeps.stored hkeeps.bits h.cached.writePage ⟨fun i hi => ?_, nofun, nofun⟩
      rcases Nat.lt_succ_iff_lt_or_eq.mp hi with hi | rfl
      · obtain ⟨pos', hpos', hbit'⟩ := hbits i hi
        exact ⟨pos', hpos', hkeeps.bits pos' hbit'⟩
      · exact ⟨pos, hpos, hbit rfl⟩
    | none =>
      dsimp only
      split_ifs with hnext
      · cases hpos : s.filter.getBitPosition (keys me) (s.inserts me).next with
        | error e => exact h.step h.stored (fun _ h => h) h.cached ⟨hbits, nofun, nofun⟩
        | ok pos =>
          obtain ⟨p, data, hpage, -, -, hpageRead⟩ := h.stored.readBitmap (getBitPosition_lt hpos)
          rw [if_pos (h.cached p (mem_cons_of_mem _ (mem_of_getElem? hpage)))] at hpageRead
          simp only [hpageRead]
          refine h.step h.stored (fun _ h => h) h.cached ⟨hbits, fun pos' p' data' heq => ?_, nofun⟩
          cases heq
          exact ⟨hpos, hpage⟩
      · obtain ⟨hstored, -⟩ := h.stored.writeMetadata (fun _ => false) (s.filter.numItems + 1)
        have hkept : ∀ pos, s.filter.HasBit s.store pos → s.filter.HasBit
            ({ s.filter with numItems := s.filter.numItems + 1 }.writeMetadata s.store fun _ => false).1 pos :=
          fun _ hbit => hbit.writeMetadata h.stored
        refine h.step hstored hkept ?_ ⟨fun i hi => ?_, nofun, fun _ => not_lt.mp hnext⟩
        · rw [writeMetadata, if_neg (not_lt.mpr h.stored.fits)]
          exact h.cached.writePage
        · obtain ⟨pos, hpos, hbit⟩ := hbits i hi
          exact ⟨pos, hpos, hkept pos hbit⟩

/-- The inserts called. -/
def called (s : PagedBloomFilter × BloomStore) : BloomInserts ι := ⟨s.1, s.2, fun _ => ⟨0, none, none⟩⟩

/-- The insert has returned, and its key is found. -/
def Found (keys : ι → Bytes) (s : BloomInserts ι) (i : ι) : Prop :=
  (s.inserts i).result = some (.ok ()) → (s.filter.contains s.store (keys i)).2 = .ok true

/-- **No insert loses the bits of another** if every page is written as it was read. -/
theorem found_of_run {pageSize : PageSize} {numBits numHashFunctions : ℕ} {drops : ℕ → ℕ → Bool}
    {store : BloomStore} {s₀ s₁ : PagedBloomFilter × BloomStore}
    {before : List (PagedBloomFilter.Call × Except (Failure PagerError) Unit)}
    (hnew : new pageSize numBits numHashFunctions drops store = .ok s₀)
    (hbefore : Run PagedBloomFilter.exec anyCall s₀ before s₁) (hcached : s₁.1.AllCached s₁.2)
    (keys : ι → Bytes) (hrun : Run (exec keys) Undisturbed (called s₁) trace s) (i : ι) : s.Found keys i := by
  have hstart : PagedBloomFilter.Sound before s₁ :=
    hbefore.invariant (new_sound hnew) fun _ _ call h _ => h.exec
  have hsound : Sound keys s := by
    refine hrun.invariant
      ⟨hstart.stored, hcached, fun i => ⟨by simp [called], by simp [called], by simp [called]⟩⟩
      fun trace s me h hguard => h.exec hguard
  intro hdone
  obtain ⟨hbits, -, hall⟩ := hsound.fits i
  rw [PagedBloomFilter.contains, hsound.stored.containsAll_iff]
  · intro j hj pos hpos
    obtain ⟨pos', hpos', p, data, hpage, -⟩ := hbits j ((mem_range.mp hj).trans_le (hall hdone))
    cases hpos.symm.trans hpos'
    exact ⟨p, hpage, hsound.cached p (mem_cons_of_mem _ (mem_of_getElem? hpage))⟩
  · exact fun j hj => hbits j ((mem_range.mp hj).trans_le (hall hdone))

def twoKeys (i : Bool) : Bytes := if i then [2, 2] else [1, 2]

instance (trace : List (Bool × Unit)) (s : BloomInserts Bool) (me : Bool) : Decidable (Undisturbed trace s me) :=
  inferInstanceAs (Decidable (∀ e ∈ _, _))

/-- Two inserts take turns, bit by bit: each reads a page and writes it back, and the other goes on. -/
def takingTurns : List Bool := (replicate 3 [false, false, true, true]).flatten ++ [false, true]

/-- Both return, and both keys are found. -/
theorem found_of_run_turns : let s := (execute (exec twoKeys) (called smallFilter) takingTurns).2
    ((s.inserts false).result = some (.ok ()) ∧ (s.inserts true).result = some (.ok ())) ∧
      (s.filter.contains s.store [1, 2]).2 = .ok true ∧ (s.filter.contains s.store [2, 2]).2 = .ok true := by
  intro s
  have hnew : new .size4KB 100 3 (fun _ _ => false) ⟨fun _ => none, fun _ => none, 2⟩ = .ok smallFilter := rfl
  have hcached : smallFilter.1.AllCached smallFilter.2 := by
    unfold AllCached
    decide +kernel
  have hguarded : Guarded (exec twoKeys) Undisturbed [] (called smallFilter) takingTurns := by
    decide +kernel
  have hdone : (s.inserts false).result = some (.ok ()) ∧ (s.inserts true).result = some (.ok ()) := by
    decide +kernel
  have hfound := found_of_run hnew .nil hcached twoKeys hguarded.run
  exact ⟨hdone, hfound false hdone.1, hfound true hdone.2⟩

/-- Both inserts read a page before one of them writes it: the first key is not found. -/
theorem overlapping_bits_lost :
    ¬ (execute (exec twoKeys) (called smallFilter) (replicate 4 [false, true, false, true]).flatten).2.Found
      twoKeys false := by
  unfold Found
  decide +kernel

end BloomInserts

end NanoStore.Table
