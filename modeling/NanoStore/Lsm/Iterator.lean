import NanoStore.Common.Merge
import NanoStore.Lsm.Tree
/-!
# The LSM tree — the merging iterator

`MergeIterator` over the entries of several sources, the newest first. At
each key it takes the chain of the first source that has the key and skips
the others, whatever the chain shows: a key whose chain shows nothing, or
the empty value, is passed over.
-/

namespace NanoStore.Lsm

open Wal Steps Txn Table List Merge

/-! ## The code -/

/-- A child iterator: the entries that it can read, and whether a block follows that it cannot. -/
structure Source where
  entries : List LeafEntry
  torn : Bool

/-- `SStableIterator` over a file. -/
def FileMetadata.source (f : FileMetadata) : Source where
  entries := f.contents.entries.take f.readable
  torn := f.readable < f.contents.entries.length

/-- One of the children has come to a block that it cannot read: it loads a block as soon as it has
left the one before. -/
def broken (torn : List Bool) (ahead : List (List LeafEntry)) : Bool :=
  (torn.zip ahead).any fun child => child.1 && child.2.isEmpty

/-- The children made: each of them loads its first block. -/
def openAll (sources : List Source) : Except LsmError (List Source) :=
  if broken (sources.map Source.torn) (sources.map Source.entries) then .error .unreadableBlock
  else .ok sources

/-- `MergeIterator`: its child iterators, and what each of them can read from its position on. Where a
failed call leaves the children is not followed. -/
structure MergeIterator where
  sources : List Source
  ahead : List (List LeafEntry)
  snapshotLsn : ℕ
  current : Option (Key × Bytes)

namespace MergeIterator

/-- The loop of `advance`, for at most `fuel` keys. -/
def advanceFrom (torn : List Bool) (snapshotLsn : ℕ) :
    ℕ → List (List LeafEntry) → Outcome (List (List LeafEntry)) LsmError (Option (Key × Bytes))
  | 0, ahead => (ahead, .ok none)
  | fuel + 1, ahead =>
    match pop LeafEntry.key ahead with
    | none => (ahead, .ok none)
    | some (e, rest) =>
      -- the children that are at the key move on before its chain is looked at
      if broken torn rest then (rest, .error .unreadableBlock)
      else match lookup "MergeIterator::advance" "LSM iterator" e.chain snapshotLsn with
        | .error err => (rest, .error err)
        | .ok found =>
          match hideEmpty found with
          | some value => (rest, .ok (some (e.key, value)))
          | none => advanceFrom torn snapshotLsn fuel rest

variable (it : MergeIterator)

/-- Which of the children end in a block that they cannot read. -/
def torn : List Bool := it.sources.map Source.torn

/-- What the children can read. -/
def entries : List (List LeafEntry) := it.sources.map Source.entries

/-- `advance`, which is also `step_forward`. -/
def advance : Outcome MergeIterator LsmError Unit :=
  match advanceFrom it.torn it.snapshotLsn (size it.ahead) it.ahead with
  | (ahead, .error e) => ({ it with ahead, current := none }, .error e)
  | (ahead, .ok current) => ({ it with ahead, current }, .ok ())

/-- `MergeIterator::new`, forward. -/
def new (sources : List Source) (snapshotLsn : ℕ) : Outcome MergeIterator LsmError Unit :=
  advance ⟨sources, sources.map Source.entries, snapshotLsn, none⟩

/-- The children at new positions, if each of them can read the block it is to be in. -/
def restart (ahead : List (List LeafEntry)) : Outcome MergeIterator LsmError Unit :=
  if broken it.torn ahead then (it, .error .unreadableBlock) else advance { it with ahead }

/-- `seek`, which merges anew from the key on. -/
def seek (target : Key) : Outcome MergeIterator LsmError Unit :=
  it.restart (Merge.seek LeafEntry.key target it.entries)

def seekToFirst : Outcome MergeIterator LsmError Unit := it.restart it.entries

end MergeIterator

/-! ## What it shows -/

/-- The lists are in key order, and their versions hold bytes. -/
def Readable (sources : List (List LeafEntry)) : Prop :=
  ∀ l ∈ sources, Ascending l ∧ ∀ e ∈ l, ∀ v ∈ e.chain, Inline v

/-- What a reader is shown of an entry. -/
def shown (s : ℕ) (e : LeafEntry) : Option (Key × Bytes) :=
  (hideEmpty (shows e.chain s)).map fun value => (e.key, value)

/-- What the merge of sources shows at a snapshot. -/
def items (s : ℕ) (sources : List (List LeafEntry)) : List (Key × Bytes) :=
  (merged LeafEntry.key sources).filterMap (shown s)

variable {sources rest : List (List LeafEntry)} {s : ℕ} {e : LeafEntry}

theorem FileMetadata.readable_source (f : FileMetadata) :
    Ascending f.source.entries ∧ ∀ e ∈ f.source.entries, ∀ v ∈ e.chain, Inline v :=
  ⟨f.contents.ascending.sublist (take_sublist _ _), fun e he => f.contents.inline e (mem_of_mem_take he)⟩

section

variable (h : Readable sources)
include h

theorem Readable.ascends : ∀ l ∈ sources, Merge.Ascends LeafEntry.key l :=
  fun l hl => (h l hl).1

theorem Readable.map {f : List LeafEntry → List LeafEntry}
    (hf : ∀ l, (f l).Sublist l) : Readable (sources.map f) := by
  intro l hl
  obtain ⟨l₀, hl₀, rfl⟩ := mem_map.mp hl
  obtain ⟨hsort, hinline⟩ := h l₀ hl₀
  exact ⟨hsort.sublist (hf l₀), fun e he => hinline e ((hf l₀).subset he)⟩

theorem Readable.pop (hpop : pop LeafEntry.key sources = some (e, rest)) :
    (∀ v ∈ e.chain, Inline v) ∧ Readable rest := by
  obtain ⟨hheld, -, rfl⟩ := pop_eq_some h.ascends hpop
  obtain ⟨⟨l, hl, he⟩, -⟩ := mem_of_held hheld
  exact ⟨(h l hl).2 e he, h.map fun l => dropWhile_sublist _⟩

end

theorem items_of_pop (hpop : pop LeafEntry.key sources = some (e, rest)) :
    items s sources = (shown s e).toList ++ items s rest := by
  rw [items, merged_of_some hpop, filterMap_cons]
  cases shown s e with
  | none | some item => rfl

variable {item : Key × Bytes}

theorem mem_items (h : Readable sources) : item ∈ items s sources ↔
    ∃ e, held LeafEntry.key item.1 sources = some e ∧ shown s e = some item := by
  have hkey : ∀ e, shown s e = some item → e.key = item.1 := by
    intro e he
    obtain ⟨value, -, rfl⟩ := Option.map_eq_some_iff.mp he
    rfl
  rw [items, mem_filterMap]
  refine exists_congr fun e => and_congr_left fun he => ?_
  rw [(merged_spec h.ascends).2, hkey e he]

theorem length_items_le : (items s sources).length ≤ size sources :=
  (length_filterMap_le _ _).trans (length_take_le _ _)

theorem items_ascending (h : Readable sources) : (items s sources).Pairwise fun a b => a.1 < b.1 := by
  refine pairwise_filterMap.mpr ((merged_spec h.ascends).1.imp fun {e e'} hlt => ?_)
  intro item hitem item' hitem'
  obtain ⟨value, -, rfl⟩ := Option.map_eq_some_iff.mp hitem
  obtain ⟨value', -, rfl⟩ := Option.map_eq_some_iff.mp hitem'
  exact hlt

/-! ### How far it comes -/

/-- A merge that goes on until it has taken an item, or to its end, comes to no block that cannot be
read. -/
def ReadsPast (torn : List Bool) (sources : List (List LeafEntry)) : Option (Key × Bytes) → Prop
  | none => ∀ child ∈ torn.zip sources, child.1 = false
  | some item => ∀ child ∈ torn.zip sources, child.1 = true → ∃ e ∈ child.2, item.1 < e.key

instance (torn : List Bool) (sources : List (List LeafEntry)) (stop : Option (Key × Bytes)) :
    Decidable (ReadsPast torn sources stop) :=
  match stop with
  | none => inferInstanceAs (Decidable (∀ child ∈ torn.zip sources, child.1 = false))
  | some item => inferInstanceAs
    (Decidable (∀ child ∈ torn.zip sources, child.1 = true → ∃ e ∈ child.2, item.1 < e.key))

variable {torn : List Bool} {stop : Option (Key × Bytes)} {item' : Key × Bytes} {k : Key}
  {f : List LeafEntry → List LeafEntry}

theorem broken_eq_false : broken torn sources = false ↔
    ∀ child ∈ torn.zip sources, child.1 = true → child.2 ≠ [] := by
  simp [broken]

theorem mem_zip_map {child : Bool × List LeafEntry} : child ∈ torn.zip (sources.map f) ↔
    ∃ child' ∈ torn.zip sources, (child'.1, f child'.2) = child := by
  rw [zip_map_right, mem_map]
  rfl

theorem readsPast_none_map : ReadsPast torn (sources.map f) none ↔ ReadsPast torn sources none := by
  simp only [ReadsPast, mem_zip_map]
  constructor
  · exact fun h child hchild => h (child.1, f child.2) ⟨child, hchild, rfl⟩
  · rintro h _ ⟨child, hchild, rfl⟩
    exact h child hchild

namespace ReadsPast

theorem of_none (h : ReadsPast torn sources none) : ReadsPast torn sources stop := by
  cases stop with
  | none => exact h
  | some item =>
    intro child hchild htorn
    rw [h child hchild] at htorn
    cases htorn

theorem mono (h : ReadsPast torn sources (some item)) (hle : item'.1 ≤ item.1) :
    ReadsPast torn sources (some item') := by
  intro child hchild htorn
  obtain ⟨e, he, hlt⟩ := h child hchild htorn
  exact ⟨e, he, hle.trans_lt hlt⟩

theorem not_broken (h : ReadsPast torn sources stop) : broken torn sources = false := by
  refine broken_eq_false.mpr fun child hchild htorn => ?_
  cases stop with
  | none =>
    rw [h child hchild] at htorn
    cases htorn
  | some item =>
    obtain ⟨e, he, -⟩ := h child hchild htorn
    exact ne_nil_of_mem he

theorem of_map (hf : ∀ l, (f l).Sublist l) (h : ReadsPast torn (sources.map f) stop) :
    ReadsPast torn sources stop := by
  cases stop with
  | none => exact readsPast_none_map.mp h
  | some item =>
    intro child hchild htorn
    obtain ⟨e, he, hlt⟩ := h _ (mem_zip_map.mpr ⟨child, hchild, rfl⟩) htorn
    exact ⟨e, (hf _).subset he, hlt⟩

/-- A key that is not behind the item can be skipped. -/
theorem skip (h : ReadsPast torn sources (some item)) (hle : k ≤ item.1) :
    ReadsPast torn (Merge.skip LeafEntry.key k sources) (some item) := by
  intro child hchild htorn
  obtain ⟨child, hmem, rfl⟩ := mem_zip_map.mp hchild
  obtain ⟨e, he, hlt⟩ := h child hmem htorn
  exact ⟨e, mem_dropWhile_of_not he (by simpa using (hle.trans_lt hlt).ne'), hlt⟩

/-- To come to one of the items the merge goes past the first. -/
theorem head {l : List (Key × Bytes)} (h : ReadsPast torn sources stop) (hstop : ∀ item ∈ stop, item ∈ l)
    (hsort : l.Pairwise fun a b => a.1 < b.1) : ReadsPast torn sources l.head? := by
  cases stop with
  | none => exact h.of_none
  | some item =>
    cases l with
    | nil => cases hstop item rfl
    | cons first l =>
      refine h.mono ?_
      rcases mem_cons.mp (hstop item rfl) with rfl | hitem
      · exact le_rfl
      · exact (rel_of_pairwise_cons hsort hitem).le

end ReadsPast

/-- The state in which the merge has come to its next item. -/
structure ComesTo (torn : List Bool) (s : ℕ) (sources ahead : List (List LeafEntry))
    (current : Option (Key × Bytes)) : Prop where
  readable : Readable ahead
  items_eq : items s sources = current.toList ++ items s ahead
  done : current = none → items s ahead = []
  past : ReadsPast torn ahead current
  past_iff : ∀ stop : Option (Key × Bytes), (∀ item' ∈ stop, ∃ item ∈ current, item.1 ≤ item'.1) →
    (ReadsPast torn ahead stop ↔ ReadsPast torn sources stop)

section

variable (h : Readable sources)
include h

/-- At the end of all children the merge is done. -/
theorem ComesTo.of_none (hpop : pop LeafEntry.key sources = none) (hlive : broken torn sources = false) :
    ComesTo torn s sources sources none ∧ items s sources = [] := by
  have hnil : items s sources = [] := by rw [items, merged_of_none hpop, filterMap_nil]
  have hpast : ReadsPast torn sources none := by
    intro child hchild
    have hemp := pop_eq_none hpop child.2 (of_mem_zip hchild).2
    exact Bool.eq_false_iff.mpr fun htorn => broken_eq_false.mp hlive child hchild htorn hemp
  exact ⟨⟨h, rfl, fun _ => hnil, hpast, fun _ _ => .rfl⟩, hnil⟩

section

variable (hpop : pop LeafEntry.key sources = some (e, rest))
include hpop

theorem readsPast_rest (hstop : ∀ item ∈ stop, e.key ≤ item.1) :
    ReadsPast torn rest stop ↔ ReadsPast torn sources stop := by
  obtain ⟨-, -, rfl⟩ := pop_eq_some h.ascends hpop
  refine ⟨ReadsPast.of_map fun l => dropWhile_sublist _, fun hpast => ?_⟩
  cases stop with
  | none => exact readsPast_none_map.mpr hpast
  | some item => exact hpast.skip (hstop item rfl)

/-- What is left of the children is behind the key that was taken. -/
theorem readsPast_of_not_broken (hlive : broken torn rest = false) (value : Bytes) :
    ReadsPast torn rest (some (e.key, value)) := by
  obtain ⟨-, hle, rfl⟩ := pop_eq_some h.ascends hpop
  intro child hchild htorn
  obtain ⟨x, hx⟩ := exists_mem_of_ne_nil _ (broken_eq_false.mp hlive child hchild htorn)
  obtain ⟨child, hmem, rfl⟩ := mem_zip_map.mp hchild
  have hsource := (of_mem_zip hmem).2
  exact ⟨x, hx, (h.ascends _ hsource).lt_of_mem_skip (hle _ hsource) hx⟩

/-- No item is before the key that is taken. -/
theorem le_of_mem_items (hitem : item ∈ items s sources) : e.key ≤ item.1 := by
  obtain ⟨e', hheld, -⟩ := (mem_items h).mp hitem
  obtain ⟨⟨l, hl, he'⟩, hkey⟩ := mem_of_held hheld
  rw [← hkey]
  exact (pop_eq_some h.ascends hpop).2.1 l hl e' he'

/-- A key that shows nothing is passed over. -/
theorem ComesTo.of_rest {ahead : List (List LeafEntry)} {current : Option (Key × Bytes)}
    (hitems : items s sources = items s rest) (hcomes : ComesTo torn s rest ahead current) :
    ComesTo torn s sources ahead current := by
  refine { hcomes with items_eq := hitems.trans hcomes.items_eq, past_iff := fun stop hstop => ?_ }
  refine (hcomes.past_iff stop hstop).trans (readsPast_rest h hpop fun item' hitem' => ?_)
  obtain ⟨item, hitem, hle⟩ := hstop item' hitem'
  have hmem : item ∈ items s sources := by
    rw [hitems, hcomes.items_eq, Option.mem_def.mp hitem]
    exact mem_cons_self
  exact (le_of_mem_items h hpop hmem).trans hle

end

/-- At its end the iterator stays where it is. -/
theorem MergeIterator.advanceFrom_of_none {fuel : ℕ} (hpop : pop LeafEntry.key sources = none)
    (hlive : broken torn sources = false) : ReadsPast torn sources (items s sources).head? ∧
      ∃ ahead current, advanceFrom torn s fuel sources = (ahead, .ok current) ∧
        ComesTo torn s sources ahead current := by
  obtain ⟨hcomes, hnil⟩ := ComesTo.of_none h hpop hlive (s := s)
  rw [hnil]
  refine ⟨hcomes.past, sources, none, ?_, hcomes⟩
  cases fuel with
  | zero => rfl
  | succ fuel => rw [advanceFrom, hpop]

/-- **The iterator stops at the first item ahead**, and the others stay ahead; unless, to come to it, it
has to load a block that cannot be read. -/
theorem MergeIterator.advanceFrom_spec {fuel : ℕ} (hfuel : size sources ≤ fuel)
    (hlive : broken torn sources = false) :
    (ReadsPast torn sources (items s sources).head? ∧ ∃ ahead current,
      advanceFrom torn s fuel sources = (ahead, .ok current) ∧ ComesTo torn s sources ahead current) ∨
    (¬ ReadsPast torn sources (items s sources).head? ∧ ∃ ahead err,
      advanceFrom torn s fuel sources = (ahead, .error err)) := by
  induction fuel generalizing sources with
  | zero =>
    cases hpop : pop LeafEntry.key sources with
    | none => exact .inl (advanceFrom_of_none h hpop hlive)
    | some taken =>
      obtain ⟨e, rest⟩ := taken
      have hlt := size_lt_of_pop hpop
      omega
  | succ fuel ih =>
    cases hpop : pop LeafEntry.key sources with
    | none => exact .inl (advanceFrom_of_none h hpop hlive)
    | some taken =>
      obtain ⟨e, rest⟩ := taken
      obtain ⟨hinline, hrest⟩ := h.pop hpop
      have hlt := size_lt_of_pop hpop
      have hfirst : ∀ item ∈ (items s sources).head?, e.key ≤ item.1 := fun item hitem =>
        le_of_mem_items h hpop (mem_of_mem_head? hitem)
      rw [← readsPast_rest h hpop hfirst]
      cases hbroken : broken torn rest with
      | true =>
        refine .inr ⟨fun hpast => ?_, rest, .unreadableBlock, by simp [advanceFrom, hpop, hbroken]⟩
        rw [hpast.not_broken] at hbroken
        cases hbroken
      | false =>
        have hadvance : advanceFrom torn s (fuel + 1) sources = match hideEmpty (shows e.chain s) with
            | some value => (rest, .ok (some (e.key, value)))
            | none => advanceFrom torn s fuel rest := by
          simp [advanceFrom, hpop, hbroken, lookup_of_inline hinline]
        have hitems := items_of_pop hpop (s := s)
        rw [hadvance]
        cases hshown : hideEmpty (shows e.chain s) with
        | some value =>
          rw [shown, hshown, Option.map_some] at hitems
          have hpast := readsPast_of_not_broken h hpop hbroken value
          refine .inl ⟨by rwa [hitems], rest, some (e.key, value), rfl, hrest, hitems, nofun, hpast,
            fun stop hstop => readsPast_rest h hpop fun item' hitem' => ?_⟩
          obtain ⟨_, ⟨⟩, hle⟩ := hstop item' hitem'
          exact hle
        | none =>
          rw [shown, hshown, Option.map_none, Option.toList_none, nil_append] at hitems
          rw [hitems]
          exact (ih hrest (by omega) hbroken).imp_left fun ⟨hpast, ahead, current, hrun, hcomes⟩ =>
            ⟨hpast, ahead, current, hrun, hcomes.of_rest h hpop hitems⟩

end

theorem ComesTo.le_of_mem {ahead : List (List LeafEntry)} {current : Option (Key × Bytes)}
    (hcomes : ComesTo torn s sources ahead current) (h : Readable sources)
    (hitem : item ∈ items s sources) : ∃ first ∈ current, first.1 ≤ item.1 := by
  have hsort := items_ascending h (s := s)
  rw [hcomes.items_eq] at hitem hsort
  cases current with
  | none => simp [hcomes.done rfl] at hitem
  | some first =>
    refine ⟨first, rfl, ?_⟩
    rcases mem_cons.mp hitem with rfl | hrest
    · exact le_rfl
    · exact (rel_of_pairwise_cons hsort hrest).le

namespace MergeIterator

/-- The iterator shows these items, now and as it moves on; it has come this far without a block that
cannot be read. -/
structure Ahead (it : MergeIterator) (l : List (Key × Bytes)) : Prop where
  readable : Readable it.ahead
  shows_eq : l = it.current.toList ++ items it.snapshotLsn it.ahead
  done : it.current = none → items it.snapshotLsn it.ahead = []
  past : ReadsPast it.torn it.ahead it.current

/-- The second iterator is the first, advanced. -/
structure Follows (it it' : MergeIterator) : Prop where
  advance : it.advance = (it', .ok ())
  ahead : it'.Ahead (items it.snapshotLsn it.ahead)
  sources : it'.sources = it.sources
  snapshotLsn : it'.snapshotLsn = it.snapshotLsn
  past_iff : ∀ p, ReadsPast it'.torn it'.ahead ((items it.snapshotLsn it.ahead).find? p) ↔
    ReadsPast it.torn it.ahead ((items it.snapshotLsn it.ahead).find? p)

variable {it it' : MergeIterator} {l : List (Key × Bytes)}

/-- **An iterator advances if and only if the first item ahead is before all blocks that cannot be
read.** -/
theorem advance_cases (it : MergeIterator) (h : Readable it.ahead) (hlive : broken it.torn it.ahead = false) :
    (ReadsPast it.torn it.ahead (items it.snapshotLsn it.ahead).head? ∧ ∃ it', it.Follows it') ∨
    (¬ ReadsPast it.torn it.ahead (items it.snapshotLsn it.ahead).head? ∧
      ∃ it' err, it.advance = (it', .error err)) := by
  rcases advanceFrom_spec (s := it.snapshotLsn) h le_rfl hlive with
    ⟨hpast, ahead, current, hadvance, hcomes⟩ | ⟨hpast, ahead, err, hadvance⟩
  · refine .inl ⟨hpast, { it with ahead, current }, by rw [advance, hadvance],
      ⟨hcomes.readable, hcomes.items_eq, hcomes.done, hcomes.past⟩, rfl, rfl, fun p => ?_⟩
    exact hcomes.past_iff _ fun item hitem => hcomes.le_of_mem h (mem_of_find?_eq_some hitem)
  · exact .inr ⟨hpast, _, err, by rw [advance, hadvance]⟩

theorem openAll_eq_ok {opened children : List Source} (h : openAll children = .ok opened) :
    opened = children ∧ broken (children.map Source.torn) (children.map Source.entries) = false := by
  unfold openAll at h
  split_ifs at h with hbroken
  cases h
  exact ⟨rfl, Bool.eq_false_iff.mpr hbroken⟩

theorem new_ahead {opened children : List Source} (h : Readable (children.map Source.entries))
    (hopen : openAll children = .ok opened) (hnew : new opened s = (it, .ok ())) :
    it.Ahead (items s (children.map Source.entries)) := by
  obtain ⟨rfl, hlive⟩ := openAll_eq_ok hopen
  have hcases := advance_cases ⟨opened, opened.map Source.entries, s, none⟩ h hlive
  rcases hcases with ⟨-, it', hfollows⟩ | ⟨-, _, err, herror⟩
  · rw [new, hfollows.advance] at hnew
    cases hnew
    exact hfollows.ahead
  · rw [new, herror] at hnew
    cases hnew

theorem Ahead.nil (h : it.Ahead []) : it.current = none := by
  have hitems := h.shows_eq
  cases hcur : it.current with
  | none => rfl
  | some item =>
    rw [hcur] at hitems
    cases hitems

theorem Ahead.cons (h : it.Ahead (item :: l)) :
    it.current = some item ∧ items it.snapshotLsn it.ahead = l := by
  have hitems := h.shows_eq
  cases hcur : it.current with
  | none =>
    rw [hcur, h.done hcur] at hitems
    cases hitems
  | some item' =>
    rw [hcur, Option.toList_some, singleton_append, List.cons.injEq] at hitems
    obtain ⟨rfl, rfl⟩ := hitems
    exact ⟨rfl, rfl⟩

theorem Ahead.advance_eq_ok (h : it.Ahead (item :: l)) (hadvance : it.advance = (it', .ok ())) :
    it'.Ahead l := by
  obtain ⟨-, rfl⟩ := h.cons
  rcases advance_cases it h.readable h.past.not_broken with ⟨-, it'', hfollows⟩ | ⟨-, _, err, herror⟩
  · rw [hfollows.advance] at hadvance
    cases hadvance
    exact hfollows.ahead
  · rw [herror] at hadvance
    cases hadvance

end MergeIterator

end NanoStore.Lsm
