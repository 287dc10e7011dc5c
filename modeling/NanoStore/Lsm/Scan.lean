import NanoStore.Lsm.Iterator
import NanoStore.Lsm.Versions
/-!
# The LSM tree — scans

`LsmCursor` merges the memtables and all files, the newest first. Of the
active memtable it takes a snapshot without the deleted keys; of every other
source it takes the chains. A key is read from the first source that has it
and from no other: a deleted key comes back if an older source still shows
it, and a key is lost if the first source that has it shows no version. A
start that is excluded and present ends the scan before it begins. A scan
that comes to a block which an iterator cannot read fails.
-/

namespace NanoStore.Lsm

open Wal Steps Txn Table List

/-! ## The code -/

namespace Memtable

/-- The loop of `Memtable::scan`. -/
def scanEntries (snapshotLsn : ℕ) : List LeafEntry → Except LsmError (List (Key × Bytes))
  | [] => .ok []
  | e :: entries =>
    match lookup "Memtable::scan" "memtable" e.chain snapshotLsn with
    | .error err => .error err
    | .ok found =>
      (scanEntries snapshotLsn entries).map (((hideEmpty found).map fun value => (e.key, value)).toList ++ ·)

/-- `Memtable::scan` of all keys. -/
def scan (m : Memtable) (snapshotLsn : ℕ) : Except LsmError (List (Key × Bytes)) :=
  scanEntries snapshotLsn m.data.entries

/-- What `MemtableIterator::new` iterates over: the chains of an immutable memtable, and of any other
what its readers see, as versions committed at the snapshot. -/
def iterator (m : Memtable) (snapshotLsn : ℕ) : Except LsmError (List LeafEntry) :=
  if m.immutable then m.entries.map ChainMap.entries
  else (m.scan snapshotLsn).map fun found =>
    found.map fun item => ⟨item.1, [⟨.inline item.2, 0, some snapshotLsn⟩]⟩

end Memtable

open Memtable

namespace TreeVersion

/-- The files in the order in which they are merged: level by level, the last one first. -/
def mergedFiles (version : TreeVersion) : List FileMetadata := version.levels.flatMap List.reverse

end TreeVersion

namespace LsmTree

/-- The sources of a scan, memtables before files. -/
def createIterators (tree : LsmTree) (snapshotLsn : ℕ) : Except LsmError (List Source) := do
  let memtables ← tree.memtables.mapM (·.iterator snapshotLsn)
  openAll (memtables.map (⟨·, false⟩) ++ tree.version.mergedFiles.map (·.source))

end LsmTree

/-- The fields of `LsmCursor` that change. -/
structure LsmCursor where
  iterator : MergeIterator
  currentKey : Option Key
  currentValue : Option Bytes
  exhausted : Bool

/-- Where `ensure_initialized` positions the iterator. -/
def MergeIterator.start (it : MergeIterator) : ScanBounds → Outcome MergeIterator LsmError Unit
  | .all => it.seekToFirst
  | .startingWith p => it.seek p
  | .range (.included k) _ => it.seek k
  | .range (.excluded k) _ => it.seek k
  | .range .unbounded _ => it.seekToFirst

namespace LsmCursor

/-- `load_current`. It sets every other field of the cursor. -/
def load (bounds : ScanBounds) (it : MergeIterator) : LsmCursor :=
  match it.current with
  | some (key, value) =>
    if bounds.contains key then ⟨it, some key, some value, false⟩ else ⟨it, none, none, true⟩
  | none => ⟨it, none, none, true⟩

def new (tree : LsmTree) (bounds : ScanBounds) (snapshotLsn : ℕ) : Except LsmError LsmCursor :=
  match tree.createIterators snapshotLsn with
  | .error e => .error e
  | .ok sources =>
    match andThen (MergeIterator.new sources snapshotLsn) fun it _ => it.start bounds with
    | (_, .error e) => .error e
    | (it, .ok ()) => .ok (load bounds it)

variable (c : LsmCursor)

/-- `next`: one step of the merge, unless the cursor is at its end. -/
def next (bounds : ScanBounds) : Outcome LsmCursor LsmError Unit :=
  if c.exhausted then (c, .ok ())
  else match c.iterator.advance with
    | (it, .error e) => ({ c with iterator := it }, .error e)
    | (it, .ok ()) => (load bounds it, .ok ())

def valid : Bool := !c.exhausted && c.currentKey.isSome

/-- `key` and `value` of a valid cursor. -/
def item : Option (Key × Option Bytes) :=
  if c.valid then c.currentKey.map fun key => (key, c.currentValue) else none

/-- What the cursor shows until it is invalid, for at most `fuel` positions. -/
def shown (bounds : ScanBounds) : ℕ → LsmCursor → Except LsmError (Option (List (Key × Option Bytes)))
  | 0, _ => .ok none
  | fuel + 1, c =>
    match c.item with
    | none => .ok (some [])
    | some found =>
      match c.next bounds with
      | (_, .error e) => .error e
      | (c, .ok ()) => (shown bounds fuel c).map (Option.map (found :: ·))

end LsmCursor

/-- What a new cursor shows until it is invalid, for at most `fuel` positions. -/
def LsmTree.forward (tree : LsmTree) (bounds : ScanBounds) (snapshotLsn fuel : ℕ) :
    Except LsmError (Option (List (Key × Option Bytes))) :=
  match LsmCursor.new tree bounds snapshotLsn with
  | .error e => .error e
  | .ok c => c.shown bounds fuel

/-! ## The sources -/

/-- The active memtable takes writes, and the others do not any more. -/
structure LsmTree.WellFormed (tree : LsmTree) : Prop where
  version : tree.version.WellFormed
  active : tree.active.immutable = false
  rotated : ∀ m ∈ tree.immutable, m.immutable = true

variable {tree : LsmTree} {k : Key} {s : ℕ} {item : Key × Bytes} {m : Memtable}
  {entries : List LeafEntry} {maps : List ChainMap} {value : Bytes}

theorem hideEmpty_of_ne_nil (h : value ≠ []) : hideEmpty (some value) = some value := by
  cases value with
  | nil => exact absurd rfl h
  | cons b value => rfl

/-- A value as the version committed at the snapshot. -/
def committedAt (s : ℕ) (key : Key) (value : Bytes) : LeafEntry :=
  ⟨key, [⟨.inline value, 0, some s⟩]⟩

theorem shows_committedAt (key : Key) :
    shows (committedAt s key value).chain s = some value :=
  VersionChain.findVisibleInline_of_visible (by simp [Version.visible])

/-- What is seen of an entry, as the version committed at the snapshot. -/
def seen (s : ℕ) (e : LeafEntry) : Option LeafEntry :=
  (hideEmpty (shows e.chain s)).map (committedAt s e.key)

theorem key_of_seen {e e' : LeafEntry} (h : seen s e = some e') : e'.key = e.key := by
  obtain ⟨value, -, rfl⟩ := Option.map_eq_some_iff.mp h
  rfl

theorem Memtable.iterator_of_mutable (h : m.immutable = false) :
    m.iterator s = .ok (m.data.entries.filterMap (seen s)) := by
  have hscan : ∀ entries : List LeafEntry, (∀ e ∈ entries, ∀ v ∈ e.chain, Inline v) →
      scanEntries s entries = .ok (entries.filterMap (shown s)) := by
    intro entries hinline
    induction entries with
    | nil => rfl
    | cons e entries ih =>
      obtain ⟨hhead, htail⟩ := forall_mem_cons.mp hinline
      rw [scanEntries, lookup_of_inline hhead, ih htail, filterMap_cons, shown]
      dsimp only
      cases hideEmpty (shows e.chain s) with
      | none | some value => rfl
  rw [iterator, if_neg (by simp [h]), scan, hscan _ m.data.inline, Except.map, map_filterMap]
  congr 1
  refine filterMap_congr fun e _ => ?_
  rw [shown, seen, Option.map_map]
  rfl

/-- The sources behind the active memtable, in the order in which they are merged. -/
def LsmTree.older (tree : LsmTree) : List ChainMap :=
  tree.immutable.reverse.map data ++ tree.version.mergedFiles.map FileMetadata.contents

/-- All sources of a scan: of the active memtable what is seen, of the others the chains. -/
def LsmTree.sources (tree : LsmTree) (s : ℕ) : List (List LeafEntry) :=
  tree.active.data.entries.filterMap (seen s) :: tree.older.map ChainMap.entries

/-- The sources as far as a scan can read them. -/
def LsmTree.children (tree : LsmTree) (s : ℕ) : List Source :=
  ⟨tree.active.data.entries.filterMap (seen s), false⟩ ::
    (tree.immutable.reverse.map (fun m => ⟨m.data.entries, false⟩) ++
      tree.version.mergedFiles.map (·.source))

/-- The entries that a scan can read. -/
def LsmTree.readEntries (tree : LsmTree) (s : ℕ) : List (List LeafEntry) :=
  (tree.children s).map Source.entries

theorem LsmTree.WellFormed.createIterators (h : tree.WellFormed) :
    tree.createIterators s = openAll (tree.children s) := by
  have hrotated : ∀ ms : List Memtable, (∀ m ∈ ms, m.immutable = true) →
      ms.mapM (·.iterator s) = .ok (ms.map fun m => m.data.entries) := by
    intro ms hms
    induction ms with
    | nil => rfl
    | cons m ms ih =>
      obtain ⟨hhead, htail⟩ := forall_mem_cons.mp hms
      rw [mapM_cons, iterator, if_pos hhead, Memtable.entries, if_pos hhead, ih htail]
      rfl
  have hreverse := hrotated tree.immutable.reverse fun m hm =>
    h.rotated m (mem_reverse.mp hm)
  rw [LsmTree.createIterators, memtables, mapM_cons, iterator_of_mutable h.active, hreverse]
  simp [bind, Except.bind, pure, Except.pure, children, Function.comp_def]

theorem LsmTree.readable_sources (tree : LsmTree) (s : ℕ) : Readable (tree.sources s) := by
  refine forall_mem_cons.mpr ⟨⟨?_, fun e he => ?_⟩, fun l hl => ?_⟩
  · refine List.Pairwise.filterMap _ (fun e e' hlt a ha b hb => ?_) tree.active.data.ascending
    rw [key_of_seen ha, key_of_seen hb]
    exact hlt
  · obtain ⟨e₀, -, hseen⟩ := mem_filterMap.mp he
    obtain ⟨value, -, rfl⟩ := Option.map_eq_some_iff.mp hseen
    exact forall_mem_singleton.mpr ⟨value, rfl⟩
  · obtain ⟨m, -, rfl⟩ := mem_map.mp hl
    exact ⟨m.ascending, m.inline⟩

theorem find?_filterMap_seen (h : Ascending entries) :
    (entries.filterMap (seen s)).find? (fun e => e.key = k) =
      (entries.find? fun e => e.key = k).bind (seen s) := by
  induction entries with
  | nil => rfl
  | cons e entries ih =>
    have htail := ih (List.Pairwise.of_cons h)
    by_cases hkey : e.key = k
    · rw [find?_cons_of_pos (by simpa using hkey), Option.bind_some, filterMap_cons]
      cases hseen : seen s e with
      | none =>
        -- no other entry has the key
        have hnone : entries.find? (fun e => e.key = k) = none :=
          find?_eq_none.mpr fun e' he' => by
            have hlt := rel_of_pairwise_cons h he'
            simpa [← hkey] using hlt.ne'
        simp [htail, hnone, Option.bind_none]
      | some e' => simp [key_of_seen hseen, hkey]
    · rw [find?_cons_of_neg (by simpa using hkey), ← htail, filterMap_cons]
      cases hseen : seen s e with
      | none => rfl
      | some e' => simp [key_of_seen hseen, hkey]

/-! ### What is found for a key -/

theorem held_eq (sources : List (List LeafEntry)) :
    Merge.held LeafEntry.key k sources = sources.findSome? fun l => l.find? fun e => e.key = k := by
  unfold Merge.held
  congr!

/-- The chain of the first source that has the key. -/
def firstChain (maps : List ChainMap) (k : Key) : VersionChain :=
  ((Merge.held LeafEntry.key k (maps.map ChainMap.entries)).map LeafEntry.chain).getD []

/-- What sources asked in turn show. -/
def firstShown (maps : List ChainMap) (k : Key) (s : ℕ) : Option Bytes :=
  maps.findSome? fun m => shows (m.chain k) s

theorem firstShown_of_firstChain (h : shows (firstChain maps k) s = some value) :
    firstShown maps k s = some value := by
  induction maps with
  | nil => cases h
  | cons m maps ih =>
    rw [firstShown, findSome?_cons]
    rw [firstChain, held_eq, map_cons, findSome?_cons] at h
    cases hfind : m.entries.find? fun e => e.key = k with
    | some e =>
      have hchain : m.chain k = e.chain := by rw [ChainMap.chain, chainOn, hfind]; rfl
      simp only [hfind, Option.map_some, Option.getD_some] at h
      rw [hchain, h]
    | none =>
      have hchain : m.chain k = [] := by rw [ChainMap.chain, chainOn, hfind]; rfl
      simp only [hfind] at h
      rw [hchain]
      refine ih ?_
      rw [firstChain, held_eq]
      exact h

/-- What a scan finds for a key: what the active memtable shows, or else what the first other source
that has the key does. -/
def LsmTree.scanned (tree : LsmTree) (k : Key) (s : ℕ) : Option Bytes :=
  (hideEmpty (shows (tree.active.data.chain k) s)).or (hideEmpty (shows (firstChain tree.older k) s))

theorem shows_nil : shows [] s = none := rfl

/-- **What the merged sources show.** -/
theorem LsmTree.mem_items_sources :
    item ∈ items s (tree.sources s) ↔ tree.scanned item.1 s = some item.2 := by
  obtain ⟨k, value⟩ := item
  have hact : (tree.active.data.entries.filterMap (seen s)).find? (fun e => e.key = k) =
      (hideEmpty (shows (tree.active.data.chain k) s)).map (committedAt s k) := by
    rw [find?_filterMap_seen tree.active.data.ascending, ChainMap.chain, chainOn]
    cases hfind : tree.active.data.entries.find? fun e => e.key = k with
    | none => rfl
    | some e =>
      have hkey : e.key = k := by simpa using find?_some hfind
      rw [Option.bind_some, seen, hkey]
      rfl
  rw [mem_items (tree.readable_sources s), held_eq, sources, findSome?_cons, scanned]
  simp only [hact]
  cases hshows : hideEmpty (shows (tree.active.data.chain k) s) with
  | some data =>
    obtain ⟨-, hne⟩ := hideEmpty_eq_some hshows
    simp only [Option.map_some, Option.some.injEq, exists_eq_left', Option.some_or, shown,
      shows_committedAt, hideEmpty_of_ne_nil hne]
    simp [committedAt]
  | none =>
    simp only [Option.map_none, Option.none_or, ← held_eq, firstChain]
    cases hfst : Merge.held LeafEntry.key k (tree.older.map ChainMap.entries) with
    | none => simp [shows_nil, hideEmpty]
    | some e =>
      obtain ⟨-, hkey⟩ := Merge.mem_of_held hfst
      simp [shown, hkey]

/-! ### Reads of the same sources -/

variable {version : TreeVersion} {files : List FileMetadata}

theorem findSome?_of_unique {α β : Type*} {g : α → Option β} {l : List α} {a : α} (ha : a ∈ l)
    (hother : ∀ x ∈ l, x ≠ a → g x = none) : l.findSome? g = g a := by
  cases hfind : l.findSome? g with
  | some b =>
    obtain ⟨x, hx, hxb⟩ := exists_of_findSome?_eq_some hfind
    by_cases hxa : x = a
    · rw [← hxa, hxb]
    · rw [hother x hx hxa] at hxb
      cases hxb
  | none => exact (findSome?_eq_none_iff.mp hfind a ha).symm

theorem levelAnswer_eq_findSome? (hapart : files.Pairwise fun f g => f.maxKey < g.minKey) :
    levelAnswer k s files = files.reverse.findSome? fun f => shows (f.contents.chain k) s := by
  have hsymm : Std.Symm Apart := ⟨fun _ _ => Apart.symm⟩
  have hapart' : files.Pairwise Apart := hapart.imp Or.inl
  by_cases hheld : ∃ f ∈ files, f.containsKey k = true
  · obtain ⟨f, hf, hfk⟩ := hheld
    have hothers : ∀ g ∈ files, g ≠ f → g.containsKey k = false := fun g hg hne =>
      (hapart'.forall hf hg hne.symm).not_containsKey hfk
    rw [levelAnswer_eq (f := f) (fun g hg hgk => ?_) hf hfk,
      findSome?_of_unique (mem_reverse.mpr hf) fun g hg hne => ?_]
    · rw [FileMetadata.chain_eq_nil (hothers g (mem_reverse.mp hg) hne), shows_nil]
    · by_contra hne
      rw [hothers g hg hne] at hgk
      cases hgk
  · have hnot : ∀ f ∈ files, f.containsKey k = false := fun f hf =>
      Bool.eq_false_iff.mpr fun hfk => hheld ⟨f, hf, hfk⟩
    rw [levelAnswer_eq_none hnot]
    refine (findSome?_eq_none_iff.mpr fun f hf => ?_).symm
    rw [FileMetadata.chain_eq_nil (hnot f (mem_reverse.mp hf)), shows_nil]

/-- **The files answer in the order in which they are merged.** -/
theorem TreeVersion.WellFormed.shows_filesFor (h : version.WellFormed) :
    shows (filesChain (version.filesFor k) k) s =
      version.mergedFiles.findSome? fun f => shows (f.contents.chain k) s := by
  cases hlvls : version.levels with
  | nil =>
    rw [filesFor, hlvls, mergedFiles, hlvls]
    rfl
  | cons level0 deeper =>
    have hdeeper : ∀ files ∈ deeper, files.Pairwise fun f g => f.maxKey < g.minKey := by
      intro files hfiles
      obtain ⟨i, hi⟩ := mem_iff_getElem?.mp hfiles
      have hlvl := h.apart (i + 1) (Nat.succ_pos i)
      rwa [levelFiles_eq, hlvls, getElem?_cons_succ, hi, Option.getD_some] at hlvl
    have hrest : ∀ levels : List (List FileMetadata),
        (∀ files ∈ levels, files.Pairwise fun f g => f.maxKey < g.minKey) →
        levels.findSome? (levelAnswer k s) =
          (levels.flatMap List.reverse).findSome? fun f => shows (f.contents.chain k) s := by
      intro levels hsort
      induction levels with
      | nil => rfl
      | cons files levels ih =>
        obtain ⟨hhead, htail⟩ := forall_mem_cons.mp hsort
        rw [findSome?_cons, flatMap_cons, findSome?_append, ih htail, levelAnswer_eq_findSome? hhead]
        cases files.reverse.findSome? fun f => shows (f.contents.chain k) s with
        | none | some value => rfl
    rw [Lsm.shows_filesFor hlvls, mergedFiles, hlvls, flatMap_cons,
      findSome?_append, filesChain, shows_flatMap (fun f => f.contents.inline_chain), hrest deeper hdeeper]

/-- **A read asks the active memtable and then the sources behind it, until one shows a version.** -/
theorem LsmTree.WellFormed.get_eq_older (h : tree.WellFormed) : tree.get k s = .ok (hideEmpty
    ((shows (tree.active.data.chain k) s).or (firstShown tree.older k s))) := by
  have hmems : shows (memtablesChain tree.immutable.reverse k) s =
      tree.immutable.reverse.findSome? fun m => shows (m.data.chain k) s :=
    shows_flatMap (fun m => m.data.inline_chain)
  rw [get_eq, chain_cons, shows_append tree.active.data.inline_chain,
    shows_append inline_memtables, h.version.shows_filesFor, hmems, firstShown,
    older, findSome?_append, findSome?_map, findSome?_map]
  rfl

/-- The active memtable says that the key is deleted, and the first source behind it that has the key
shows a value. -/
def LsmTree.Revived (tree : LsmTree) (k : Key) (s : ℕ) : Prop :=
  shows (tree.active.data.chain k) s = some [] ∧ hideEmpty (shows (firstChain tree.older k) s) ≠ none

/-- Of the memtables and files, neither the active memtable nor the first one behind it that has the key
shows a version, and a later one shows a value. -/
def LsmTree.Hidden (tree : LsmTree) (k : Key) (s : ℕ) : Prop :=
  shows (tree.active.data.chain k) s = none ∧ shows (firstChain tree.older k) s = none ∧
    hideEmpty (firstShown tree.older k s) ≠ none

instance (tree : LsmTree) (k : Key) (s : ℕ) : Decidable (tree.Revived k s) :=
  inferInstanceAs (Decidable (_ ∧ _))

instance (tree : LsmTree) (k : Key) (s : ℕ) : Decidable (tree.Hidden k s) :=
  inferInstanceAs (Decidable (_ ∧ _))

/-- **A scan and a read find the same** unless the key is revived or hidden. -/
theorem LsmTree.WellFormed.get_eq_scanned_iff (h : tree.WellFormed) :
    tree.get k s = .ok (tree.scanned k s) ↔ ¬ tree.Revived k s ∧ ¬ tree.Hidden k s := by
  rw [h.get_eq_older, scanned, Revived, Hidden, Except.ok.injEq]
  cases hact : shows (tree.active.data.chain k) s with
  | some value =>
    cases value with
    | nil =>
      cases hideEmpty (shows (firstChain tree.older k) s) with
      | none | some value => simp [hideEmpty]
    | cons b value => simp [hideEmpty]
  | none =>
    cases hfst : shows (firstChain tree.older k) s with
    | some value => simp [firstShown_of_firstChain hfst, hideEmpty]
    | none => simp [hideEmpty]

/-! ## The cursor -/

/-- The key a cursor starts at. -/
def startKey : ScanBounds → Option Key
  | .all => none
  | .startingWith p => some p
  | .range (.included k) _ => some k
  | .range (.excluded k) _ => some k
  | .range .unbounded _ => none

/-- The sources from the lower bound on. -/
def started (bounds : ScanBounds) (sources : List (List LeafEntry)) : List (List LeafEntry) :=
  match startKey bounds with
  | none => sources
  | some k => Merge.seek LeafEntry.key k sources

/-- The bounds exclude their start, and a scan finds it. -/
def LsmTree.StartShown (tree : LsmTree) (s : ℕ) : ScanBounds → Prop
  | .range (.excluded k) _ => tree.scanned k s ≠ none
  | _ => False

instance (tree : LsmTree) (s : ℕ) (bounds : ScanBounds) : Decidable (tree.StartShown s bounds) :=
  match bounds with
  | .range (.excluded k) _ => inferInstanceAs (Decidable (tree.scanned k s ≠ none))
  | .range (.included _) _ | .range .unbounded _ | .all | .startingWith _ => .isFalse id

variable {it : MergeIterator} {bounds : ScanBounds} {sources : List (List LeafEntry)}
  {l : List (Key × Bytes)}

theorem started_eq_map (bounds : ScanBounds) (sources : List (List LeafEntry)) :
    ∃ f : List LeafEntry → List LeafEntry, (∀ l, (f l).Sublist l) ∧ started bounds sources = sources.map f := by
  unfold started
  cases startKey bounds with
  | none => exact ⟨id, fun _ => .refl _, (map_id _).symm⟩
  | some k => exact ⟨_, fun l => dropWhile_sublist _, rfl⟩

theorem Readable.started (h : Readable sources) (bounds : ScanBounds) :
    Readable (started bounds sources) := by
  obtain ⟨f, hf, hmap⟩ := started_eq_map bounds sources
  exact hmap ▸ h.map hf

theorem MergeIterator.start_eq : it.start bounds = it.restart (started bounds it.entries) := by
  cases bounds with
  | all | startingWith p => rfl
  | range first last =>
    cases first with
    | included k | excluded k | unbounded => rfl

variable {fuel : ℕ}

/-- Where a scan ends: at the first item ahead that is out of bounds. -/
def stopAt (bounds : ScanBounds) (l : List (Key × Bytes)) : Option (Key × Bytes) :=
  l.find? fun item => !bounds.contains item.1

/-- What a cursor shows of the items ahead: those before the end of the scan. -/
def inBounds (bounds : ScanBounds) (l : List (Key × Bytes)) : List (Key × Option Bytes) :=
  (l.takeWhile fun item => bounds.contains item.1).map fun item => (item.1, some item.2)

/-- A cursor at an item in bounds shows it, and goes on. -/
theorem LsmCursor.shown_load_of_contains (hcur : it.current = some item)
    (hin : bounds.contains item.1 = true) :
    (load bounds it).shown bounds (fuel + 1) = match it.advance with
      | (_, .error e) => .error e
      | (it', .ok ()) =>
        ((load bounds it').shown bounds fuel).map (Option.map ((item.1, some item.2) :: ·)) := by
  rw [load, hcur]
  simp only [hin, if_true, shown, LsmCursor.item, valid, next]
  cases it.advance with
  | mk it' result =>
    cases result with
    | error e | ok => rfl

/-- **A cursor shows what is ahead of its iterator up to the first key out of bounds**, unless a block
that cannot be read comes before. -/
theorem LsmCursor.shown_load (bounds : ScanBounds) (h : it.Ahead l) (hsort : l.Pairwise fun a b => a.1 < b.1)
    (hfuel : l.length < fuel) :
    (ReadsPast it.torn it.ahead (stopAt bounds l) ∧
      (load bounds it).shown bounds fuel = .ok (some (inBounds bounds l))) ∨
    (¬ ReadsPast it.torn it.ahead (stopAt bounds l) ∧
      ∃ err, (load bounds it).shown bounds fuel = .error err) := by
  induction l generalizing it fuel with
  | nil =>
    obtain ⟨fuel, rfl⟩ := Nat.exists_eq_add_of_lt hfuel
    have hcur := h.nil
    have hpast := h.past
    rw [hcur] at hpast
    refine .inl ⟨hpast, ?_⟩
    rw [load, hcur]
    rfl
  | cons item l ih =>
    obtain ⟨fuel, rfl⟩ : ∃ fuel', fuel = fuel' + 1 := Nat.exists_eq_succ_of_ne_zero (by omega)
    obtain ⟨hcur, hitems⟩ := h.cons
    by_cases hin : bounds.contains item.1 = true
    · have hstop : stopAt bounds (item :: l) = stopAt bounds l := find?_cons_of_neg (by simp [hin])
      rw [hstop, shown_load_of_contains hcur hin]
      rcases MergeIterator.advance_cases it h.readable h.past.not_broken with
        ⟨-, it', hfollows⟩ | ⟨hpast, it', err, herror⟩
      · have hahead : it'.Ahead l := hitems ▸ hfollows.ahead
        have hiff := hfollows.past_iff fun item => !bounds.contains item.1
        rw [hitems] at hiff
        rw [hfollows.advance, stopAt, ← hiff]
        refine (ih hahead hsort.of_cons (by simpa using hfuel)).imp ?_ ?_
        · rintro ⟨hread, hshown⟩
          refine ⟨hread, ?_⟩
          simp [hshown, Except.map, inBounds, hin]
        · rintro ⟨hread, err, hshown⟩
          refine ⟨hread, err, ?_⟩
          simp [hshown, Except.map]
      · rw [hitems] at hpast
        refine .inr ⟨fun hread => hpast (hread.head ?_ hsort.of_cons), err, by rw [herror]⟩
        exact fun item' hitem' => mem_of_find?_eq_some hitem'
    · have hstop : stopAt bounds (item :: l) = some item := find?_cons_of_pos (by simp [hin])
      have hpast := h.past
      rw [hcur] at hpast
      refine .inl ⟨hstop ▸ hpast, ?_⟩
      rw [load, hcur]
      simp [hin, shown, LsmCursor.item, valid, inBounds]

/-- **A scan from new positions** comes to its end or fails, as the blocks ahead can be read. -/
theorem LsmCursor.shown_start (it : MergeIterator) (bounds : ScanBounds) (h : Readable it.entries)
    (hlen : (items it.snapshotLsn (started bounds it.entries)).length < fuel) :
    (ReadsPast it.torn (started bounds it.entries)
        (stopAt bounds (items it.snapshotLsn (started bounds it.entries))) ∧
      ∃ it', it.start bounds = (it', .ok ()) ∧ (load bounds it').shown bounds fuel =
        .ok (some (inBounds bounds (items it.snapshotLsn (started bounds it.entries))))) ∨
    (¬ ReadsPast it.torn (started bounds it.entries)
        (stopAt bounds (items it.snapshotLsn (started bounds it.entries))) ∧
      ∃ it' err, it.start bounds = (it', .error err) ∨
        it.start bounds = (it', .ok ()) ∧ (load bounds it').shown bounds fuel = .error err) := by
  have hahead := h.started bounds
  have hsort := items_ascending hahead (s := it.snapshotLsn)
  rw [MergeIterator.start_eq, MergeIterator.restart]
  cases hbroken : broken it.torn (started bounds it.entries) with
  | true =>
    refine .inr ⟨fun hpast => ?_, it, .unreadableBlock, .inl rfl⟩
    rw [hpast.not_broken] at hbroken
    cases hbroken
  | false =>
    rw [if_neg Bool.false_ne_true]
    rcases MergeIterator.advance_cases { it with ahead := started bounds it.entries } hahead hbroken
      with ⟨-, it', hfollows⟩ | ⟨hpast, it', err, herror⟩
    · refine (shown_load bounds hfollows.ahead hsort hlen).imp ?_ ?_
      · exact fun ⟨hread, hshown⟩ => ⟨(hfollows.past_iff _).mp hread, it', hfollows.advance, hshown⟩
      · exact fun ⟨hread, err, hshown⟩ => ⟨fun hpast => hread ((hfollows.past_iff _).mpr hpast), it', err,
          .inr ⟨hfollows.advance, hshown⟩⟩
    · refine .inr ⟨fun hread => hpast (hread.head ?_ hsort), it', err, .inl herror⟩
      exact fun item hitem => mem_of_find?_eq_some hitem

variable (bounds sources) in
theorem size_started_le :
    Merge.size (started bounds sources) ≤ Merge.size sources := by
  unfold started
  cases startKey bounds with
  | none => exact le_rfl
  | some k => exact Merge.size_seek_le LeafEntry.key k sources

theorem mem_items_of_started (h : Readable sources) (hitem : item ∈ items s (started bounds sources)) :
    item ∈ items s sources := by
  rw [mem_items (h.started bounds), started] at hitem
  obtain ⟨e, hheld, hshown⟩ := hitem
  refine (mem_items h).mpr ⟨e, ?_, hshown⟩
  cases hstart : startKey bounds with
  | none => rwa [hstart] at hheld
  | some k =>
    rw [hstart, Merge.held_seek h.ascends] at hheld
    split_ifs at hheld
    exact hheld

/-! ### As far as the sources can be read -/

theorem FileMetadata.find?_source {f : FileMetadata}
    (hpast : f.source.torn = true → ∃ e ∈ f.source.entries, k < e.key) :
    f.source.entries.find? (fun e => e.key = k) = f.contents.entries.find? fun e => e.key = k := by
  by_cases htorn : f.source.torn = true
  · obtain ⟨e, he, hlt⟩ := hpast htorn
    have hsort : Ascending f.contents.entries := f.contents.ascending
    rw [← take_append_drop f.readable f.contents.entries] at hsort
    -- what cannot be read is behind an entry behind the key
    have hnone : (f.contents.entries.drop f.readable).find? (fun e => e.key = k) = none := by
      refine find?_eq_none.mpr fun e' he' => ?_
      have hlt' := (pairwise_append.mp hsort).2.2 e he e' he'
      simpa using (hlt.trans hlt').ne'
    conv_rhs => rw [← take_append_drop f.readable f.contents.entries, find?_append, hnone, Option.or_none]
    rfl
  · have hall : f.contents.entries.length ≤ f.readable := by simpa [source] using htorn
    rw [source, take_of_length_le hall]

theorem LsmTree.readable_readEntries (tree : LsmTree) (s : ℕ) : Readable (tree.readEntries s) := by
  obtain ⟨hactive, holder⟩ := forall_mem_cons.mp (tree.readable_sources s)
  rw [readEntries, children, map_cons, map_append, map_map, map_map]
  refine forall_mem_cons.mpr ⟨hactive, forall_mem_append.mpr ⟨fun l hl => ?_, fun l hl => ?_⟩⟩
  · obtain ⟨m, -, rfl⟩ := mem_map.mp hl
    exact ⟨m.data.ascending, m.data.inline⟩
  · obtain ⟨f, -, rfl⟩ := mem_map.mp hl
    exact f.readable_source

theorem LsmTree.size_readEntries_le (tree : LsmTree) (s : ℕ) :
    Merge.size (tree.readEntries s) ≤ Merge.size (tree.sources s) := by
  have hfiles : (tree.version.mergedFiles.map fun f => f.source.entries.length).sum ≤
      (tree.version.mergedFiles.map fun f => f.contents.entries.length).sum :=
    sum_le_sum fun f _ => (take_sublist _ _).length_le
  simp only [Merge.size, readEntries, children, sources, older, map_cons, map_append, map_map, sum_cons,
    sum_append, Function.comp_def]
  omega

/-- Where a scan ends, as far as the sources can be read. -/
def LsmTree.stop (tree : LsmTree) (bounds : ScanBounds) (s : ℕ) : Option (Key × Bytes) :=
  stopAt bounds (items s (started bounds (tree.readEntries s)))

/-- A scan comes to its end before any block that cannot be read: no source has one, or the scan ends
at a key out of bounds and every source with such a block has a greater key before it. -/
def LsmTree.Scannable (tree : LsmTree) (bounds : ScanBounds) (s : ℕ) : Prop :=
  ReadsPast ((tree.children s).map Source.torn) (started bounds (tree.readEntries s)) (tree.stop bounds s)

instance (tree : LsmTree) (bounds : ScanBounds) (s : ℕ) : Decidable (tree.Scannable bounds s) :=
  inferInstanceAs (Decidable (ReadsPast _ _ _))

namespace LsmTree.Scannable

variable (h : tree.Scannable bounds s)
include h

theorem readsPast :
    ReadsPast ((tree.children s).map Source.torn) (tree.readEntries s) (tree.stop bounds s) := by
  obtain ⟨f, hf, hmap⟩ := started_eq_map bounds (tree.readEntries s)
  exact ReadsPast.of_map hf (hmap ▸ h)

/-- Up to the end of the scan the sources that are read in part have what the whole sources have. -/
theorem held_readEntries (hk : ∀ stop ∈ tree.stop bounds s, k ≤ stop.1) :
    Merge.held LeafEntry.key k (tree.readEntries s) = Merge.held LeafEntry.key k (tree.sources s) := by
  have hpast := h.readsPast
  have hfiles : ∀ f ∈ tree.version.mergedFiles,
      f.source.torn = true → ∃ e ∈ f.source.entries, k < e.key := by
    intro f hf htorn
    have hchild : (f.source.torn, f.source.entries) ∈
        ((tree.children s).map Source.torn).zip (tree.readEntries s) := by
      rw [readEntries, zip_map', mem_map]
      exact ⟨f.source, mem_cons_of_mem _ (mem_append_right _ (mem_map_of_mem hf)), rfl⟩
    cases hstop : tree.stop bounds s with
    | none =>
      rw [hstop] at hpast
      have hwhole : f.source.torn = false := hpast _ hchild
      rw [hwhole] at htorn
      cases htorn
    | some stop =>
      rw [hstop] at hpast
      obtain ⟨e, he, hlt⟩ := hpast _ hchild htorn
      exact ⟨e, he, (hk stop hstop).trans_lt hlt⟩
  have hmerged : tree.version.mergedFiles.findSome? (fun f => f.source.entries.find? fun e => e.key = k) =
      tree.version.mergedFiles.findSome? fun f => f.contents.entries.find? fun e => e.key = k := by
    generalize tree.version.mergedFiles = files at hfiles
    induction files with
    | nil => rfl
    | cons f files ih =>
      obtain ⟨hhead, htail⟩ := forall_mem_cons.mp hfiles
      rw [findSome?_cons, findSome?_cons, FileMetadata.find?_source hhead, ih htail]
  rw [held_eq, held_eq, readEntries, children, sources, older]
  simp only [map_cons, map_append, map_map, findSome?_cons, findSome?_append, findSome?_map,
    Function.comp_def, hmerged]

theorem mem_items_readEntries (hk : ∀ stop ∈ tree.stop bounds s, item.1 ≤ stop.1) :
    item ∈ items s (started bounds (tree.readEntries s)) ↔
      item ∈ items s (started bounds (tree.sources s)) := by
  have hread := tree.readable_readEntries s
  have hwhole := tree.readable_sources s
  have hheld := h.held_readEntries hk
  have hseek : ∀ k, Merge.held LeafEntry.key item.1 (Merge.seek LeafEntry.key k (tree.readEntries s)) =
      Merge.held LeafEntry.key item.1 (Merge.seek LeafEntry.key k (tree.sources s)) := by
    intro k
    rw [Merge.held_seek hread.ascends, Merge.held_seek hwhole.ascends, hheld]
  rw [mem_items (hread.started bounds), mem_items (hwhole.started bounds), started, started]
  cases startKey bounds with
  | none => simp only [hheld]
  | some k => simp only [hseek]

end LsmTree.Scannable

/-- Two sorted lists with the same items up to the first that is out of bounds begin alike. -/
theorem takeWhile_eq_of_agree {p : Key × Bytes → Bool} {l l' : List (Key × Bytes)}
    (hsort : l.Pairwise fun a b => a.1 < b.1) (hsort' : l'.Pairwise fun a b => a.1 < b.1)
    (hmem : ∀ item, (∀ stop ∈ l.find? fun item => !p item, item.1 ≤ stop.1) → (item ∈ l ↔ item ∈ l')) :
    l.takeWhile p = l'.takeWhile p := by
  induction l generalizing l' with
  | nil =>
    have hnil : l' = [] := eq_nil_iff_forall_not_mem.mpr fun item hitem => by
      simpa using (hmem item nofun).mpr hitem
    rw [hnil]
  | cons first l ih =>
    have hfirst : ∀ stop ∈ (first :: l).find? fun item => !p item, first.1 ≤ stop.1 := by
      intro stop hstop
      rcases mem_cons.mp (mem_of_find?_eq_some hstop) with rfl | hmem
      · exact le_rfl
      · exact (rel_of_pairwise_cons hsort hmem).le
    cases l' with
    | nil => simpa using (hmem first hfirst).mp mem_cons_self
    | cons first' l' =>
      have hsame : first' = first := by
        have hle : first'.1 ≤ first.1 := by
          rcases mem_cons.mp ((hmem first hfirst).mp mem_cons_self) with heq | hmem
          · exact heq ▸ le_rfl
          · exact (rel_of_pairwise_cons hsort' hmem).le
        refine (mem_cons.mp ((hmem first' fun stop hstop => hle.trans (hfirst stop hstop)).mpr
          mem_cons_self)).resolve_right fun hmem => ?_
        exact absurd (rel_of_pairwise_cons hsort hmem) hle.not_gt
      subst hsame
      by_cases hp : p first' = true
      · rw [takeWhile_cons_of_pos hp, takeWhile_cons_of_pos hp]
        refine congrArg _ (ih hsort.of_cons hsort'.of_cons fun item hitem => ?_)
        have hiff := hmem item (by rwa [find?_cons_of_neg (by simp [hp])])
        have hne : item ∈ l → item ≠ first' := fun hl heq =>
          absurd (rel_of_pairwise_cons hsort hl) (heq ▸ lt_irrefl _)
        have hne' : item ∈ l' → item ≠ first' := fun hl heq =>
          absurd (rel_of_pairwise_cons hsort' hl) (heq ▸ lt_irrefl _)
        grind
      · rw [takeWhile_cons_of_neg hp, takeWhile_cons_of_neg hp]

/-- **Where a scan comes to its end it shows what the whole sources have.** -/
theorem LsmTree.Scannable.inBounds_eq (h : tree.Scannable bounds s) :
    inBounds bounds (items s (started bounds (tree.readEntries s))) =
      inBounds bounds (items s (started bounds (tree.sources s))) := by
  have hsort := items_ascending ((tree.readable_readEntries s).started bounds) (s := s)
  have hsort' := items_ascending ((tree.readable_sources s).started bounds) (s := s)
  rw [inBounds, inBounds, takeWhile_eq_of_agree hsort hsort' fun item hitem => h.mem_items_readEntries hitem]

/-- What a scan of a tree shows. It comes to its end before it has seen more keys than there are
entries, or fails. -/
theorem LsmTree.WellFormed.forward_cases (h : tree.WellFormed) (bounds : ScanBounds)
    (hfuel : Merge.size (tree.sources s) < fuel) :
    (tree.Scannable bounds s ∧ tree.forward bounds s fuel =
      .ok (some (inBounds bounds (items s (started bounds (tree.sources s)))))) ∨
    (¬ tree.Scannable bounds s ∧ ∃ err, tree.forward bounds s fuel = .error err) := by
  have hread := tree.readable_readEntries s
  have hlen : (items s (started bounds (tree.readEntries s))).length < fuel :=
    ((length_items_le.trans (size_started_le bounds _)).trans (tree.size_readEntries_le s)).trans_lt hfuel
  rw [forward, LsmCursor.new, h.createIterators]
  cases hopen : openAll (tree.children s) with
  | error err =>
    refine .inr ⟨fun hscan => ?_, err, rfl⟩
    rw [openAll, ← LsmTree.readEntries, hscan.readsPast.not_broken] at hopen
    cases hopen
  | ok opened =>
    obtain ⟨rfl, hlive⟩ := MergeIterator.openAll_eq_ok hopen
    -- the iterator first goes to the first of all items, and from there to the start of the bounds
    rcases MergeIterator.advance_cases ⟨tree.children s, tree.readEntries s, s, none⟩
      hread hlive with ⟨-, it, hnew⟩ | ⟨hpast, it, err, hnew⟩
    · have hadvance : MergeIterator.new (tree.children s) s = (it, .ok ()) := hnew.advance
      have hents : it.entries = tree.readEntries s := congrArg (map _) hnew.sources
      have htorn : it.torn = (tree.children s).map Source.torn := congrArg (map _) hnew.sources
      have hlsn : it.snapshotLsn = s := hnew.snapshotLsn
      have hread' : Readable it.entries := by rwa [hents]
      have hlen' : (items it.snapshotLsn (started bounds it.entries)).length < fuel := by rwa [hents, hlsn]
      have hcases := LsmCursor.shown_start it bounds hread' hlen'
      rw [hents, htorn, hlsn] at hcases
      simp only [hadvance, andThen_ok]
      rcases hcases with ⟨hscan, it', hstart, hshown⟩ | ⟨hscan, it', err, hstart | ⟨hstart, hshown⟩⟩
      · refine .inl ⟨hscan, ?_⟩
        rw [hstart, ← LsmTree.Scannable.inBounds_eq hscan]
        exact hshown
      · exact .inr ⟨hscan, err, by rw [hstart]⟩
      · exact .inr ⟨hscan, err, by rw [hstart]; exact hshown⟩
    · have hadvance : MergeIterator.new (tree.children s) s = (it, .error err) := hnew
      refine .inr ⟨fun hscan => hpast ?_, err, by simp only [hadvance, andThen_error]⟩
      refine hscan.readsPast.head (fun item hitem => ?_) (items_ascending hread)
      exact mem_items_of_started hread (mem_of_find?_eq_some hitem)

/-- A cursor that comes to its end does so with any fuel that suffices. -/
theorem LsmCursor.shown_stable {c : LsmCursor} {l : List (Key × Option Bytes)}
    (h : c.shown bounds fuel = .ok (some l)) (fuel' : ℕ) :
    c.shown bounds fuel' = .ok none ∨ c.shown bounds fuel' = .ok (some l) := by
  induction fuel generalizing c fuel' l with
  | zero => cases h
  | succ fuel ih =>
    cases fuel' with
    | zero => exact .inl rfl
    | succ fuel' =>
      rw [shown] at h ⊢
      cases hitem : c.item with
      | none =>
        rw [hitem] at h
        exact .inr h
      | some found =>
        simp only [hitem] at h ⊢
        split at h
        · cases h
        · rename_i c' hnext
          cases hrest : c'.shown bounds fuel with
          | error err =>
            rw [hrest] at h
            cases h
          | ok rest =>
            cases rest with
            | none =>
              rw [hrest] at h
              cases h
            | some tail =>
              rw [hrest] at h
              cases h
              rcases ih hrest fuel' with hmore | hmore
              · exact .inl (by simp [hmore, Except.map])
              · exact .inr (by simp [hmore, Except.map])

theorem LsmTree.forward_stable {l : List (Key × Option Bytes)}
    (h : tree.forward bounds s fuel = .ok (some l)) (fuel' : ℕ) :
    tree.forward bounds s fuel' = .ok none ∨ tree.forward bounds s fuel' = .ok (some l) := by
  unfold forward at h ⊢
  cases hnew : LsmCursor.new tree bounds s with
  | error e =>
    rw [hnew] at h
    cases h
  | ok c =>
    rw [hnew] at h
    exact LsmCursor.shown_stable h fuel'

theorem LsmTree.forward_unique {fuel' : ℕ} {l l' : List (Key × Option Bytes)}
    (h : tree.forward bounds s fuel = .ok (some l))
    (h' : tree.forward bounds s fuel' = .ok (some l')) : l = l' := by
  rcases forward_stable h fuel' with hnone | hsame
  · rw [hnone] at h'
    cases h'
  · rw [hsame] at h'
    cases h'
    rfl

theorem LsmTree.mem_items_started : item ∈ items s (started bounds (tree.sources s)) ↔
    (∀ k ∈ startKey bounds, k ≤ item.1) ∧ tree.scanned item.1 s = some item.2 := by
  have hreadable := tree.readable_sources s
  rw [← mem_items_sources, mem_items (hreadable.started bounds), mem_items hreadable, started]
  cases startKey bounds with
  | none => simp
  | some k =>
    simp only [Merge.held_seek hreadable.ascends, Option.mem_some_iff, forall_eq']
    by_cases hlt : item.1 < k
    · simp [hlt]
    · simp [hlt, not_lt.mp hlt]

theorem startKey_le (h : bounds.starts k = true) : ∀ k' ∈ startKey bounds, k' ≤ k := by
  intro k' hk'
  cases bounds with
  | all => cases hk'
  | startingWith p =>
    cases hk'
    simpa [ScanBounds.starts] using h
  | range first last =>
    cases first with
    | included e =>
      cases hk'
      simpa [ScanBounds.starts, Bound.below] using h
    | excluded e =>
      cases hk'
      have hlt : k' < k := by simpa [ScanBounds.starts, Bound.below] using h
      exact hlt.le
    | unbounded => cases hk'

theorem LsmTree.starts_of_mem (hstart : ¬ tree.StartShown s bounds)
    (h : item ∈ items s (started bounds (tree.sources s))) : bounds.starts item.1 = true := by
  obtain ⟨hle, hscanned⟩ := mem_items_started.mp h
  cases bounds with
  | all => rfl
  | startingWith p => simpa [ScanBounds.starts] using hle p rfl
  | range first last =>
    cases first with
    | included e => simpa [ScanBounds.starts, Bound.below] using hle e rfl
    | excluded e =>
      have hne : e ≠ item.1 := by
        rintro rfl
        exact hstart (by simp [StartShown, hscanned])
      simpa [ScanBounds.starts, Bound.below] using lt_of_le_of_ne (hle e rfl) hne
    | unbounded => rfl

/-- **What is shown of the bounds.** A start that is excluded and shown is the first key ahead and out of
bounds, so nothing is shown. -/
theorem LsmTree.mem_takeWhile_started : item ∈ (items s (started bounds (tree.sources s))).takeWhile
    (fun item => bounds.contains item.1) ↔ ¬ tree.StartShown s bounds ∧ bounds.contains item.1 = true ∧
    tree.scanned item.1 s = some item.2 := by
  have hsort := items_ascending ((tree.readable_sources s).started bounds) (s := s)
  have hstarts : ¬ tree.StartShown s bounds →
      ∀ i ∈ items s (started bounds (tree.sources s)), bounds.starts i.1 = true :=
    fun hstart _ hi => starts_of_mem hstart hi
  have hmem : ∀ i, i ∈ items s (started bounds (tree.sources s)) ↔ _ := fun _ => mem_items_started
  generalize items s (started bounds (tree.sources s)) = l at hsort hstarts hmem ⊢
  constructor
  · intro hitem
    refine ⟨fun hstart => ?_, all_eq_true.mp all_takeWhile item hitem,
      ((hmem item).mp ((takeWhile_sublist _).subset hitem)).2⟩
    cases bounds with
    | all | startingWith p => exact hstart
    | range first last =>
      cases first with
      | included e | unbounded => exact hstart
      | excluded e =>
        obtain ⟨value, hval⟩ := Option.ne_none_iff_exists'.mp hstart
        have hfound : (e, value) ∈ l := (hmem _).mpr ⟨fun k hk => (Option.some.inj hk).ge, hval⟩
        -- nothing ahead is below the start, so the start is what the cursor comes to first
        obtain ⟨before, after, rfl⟩ := append_of_mem hfound
        have hbefore : before = [] := by
          refine eq_nil_iff_forall_not_mem.mpr fun i hi => ?_
          have hlt := (pairwise_append.mp hsort).2.2 i hi (e, value) mem_cons_self
          exact absurd (((hmem i).mp (mem_append_left _ hi)).1 e rfl) hlt.not_ge
        rw [hbefore, nil_append, takeWhile_cons, if_neg (by simp [ScanBounds.contains, Bound.below])] at hitem
        cases hitem
  · rintro ⟨hstart, hin, hscanned⟩
    have hl : item ∈ l := (hmem item).mpr ⟨startKey_le (ScanBounds.starts_of_contains hin), hscanned⟩
    exact ScanBounds.mem_takeWhile hsort (hstarts hstart) hl hin

/-- The items are the keys in bounds that are read at the snapshot, in ascending order, each with the
value read. -/
structure LsmTree.ScansAs (tree : LsmTree) (bounds : ScanBounds) (s : ℕ)
    (items : List (Key × Option Bytes)) : Prop where
  ascending : items.Pairwise fun a b => a.1 < b.1
  exact : ∀ key value, (key, value) ∈ items ↔ bounds.contains key = true ∧
    ∃ data, value = some data ∧ tree.get key s = .ok (some data)

theorem LsmTree.mem_inBounds_started {value : Option Bytes} :
    (k, value) ∈ inBounds bounds (items s (started bounds (tree.sources s))) ↔ ∃ data,
      value = some data ∧ ¬ tree.StartShown s bounds ∧ bounds.contains k = true ∧ tree.scanned k s = some data := by
  rw [inBounds, mem_map]
  constructor
  · rintro ⟨item, hitem, hpair⟩
    obtain ⟨rfl, rfl⟩ := Prod.mk.inj hpair
    exact ⟨item.2, rfl, mem_takeWhile_started.mp hitem⟩
  · rintro ⟨data, rfl, hdata⟩
    exact ⟨(k, data), mem_takeWhile_started.mpr hdata, rfl⟩

/-- What a scan shows is right if it finds, of the keys in bounds, what reads find. -/
theorem LsmTree.scansAs_inBounds_iff :
    tree.ScansAs bounds s (inBounds bounds (items s (started bounds (tree.sources s)))) ↔
      ∀ k, bounds.contains k = true → ∀ data,
        (¬ tree.StartShown s bounds ∧ tree.scanned k s = some data ↔ tree.get k s = .ok (some data)) := by
  constructor
  · intro hscans k hin data
    have hkey := hscans.exact k (some data)
    rw [mem_inBounds_started] at hkey
    simpa [hin] using hkey
  · intro hkeys
    have hsort := items_ascending ((tree.readable_sources s).started bounds) (s := s)
    refine ⟨pairwise_map.mpr (hsort.sublist (takeWhile_sublist _)), fun k value => ?_⟩
    rw [mem_inBounds_started]
    constructor
    · rintro ⟨data, rfl, hstart, hin, hscanned⟩
      exact ⟨hin, data, rfl, (hkeys k hin data).mp ⟨hstart, hscanned⟩⟩
    · rintro ⟨hin, data, rfl, hget⟩
      obtain ⟨hstart, hscanned⟩ := (hkeys k hin data).mpr hget
      exact ⟨data, rfl, hstart, hin, hscanned⟩

variable {cfg : LsmConfig}

theorem LsmTree.wellFormed_new : (new cfg).WellFormed where
  version := TreeVersion.wellFormed_new
  active := rfl
  rotated := nofun

theorem LsmTree.WellFormed.rotateMemtable (cfg : LsmConfig) (h : tree.WellFormed) :
    (tree.rotateMemtable cfg).WellFormed where
  version := h.version
  active := rfl
  rotated := by
    refine forall_mem_append.mpr ⟨h.rotated, forall_mem_singleton.mpr rfl⟩

variable {key : Key} {t : TransactionId} {commitLsn : Option ℕ}

theorem Memtable.immutable_insert :
    (m.insert cfg key value t commitLsn).1.immutable = m.immutable := by
  unfold insert
  split_ifs
  · rfl
  · rfl
  · rfl

theorem LsmTree.WellFormed.insertInternal (h : tree.WellFormed) :
    (tree.insertInternal cfg key value t commitLsn).1.WellFormed := by
  have hkept : ∀ {tree : LsmTree}, tree.WellFormed →
      LsmTree.WellFormed { tree with active := (tree.active.insert cfg key value t commitLsn).1 } :=
    fun h => ⟨h.version, immutable_insert.trans h.active, h.rotated⟩
  have hhere := hkept h
  have hrotated := hkept (h.rotateMemtable cfg)
  unfold LsmTree.insertInternal
  split
  · rename_i hins
    rw [hins] at hhere
    exact hhere
  · exact hrotated
  · exact h

theorem LsmTree.WellFormed.flushImmutableMemtables (h : tree.WellFormed)
    {clock : ℕ → ℕ} : (tree.flushImmutableMemtables cfg clock).1.WellFormed := by
  have hver : (tree.flushImmutableMemtables cfg clock).1.version.WellFormed :=
    h.version.flushImmutableMemtables
  unfold LsmTree.flushImmutableMemtables at hver ⊢
  split
  · rename_i hflush
    rw [hflush] at hver
    exact ⟨hver, h.active, h.rotated⟩
  · rename_i hflush
    rw [hflush] at hver
    exact ⟨hver, h.active, nofun⟩

/-- **Every call keeps the tree well formed.** -/
theorem LsmTree.WellFormed.exec (h : tree.WellFormed) {call : LsmCall} :
    (tree.exec cfg call).1.WellFormed := by
  cases call with
  | insert t key value => exact h.insertInternal
  | delete t key => exact h.insertInternal
  | commitVersions t lsn => exact { h with }
  | rotateMemtable => exact h.rotateMemtable cfg
  | flushMemtable clock =>
    rw [LsmTree.exec, LsmTree.flushMemtable]
    split_ifs
    · exact h
    · exact (h.rotateMemtable cfg).flushImmutableMemtables
  | flushImmutableMemtables clock => exact h.flushImmutableMemtables

theorem LsmTree.wellFormed_execute {calls : List LsmCall} :
    (execute (exec cfg) (.new cfg) calls).2.WellFormed :=
  (run_execute (exec cfg) (.new cfg) calls).invariant
    (P := fun _ tree => tree.WellFormed) wellFormed_new fun _ _ _ h _ => h.exec

theorem LsmTree.exists_entry (h : tree.Revived k s ∨ tree.Hidden k s) :
    ∃ m ∈ tree.active.data :: tree.older, ∃ e ∈ m.entries, e.key = k := by
  have hent : ∀ m : ChainMap, shows (m.chain k) s ≠ none → ∃ e ∈ m.entries, e.key = k := by
    intro m hshows
    by_contra hno
    have hnone : chainOn m.entries k = none :=
      chainOn_eq_none.mpr fun e he hkey => hno ⟨e, he, hkey⟩
    rw [ChainMap.chain, hnone] at hshows
    exact hshows rfl
  rcases h with ⟨hdeleted, -⟩ | ⟨-, -, hval⟩
  · exact ⟨_, mem_cons_self, hent _ (by simp [hdeleted])⟩
  · obtain ⟨value, hfound⟩ := Option.ne_none_iff_exists'.mp hval
    obtain ⟨hfst, -⟩ := hideEmpty_eq_some hfound
    obtain ⟨m, hm, hshows⟩ := exists_of_findSome?_eq_some hfst
    exact ⟨m, mem_cons_of_mem _ hm, hent m (by simp [hshows])⟩

/-- Two keys in a file, one of them written again in the active memtable. -/
def rewrittenKey : List LsmCall :=
  [.insert 1 [1] [5], .insert 1 [2] [6], .commitVersions 1 10, .flushMemtable fun _ => 7,
    .insert 2 [2] [8], .commitVersions 2 20]

/-- Three keys in a file that is on two pages. -/
def pagedKeys : List LsmCall :=
  [.insert 1 [1] [5], .insert 1 [2] [6], .insert 1 [3] [7], .commitVersions 1 10, .flushMemtable fun _ => 7]

-- all keys are read; of the scans only one that ends before the second page comes to its end
example :
    let tree := (execute (LsmTree.exec smallMemtables) (.new smallMemtables) pagedKeys).2
    tree.get [3] 10 = .ok (some [7]) ∧ tree.forward .all 10 4 = .error .unreadableBlock ∧
      tree.forward (.range .unbounded (.excluded [1])) 10 4 = .ok (some []) := by
  decide +kernel

/-- A key is written and flushed and then deleted; the delete is committed in the active memtable. -/
def deletedKey : List LsmCall :=
  [.insert 1 [1] [5], .commitVersions 1 10, .flushMemtable fun _ => 7, .delete 2 [1], .commitVersions 2 20]

end NanoStore.Lsm
