import NanoStore.Txn.Calls
import NanoStore.Table.Versioned
/-!
# Transactions — reading one's own writes

A transaction reads through its write set. After any sequence of writing
calls a key reads as the last call that covers it left it, and as the
snapshot has it if none does. A `range_delete` covers the keys of its
bounds that the snapshot shows, and no others.
-/

namespace NanoStore.Txn

open Wal Steps Table List Versioned

/-- A writing call of a transaction, with what the log does with its flushes. -/
inductive WriteCall
  | put (k : TableKey) (value : Bytes) (io : FlushIo)
  | delete (k : TableKey) (io : FlushIo)
  | rangeDelete (tableId : TableId) (bounds : ScanBounds) (ios : ℕ → FlushIo)

namespace Transaction

variable {T : Type}

/-- One writing call, if it returns `Ok`. -/
def accept (E : Engines T) (cfg : WalWriterConfig) (s : Shared T × Transaction) :
    WriteCall → Option (Shared T × Transaction)
  | .put k value io =>
    match s.2.put cfg io s.1 k value with
    | (sh, txn, .ok _) => some (sh, txn)
    | (_, _, .error _) => none
  | .delete k io =>
    match s.2.delete E cfg io s.1 k with
    | (sh, txn, .ok _) => some (sh, txn)
    | (_, _, .error _) => none
  | .rangeDelete tableId bounds ios =>
    match s.2.rangeDelete E cfg s.1 ios tableId bounds with
    | (sh, txn, .ok _) => some (sh, txn)
    | (_, _, .error _) => none

/-- A sequence of writing calls that all return `Ok`. -/
def acceptAll (E : Engines T) (cfg : WalWriterConfig) :
    Shared T × Transaction → List WriteCall → Option (Shared T × Transaction) :=
  List.foldlM (accept E cfg)

/-- An ordered table: a scan visits the keys of its bounds that the snapshot shows. -/
def ScanExact (E : Engines T) (tables : T) (snapshotLsn : ℕ) : Prop :=
  ∀ tableId bounds keys, E.scanKeys tables tableId bounds snapshotLsn = .ok keys →
    ∀ key, key ∈ keys ↔ bounds.contains key = true ∧
      ∃ value, E.get tables (tableId, key) snapshotLsn = .ok (some value)

/-- What a call leaves at a key it covers. -/
def effectOf (E : Engines T) (tables : T) (snapshotLsn : ℕ) (k : TableKey) : WriteCall → Option (Option Bytes)
  | .put k' value _ => if k' = k then some (some value) else none
  | .delete k' _ => if k' = k then some none else none
  | .rangeDelete tableId bounds _ =>
    if k.1 = tableId ∧ bounds.contains k.2 = true ∧
        (E.get tables k snapshotLsn).toOption.join.isSome then some none else none

/-- The effect of the last call that covers the key. -/
def lastEffect (E : Engines T) (tables : T) (snapshotLsn : ℕ) (calls : List WriteCall)
    (k : TableKey) : Option (Option Bytes) :=
  calls.reverse.findSome? (effectOf E tables snapshotLsn k)

variable {E : Engines T} {cfg : WalWriterConfig} {sh sh' : Shared T} {txn txn' : Transaction}

theorem lookup_recordWrite {k k' : TableKey} {value : Option Bytes} :
    (txn.recordWrite k' value).writeSet.lookup k =
      (if k' = k then some value else none).or (txn.writeSet.lookup k) := by
  unfold recordWrite
  split_ifs with h
  · subst h
    rw [AList.lookup_insert]
    rfl
  · rw [AList.lookup_insert_ne (Ne.symm h)]
    rfl

variable {s' s : Shared T × Transaction} {ios : ℕ → FlushIo} {tableId : TableId} {u : Unit}

/-- The keys of a `range_delete` that goes through. -/
theorem deleteKeys_ok {entries : List (Key × ℕ)}
    (h : forEach (deleteKey cfg ios tableId) s entries = (s', .ok u)) :
    s'.2.state = s.2.state ∧ ∀ k, s'.2.writeSet.lookup k =
      (if k.1 = tableId ∧ k.2 ∈ entries.map Prod.fst then some none else none).or
        (s.2.writeSet.lookup k) := by
  induction entries generalizing s with
  | nil =>
    cases h
    simp
  | cons entry entries ih =>
    rw [forEach_cons, andThen_eq_ok] at h
    obtain ⟨s₁, _, h₁, h⟩ := h
    obtain ⟨hstate, hlook⟩ := ih h
    have hs₁ : s₁.2 = s.2.recordWrite (tableId, entry.1) none := by
      unfold deleteKey at h₁
      split at h₁ <;> cases h₁
      rfl
    refine ⟨by rw [hstate, hs₁]; rfl, fun k => ?_⟩
    rw [hlook k, hs₁, lookup_recordWrite]
    by_cases hk : k.1 = tableId ∧ k.2 ∈ entries.map Prod.fst
    · have : k.1 = tableId ∧ k.2 ∈ (entry :: entries).map Prod.fst :=
        ⟨hk.1, mem_cons_of_mem _ hk.2⟩
      rw [if_pos hk, if_pos this]
      rfl
    · rw [if_neg hk, Option.none_or]
      congr 1
      refine if_congr ?_ rfl rfl
      simp only [map_cons, mem_cons, Prod.ext_iff]
      tauto

theorem isSome_join_toOption {x : Except TransactionError (Option Bytes)} :
    x.toOption.join.isSome = true ↔ ∃ value, x = .ok (some value) := by
  rcases x with e | (_ | value) <;> simp [Except.toOption]

/-- **A writing call that returns `Ok` overlays its effect on the write set.** -/
theorem accept_spec {call : WriteCall} (hscan : ScanExact E sh.tables txn.snapshotLsn)
    (h : accept E cfg (sh, txn) call = some (sh', txn')) :
    sh'.tables = sh.tables ∧ txn'.snapshotLsn = txn.snapshotLsn ∧ txn'.state = .active ∧
      ∀ k, txn'.writeSet.lookup k =
        (effectOf E sh.tables txn.snapshotLsn k call).or (txn.writeSet.lookup k) := by
  cases call with
  | put k' value io =>
    simp only [accept] at h
    split at h
    · rename_i sh₁ txn₁ u hx
      cases h
      obtain ⟨hcont, hok, -⟩ := put_spec hx
      obtain ⟨hstate, -, rfl⟩ := hok rfl
      exact ⟨hcont.tables, rfl, hstate, fun k => lookup_recordWrite⟩
    · cases h
  | delete k' io =>
    simp only [accept] at h
    split at h
    · rename_i sh₁ txn₁ existed hx
      cases h
      obtain ⟨hcont, hok, -⟩ := delete_spec hx
      obtain ⟨hstate, -, -, rfl⟩ := hok existed rfl
      exact ⟨hcont.tables, rfl, hstate, fun k => lookup_recordWrite⟩
    · cases h
  | rangeDelete tableId bounds ios =>
    simp only [accept] at h
    split at h
    · rename_i sh₁ txn₁ n hx
      cases h
      have hcont := rangeDelete_continues hx
      unfold rangeDelete at hx
      split_ifs at hx with hstate
      · cases hx
      cases hkeys : E.scanKeys sh.tables tableId bounds txn.snapshotLsn with
      | error e => simp [hkeys] at hx
      | ok keys =>
        simp only [hkeys] at hx
        generalize hy : forEach (deleteKey cfg ios tableId) (sh, txn) keys.zipIdx = y at hx
        obtain ⟨s, e | u⟩ := y
        · cases hx
        cases hx
        obtain ⟨hstate', hlook⟩ := deleteKeys_ok hy
        refine ⟨hcont.tables, hcont.snapshotLsn, hstate'.trans (not_not.mp hstate), fun k => ?_⟩
        rw [hlook k, effectOf, zipIdx_map_fst]
        congr 1
        refine if_congr ?_ rfl rfl
        constructor
        · rintro ⟨rfl, hk⟩
          obtain ⟨hbounds, hval⟩ := (hscan _ _ _ hkeys k.2).mp hk
          exact ⟨rfl, hbounds, isSome_join_toOption.mpr hval⟩
        · rintro ⟨rfl, hbounds, hval⟩
          exact ⟨rfl, (hscan _ _ _ hkeys k.2).mpr ⟨hbounds, isSome_join_toOption.mp hval⟩⟩
    · cases h

/-- **After writing calls that all return `Ok` a key reads as the last call that covers it left
it**, and as the snapshot has it if none covers it. -/
theorem get_acceptAll {tables : T} {w : WalWriterState} {d : ConflictDetector} {lsn : ℕ}
    {t : TransactionId} {snapshotLsn : ℕ} {isolation : IsolationLevel} {durability : Durability}
    {calls : List WriteCall} (hscan : ScanExact E tables snapshotLsn)
    (h : acceptAll E cfg (⟨w, d, tables, lsn⟩, .build t snapshotLsn isolation durability) calls =
      some (sh', txn')) (k : TableKey) : txn'.get E sh' k = match lastEffect E tables snapshotLsn calls k with
      | some effect => .ok effect
      | none => E.get tables k snapshotLsn := by
  have key : ∀ (calls : List WriteCall) (sh : Shared T) (txn : Transaction),
      sh.tables = tables → txn.snapshotLsn = snapshotLsn → txn.state = .active →
      acceptAll E cfg (sh, txn) calls = some (sh', txn') →
      sh'.tables = tables ∧ txn'.snapshotLsn = snapshotLsn ∧ txn'.state = .active ∧ txn'.writeSet.lookup k =
          (lastEffect E tables snapshotLsn calls k).or (txn.writeSet.lookup k) := by
    intro calls
    induction calls with
    | nil =>
      rintro sh txn rfl rfl hstate h
      cases h
      exact ⟨rfl, rfl, hstate, rfl⟩
    | cons call calls ih =>
      rintro sh txn rfl rfl hstate h
      simp only [acceptAll, foldlM_cons, Option.bind_eq_bind, Option.bind_eq_some_iff] at h
      obtain ⟨⟨sh₁, txn₁⟩, h₁, h⟩ := h
      obtain ⟨htables, hsnap, hact, hlook⟩ := accept_spec hscan h₁
      obtain ⟨htables', hsnap', hact', hlook'⟩ := ih sh₁ txn₁ htables hsnap hact h
      refine ⟨htables', hsnap', hact', ?_⟩
      rw [hlook', hlook k, lastEffect, lastEffect, reverse_cons, findSome?_append,
        findSome?_singleton, Option.or_assoc]
  obtain ⟨htables, hsnap, hact, hlook⟩ := key calls _ _ rfl rfl rfl h
  have hemp : (build t snapshotLsn isolation durability).writeSet.lookup k = none :=
    AList.lookup_empty k
  rw [hemp, Option.or_none] at hlook
  rw [get, if_neg (by rw [hact]; simp), htables, hsnap]
  cases heffect : lastEffect E tables snapshotLsn calls k with
  | none | some effect => rw [hlook, heffect]

/-! ## On a versioned table -/

/-- A scan over the given keys, for tables that have no others. -/
def scanAmong (keys : List Key) (tables : Versioned) (tableId : TableId) (bounds : ScanBounds)
    (snapshotLsn : ℕ) : Except TransactionError (List Key) :=
  .ok (keys.filter fun key => bounds.contains key && (tables.read (tableId, key) snapshotLsn).isSome)

theorem scanExact_scanAmong {keys : List Key} {tables : Versioned} {snapshotLsn : ℕ}
    (h : ∀ k, k.2 ∉ keys → tables k = []) : ScanExact (engines (scanAmong keys)) tables snapshotLsn := by
  rintro tableId bounds _ ⟨⟩ key
  have hread : (∃ value, (engines (scanAmong keys)).get tables (tableId, key)
      snapshotLsn = .ok (some value)) ↔ (tables.read (tableId, key) snapshotLsn).isSome := by
    simp [engines, Option.isSome_iff_exists]
  rw [hread, mem_filter, Bool.and_eq_true]
  refine ⟨And.right, fun hkey => ⟨?_, hkey⟩⟩
  by_contra hno
  simp [Versioned.read, h (tableId, key) hno, VersionChain.findVisibleInline,
    VersionChain.findVisibleVersion] at hkey

/-- The table of the two cases below: one committed value, of the key `[5]`. -/
def oneValue : Versioned := Function.update empty (1, [5]) [⟨.inline [9], 1, some 2⟩]

theorem scanExact_oneValue : ScanExact (engines (scanAmong [[5]])) oneValue 2 := by
  refine scanExact_scanAmong fun k hk => ?_
  rw [oneValue, Function.update_of_ne]
  · rfl
  · rintro rfl
    simp at hk

/-- Begun at position 2 with its begin record in the log. -/
def begunAtTwo : Shared Versioned :=
  ⟨{ WalWriter.create with currentLsn := 4, activeTxns := [2] }, ConflictDetector.new, oneValue, 2⟩

/-- A put, a range delete over everything and a put again: the key the snapshot shows is gone. -/
theorem get_acceptAll_shown : ∃ sh' txn', acceptAll (engines (scanAmong [[5]])) .default
      (begunAtTwo, .build 2 2 .snapshotIsolation .walOnly)
      [.put (1, [5]) [7] .ok, .rangeDelete 1 .all fun _ => .ok, .put (1, [6]) [8] .ok] =
      some (sh', txn') ∧ txn'.get (engines (scanAmong [[5]])) sh' (1, [5]) = .ok none ∧
    txn'.get (engines (scanAmong [[5]])) sh' (1, [6]) = .ok (some [8]) := by
  obtain ⟨⟨sh', txn'⟩, h⟩ : ∃ s, acceptAll (engines (scanAmong [[5]])) .default
      (begunAtTwo, .build 2 2 .snapshotIsolation .walOnly)
      [.put (1, [5]) [7] .ok, .rangeDelete 1 .all fun _ => .ok, .put (1, [6]) [8] .ok] =
      some s := ⟨_, rfl⟩
  exact ⟨sh', txn', h, get_acceptAll scanExact_oneValue h (1, [5]),
    get_acceptAll scanExact_oneValue h (1, [6])⟩

/-- **A range delete over everything leaves a value the transaction has put itself**: the
snapshot does not show the key. -/
theorem rangeDelete_leaves_own_put : ∃ sh' txn', ScanExact (engines (scanAmong [[5]])) oneValue 2 ∧
    acceptAll (engines (scanAmong [[5]])) .default (begunAtTwo, .build 2 2 .snapshotIsolation .walOnly)
      [.put (1, [6]) [7] .ok, .rangeDelete 1 .all fun _ => .ok] = some (sh', txn') ∧
    ScanBounds.all.contains [6] = true ∧ txn'.get (engines (scanAmong [[5]])) sh' (1, [6]) = .ok (some [7]) :=
  ⟨_, _, scanExact_oneValue, rfl, rfl, rfl⟩

end Transaction

end NanoStore.Txn
