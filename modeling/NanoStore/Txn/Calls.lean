import NanoStore.Txn.Commit
/-!
# Transactions — what a call on an open transaction can do

Until it is consumed a transaction only takes locks, writes to the log
and adds to its own sets. `Continues` says this once for all calls: the
tables and the published position stay, the locks of the others stay,
and a key in the write set is a key whose lock is held.
-/

namespace NanoStore.Txn

open Wal Steps ConflictDetector

/-! ## Locks -/

/-- From `d` to `d'` only `t` has gained locks. -/
structure Gains (t : TransactionId) (d d' : ConflictDetector) : Prop where
  own : ∀ k, d.writeLocks k = some t → d'.writeLocks k = some t
  others : ∀ k u, u ≠ t → (d'.writeLocks k = some u ↔ d.writeLocks k = some u)

theorem Gains.refl {t : TransactionId} {d : ConflictDetector} : Gains t d d :=
  ⟨fun _ h => h, fun _ _ _ => Iff.rfl⟩

variable {d : ConflictDetector} {t : TransactionId}

theorem Gains.trans {d' d'' : ConflictDetector} (h : Gains t d d') (h' : Gains t d' d'') : Gains t d d'' :=
  ⟨fun k hk => h'.own k (h.own k hk), fun k u hu => (h'.others k u hu).trans (h.others k u hu)⟩

theorem gains_acquireWriteLock {k : TableKey} (h : d.Free k t) : Gains t d (d.acquireWriteLock k t) := by
  refine ⟨fun k' hk' => ?_, fun k' u hu => ?_⟩ <;> by_cases hk : k' = k
  · rw [hk, acquireWriteLock_self]
  · rwa [acquireWriteLock_of_ne hk]
  · subst hk
    simp only [acquireWriteLock_self, Option.some.injEq]
    constructor
    · intro e
      exact absurd e.symm hu
    · intro hlock
      exact absurd (h u hlock) hu
  · rw [acquireWriteLock_of_ne hk]

/-! ## Calls -/

namespace Transaction

/-- Every key in the write set is locked by the transaction. -/
def Held (d : ConflictDetector) (txn : Transaction) : Prop :=
  ∀ k ∈ txn.writeSet, d.writeLocks k = some txn.txnId

variable {T : Type}

/-- The shared state and the transaction go on to `sh'` and `txn'`. -/
structure Continues (sh : Shared T) (txn : Transaction) (sh' : Shared T) (txn' : Transaction) : Prop where
  txnId : txn'.txnId = txn.txnId
  snapshotLsn : txn'.snapshotLsn = txn.snapshotLsn
  isolation : txn'.isolation = txn.isolation
  tables : sh'.tables = sh.tables
  currentLsn : sh'.currentLsn = sh.currentLsn
  position : sh.wal.currentLsn ≤ sh'.wal.currentLsn
  active : sh'.wal.activeTxns = sh.wal.activeTxns
  locks : Gains txn.txnId sh.detector sh'.detector
  writeSet : ∀ k ∈ txn.writeSet, k ∈ txn'.writeSet
  written : ∀ k ∈ txn'.writeSet, k ∈ txn.writeSet ∨
    sh.detector.Free k txn.txnId ∧ sh'.detector.writeLocks k = some txn.txnId

variable {sh sh' sh'' : Shared T} {txn txn' txn'' : Transaction}

theorem Continues.refl : Continues sh txn sh txn where
  txnId := rfl
  snapshotLsn := rfl
  isolation := rfl
  tables := rfl
  currentLsn := rfl
  position := le_rfl
  active := rfl
  locks := .refl
  writeSet _ h := h
  written _ h := .inl h

theorem Continues.trans (h : Continues sh txn sh' txn') (h' : Continues sh' txn' sh'' txn'') :
    Continues sh txn sh'' txn'' where
  txnId := h'.txnId.trans h.txnId
  snapshotLsn := h'.snapshotLsn.trans h.snapshotLsn
  isolation := h'.isolation.trans h.isolation
  tables := h'.tables.trans h.tables
  currentLsn := h'.currentLsn.trans h.currentLsn
  position := h.position.trans h'.position
  active := h'.active.trans h.active
  locks := h.locks.trans (h.txnId ▸ h'.locks)
  writeSet k hk := h'.writeSet k (h.writeSet k hk)
  written k hk := by
    have hlocks := h.txnId ▸ h'.locks
    rcases h'.written k hk with hk | ⟨hfree, hlock⟩
    · rcases h.written k hk with hk | ⟨hfree, hlock⟩
      · exact .inl hk
      · exact .inr ⟨hfree, hlocks.own k hlock⟩
    · rw [h.txnId] at hfree hlock
      refine .inr ⟨fun u hu => ?_, hlock⟩
      by_contra hne
      exact hne (hfree u ((h.locks.others k u hne).mpr hu))

theorem Continues.held (h : Continues sh txn sh' txn') (hheld : txn.Held sh.detector) :
    txn'.Held sh'.detector := by
  intro k hk
  rw [h.txnId]
  rcases h.written k hk with hk | hk
  · exact h.locks.own k (hheld k hk)
  · exact hk.2

/-! Each call continues its transaction. -/

variable {cfg : WalWriterConfig} {io : FlushIo}

theorem lock_cases {k : TableKey} :
    (∃ e, txn.lock sh k = (sh, .error e)) ∨ sh.detector.Free k txn.txnId ∧ txn.lock sh k =
        ({ sh with detector := sh.detector.acquireWriteLock k txn.txnId }, .ok ()) := by
  unfold lock
  cases h : sh.detector.checkWriteConflict k txn.txnId with
  | error e => exact .inl ⟨e, rfl⟩
  | ok u =>
    cases u
    exact .inr ⟨checkWriteConflict_eq_ok.mp h, rfl⟩

variable (txn cfg io) in
theorem logOperation_cases {tableId : TableId} {opType : WriteOpType} {key value : Bytes} :
    ∃ w result, txn.logOperation cfg io sh tableId opType key value =
      ({ sh with wal := w }, result) ∧ sh.wal.currentLsn ≤ w.currentLsn ∧
      w.activeTxns = sh.wal.activeTxns := by
  unfold logOperation
  generalize hx : WalWriter.writeOperation cfg io sh.wal txn.txnId tableId opType key value = x
  obtain ⟨w, result⟩ := x
  have hw : sh.wal.currentLsn ≤ w.currentLsn ∧ w.activeTxns = sh.wal.activeTxns := by
    rcases WalWriter.writeChecked_result hx with ⟨-, -, hlsn, hact⟩ | ⟨-, hlsn, hact⟩
    · exact ⟨by omega, hact⟩
    · exact ⟨hlsn.ge, hact⟩
  cases result with
  | error e | ok lsn => exact ⟨w, _, rfl, hw⟩

theorem continues_of_locks {w : WalWriterState} {d : ConflictDetector}
    (hw : sh.wal.currentLsn ≤ w.currentLsn ∧ w.activeTxns = sh.wal.activeTxns)
    (hd : Gains txn.txnId sh.detector d) : Continues sh txn { sh with wal := w, detector := d } txn :=
  { Continues.refl with
    position := hw.1
    active := hw.2
    locks := hd
    written := fun _ h => .inl h }

variable {k : TableKey}

theorem continues_recordWrite (h : sh.detector.writeLocks k = some txn.txnId)
    {value : Option Bytes} : Continues sh txn sh (txn.recordWrite k value) := by
  refine { Continues.refl with
    writeSet := fun k' hk' => AList.mem_insert _ |>.mpr (.inr hk')
    written := fun k' hk' => ?_ }
  rcases (AList.mem_insert _).mp hk' with rfl | hk'
  · exact .inr ⟨fun u hu => Option.some.inj (hu.symm.trans h), h⟩
  · exact .inl hk'

theorem recordWrite_written {k' : TableKey} {value : Option Bytes}
    (h : k' ∈ (txn.recordWrite k value).writeSet) : k' ∈ txn.writeSet ∨ k' = k :=
  ((AList.mem_insert _).mp h).symm

variable (txn cfg io) in
/-- The common part of the writing calls: the lock is taken and the operation logged, or an
error is returned and the transaction keeps what it got. -/
theorem lockThenLog_cases {opType : WriteOpType} {value : Bytes} :
    ∃ sh' result, (andThen (txn.lock sh k) fun sh () =>
        txn.logOperation cfg io sh k.1 opType k.2 value) = (sh', result) ∧ Continues sh txn sh' txn ∧
      (result = .ok () → sh.detector.Free k txn.txnId ∧ sh'.detector.writeLocks k = some txn.txnId) := by
  rcases lock_cases with ⟨e, he⟩ | ⟨hfree, hok⟩
  · rw [he, andThen_error]
    exact ⟨sh, .error e, rfl, .refl, nofun⟩
  · rw [hok, andThen_ok]
    obtain ⟨w, result, hlog, hw⟩ := logOperation_cases txn cfg io
    refine ⟨_, result, hlog, continues_of_locks hw (gains_acquireWriteLock hfree), fun _ => ?_⟩
    exact ⟨hfree, acquireWriteLock_self⟩

variable {result : Except TransactionError Unit}

/-- **`put` continues its transaction**, and if it returns `Ok` nobody else had the lock and
the value is recorded. -/
theorem put_spec {value : Bytes} (h : txn.put cfg io sh k value = (sh', txn', result)) :
    Continues sh txn sh' txn' ∧ (result = .ok () → txn.state = .active ∧ sh.detector.Free k txn.txnId ∧
        txn' = txn.recordWrite k (some value)) ∧ ((∃ e, result = .error e) → txn' = txn) := by
  unfold put at h
  split_ifs at h with hstate
  · cases h
    exact ⟨.refl, nofun, fun _ => rfl⟩
  · obtain ⟨sh₁, result₁, hx, hcont, hok⟩ := lockThenLog_cases txn cfg io
    rw [hx] at h
    cases result₁ with
    | error e =>
      cases h
      exact ⟨hcont, nofun, fun _ => rfl⟩
    | ok u =>
      cases u
      cases h
      obtain ⟨hfree, hlock⟩ := hok rfl
      exact ⟨hcont.trans (continues_recordWrite hlock), fun _ => ⟨not_not.mp hstate, hfree, rfl⟩, nofun⟩

variable {E : Engines T}

/-- **`delete` continues its transaction**, and if it returns `Ok` nobody else had the lock,
the answer is the lookup's and the tombstone is recorded. -/
theorem delete_spec {result : Except TransactionError Bool}
    (h : txn.delete E cfg io sh k = (sh', txn', result)) : Continues sh txn sh' txn' ∧
      (∀ existed, result = .ok existed → txn.state = .active ∧ sh.detector.Free k txn.txnId ∧
        txn.existed E sh k = .ok existed ∧ txn' = txn.recordWrite k none) ∧
      ((∃ e, result = .error e) → txn' = txn) := by
  unfold delete at h
  split_ifs at h with hstate
  · cases h
    exact ⟨.refl, nofun, fun _ => rfl⟩
  · rcases lock_cases with ⟨e, he⟩ | ⟨hfree, hok⟩
    · rw [he, andThen_error] at h
      cases h
      exact ⟨.refl, nofun, fun _ => rfl⟩
    · rw [hok, andThen_ok] at h
      obtain ⟨sh₁, hsh₁⟩ : ∃ sh₁ : Shared T,
        sh₁ = { sh with detector := sh.detector.acquireWriteLock k txn.txnId } := ⟨_, rfl⟩
      have hcont₁ : Continues sh txn sh₁ txn := by
        rw [hsh₁]
        exact continues_of_locks ⟨le_rfl, rfl⟩ (gains_acquireWriteLock hfree)
      have hexisted : txn.existed E sh₁ k = txn.existed E sh k := by rw [hsh₁]; rfl
      rw [← hsh₁] at h
      cases hex : txn.existed E sh₁ k with
      | error e =>
        simp only [hex] at h
        cases h
        exact ⟨hcont₁, nofun, fun _ => rfl⟩
      | ok existed =>
        simp only [hex] at h
        obtain ⟨w, result₁, hlog, hw⟩ := logOperation_cases txn cfg io
        have hcont₂ : Continues sh₁ txn { sh₁ with wal := w } txn :=
          continues_of_locks hw (.refl)
        rw [hlog] at h
        cases result₁ with
        | error e =>
          cases h
          exact ⟨hcont₁.trans hcont₂, nofun, fun _ => rfl⟩
        | ok u =>
          cases h
          have hlock : ({ sh₁ with wal := w } : Shared T).detector.writeLocks k =
              some txn.txnId := by
            rw [hsh₁]
            exact acquireWriteLock_self
          refine ⟨(hcont₁.trans hcont₂).trans (continues_recordWrite hlock), ?_, nofun⟩
          rintro _ ⟨⟩
          exact ⟨not_not.mp hstate, hfree, hexisted ▸ hex, rfl⟩

variable {ios : ℕ → FlushIo} {tableId : TableId}

/-- One key of `range_delete` continues its transaction. -/
theorem deleteKey_continues {entry : Key × ℕ} :
    Continues sh txn (deleteKey cfg ios tableId (sh, txn) entry).1.1
      (deleteKey cfg ios tableId (sh, txn) entry).1.2 := by
  obtain ⟨sh₁, result₁, hx, hcont, hok⟩ :=
    lockThenLog_cases txn cfg (ios entry.2)
  simp only [deleteKey]
  rw [hx]
  cases result₁ with
  | error e => exact hcont
  | ok u =>
    cases u
    exact hcont.trans (continues_recordWrite (hok rfl).2)

variable {bounds : ScanBounds}

/-- `range_delete` changes nothing, or it is its loop over the keys of the scan. -/
theorem rangeDelete_cases {result : Except TransactionError ℕ}
    (h : txn.rangeDelete E cfg sh ios tableId bounds = (sh', txn', result)) : (sh', txn') = (sh, txn) ∨
      ∃ keys, E.scanKeys sh.tables tableId bounds txn.snapshotLsn = .ok keys ∧
        (sh', txn') = (forEach (deleteKey cfg ios tableId) (sh, txn) keys.zipIdx).1 := by
  unfold rangeDelete at h
  split_ifs at h
  · cases h
    exact .inl rfl
  · cases hscan : E.scanKeys sh.tables tableId bounds txn.snapshotLsn with
    | error e =>
      simp only [hscan] at h
      cases h
      exact .inl rfl
    | ok keys =>
      refine .inr ⟨keys, rfl, ?_⟩
      simp only [hscan] at h
      generalize forEach (deleteKey cfg ios tableId) (sh, txn) keys.zipIdx = x at h ⊢
      obtain ⟨s, e | u⟩ := x
      · cases h
        rfl
      · cases h
        rfl

/-- **`range_delete` continues its transaction.** -/
theorem rangeDelete_continues {result : Except TransactionError ℕ}
    (h : txn.rangeDelete E cfg sh ios tableId bounds = (sh', txn', result)) : Continues sh txn sh' txn' := by
  rcases rangeDelete_cases h with heq | ⟨keys, -, heq⟩
  · cases heq
    exact .refl
  · have hloop : Continues sh txn (sh', txn').1 (sh', txn').2 := by
      rw [heq]
      exact forEach_fst (P := fun s : Shared T × Transaction => Continues sh txn s.1 s.2)
        (fun s entry _ hs => hs.trans deleteKey_continues) (.refl)
    exact hloop

/-- `range_delete` records no key but those the scan found. -/
theorem rangeDelete_written {result : Except TransactionError ℕ}
    (h : txn.rangeDelete E cfg sh ios tableId bounds = (sh', txn', result)) (hk : k ∈ txn'.writeSet) :
    k ∈ txn.writeSet ∨ k.1 = tableId ∧
      ∃ keys, E.scanKeys sh.tables tableId bounds txn.snapshotLsn = .ok keys ∧ k.2 ∈ keys := by
  rcases rangeDelete_cases h with heq | ⟨keys, hscan, heq⟩
  · cases heq
    exact .inl hk
  · have hloop : k ∈ (sh', txn').2.writeSet → k ∈ txn.writeSet ∨ k.1 = tableId ∧ k.2 ∈ keys := by
      rw [heq]
      refine forEach_fst (P := fun s : Shared T × Transaction => k ∈ s.2.writeSet →
        k ∈ txn.writeSet ∨ k.1 = tableId ∧ k.2 ∈ keys) (fun s entry hent hs hmem => ?_) .inl
      unfold deleteKey at hmem
      split at hmem
      · exact hs hmem
      · rcases recordWrite_written hmem with hmem | rfl
        · exact hs hmem
        · exact .inr ⟨rfl, List.fst_mem_of_mem_zipIdx hent⟩
    exact (hloop hk).imp_right fun ⟨htable, hkey⟩ => ⟨htable, keys, hscan, hkey⟩

variable {op : SpecialOp}

section

variable (h : txn.special cfg io sh op = (sh', txn', result))
include h

/-- A call of a specialised table logs its operation, and may record it. -/
theorem special_cases :
    Continues sh txn sh' txn ∧ (txn' = txn ∨ txn' = txn.recordSpecial op) := by
  unfold special at h
  split_ifs at h
  · cases h
    exact ⟨.refl, .inl rfl⟩
  · obtain ⟨w, result₁, hlog, hw⟩ :=
      logOperation_cases txn cfg io
    have hcont : Continues sh txn { sh with wal := w } txn := continues_of_locks hw (.refl)
    rw [hlog] at h
    cases result₁ with
    | error e =>
      cases h
      exact ⟨hcont, .inl rfl⟩
    | ok u =>
      cases h
      exact ⟨hcont, .inr rfl⟩

/-- **The calls of the specialised tables continue their transaction.** -/
theorem special_continues : Continues sh txn sh' txn' := by
  obtain ⟨hcont, rfl | rfl⟩ := special_cases h
  · exact hcont
  · refine hcont.trans ?_
    unfold recordSpecial
    split_ifs
    · exact .refl
    · exact { Continues.refl with }

theorem special_writeSet : txn'.writeSet = txn.writeSet := by
  obtain ⟨-, rfl | rfl⟩ := special_cases h
  · rfl
  · unfold recordSpecial
    split_ifs <;> rfl

end

end Transaction

end NanoStore.Txn
