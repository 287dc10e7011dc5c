import NanoStore.Lsm.Tree
/-!
# The LSM tree — the memory of a memtable

A memtable counts the bytes it takes as its chains grow and shrink. After
any calls the count is the size of the keys and chains that are there, and
no insert takes it above the limit.
-/

namespace NanoStore.Lsm

open Steps Txn Table List

/-- Every chain without its obsolete versions. -/
def ChainMap.vacuum (m : ChainMap) (minVisibleLsn : ℕ) : ChainMap where
  entries := m.entries.map fun e => { e with chain := (e.chain.vacuum minVisibleLsn).1 }
  ascending := m.ascending.map fun _ => rfl
  inline := by
    intro e he v hv
    obtain ⟨e₀, he₀, rfl⟩ := mem_map.mp he
    rw [VersionChain.vacuum_fst] at hv
    exact m.inline e₀ he₀ v ((VersionChain.thin_sublist _ _).subset hv)

/-- A call to a memtable. -/
inductive MemtableCall
  | insert (key : Key) (value : Bytes) (t : TransactionId) (commitLsn : Option ℕ)
  | delete (key : Key) (t : TransactionId) (commitLsn : Option ℕ)
  | commitVersions (t : TransactionId) (lsn : ℕ)
  | makeImmutable
  | vacuum (minVisibleLsn : ℕ)

namespace Memtable

variable (cfg : LsmConfig) (m : Memtable)

/-- A tombstone is the insert of an empty value. -/
def delete (key : Key) (t : TransactionId) (commitLsn : Option ℕ) : Outcome Memtable LsmError Unit :=
  m.insert cfg key [] t commitLsn

def memoryFreed (minVisibleLsn : ℕ) : ℕ :=
  (m.data.entries.map fun e =>
    estimateChainSize cfg e.chain - estimateChainSize cfg (e.chain.vacuum minVisibleLsn).1).sum

/-- `vacuum`, without the number of versions it removes. -/
def vacuum (minVisibleLsn : ℕ) : Outcome Memtable LsmError Unit :=
  if m.immutable then
    ({ m with
        data := m.data.vacuum minVisibleLsn
        memoryUsage := m.memoryUsage - m.memoryFreed cfg minVisibleLsn }, .ok ())
  else (m, .error .memtableNotImmutable)

/-- One call of a memtable. -/
def exec : MemtableCall → Outcome Memtable LsmError Unit
  | .insert key value t commitLsn => m.insert cfg key value t commitLsn
  | .delete key t commitLsn => m.delete cfg key t commitLsn
  | .commitVersions t lsn => (m.commitVersions t lsn, .ok ())
  | .makeImmutable => (m.makeImmutable, .ok ())
  | .vacuum minVisibleLsn => m.vacuum cfg minVisibleLsn

/-- The bytes of the keys and the chains of some entries. -/
def entriesSize (entries : List LeafEntry) : ℕ :=
  (entries.map fun e => e.key.length + estimateChainSize cfg e.chain).sum

variable {cfg m} {key : Key} {value : Bytes} {t : TransactionId} {commitLsn : Option ℕ}

theorem estimateChainSize_stampHead {lsn : ℕ} (chain : VersionChain) :
    estimateChainSize cfg (stampHead t lsn chain) = estimateChainSize cfg chain := by
  cases chain with
  | nil => rfl
  | cons v older =>
    rw [stampHead]
    split_ifs <;> rfl

@[simp] theorem estimateChainSize_cons (older : VersionChain) :
    estimateChainSize cfg (⟨.inline value, t, commitLsn⟩ :: older) =
      cfg.versionSize + value.length + estimateChainSize cfg older := by
  simp [estimateChainSize]

theorem entriesSize_cons (e : LeafEntry) (entries : List LeafEntry) : entriesSize cfg (e :: entries) =
    e.key.length + estimateChainSize cfg e.chain + entriesSize cfg entries := by
  simp [entriesSize]

/-- An insert takes a version, and the key if it is new. -/
theorem entriesSize_insertEntry {entries : List LeafEntry} (h : Ascending entries) :
    entriesSize cfg (insertEntry key ⟨.inline value, t, commitLsn⟩ entries) = entriesSize cfg entries +
      ((if chainOn entries key = none then key.length else 0) + value.length + cfg.versionSize) := by
  induction entries with
  | nil => simp [insertEntry, chainOn, entriesSize, estimateChainSize, add_comm, add_left_comm]
  | cons e entries ih =>
    rcases lt_trichotomy key e.key with hlt | rfl | hgt
    · simp only [insertEntry, hlt, chainOn_of_lt h hlt, if_true, entriesSize_cons, estimateChainSize_cons]
      simp only [estimateChainSize, map_nil, sum_nil]
      omega
    · simp only [insertEntry, lt_irrefl, if_false, if_true, chainOn_cons, reduceCtorEq, entriesSize_cons,
        estimateChainSize_cons]
      omega
    · simp only [insertEntry, hgt.not_gt, hgt.ne, if_false, chainOn_cons, entriesSize_cons,
        ih (List.Pairwise.of_cons h)]
      omega

/-- An insert counts the value, and the key if it is new. -/
theorem memoryDelta_eq : m.memoryDelta cfg key value t commitLsn =
    (if chainOn m.data.entries key = none then key.length else 0) + value.length + cfg.versionSize := by
  unfold memoryDelta
  cases chainOn m.data.entries key with
  | none => simp
  | some existing =>
    simp only [estimateChainSize_cons, reduceCtorEq, if_false]
    omega

/-- The memtable counts what is there. -/
def Counted (cfg : LsmConfig) (m : Memtable) : Prop := m.memoryUsage = entriesSize cfg m.data.entries

theorem Counted.insert (h : m.Counted cfg) : (m.insert cfg key value t commitLsn).1.Counted cfg := by
  rw [Memtable.insert]
  split_ifs
  · exact h
  · exact h
  · rw [Counted, memoryDelta_eq, h]
    exact (entriesSize_insertEntry m.data.ascending).symm

theorem Counted.vacuum (h : m.Counted cfg) (minVisibleLsn : ℕ) : (m.vacuum cfg minVisibleLsn).1.Counted cfg := by
  rw [Memtable.vacuum]
  split_ifs
  · have hkept : entriesSize cfg (m.data.vacuum minVisibleLsn).entries + m.memoryFreed cfg minVisibleLsn =
        entriesSize cfg m.data.entries := by
      rw [entriesSize, memoryFreed, ChainMap.vacuum, map_map, ← sum_map_add, entriesSize]
      congr 1
      refine map_congr_left fun e _ => ?_
      have hle : estimateChainSize cfg (e.chain.vacuum minVisibleLsn).1 ≤ estimateChainSize cfg e.chain := by
        rw [VersionChain.vacuum_fst]
        exact ((VersionChain.thin_sublist _ _).map _).sum_le_sum fun _ _ => Nat.zero_le _
      simp only [Function.comp]
      omega
    rw [Counted, h, ← hkept, Nat.add_sub_cancel]
  · exact h

/-- Every call keeps the count. -/
theorem Counted.exec (h : m.Counted cfg) (call : MemtableCall) : (m.exec cfg call).1.Counted cfg := by
  cases call with
  | insert key value t commitLsn => exact h.insert
  | delete key t commitLsn => exact h.insert
  | commitVersions t lsn =>
    refine Eq.trans h ?_
    simp [Memtable.exec, commitVersions, ChainMap.commit, entriesSize, Function.comp_def,
      estimateChainSize_stampHead]
  | makeImmutable => exact h
  | vacuum minVisibleLsn => exact h.vacuum minVisibleLsn

theorem maxSize_insert : (m.insert cfg key value t commitLsn).1.maxSize = m.maxSize := by
  unfold insert
  split_ifs <;> rfl

theorem maxSize_exec (call : MemtableCall) : (m.exec cfg call).1.maxSize = m.maxSize := by
  cases call with
  | insert | delete => exact maxSize_insert
  | commitVersions | makeImmutable => rfl
  | vacuum minVisibleLsn =>
    rw [exec, vacuum]
    split_ifs <;> rfl

/-- An insert that succeeds is within the limit. -/
theorem memoryUsage_le (h : (m.insert cfg key value t commitLsn).2 = .ok ()) :
    (m.insert cfg key value t commitLsn).1.memoryUsage ≤ m.maxSize := by
  unfold insert at h ⊢
  split_ifs at h ⊢ with himm hfull
  simpa [fullFor] using hfull

/-- **The count is the size of what is there after any calls**, and within the limit after an insert or
a deletion that was taken. -/
theorem memoryUsage_eq (cfg : LsmConfig) (maxSize : ℕ) (calls : List MemtableCall) :
    let m := (execute (exec cfg) (new maxSize) calls).2
    m.Counted cfg ∧
      (∀ key value t commitLsn, (m.insert cfg key value t commitLsn).2 = .ok () →
        (m.insert cfg key value t commitLsn).1.memoryUsage ≤ maxSize) ∧
      ∀ key t commitLsn, (m.delete cfg key t commitLsn).2 = .ok () →
        (m.delete cfg key t commitLsn).1.memoryUsage ≤ maxSize := by
  have hrun := run_execute (exec cfg) (new maxSize) calls
  obtain ⟨hcounted, hmax⟩ := hrun.invariant
    (P := fun _ m => m.Counted cfg ∧ m.maxSize = maxSize) ⟨rfl, rfl⟩ fun _ _ call h _ =>
      ⟨h.1.exec call, (maxSize_exec call).trans h.2⟩
  refine ⟨hcounted, fun key value t commitLsn hok => ?_, fun key t commitLsn hok => ?_⟩
  · exact (memoryUsage_le hok).trans_eq hmax
  · exact (memoryUsage_le hok).trans_eq hmax

end Memtable

end NanoStore.Lsm
