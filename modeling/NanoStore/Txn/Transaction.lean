import NanoStore.Common.Steps
import NanoStore.Wal.Writer
import Mathlib.Data.List.AList
/-!
# Transactions — reading and writing

`Transaction` of `txn/transaction.rs` up to the point where it is
consumed. A transaction buffers its writes: `put`, `delete` and
`range_delete` take write locks, log the operation and record it in the
write set, and `get` looks there first. Which engine a table has is left
to an interface, `Engines`, with one function for each place where the
source matches on the engine.
-/

namespace NanoStore.Txn

/-! ## Errors and write locks

`TransactionError` and the `ConflictDetector` of `txn/conflict.rs`, the
map of write locks all open transactions share.
-/

/-- `TransactionState` of a transaction. -/
inductive TransactionState
  | active
  | preparing
  | committed
  | aborted
  deriving DecidableEq

def TransactionState.asStr : TransactionState → String
  | .active => "Active"
  | .preparing => "Preparing"
  | .committed => "Committed"
  | .aborted => "Aborted"

/-- What stands behind a `TransactionError::Other`: an error of the log, an error a table
engine returned, or nothing but the text. -/
inductive Cause
  | wal (e : Wal.WalError)
  | table (message : String)
  | text
  deriving DecidableEq

/-- The errors of a transaction. -/
inductive TransactionError
  | invalidState (transactionId : TransactionId) (currentState attemptedOperation : String)
  | writeWriteConflict (objectId : TableId) (key : Key) (holder requester : TransactionId)
  | readWriteConflict (objectId : TableId) (key : Key) (reader writer : TransactionId)
  | other (context : String) (cause : Cause)
  deriving DecidableEq

/-- `ConflictDetector`: the holder of each write lock. -/
structure ConflictDetector where
  writeLocks : TableKey → Option TransactionId

namespace ConflictDetector

def new : ConflictDetector := ⟨fun _ => none⟩

variable (d : ConflictDetector)

/-- Fails if another transaction holds the lock of the key. -/
def checkWriteConflict (k : TableKey) (t : TransactionId) : Except TransactionError Unit :=
  match d.writeLocks k with
  | some other => if other ≠ t then .error (.writeWriteConflict k.1 k.2 other t) else .ok ()
  | none => .ok ()

def acquireWriteLock (k : TableKey) (t : TransactionId) : ConflictDetector :=
  ⟨Function.update d.writeLocks k (some t)⟩

def releaseLocks (t : TransactionId) : ConflictDetector :=
  ⟨fun k => if d.writeLocks k = some t then none else d.writeLocks k⟩

/-- `check_read_write_conflicts`: the read keys are looked at in turn. -/
def checkReadWriteConflicts (t : TransactionId) : List TableKey → Except TransactionError Unit
  | [] => .ok ()
  | k :: keys =>
    match d.writeLocks k with
    | some other =>
      if other ≠ t then .error (.readWriteConflict k.1 k.2 t other) else checkReadWriteConflicts t keys
    | none => checkReadWriteConflicts t keys

/-- `t` may write the key: nobody else holds its lock. -/
def Free (k : TableKey) (t : TransactionId) : Prop := ∀ u, d.writeLocks k = some u → u = t

variable {d} {k : TableKey} {t u : TransactionId}

theorem checkWriteConflict_eq_ok : d.checkWriteConflict k t = .ok () ↔ d.Free k t := by
  unfold checkWriteConflict Free
  cases h : d.writeLocks k with
  | none => simp
  | some other => by_cases hne : other = t <;> simp [hne]

@[simp] theorem acquireWriteLock_self : (d.acquireWriteLock k t).writeLocks k = some t := by
  simp [acquireWriteLock]

theorem acquireWriteLock_of_ne {k' : TableKey} (h : k' ≠ k) :
    (d.acquireWriteLock k t).writeLocks k' = d.writeLocks k' := by
  simp [acquireWriteLock, h]

/-- **After a release exactly the other transactions' locks are left.** -/
theorem releaseLocks_eq_some : (d.releaseLocks t).writeLocks k = some u ↔
    d.writeLocks k = some u ∧ u ≠ t := by
  show (if d.writeLocks k = some t then none else d.writeLocks k) = some u ↔ _
  split_ifs with h
  · rw [h]
    simp only [false_iff, not_and, not_not]
    rintro e
    exact (Option.some.inj e).symm
  · constructor
    · intro hu
      exact ⟨hu, fun e => h (e ▸ hu)⟩
    · exact And.left

theorem checkReadWriteConflicts_eq_ok {keys : List TableKey} :
    d.checkReadWriteConflicts t keys = .ok () ↔ ∀ k ∈ keys, d.Free k t := by
  induction keys with
  | nil => simp [checkReadWriteConflicts]
  | cons k keys ih =>
    rw [checkReadWriteConflicts, List.forall_mem_cons]
    cases h : d.writeLocks k with
    | none => simp [ih, Free, h]
    | some other =>
      by_cases hne : other = t
      · simp [hne, ih, Free, h]
      · simp [hne, Free, h]

end ConflictDetector

open Wal Steps

/-! ## Engines -/

/-- An operation of a specialised table (bloom filter, graph, time series, vectors, geometry,
full text) in the transaction's write sets: its kind, its arguments, and the key and value it
is logged with. -/
structure SpecialOp where
  tableId : TableId
  opType : WriteOpType
  args : List Bytes
  walKey : Bytes
  walValue : Bytes
  deriving DecidableEq

/-- `UndoOperation`, as far as `commit` creates them. -/
inductive UndoOperation
  | restoreValue (k : TableKey) (oldValue : Option Bytes)
  | restoreKey (k : TableKey) (oldValue : Bytes)
  | removeGraphEdge (tableId : TableId) (args : List Bytes)
  | restoreGraphEdge (tableId : TableId) (args : List Bytes)
  | removeVector (tableId : TableId) (args : List Bytes)
  | removeGeometry (tableId : TableId) (args : List Bytes)
  | removeDocument (tableId : TableId) (args : List Bytes)
  deriving DecidableEq

/-- What transactions ask of the engine registry, `T` being the state of all its tables. Each
function is one `match` over the engine of a table in the source; a table that is not
registered is a case of it. -/
structure Engines (T : Type) where
  /-- `get`: the value of a key at a snapshot. -/
  get : T → TableKey → ℕ → Except TransactionError (Option Bytes)
  /-- The existence check of `delete`. -/
  contains : T → TableKey → ℕ → Except TransactionError Bool
  /-- The keys the cursor of `range_delete` visits. -/
  scanKeys : T → TableId → ScanBounds → ℕ → Except TransactionError (List Key)
  /-- The value `commit` reads for its undo log; `none` where no engine is registered. -/
  oldValue : T → TableKey → ℕ → Except TransactionError (Option (Option Bytes))
  /-- One entry of the write set applied by the transaction at its snapshot. -/
  apply : T → TransactionId → ℕ → TableKey × Option Bytes → Outcome T TransactionError Unit
  /-- `execute_undo`. -/
  undo : T → TransactionId → ℕ → UndoOperation → Outcome T TransactionError Unit
  /-- One operation of a specialised table applied at a commit position. -/
  applySpecial : T → TransactionId → ℕ → SpecialOp → Outcome T TransactionError Unit
  /-- `commit_versions` of one table, by the transaction at its snapshot and commit position. -/
  commitVersions : T → TransactionId → ℕ → ℕ → TableId → Outcome T TransactionError Unit

/-- What the transactions of a database share. -/
structure Shared (T : Type) where
  wal : WalWriterState
  detector : ConflictDetector
  tables : T
  currentLsn : ℕ

/-! ## The transaction -/

/-- `Transaction`, without what it shares. -/
structure Transaction where
  txnId : TransactionId
  snapshotLsn : ℕ
  isolation : IsolationLevel
  durability : Durability
  state : TransactionState
  readSet : List TableKey
  writeSet : AList fun _ : TableKey => Option Bytes
  specialOps : List SpecialOp

namespace Transaction

def build (t : TransactionId) (snapshotLsn : ℕ) (isolation : IsolationLevel)
    (durability : Durability) : Transaction where
  txnId := t
  snapshotLsn := snapshotLsn
  isolation := isolation
  durability := durability
  state := .active
  readSet := []
  writeSet := ∅
  specialOps := []

variable (txn : Transaction)

/-- The error of a call the transaction is not in the state for. -/
def invalidState (operation : String) : TransactionError :=
  .invalidState txn.txnId txn.state.asStr operation

/-- `record_read`. No other method of the transaction calls it. -/
def recordRead (k : TableKey) : Transaction :=
  match txn.isolation with
  | .serializable => { txn with readSet := txn.readSet.insert k }
  | .repeatableRead => { txn with readSet := txn.readSet.insert k }
  | _ => txn

/-- `record_write` and, with no value, `record_delete`. -/
def recordWrite (k : TableKey) (value : Option Bytes) : Transaction :=
  { txn with writeSet := txn.writeSet.insert k value }

/-- `prepare`, of an active transaction. -/
def prepare : Transaction × Except TransactionError Unit :=
  if txn.state ≠ .active then (txn, .error (txn.invalidState "prepare"))
  else ({ txn with state := .preparing }, .ok ())

variable {T : Type} (E : Engines T) (cfg : WalWriterConfig) (io : FlushIo) (sh : Shared T)

/-- `get`: the write set, else the tables. -/
def get (k : TableKey) : Except TransactionError (Option Bytes) :=
  if txn.state ≠ .active then .error (txn.invalidState "get")
  else
    match txn.writeSet.lookup k with
    | some value => .ok value
    | none => E.get sh.tables k txn.snapshotLsn

/-- The lock of a key taken for the transaction, if nobody else has it. -/
def lock (k : TableKey) : Outcome (Shared T) TransactionError Unit :=
  match sh.detector.checkWriteConflict k txn.txnId with
  | .error e => (sh, .error e)
  | .ok () => ({ sh with detector := sh.detector.acquireWriteLock k txn.txnId }, .ok ())

/-- A write goes to the log. -/
def logOperation (tableId : TableId) (opType : WriteOpType) (key value : Bytes) :
    Outcome (Shared T) TransactionError Unit :=
  match WalWriter.writeOperation cfg io sh.wal txn.txnId tableId opType key value with
  | (w, .error e) => ({ sh with wal := w }, .error (.other "WAL write failed: " (.wal e)))
  | (w, .ok _) => ({ sh with wal := w }, .ok ())

/-- A call's outcome: the shared state, the transaction and the result it leaves. -/
abbrev CallOutcome (T α : Type) := Shared T × Transaction × Except TransactionError α

/-- The transaction a call leaves: changed by `record` only if the call succeeds. -/
def finish {α β : Type} (x : Outcome (Shared T) TransactionError α) (record : α → Transaction)
    (result : α → β) : CallOutcome T β :=
  match x with
  | (sh, .error e) => (sh, txn, .error e)
  | (sh, .ok a) => (sh, record a, .ok (result a))

/-- `put`. The lock is kept when the log refuses the operation. -/
def put (k : TableKey) (value : Bytes) : CallOutcome T Unit :=
  if txn.state ≠ .active then (sh, txn, .error (txn.invalidState "put"))
  else
    finish txn (andThen (txn.lock sh k) fun sh () => txn.logOperation cfg io sh k.1 .put k.2 value)
      (fun () => txn.recordWrite k (some value)) id

/-- Whether `delete` finds the key: any entry of the write set counts, a tombstone too. -/
def existed (k : TableKey) : Except TransactionError Bool :=
  if (txn.writeSet.lookup k).isSome then .ok true
  else E.contains sh.tables k txn.snapshotLsn

/-- `delete`. The lock is taken before the key is looked up, and kept when the lookup fails. -/
def delete (k : TableKey) : CallOutcome T Bool :=
  if txn.state ≠ .active then (sh, txn, .error (txn.invalidState "delete"))
  else
    finish txn
      (andThen (txn.lock sh k) fun sh () =>
        match txn.existed E sh k with
        | .error e => (sh, .error e)
        | .ok existed =>
          andThen (txn.logOperation cfg io sh k.1 .delete k.2 []) fun sh () => (sh, .ok existed))
      (fun _ => txn.recordWrite k none) id

/-- One key of `range_delete`: locked, logged and recorded, the transaction being carried
along. The flush of the `i`-th key is `ios i`. -/
def deleteKey (ios : ℕ → FlushIo) (tableId : TableId) (s : Shared T × Transaction)
    (entry : Key × ℕ) : Outcome (Shared T × Transaction) TransactionError Unit :=
  match andThen (s.2.lock s.1 (tableId, entry.1)) fun sh () =>
      s.2.logOperation cfg (ios entry.2) sh tableId .delete entry.1 [] with
  | (sh, .error e) => ((sh, s.2), .error e)
  | (sh, .ok ()) => ((sh, s.2.recordWrite (tableId, entry.1) none), .ok ())

/-- `range_delete`: the keys are those the snapshot shows, whatever the transaction has
written itself. -/
def rangeDelete (ios : ℕ → FlushIo) (tableId : TableId) (bounds : ScanBounds) : CallOutcome T ℕ :=
  if txn.state ≠ .active then (sh, txn, .error (txn.invalidState "range_delete"))
  else
    match E.scanKeys sh.tables tableId bounds txn.snapshotLsn with
    | .error e => (sh, txn, .error e)
    | .ok keys =>
      match forEach (deleteKey cfg ios tableId) (sh, txn) keys.zipIdx with
      | (s, .error e) => (s.1, s.2, .error e)
      | (s, .ok ()) => (s.1, s.2, .ok keys.length)

/-- `record_bloom_insert`, which adds to a set, and the other `record_*_operation`s, which add
to a list. -/
def recordSpecial (op : SpecialOp) : Transaction :=
  if op.opType = .bloomInsert ∧ op ∈ txn.specialOps then txn
  else { txn with specialOps := txn.specialOps ++ [op] }

/-- The calls of the specialised tables (`insert_key`, `add_edge`, `append_point` and so on):
logged and recorded, without a lock and whatever engine the table has. -/
def special (op : SpecialOp) : CallOutcome T Unit :=
  if txn.state ≠ .active then
    (sh, txn, .error (.other "transaction is not active" (.table (displayTransactionId txn.txnId))))
  else
    finish txn (txn.logOperation cfg io sh op.tableId op.opType op.walKey op.walValue)
      (fun () => txn.recordSpecial op) id

end Transaction

end NanoStore.Txn
