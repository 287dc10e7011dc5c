import NanoStore.Txn.Commit
/-!
# The database — its calls

`StorageEngine` of `engine.rs` as far as transactions go: the shared
state, the named snapshots, and the transactions that are open. A call
is answered at once; `commit` and `rollback` consume their transaction
whatever they return.
-/

namespace NanoStore.Engine

open Wal Steps Txn

/-- A named snapshot: its id, its name and the position it pins. -/
structure NamedSnapshot where
  id : ℕ
  name : String
  lsn : ℕ
  deriving DecidableEq

/-- The database, with its open transactions. -/
structure Database (T : Type) where
  shared : Shared T
  nextTxnId : TransactionId
  snapshots : List NamedSnapshot
  nextSnapshotId : ℕ
  txns : TransactionId → Option Transaction

/-- A call of the database or of one of its open transactions. The flush outcomes of the log
are part of the call. -/
inductive Call
  | beginRead (isolation : IsolationLevel)
  | beginWrite (durability : Durability) (isolation : IsolationLevel) (io : FlushIo)
  | beginReadAt (lsn : ℕ) (isolation : IsolationLevel)
  | createSnapshot (name : String)
  | releaseSnapshot (id : ℕ)
  | get (t : TransactionId) (k : TableKey)
  | recordRead (t : TransactionId) (k : TableKey)
  | put (t : TransactionId) (k : TableKey) (value : Bytes) (io : FlushIo)
  | delete (t : TransactionId) (k : TableKey) (io : FlushIo)
  | rangeDelete (t : TransactionId) (tableId : TableId) (bounds : ScanBounds) (ios : ℕ → FlushIo)
  | special (t : TransactionId) (op : SpecialOp) (io : FlushIo)
  | prepare (t : TransactionId)
  | commit (t : TransactionId) (choices : CommitChoices)
  | rollback (t : TransactionId) (io : FlushIo)

/-- The errors of `StorageEngineError` that the modelled calls return. -/
inductive EngineError
  | invalidOperation (details : String)
  | notFound (object : TableId)
  | pagerFailed (details : String)
  | tableAlreadyExists (name : String)
  | walFailed (context : String) (cause : WalError)
  | other (details : String)
  deriving DecidableEq

/-- The answer to a call. `notOpen` answers a call of a transaction that is not open, which no
program can make, and a commit whose choices are not the transaction's. -/
inductive Answer
  | began (result : Except EngineError TransactionId)
  | snapshot (result : Except EngineError NamedSnapshot)
  | released (result : Except EngineError Unit)
  | value (result : Except TransactionError (Option Bytes))
  | done (result : Except TransactionError Unit)
  | existed (result : Except TransactionError Bool)
  | count (result : Except TransactionError ℕ)
  | committed (result : Except TransactionError ℕ)
  | rolledBack (result : Except TransactionError Unit)
  | notOpen

namespace Database

variable {T : Type}

/-- `StorageEngine::new`, with the tables it is to have. -/
def new (tables : T) : Database T where
  shared := ⟨WalWriter.create, ConflictDetector.new, tables, 0⟩
  nextTxnId := 1
  snapshots := []
  nextSnapshotId := 1
  txns _ := none

variable (E : Engines T) (cfg : WalWriterConfig) (db : Database T)

/-- A transaction opened under the next id. -/
def openTxn (wal : WalWriterState) (snapshotLsn : ℕ) (isolation : IsolationLevel)
    (durability : Durability) : Database T × Answer :=
  let t := db.nextTxnId
  ({ db with
      shared := { db.shared with wal := wal }
      nextTxnId := t + 1
      txns := Function.update db.txns t (some (.build t snapshotLsn isolation durability)) }, .began (.ok t))

/-- `begin_read` and `begin_read_with_isolation`. -/
def beginRead (isolation : IsolationLevel) : Database T × Answer :=
  db.openTxn db.shared.wal db.shared.currentLsn isolation .walOnly

/-- `begin_write` and `begin_write_with_isolation`: what the log answers to the begin record
is ignored. -/
def beginWrite (durability : Durability) (isolation : IsolationLevel) (io : FlushIo) : Database T × Answer :=
  db.openTxn (WalWriter.writeBegin cfg io db.shared.wal db.nextTxnId).1 db.shared.currentLsn
    isolation durability

/-- A snapshot is not ahead of the log. -/
def validateSnapshotLsn (lsn : ℕ) : Except EngineError Unit :=
  let latest := db.shared.currentLsn
  if lsn > latest then
    .error (.invalidOperation (s!"Snapshot LSN LSN({lsn}) is not yet committed; " ++
      s!"latest readable LSN is LSN({latest})"))
  else if lsn = 0 then .ok ()
  else if db.snapshots.any fun s => s.lsn = lsn then .ok ()
  else .error (.invalidOperation s!"Snapshot LSN LSN({lsn}) is not pinned by an active named snapshot")

/-- `begin_read_at` and `begin_read_at_with_isolation`. -/
def beginReadAt (lsn : ℕ) (isolation : IsolationLevel) : Database T × Answer :=
  match db.validateSnapshotLsn lsn with
  | .error e => (db, .began (.error e))
  | .ok () => db.openTxn db.shared.wal lsn isolation .walOnly

/-- `create_snapshot`: it pins the current position. -/
def createSnapshot (name : String) : Database T × Answer :=
  let name := name.trimAscii.toString
  if name = "" then
    (db, .snapshot (.error (.invalidOperation "Snapshot name cannot be empty")))
  else if db.snapshots.any fun s => s.name = name then
    (db, .snapshot (.error (.invalidOperation (s!"Snapshot '{name}' already exists"))))
  else
    let snapshot := ⟨db.nextSnapshotId, name, db.shared.currentLsn⟩
    ({ db with snapshots := db.snapshots ++ [snapshot], nextSnapshotId := db.nextSnapshotId + 1 },
      .snapshot (.ok snapshot))

/-- `release_snapshot`, which fails for a number that is not registered. -/
def releaseSnapshot (id : ℕ) : Database T × Answer :=
  if db.snapshots.any fun s => s.id = id then
    ({ db with snapshots := db.snapshots.filter fun s => s.id ≠ id }, .released (.ok ()))
  else
    (db, .released (.error (.invalidOperation s!"Snapshot SnapshotId({id}) not found")))

/-- A call on an open transaction that leaves it open. -/
def withTxn {α : Type} (t : TransactionId) (call : Transaction → Transaction.CallOutcome T α)
    (answer : Except TransactionError α → Answer) : Database T × Answer :=
  match db.txns t with
  | none => (db, .notOpen)
  | some txn =>
    let (sh, txn, result) := call txn
    ({ db with shared := sh, txns := Function.update db.txns t (some txn) }, answer result)

/-- A call that takes the transaction by value: the slot is empty after it. -/
def consume {α : Type} (t : TransactionId) (call : Transaction → Outcome (Shared T) TransactionError α)
    (answer : Except TransactionError α → Answer) : Database T × Answer :=
  match db.txns t with
  | none => (db, .notOpen)
  | some txn =>
    let (sh, result) := call txn
    ({ db with shared := sh, txns := Function.update db.txns t none }, answer result)

/-- The answer to a call, and the database it leaves. -/
def exec (db : Database T) : Call → Database T × Answer
  | .beginRead isolation => db.beginRead isolation
  | .beginWrite durability isolation io => db.beginWrite cfg durability isolation io
  | .beginReadAt lsn isolation => db.beginReadAt lsn isolation
  | .createSnapshot name => db.createSnapshot name
  | .releaseSnapshot id => db.releaseSnapshot id
  | .get t k => db.withTxn t (fun txn => (db.shared, txn, txn.get E db.shared k)) .value
  | .recordRead t k => db.withTxn t (fun txn => (db.shared, txn.recordRead k, .ok ())) .done
  | .put t k value io => db.withTxn t (fun txn => txn.put cfg io db.shared k value) .done
  | .delete t k io => db.withTxn t (fun txn => txn.delete E cfg io db.shared k) .existed
  | .rangeDelete t tableId bounds ios =>
    db.withTxn t (fun txn => txn.rangeDelete E cfg db.shared ios tableId bounds) .count
  | .special t op io => db.withTxn t (fun txn => txn.special cfg io db.shared op) .done
  | .prepare t =>
    db.withTxn t (fun txn => (db.shared, txn.prepare.1, txn.prepare.2)) .done
  | .commit t choices =>
    match db.txns t with
    | none => (db, .notOpen)
    | some txn =>
      if txn.Fits choices then
        db.consume t (fun txn => txn.commit E cfg choices db.shared) .committed else (db, .notOpen)
  | .rollback t io => db.consume t (fun txn => txn.rollback cfg io db.shared) .rolledBack

end Database

end NanoStore.Engine
