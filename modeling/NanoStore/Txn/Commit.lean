import NanoStore.Txn.Transaction
/-!
# Transactions — commit and rollback

`Transaction::commit` in its phases: collect the undo log and write the
prepare record, check the read set, write the commit record, apply the
write set (undoing it when an entry fails), apply the operations of the
specialised tables, stamp the versions, and publish the commit position.
A phase that fails ends the call where it stands.
-/

namespace NanoStore.Txn

open Wal Steps

/-- What a commit leaves open: the order in which it visits the write set, the bloom inserts
and the modified tables, which are hash maps in the source, and what the log file does with
each flush. -/
structure CommitChoices where
  writes : List (TableKey × Option Bytes)
  blooms : List SpecialOp
  tables : List TableId
  ios : ℕ → FlushIo

namespace Transaction

variable (txn : Transaction)

/-- The writes, as they go to the tables. -/
def writes : List (TableKey × Option Bytes) := txn.writeSet.entries.map fun e => (e.1, e.2)

/-- The bloom inserts among the special operations. -/
def bloomOps : List SpecialOp := txn.specialOps.filter fun op => op.opType = .bloomInsert

/-- The families of the special operations after the bloom inserts, in the order `commit`
applies them: graph, time series, vectors, geometry, full text. -/
def families : List (List WriteOpType) :=
  [[.graphAddEdge, .graphRemoveEdge], [.timeSeriesInsert, .timeSeriesDelete],
    [.vectorInsert, .vectorDelete], [.geoInsert, .geoDelete],
    [.fullTextIndex, .fullTextUpdate, .fullTextDelete]]

/-- The special operations after the bloom inserts, in the order they are applied. -/
def familyOps : List SpecialOp :=
  families.flatMap fun family => txn.specialOps.filter fun op => op.opType ∈ family

/-- The tables whose versions the commit stamps. -/
def modifiedTables : List TableId :=
  (txn.writes.map (fun w => w.1.1) ++ txn.specialOps.map (fun op => op.tableId)).dedup

/-- The choices visit what the transaction has. -/
structure Fits (choices : CommitChoices) : Prop where
  writes : choices.writes.Perm txn.writes
  blooms : choices.blooms.Perm txn.bloomOps
  tables : choices.tables.Perm txn.modifiedTables

instance (choices : CommitChoices) : Decidable (txn.Fits choices) :=
  decidable_of_iff (choices.writes.Perm txn.writes ∧ choices.blooms.Perm txn.bloomOps ∧
    choices.tables.Perm txn.modifiedTables)
    ⟨fun h => ⟨h.1, h.2.1, h.2.2⟩, fun h => ⟨h.writes, h.blooms, h.tables⟩⟩

variable {T : Type} (E : Engines T) (cfg : WalWriterConfig)

/-! ## The phases -/

/-- The undo entries of the write set: the old value is read at the snapshot, and nothing is
kept for a delete of a key that has none. -/
def collectWrites (tables : T) : List (TableKey × Option Bytes) → Except TransactionError (List UndoOperation)
  | [] => .ok []
  | (k, value) :: rest =>
    match E.oldValue tables k txn.snapshotLsn with
    | .error e => .error e
    | .ok none => collectWrites tables rest
    | .ok (some oldValue) =>
      let here := match value, oldValue with
        | some _, old => [.restoreValue k old]
        | none, some old => [.restoreKey k old]
        | none, none => []
      (collectWrites tables rest).map (here ++ ·)

/-- The undo entry of a special operation. The deletes of vectors, geometries and documents
are given the entry of the inserts; bloom inserts and time series have none. -/
def undoOf (op : SpecialOp) : Option UndoOperation :=
  match op.opType with
  | .graphAddEdge => some (.removeGraphEdge op.tableId op.args)
  | .graphRemoveEdge => some (.restoreGraphEdge op.tableId op.args)
  | .vectorInsert | .vectorDelete => some (.removeVector op.tableId (op.args.take 1))
  | .geoInsert | .geoDelete => some (.removeGeometry op.tableId (op.args.take 1))
  | .fullTextIndex | .fullTextUpdate | .fullTextDelete =>
    some (.removeDocument op.tableId (op.args.take 1))
  | _ => none

variable (choices : CommitChoices)

/-- The undo log. -/
def collectUndo (tables : T) : Except TransactionError (List UndoOperation) :=
  (txn.collectWrites E tables choices.writes).map (· ++ txn.familyOps.filterMap undoOf)

/-- The prepare phase. -/
def commitPrepare (sh : Shared T) :
    Outcome (Shared T) TransactionError (List UndoOperation) :=
  if txn.state ≠ .active ∧ txn.state ≠ .preparing then (sh, .error (txn.invalidState "commit"))
  else
    match txn.collectUndo E choices sh.tables with
    | .error e => (sh, .error e)
    | .ok undoLog =>
      match WalWriter.writePrepare cfg (choices.ios 0) sh.wal txn.txnId with
      | (w, .error e) => ({ sh with wal := w }, .error (.other "WAL prepare failed: " (.wal e)))
      | (w, .ok _) => ({ sh with wal := w }, .ok undoLog)

/-- The conflict check of the isolation level. -/
def commitCheck (sh : Shared T) : Outcome (Shared T) TransactionError Unit :=
  match txn.isolation with
  | .repeatableRead => (sh, sh.detector.checkReadWriteConflicts txn.txnId txn.readSet)
  | .serializable => (sh, sh.detector.checkReadWriteConflicts txn.txnId txn.readSet)
  | _ => (sh, .ok ())

/-- The commit record, and the flush the durability asks for. -/
def commitLog (sh : Shared T) : Outcome (Shared T) TransactionError ℕ :=
  match WalWriter.writeCommit cfg (choices.ios 1) sh.wal (choices.ios 2) txn.txnId with
  | (w, .error e) => ({ sh with wal := w }, .error (.other "WAL commit failed: " (.wal e)))
  | (w, .ok lsn) =>
    if txn.durability = .flushOnCommit then
      match WalWriter.flush cfg (choices.ios 3) w with
      | (w, .error e) => ({ sh with wal := w }, .error (.other "WAL flush failed: " (.wal e)))
      | (w, .ok ()) => ({ sh with wal := w }, .ok lsn)
    else ({ sh with wal := w }, .ok lsn)

/-- Each write goes to its table. -/
def applyAllChanges (tables : T) : Outcome T TransactionError Unit :=
  forEach (fun tables w => E.apply tables txn.txnId txn.snapshotLsn w) tables choices.writes

/-- The undo log executed in reverse order; an entry that fails is passed over. -/
def undoAll (undoLog : List UndoOperation) (tables : T) : T :=
  undoLog.reverse.foldl (fun tables op => (E.undo tables txn.txnId txn.snapshotLsn op).1) tables

/-- The write set applied. When an entry fails the undo log is executed, and the locks are
released if the log takes a rollback record. -/
def commitApply (undoLog : List UndoOperation) (sh : Shared T) :
    Outcome (Shared T) TransactionError Unit :=
  match txn.applyAllChanges E choices sh.tables with
  | (tables, .ok ()) => ({ sh with tables := tables }, .ok ())
  | (tables, .error applyError) =>
    let sh := { sh with tables := txn.undoAll E undoLog tables }
    match WalWriter.writeRollback cfg (choices.ios 4) sh.wal txn.txnId with
    | (w, .error e) => ({ sh with wal := w }, .error (.other "WAL rollback failed: " (.wal e)))
    | (w, .ok _) =>
      ({ sh with wal := w, detector := sh.detector.releaseLocks txn.txnId }, .error applyError)

/-- The special operations applied: the bloom inserts, then the other families. -/
def commitSpecials (lsn : ℕ) (sh : Shared T) :
    Outcome (Shared T) TransactionError Unit :=
  let (tables, result) := forEach (fun tables op => E.applySpecial tables txn.txnId lsn op)
    sh.tables (choices.blooms ++ txn.familyOps)
  ({ sh with tables := tables }, result)

/-- The versions of the modified tables stamped with the commit position. -/
def commitStamp (lsn : ℕ) (sh : Shared T) :
    Outcome (Shared T) TransactionError Unit :=
  let (tables, result) :=
    forEach (fun tables table => E.commitVersions tables txn.txnId txn.snapshotLsn lsn table)
      sh.tables choices.tables
  ({ sh with tables := tables }, result)

/-- The commit position published, whatever position is published already, and the locks
released. -/
def commitPublish (lsn : ℕ) (sh : Shared T) : Shared T :=
  { sh with currentLsn := lsn, detector := sh.detector.releaseLocks txn.txnId }

/-! ## The calls -/

/-- `commit`, with the commit position of its `CommitInfo`. -/
def commit (sh : Shared T) : Outcome (Shared T) TransactionError ℕ :=
  andThen (txn.commitPrepare E cfg choices sh) fun sh undoLog =>
  andThen (txn.commitCheck sh) fun sh () =>
  andThen (txn.commitLog cfg choices sh) fun sh lsn =>
  andThen (txn.commitApply E cfg choices undoLog sh) fun sh () =>
  andThen (txn.commitSpecials E choices lsn sh) fun sh () =>
  andThen (txn.commitStamp E choices lsn sh) fun sh () =>
    (txn.commitPublish lsn sh, .ok lsn)

/-- `rollback`. -/
def rollback (io : FlushIo) (sh : Shared T) : Outcome (Shared T) TransactionError Unit :=
  if txn.state ≠ .active ∧ txn.state ≠ .preparing then (sh, .error (txn.invalidState "rollback"))
  else
    match WalWriter.writeRollback cfg io sh.wal txn.txnId with
    | (w, .error e) => ({ sh with wal := w }, .error (.other "WAL rollback failed: " (.wal e)))
    | (w, .ok _) =>
      ({ sh with wal := w, detector := sh.detector.releaseLocks txn.txnId }, .ok ())

end Transaction

end NanoStore.Txn
