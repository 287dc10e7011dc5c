import NanoStore.Wal.Record
/-!
# Write-ahead log — recovery

`WalRecovery` of `wal/recovery.rs`: a fold over the records of the log
with a state per transaction id, and a result read off the two maps it
fills. The maps are ordered, and the result lists the transactions in
their order.
-/

namespace NanoStore.Wal

/-- `TransactionState` of recovery. -/
inductive TransactionState
  | active
  | committed
  | rolledBack
  deriving DecidableEq

/-- A write that recovery hands back. -/
structure RecoveredWrite where
  tableId : TableId
  opType : WriteOpType
  key : Bytes
  value : Bytes
  deriving DecidableEq

/-- What recovery returns. -/
structure RecoveryResult where
  lastCheckpointLsn : Option ℕ
  committedWrites : List RecoveredWrite
  activeTransactions : Finset TransactionId
  recordsProcessed : ℕ

/-- The state of recovery over a log. -/
structure WalRecovery where
  transactions : Std.TreeMap TransactionId TransactionState
  transactionWrites : Std.TreeMap TransactionId (List RecoveredWrite)
  lastCheckpointLsn : Option ℕ
  checkpointActiveTxns : Option (Finset TransactionId)
  recordsProcessed : ℕ

namespace WalRecovery

def new : WalRecovery where
  transactions := ∅
  transactionWrites := ∅
  lastCheckpointLsn := none
  checkpointActiveTxns := none
  recordsProcessed := 0

variable (r : WalRecovery)

/-- `process_begin`: the transaction becomes active with no writes, whatever it had before. -/
def processBegin (t : TransactionId) : WalRecovery :=
  { r with
    transactions := r.transactions.insert t .active
    transactionWrites := r.transactionWrites.insert t [] }

/-- The error of a record whose transaction recovery has not seen. -/
def unknownTransaction (operation : String) (t : TransactionId) : Failure WalError :=
  .error (.recoveryError 0 operation (operation ++ " for unknown transaction " ++ displayTransactionId t))

/-- `process_write`. The map of writes is unwrapped: a transaction that is known but has no
entry there panics. -/
def processWrite (t : TransactionId) (write : RecoveredWrite) : Except (Failure WalError) WalRecovery :=
  if t ∈ r.transactions then
    match r.transactionWrites[t]? with
    | none => .error .panicked
    | some writes =>
      .ok { r with transactionWrites := r.transactionWrites.insert t (writes ++ [write]) }
  else .error (unknownTransaction "Write" t)

/-- A transaction that began is committed. -/
def processCommit (t : TransactionId) : Except (Failure WalError) WalRecovery :=
  if t ∈ r.transactions then
    .ok { r with transactions := r.transactions.insert t .committed }
  else .error (unknownTransaction "Commit" t)

/-- `process_rollback`: the writes are discarded. -/
def processRollback (t : TransactionId) : Except (Failure WalError) WalRecovery :=
  if t ∈ r.transactions then
    .ok { r with
      transactions := r.transactions.insert t .rolledBack
      transactionWrites := r.transactionWrites.erase t }
  else .error (unknownTransaction "Rollback" t)

/-- `process_checkpoint`. The comparison with the tracked transactions only prints a warning. -/
def processCheckpoint (lsn : ℕ) (activeTxns : List TransactionId) : WalRecovery :=
  { r with
    lastCheckpointLsn := some lsn
    checkpointActiveTxns := some activeTxns.toFinset }

/-- `process_record`. A prepare record is treated as a begin record. -/
def processRecord (record : WalRecord) : Except (Failure WalError) WalRecovery :=
  let r := { r with recordsProcessed := r.recordsProcessed + 1 }
  match record.data with
  | .begin t => .ok (r.processBegin t)
  | .write t tableId opType key value => r.processWrite t ⟨tableId, opType, key, value⟩
  | .commit t => r.processCommit t
  | .rollback t => r.processRollback t
  | .checkpoint lsn activeTxns => .ok (r.processCheckpoint lsn activeTxns)
  | .prepare t => .ok (r.processBegin t)

/-- The loop of `build_result` over the transactions, in the order of their ids: each write it
collects, with the transaction it is collected for. -/
def attributedWrites : List (TransactionId × RecoveredWrite) :=
  r.transactions.toList.flatMap fun (t, state) =>
    match state with
    | .committed => ((r.transactionWrites[t]?).getD []).map fun write => (t, write)
    | .active => []
    | .rolledBack => []

/-- `build_result`. -/
def buildResult : RecoveryResult where
  lastCheckpointLsn := r.lastCheckpointLsn
  committedWrites := r.attributedWrites.map Prod.snd
  activeTransactions :=
    ((r.transactions.toList.filter fun entry => entry.2 = .active).map Prod.fst).toFinset
  recordsProcessed := r.recordsProcessed

/-- The record loop of `recover_with_key`. -/
def processAll (log : List WalRecord) : Except (Failure WalError) WalRecovery :=
  log.foldlM processRecord new

theorem processAll_snoc (log : List WalRecord) (record : WalRecord) :
    processAll (log ++ [record]) = (processAll log).bind fun r => r.processRecord record := by
  rw [processAll, List.foldlM_append, ← processAll]
  simp only [List.foldlM_cons, List.foldlM_nil, bind_pure]
  rfl

/-- `WalRecovery::recover` of a log whose records have been read. -/
def recover (log : List WalRecord) : Except (Failure WalError) RecoveryResult :=
  (processAll log).map buildResult

end WalRecovery

end NanoStore.Wal
