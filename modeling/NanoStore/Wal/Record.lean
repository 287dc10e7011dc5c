import NanoStore.Types
/-!
# Write-ahead log — records and errors

The records of `wal/record.rs` at the level of their contents. The
timestamp, the compression and the encryption of a record matter to its
bytes only and are added there.
-/

namespace NanoStore.Wal

/-- What a write does to its key. -/
inductive WriteOpType
  | put
  | delete
  | bloomInsert
  | graphAddEdge
  | graphRemoveEdge
  | timeSeriesInsert
  | timeSeriesDelete
  | vectorInsert
  | vectorDelete
  | geoInsert
  | geoDelete
  | fullTextIndex
  | fullTextUpdate
  | fullTextDelete
  deriving DecidableEq

/-- The data of a record, by type. -/
inductive RecordData
  | begin (txnId : TransactionId)
  | write (txnId : TransactionId) (tableId : TableId) (opType : WriteOpType) (key value : Bytes)
  | commit (txnId : TransactionId)
  | rollback (txnId : TransactionId)
  | checkpoint (lsn : ℕ) (activeTxns : List TransactionId)
  | prepare (txnId : TransactionId)
  deriving DecidableEq

def RecordData.txnId : RecordData → Option TransactionId
  | .begin t => some t
  | .write t _ _ _ _ => some t
  | .commit t => some t
  | .rollback t => some t
  | .checkpoint _ _ => none
  | .prepare t => some t

/-- A record with its number. -/
structure WalRecord where
  lsn : ℕ
  data : RecordData
  deriving DecidableEq

/-- The errors of `WalError` the modelled functions return. -/
inductive WalError
  | vfsError
  | ioError
  | transactionNotFound (txnId : TransactionId)
  | transactionAlreadyExists (txnId : TransactionId)
  | walFull (currentSize maxSize : ℕ)
  | recoveryError (lsn : ℕ) (operation details : String)
  | serializationError (lsn : ℕ) (recordType details : String)
  | missingEncryptionKey (encryptionType : String)
  | commitNotificationError (txnId : TransactionId) (lsn : ℕ)
  | invalidRecord (lsn : ℕ) (details : String)
  | checksumMismatch (lsn offset expected found : ℕ)
  | corruptedWal (offset : ℕ) (corruptionType details : String)
  | deserializationError (offset : ℕ) (details : String)
  | decryptionError (offset : ℕ) (encryptionType details : String)
  deriving DecidableEq

end NanoStore.Wal
