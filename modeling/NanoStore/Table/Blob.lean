import NanoStore.Common.SortedMap
import NanoStore.Txn.Version
/-!
# Blob tables

What the blob tables of `table/blob` share: a version chain for each key,
the versions of which hold metadata about where a value is stored, encoded
with `postcard`. Committing stamps every uncommitted version of every key,
whichever transaction it is of.
-/

namespace NanoStore.Table

open Txn

/-- `postcard::to_allocvec` and `postcard::from_bytes` for a type: what was encoded is decoded. -/
structure Postcard (M : Type) where
  encode : M → Bytes
  decode : Bytes → Option M
  decode_encode : ∀ m, decode (encode m) = some m

/-- The index of a blob table. -/
abbrev BlobChains := SortedMap Key VersionChain

namespace BlobChains

variable (index : BlobChains) (key : Key)

/-- A new version of a key. -/
def prepend (metadata : Bytes) (txId : TransactionId) : BlobChains :=
  SortedMap.insert index key (.new metadata txId :: (index.lookup key).getD [])

/-- Every open version is committed, whoever wrote it. -/
def commitAllUncommitted (commitLsn : ℕ) (chain : VersionChain) : VersionChain :=
  chain.map fun v => if v.commitLsn = none then { v with commitLsn := some commitLsn } else v

/-- `commit_versions`: the transaction is not looked at. -/
def commitVersions (_txId : TransactionId) (commitLsn : ℕ) : BlobChains :=
  index.mapValues (commitAllUncommitted commitLsn)

variable {index key} {key' : Key}

/-- A put is in front of the chain of its key. -/
theorem lookup_prepend (metadata : Bytes) (txId : TransactionId) :
    (index.prepend key metadata txId).lookup key' =
      if key' = key then some (.new metadata txId :: (index.lookup key).getD []) else index.lookup key' := by
  rw [prepend, SortedMap.lookup_insert]
  split_ifs
  · rfl
  · rfl

theorem lookup_prepend_of_ne {metadata : Bytes} {txId : TransactionId} (hkey : key' ≠ key) :
    (index.prepend key metadata txId).lookup key' = index.lookup key' := by
  rw [lookup_prepend, if_neg hkey]

theorem lookup_commitVersions (txId : TransactionId) (commitLsn : ℕ) :
    (index.commitVersions txId commitLsn).lookup key =
      (index.lookup key).map (commitAllUncommitted commitLsn) :=
  SortedMap.lookup_mapValues _

end BlobChains

end NanoStore.Table
