import NanoStore.Common.Assoc
import NanoStore.Txn.Transaction
import NanoStore.Txn.Vacuum
/-!
# Version chains in tables

What the table engines share: the map from keys to version chains, what a
reader at a snapshot is shown of a chain, the stamp a commit puts on its
newest version, and the tombstone a vacuum looks for.
-/

namespace NanoStore.Table

open Wal Steps Txn

/-! ## Entries -/

/-- The version chains of a table by key. -/
abbrev Entries := AList fun _ : Key => VersionChain

namespace Entries

variable (entries : Entries) (key : Key)

/-- The chain of a key, empty if the key has no entry. -/
def chain : VersionChain := (entries.lookup key).getD []

/-- A new version before the chain of its key. -/
def prepend (v : Version) : Entries := entries.insert key (v :: chain entries key)

end Entries

/-! ## One chain -/

/-- The empty value reads as none where it stands for a tombstone. -/
def hideEmpty : Option Bytes → Option Bytes
  | some [] => none
  | value => value

/-- A value shown is the one found, and not the empty one. -/
theorem hideEmpty_eq_some {found : Option Bytes} {value : Bytes} (h : hideEmpty found = some value) :
    found = some value ∧ value ≠ [] := by
  cases found with
  | none => cases h
  | some data =>
    cases data with
    | nil => cases h
    | cons b data =>
      cases h
      exact ⟨rfl, List.cons_ne_nil _ _⟩

/-- What a reader at a snapshot finds in a chain. -/
def shows (chain : VersionChain) (snapshotLsn : ℕ) : Option Bytes :=
  VersionChain.findVisibleInline (.atLsn snapshotLsn) chain

/-- The reader takes the first visible version, and nothing if its value is external. -/
theorem shows_eq (chain : VersionChain) (s : ℕ) :
    shows chain s = (chain.find? (Version.visible (.atLsn s))).bind fun v => v.value.inline? :=
  chain.findVisibleInline_eq

/-- The newest version committed, if it is an uncommitted one of the transaction. -/
def stampHead (t : TransactionId) (lsn : ℕ) : VersionChain → VersionChain
  | [] => []
  | v :: older =>
    if v.createdBy = t ∧ v.commitLsn = none then { v with commitLsn := some lsn } :: older
    else v :: older

/-- The newest version is the empty value, committed or not. -/
def isTombstone (chain : VersionChain) : Bool :=
  match chain.head? with
  | some ⟨.inline [], _, _⟩ => true
  | _ => false

/-- The newest version always stays, so a vacuum leaves a tombstone one. -/
theorem isTombstone_vacuum {w : ℕ} {chain : VersionChain} :
    isTombstone (VersionChain.vacuum w chain).1 = isTombstone chain := by
  unfold isTombstone
  rw [VersionChain.vacuum_fst, VersionChain.head?_thin]

end NanoStore.Table
