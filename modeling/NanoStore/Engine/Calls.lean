import NanoStore.Engine.Database
import NanoStore.Txn.Consume
/-!
# The database — what a call can do

`Effect` lists it once: nothing that transactions see, a transaction
opened, an open one continued, or one consumed. `exec_effect` says that
every call is answered by one of these; the invariants of whole runs are
proved from it, case by case.
-/

namespace NanoStore.Engine

open Wal Steps Txn Function Transaction

/-- A call with its answer. -/
abbrev Event := Call × Answer

/-- The transaction an event opens. -/
def begun : Event → Option TransactionId
  | (_, .began (.ok t)) => some t
  | _ => none

/-- The transaction an event commits, with what it has written. -/
def committed : Event → Option (TransactionId × List (TableKey × Option Bytes))
  | (.commit t choices, .committed (.ok _)) => some (t, choices.writes)
  | _ => none

/-- The transaction an event consumes, whatever the answer. -/
def consumed : Event → Option TransactionId
  | (.commit t _, .committed _) => some t
  | (.rollback t _, .rolledBack _) => some t
  | _ => none

theorem committed_eq_none {event : Event} (h : consumed event = none) : committed event = none := by
  unfold consumed at h
  unfold committed
  split at h
  · cases h
  · cases h
  · rename_i hno _
    split
    · exact absurd rfl (hno _ _ _)
    · rfl

variable {t u : TransactionId} {α : Type} {f : TransactionId → Option α} {o : Option α} {x : α}

theorem update_eq_some_iff : update f t o u = some x ↔ (u = t ∧ o = some x) ∨ u ≠ t ∧ f u = some x := by
  by_cases hut : u = t
  · subst hut
    simp
  · simp [hut]

theorem update_eq_some (h : update f t o u = some x) : (u = t ∧ o = some x) ∨ u ≠ t ∧ f u = some x :=
  update_eq_some_iff.mp h

variable {T : Type}

/-- The call may add the key to the write set of its transaction. -/
def Call.WritesKey (E : Engines T) (db : Database T) : Call → TableKey → Prop
  | .put _ k' _ _, k => k = k'
  | .delete _ k' _, k => k = k'
  | .rangeDelete t tableId bounds _, k =>
    k.1 = tableId ∧ ∃ txn keys, db.txns t = some txn ∧
      E.scanKeys db.shared.tables tableId bounds txn.snapshotLsn = .ok keys ∧ k.2 ∈ keys
  | _, _ => False

/-- The open transaction a call is made on. -/
def Call.subject : Call → Option TransactionId
  | .get t _ | .recordRead t _ | .put t _ _ _ | .delete t _ _ | .rangeDelete t _ _ _
  | .special t _ _ | .prepare t | .commit t _ | .rollback t _ => some t
  | _ => none

/-- The snapshot a call opens a transaction at. -/
def Call.snapshotLsn (db : Database T) : Call → Option ℕ
  | .beginRead _ | .beginWrite _ _ _ => some db.shared.currentLsn
  | .beginReadAt lsn _ =>
    match db.validateSnapshotLsn lsn with
    | .ok _ => some lsn
    | .error _ => none
  | _ => none

namespace Database

/-- What a call can do. -/
inductive Effect (E : Engines T) (cfg : WalWriterConfig) (db : Database T) : Call → Answer → Database T → Prop
  | idle {call : Call} {answer : Answer} {db' : Database T}
      (hbegun : begun (call, answer) = none) (hcons : consumed (call, answer) = none)
      (hshared : db'.shared = db.shared) (htxns : db'.txns = db.txns)
      (hnext : db'.nextTxnId = db.nextTxnId) : Effect E cfg db call answer db'
  | opened {call : Call} (w : WalWriterState) (hw : db.shared.wal.currentLsn ≤ w.currentLsn)
      (snapshotLsn : ℕ) (hsnap : snapshotLsn ≤ db.shared.currentLsn)
      (isolation : IsolationLevel) (durability : Durability)
      (hcall : call.snapshotLsn db = some snapshotLsn)
      (hactive : ∀ t ∈ w.activeTxns, t ∈ db.shared.wal.activeTxns ∨
        t = db.nextTxnId ∧ snapshotLsn = db.shared.currentLsn) :
      Effect E cfg db call (.began (.ok db.nextTxnId)) (db.openTxn w snapshotLsn isolation durability).1
  | continued {call : Call} {answer : Answer} {t : TransactionId} {txn txn' : Transaction}
      {sh' : Shared T} (ht : db.txns t = some txn)
      (hcont : Transaction.Continues db.shared txn sh' txn')
      (hwritten : ∀ k ∈ txn'.writeSet, k ∈ txn.writeSet ∨ call.WritesKey E db k)
      (hsubj : call.subject = some t)
      (hbegun : begun (call, answer) = none) (hcons : consumed (call, answer) = none) :
      Effect E cfg db call answer
        { db with shared := sh', txns := update db.txns t (some txn') }
  | committed {t : TransactionId} {txn : Transaction} {choices : CommitChoices} {sh' : Shared T}
      {lsn : ℕ} (ht : db.txns t = some txn) (hfits : txn.Fits choices)
      (hcom : txn.commit E cfg choices db.shared = (sh', .ok lsn)) :
      Effect E cfg db (.commit t choices) (.committed (.ok lsn))
        { db with shared := sh', txns := update db.txns t none }
  | refused {t : TransactionId} {txn : Transaction} {choices : CommitChoices} {sh' : Shared T}
      {e : TransactionError} (ht : db.txns t = some txn) (hfits : txn.Fits choices)
      (hcom : txn.commit E cfg choices db.shared = (sh', .error e)) :
      Effect E cfg db (.commit t choices) (.committed (.error e))
        { db with shared := sh', txns := update db.txns t none }
  | rolledBack {t : TransactionId} {txn : Transaction} {io : FlushIo} {sh' : Shared T}
      {result : Except TransactionError Unit} (ht : db.txns t = some txn)
      (hroll : txn.rollback cfg io db.shared = (sh', result)) :
      Effect E cfg db (.rollback t io) (.rolledBack result)
        { db with shared := sh', txns := update db.txns t none }

variable {E : Engines T} {cfg : WalWriterConfig} {db : Database T}

theorem withTxn_effect {α : Type} {call : Call} {t : TransactionId}
    {f : Transaction → Transaction.CallOutcome T α} {answer : Except TransactionError α → Answer}
    (hf : ∀ txn sh' txn' r, db.txns t = some txn → f txn = (sh', txn', r) →
      Transaction.Continues db.shared txn sh' txn' ∧
        ∀ k ∈ txn'.writeSet, k ∈ txn.writeSet ∨ call.WritesKey E db k)
    (hsubj : call.subject = some t := by rfl) (hbegun : ∀ r, begun (call, answer r) = none := by exact fun _ => rfl)
    (hcons : ∀ r, consumed (call, answer r) = none := by exact fun _ => rfl)
    (hnotOpen : consumed (call, .notOpen) = none := by rfl) :
    Effect E cfg db call (db.withTxn t f answer).2 (db.withTxn t f answer).1 := by
  unfold withTxn
  cases ht : db.txns t with
  | none => exact .idle rfl hnotOpen rfl rfl rfl
  | some txn =>
    obtain ⟨hcont, hwritten⟩ := hf txn _ _ _ ht rfl
    exact .continued ht hcont hwritten hsubj (hbegun _) (hcons _)

theorem beginReadAt_effect {lsn : ℕ} {isolation : IsolationLevel} :
    Effect E cfg db (.beginReadAt lsn isolation) (db.beginReadAt lsn isolation).2
      (db.beginReadAt lsn isolation).1 := by
  unfold beginReadAt
  cases hv : db.validateSnapshotLsn lsn with
  | error e => exact .idle rfl rfl rfl rfl rfl
  | ok u =>
    refine .opened db.shared.wal le_rfl lsn ?_ isolation .walOnly (by simp [Call.snapshotLsn, hv])
      fun _ h => .inl h
    by_contra hlt
    simp [validateSnapshotLsn, not_le.mp hlt] at hv

/-- **Every call is answered by one of the effects.** -/
theorem exec_effect (call : Call) :
    Effect E cfg db call (exec E cfg db call).2 (exec E cfg db call).1 := by
  cases call with
  | beginRead isolation => exact .opened _ le_rfl _ le_rfl _ _ rfl fun _ h => .inl h
  | beginWrite durability isolation io =>
    generalize hx : WalWriter.writeBegin cfg io db.shared.wal db.nextTxnId = x
    obtain ⟨w, result⟩ := x
    have hw : db.shared.wal.currentLsn ≤ w.currentLsn ∧
        ∀ t ∈ w.activeTxns, t ∈ db.shared.wal.activeTxns ∨ t = db.nextTxnId := by
      rcases WalWriter.writeChecked_result hx with ⟨-, -, hlsn, hact⟩ | ⟨-, hlsn, hact⟩
      · exact ⟨by omega, fun t ht => (List.mem_insert_iff.mp (hact ▸ ht)).symm⟩
      · exact ⟨hlsn.ge, fun t ht => .inl (hact ▸ ht)⟩
    simp only [exec, beginWrite, hx]
    refine .opened w hw.1 _ le_rfl _ _ rfl fun t ht => ?_
    rcases hw.2 t ht with ht | ht
    · exact .inl ht
    · exact .inr ⟨ht, rfl⟩
  | beginReadAt lsn isolation => exact beginReadAt_effect
  | createSnapshot name =>
    simp only [exec, createSnapshot]
    split_ifs <;> exact .idle rfl rfl rfl rfl rfl
  | releaseSnapshot id =>
    simp only [exec, releaseSnapshot]
    split_ifs <;> exact .idle rfl rfl rfl rfl rfl
  | get t k =>
    refine withTxn_effect ?_
    rintro txn _ _ _ - ⟨⟩
    exact ⟨.refl, fun _ h => .inl h⟩
  | recordRead t k =>
    refine withTxn_effect ?_
    rintro txn _ _ _ - ⟨⟩
    unfold recordRead
    split <;> exact ⟨{ Continues.refl with }, fun _ h => .inl h⟩
  | put t k value io =>
    refine withTxn_effect ?_
    intro txn sh' txn' r _ hx
    obtain ⟨hcont, hok, herr⟩ := put_spec hx
    refine ⟨hcont, fun k' hk' => ?_⟩
    cases r with
    | error e => exact .inl (herr ⟨e, rfl⟩ ▸ hk')
    | ok u =>
      rw [(hok rfl).2.2] at hk'
      exact recordWrite_written hk'
  | delete t k io =>
    refine withTxn_effect ?_
    intro txn sh' txn' r _ hx
    obtain ⟨hcont, hok, herr⟩ := delete_spec hx
    refine ⟨hcont, fun k' hk' => ?_⟩
    cases r with
    | error e => exact .inl (herr ⟨e, rfl⟩ ▸ hk')
    | ok existed =>
      rw [(hok existed rfl).2.2.2] at hk'
      exact recordWrite_written hk'
  | rangeDelete t tableId bounds ios =>
    refine withTxn_effect ?_
    intro txn sh' txn' r ht hx
    refine ⟨rangeDelete_continues hx, fun k' hk' => ?_⟩
    rcases rangeDelete_written hx hk' with hk' | ⟨htable, keys, hscan, hkey⟩
    · exact .inl hk'
    · exact .inr ⟨htable, txn, keys, ht, hscan, hkey⟩
  | special t op io =>
    refine withTxn_effect ?_
    intro txn sh' txn' r ht hx
    exact ⟨special_continues hx, fun k' hk' =>
      .inl (special_writeSet hx ▸ hk')⟩
  | prepare t =>
    refine withTxn_effect ?_
    rintro txn _ _ _ - ⟨⟩
    unfold prepare
    split_ifs <;> exact ⟨{ Continues.refl with }, fun _ h => .inl h⟩
  | commit t choices =>
    cases ht : db.txns t with
    | none =>
      simp only [exec, ht]
      exact .idle rfl rfl rfl rfl rfl
    | some txn =>
      by_cases hfits : txn.Fits choices
      · simp only [exec, ht, hfits, if_true, consume]
        generalize hx : txn.commit E cfg choices db.shared = x
        obtain ⟨sh', e | lsn⟩ := x
        · exact .refused ht hfits hx
        · exact .committed ht hfits hx
      · simp only [exec, ht, hfits, if_false]
        exact .idle rfl rfl rfl rfl rfl
  | rollback t io =>
    simp only [exec, consume]
    cases ht : db.txns t with
    | none => exact .idle rfl rfl rfl rfl rfl
    | some txn => exact .rolledBack ht rfl

end Database

end NanoStore.Engine
