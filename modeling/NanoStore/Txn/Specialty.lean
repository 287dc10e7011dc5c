import NanoStore.Common.Bytes
import NanoStore.Txn.Transaction
import NanoStore.Wal.Moves
/-!
# Transactions — what the log tells of graph and document calls

An edge is logged as one key, its four parts joined by a `|` that may also
stand in a part; a document is logged by its id, without its fields. Two
lists of calls log the same as long as they agree on what is left.
-/

namespace NanoStore.Txn

open Wal Steps List

/-- `TextField`: the strings by their bytes, the `f32` by its bits. -/
structure TextField where
  name : Bytes
  text : Bytes
  boost : Fin (2 ^ 32)
  deriving DecidableEq

/-- The calls of a transaction on a graph and on a full-text index. -/
inductive SpecialtyCall
  | addEdge (source label target edgeId : Bytes)
  | removeEdge (source label target edgeId : Bytes)
  | indexDocument (docId : Bytes) (fields : List TextField)
  | updateDocument (docId : Bytes) (fields : List TextField)
  deriving DecidableEq

namespace SpecialtyCall

/-- The key an edge is logged with: `source|label|target|edge_id`. -/
def edgeKey (source label target edgeId : Bytes) : Bytes :=
  source ++ 124 :: (label ++ 124 :: (target ++ 124 :: edgeId))

/-- The fields of a document among the arguments of its call. -/
def fieldArgs (fields : List TextField) : List Bytes :=
  fields.flatMap fun f => [f.name, f.text, LittleEndian.encode 4 f.boost]

/-- `add_edge`, `remove_edge`, `index_document` and `update_document`, as they are logged and recorded. -/
def op (tableId : TableId) : SpecialtyCall → SpecialOp
  | .addEdge s l t e => ⟨tableId, .graphAddEdge, [s, l, t, e], edgeKey s l t e, []⟩
  | .removeEdge s l t e => ⟨tableId, .graphRemoveEdge, [s, l, t, e], edgeKey s l t e, []⟩
  | .indexDocument d fields => ⟨tableId, .fullTextIndex, d :: fieldArgs fields, d, []⟩
  | .updateDocument d fields => ⟨tableId, .fullTextUpdate, d :: fieldArgs fields, d, []⟩

/-- What the log keeps of a call on a table: its kind, and the id of the document or the pieces into which
the separators cut the parts of the edge. -/
def imprint (tableId : TableId) : SpecialtyCall → TableId × WriteOpType × List Bytes
  | .addEdge s l t e => (tableId, .graphAddEdge, [s, l, t, e].flatMap (List.splitOn 124))
  | .removeEdge s l t e => (tableId, .graphRemoveEdge, [s, l, t, e].flatMap (List.splitOn 124))
  | .indexDocument d _ => (tableId, .fullTextIndex, [d])
  | .updateDocument d _ => (tableId, .fullTextUpdate, [d])

/-- The record a call logs. -/
def data (txnId : TransactionId) (tableId : TableId) (call : SpecialtyCall) : RecordData :=
  .write txnId tableId (call.op tableId).opType (call.op tableId).walKey (call.op tableId).walValue

/-- **Two edges have one key** exactly if the separators cut them into the same pieces. -/
theorem edgeKey_eq_iff {s l t e s' l' t' e' : Bytes} : edgeKey s l t e = edgeKey s' l' t' e' ↔
    [s, l, t, e].flatMap (List.splitOn 124) = [s', l', t', e'].flatMap (List.splitOn 124) := by
  have hsplit : ∀ s l t e : Bytes,
      (edgeKey s l t e).splitOn 124 = [s, l, t, e].flatMap (List.splitOn 124) := by
    intro s l t e
    simp [edgeKey, splitOn_append_cons_self]
  rw [← hsplit, ← hsplit]
  refine ⟨fun h => by rw [h], fun h => ?_⟩
  have hjoin := congrArg (List.intercalate [124]) h
  rwa [intercalate_splitOn, intercalate_splitOn] at hjoin

/-- **The record of a call is its imprint.** -/
theorem data_eq_iff {t : TransactionId} {i j : TableId} {call call' : SpecialtyCall} :
    call.data t i = call'.data t j ↔ call.imprint i = call'.imprint j := by
  cases call <;> cases call' <;> simp [data, op, imprint, edgeKey_eq_iff]

end SpecialtyCall

/-- A call on a table, with what the file does with the flush it may cause. -/
structure Issued where
  io : FlushIo
  tableId : TableId
  call : SpecialtyCall
  deriving DecidableEq

/-- What the log keeps of it. -/
def Issued.imprint (c : Issued) : TableId × WriteOpType × List Bytes := c.call.imprint c.tableId

variable {T : Type} {cfg : WalWriterConfig} {sh sh' : Shared T} {txn txn' : Transaction}

/-- The transaction makes a call. -/
def issue (cfg : WalWriterConfig) (s : Shared T × Transaction) (c : Issued) :
    Outcome (Shared T × Transaction) TransactionError Unit :=
  let (sh, txn, result) := s.2.special cfg c.io s.1 (c.call.op c.tableId)
  ((sh, txn), result)

/-- The records of the calls, from a position on. -/
def recordsFrom (t : TransactionId) : ℕ → List Issued → List WalRecord
  | _, [] => []
  | lsn, c :: calls => ⟨lsn, c.call.data t c.tableId⟩ :: recordsFrom t (lsn + 1) calls

/-- **A call that returns `Ok` has logged its record.** -/
theorem issue_logs {c : Issued} (h : issue cfg (sh, txn) c = ((sh', txn'), .ok ())) :
    sh'.wal.log = sh.wal.log ++ [⟨sh.wal.currentLsn, c.call.data txn.txnId c.tableId⟩] ∧
      sh'.wal.currentLsn = sh.wal.currentLsn + 1 ∧ txn'.txnId = txn.txnId := by
  unfold issue Transaction.special at h
  by_cases hstate : txn.state = .active
  · rw [if_neg (not_not.mpr hstate), Transaction.logOperation] at h
    generalize hwrite : WalWriter.writeOperation cfg c.io sh.wal txn.txnId _ _ _ _ = x at h
    obtain ⟨w, e | lsn⟩ := x
    · cases h
    · have hlsn : w.currentLsn = sh.wal.currentLsn + 1 := by
        rcases WalWriter.writeChecked_result hwrite with ⟨-, -, hlsn, -⟩ | ⟨⟨e, he⟩, -⟩
        · exact hlsn
        · cases he
      have hlog : w.log = sh.wal.log ++ [⟨sh.wal.currentLsn, c.call.data txn.txnId c.tableId⟩] := by
        have htable : (c.call.op c.tableId).tableId = c.tableId := by cases c.call <;> rfl
        rcases WalWriter.writeChecked_flushed hwrite with ⟨-, -, e, he⟩ | ⟨-, -, hgrown⟩
        · cases he
        · rw [hgrown lsn rfl, SpecialtyCall.data, htable]
      cases h
      refine ⟨hlog, hlsn, ?_⟩
      unfold Transaction.recordSpecial
      split_ifs <;> rfl
  · rw [if_pos hstate] at h
    cases h

theorem issueAll_logs {calls : List Issued}
    (h : forEach (issue cfg) (sh, txn) calls = ((sh', txn'), .ok ())) :
    sh'.wal.log = sh.wal.log ++ recordsFrom txn.txnId sh.wal.currentLsn calls := by
  induction calls generalizing sh txn with
  | nil =>
    cases h
    rw [recordsFrom, append_nil]
  | cons c calls ih =>
    rw [forEach_cons] at h
    generalize hstep : issue cfg (sh, txn) c = x at h
    obtain ⟨⟨sh₁, txn₁⟩, e | _⟩ := x
    · cases h
    · obtain ⟨hlog, hlsn, htxn⟩ := issue_logs hstep
      rw [ih h, hlog, hlsn, htxn, recordsFrom, append_assoc, singleton_append]

theorem recordsFrom_eq_iff {t : TransactionId} {lsn : ℕ} {calls calls' : List Issued} :
    recordsFrom t lsn calls = recordsFrom t lsn calls' ↔
      calls.map Issued.imprint = calls'.map Issued.imprint := by
  induction calls generalizing lsn calls' with
  | nil => cases calls' <;> simp [recordsFrom]
  | cons c calls ih =>
    cases calls' with
    | nil => simp [recordsFrom]
    | cons c' calls' => simp [recordsFrom, ih, SpecialtyCall.data_eq_iff, Issued.imprint]

/-- **The log tells two lists of calls apart** exactly if they differ in what it keeps of a call. -/
theorem log_ne_iff {calls calls' : List Issued} {s s' : Shared T × Transaction}
    (h : forEach (issue cfg) (sh, txn) calls = (s, .ok ()))
    (h' : forEach (issue cfg) (sh, txn) calls' = (s', .ok ())) :
    s.1.wal.log ≠ s'.1.wal.log ↔ calls.map Issued.imprint ≠ calls'.map Issued.imprint := by
  rw [issueAll_logs h, issueAll_logs h', ne_eq, append_cancel_left_eq, recordsFrom_eq_iff]

/-- A database without tables, in whose log transaction 1 has begun. -/
def begun : Shared Unit := ⟨WalWriter.run .default [.begin 1], .new, (), 1⟩

/-- The transaction that makes the calls. -/
def caller : Transaction := .build 1 1 .readCommitted .walOnly

/-- An edge from vertex 1 to vertex 3 under a label, between a document and the removal of another edge. -/
def labelled (label : Bytes) : Outcome (Shared Unit × Transaction) TransactionError Unit :=
  forEach (issue .default) (begun, caller) [⟨.ok, 6, .indexDocument [7] [⟨[1], [1], 0⟩]⟩,
    ⟨.ok, 5, .addEdge [1] label [3] [9]⟩, ⟨.ok, 5, .removeEdge [1] label [3] [8]⟩]

/-- Two labels, two logs. -/
theorem log_ne_iff_labels : (labelled [2]).2 = .ok () ∧ (labelled [4]).2 = .ok () ∧
    (labelled [2]).1.1.wal.log ≠ (labelled [4]).1.1.wal.log := by
  have htwo : labelled [2] = ((labelled [2]).1, .ok ()) := rfl
  have hfour : labelled [4] = ((labelled [4]).1, .ok ()) := rfl
  exact ⟨rfl, rfl, (log_ne_iff htwo hfour).mpr (by decide +kernel)⟩

/-- A document is indexed under one text or another, and an edge leaves vertex `1|` under the label 2 or
vertex 1 under the label `|2`: the log is the same. -/
theorem log_ne_fails : let first : List Issued :=
      [⟨.ok, 5, .addEdge [1, 124] [2] [3] [9]⟩, ⟨.ok, 6, .indexDocument [7] [⟨[1], [1], 0⟩]⟩]
    let second : List Issued :=
      [⟨.ok, 5, .addEdge [1] [124, 2] [3] [9]⟩, ⟨.ok, 6, .indexDocument [7] [⟨[1], [2], 0⟩]⟩]
    first ≠ second ∧ (forEach (issue .default) (begun, caller) first).2 = .ok () ∧
      (forEach (issue .default) (begun, caller) second).2 = .ok () ∧
      (forEach (issue .default) (begun, caller) first).1.1.wal.log =
        (forEach (issue .default) (begun, caller) second).1.1.wal.log := by
  decide +kernel

end NanoStore.Txn
