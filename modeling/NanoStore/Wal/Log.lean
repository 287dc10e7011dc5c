import NanoStore.Wal.Writer
import NanoStore.Wal.Recovery
/-!
# Write-ahead log — the logs the writer emits

What a log says about its transactions: the phase each is in, which
writes belong to a committed transaction, and which logs the writer's
checks let through. A log of the writer is *legal*: a transaction begins
when it is not running, and everything else it logs it logs while it is.
-/

namespace NanoStore.Wal

open List

/-! ## Phases -/

/-- The phase of every transaction: `none` before it begins. -/
abbrev Phases := TransactionId → Option TransactionState

/-- The phases after one more record. A prepared transaction is still running. -/
def Phases.after (p : Phases) (r : WalRecord) : Phases :=
  match r.data with
  | .begin t => Function.update p t (some .active)
  | .prepare t => Function.update p t (some .active)
  | .commit t => Function.update p t (some .committed)
  | .rollback t => Function.update p t (some .rolledBack)
  | .write _ _ _ _ _ => p
  | .checkpoint _ _ => p

/-- The phases after a log. -/
def phases (p : Phases) (log : List WalRecord) : Phases := log.foldl Phases.after p

/-- The phases before any record. -/
def noPhases : Phases := fun _ => none

@[simp] theorem phases_nil (p : Phases) : phases p [] = p := rfl

@[simp] theorem phases_cons (p : Phases) (r : WalRecord) (log : List WalRecord) :
    phases p (r :: log) = phases (p.after r) log := rfl

@[simp] theorem phases_append (p : Phases) (log log' : List WalRecord) :
    phases p (log ++ log') = phases (phases p log) log' := foldl_append

/-- A record may follow a log that leaves the phases `p`. -/
def Phases.Allows (p : Phases) (r : WalRecord) : Prop :=
  match r.data with
  | .begin t => p t ≠ some .active
  | .write t _ _ _ _ => p t = some .active
  | .commit t => p t = some .active
  | .rollback t => p t = some .active
  | .prepare t => p t = some .active
  | .checkpoint _ _ => True

/-- Every record of the log may stand where it stands. -/
def LegalFrom (p : Phases) : List WalRecord → Prop
  | [] => True
  | r :: rest => p.Allows r ∧ LegalFrom (p.after r) rest

/-- A log that starts with no transaction running. -/
def Legal (log : List WalRecord) : Prop := LegalFrom noPhases log

variable {log log' : List WalRecord} {p : Phases}

theorem legalFrom_append : LegalFrom p (log ++ log') ↔ LegalFrom p log ∧ LegalFrom (phases p log) log' := by
  induction log generalizing p with
  | nil => simp [LegalFrom]
  | cons r rest ih => simp [cons_append, LegalFrom, phases_cons, ih, and_assoc]

/-- Recovery takes the record behind a log that leaves the phases `p`: a transaction can begin and
prepare at any time, and logs everything else while it is running. -/
def Phases.Takes (p : Phases) (r : WalRecord) : Prop :=
  match r.data with
  | .write t _ _ _ _ => p t = some .active
  | .commit t => p t = some .active
  | .rollback t => p t = some .active
  | _ => True

/-- Recovery takes every record of the log where it stands. -/
def TakenFrom (p : Phases) : List WalRecord → Prop
  | [] => True
  | r :: rest => p.Takes r ∧ TakenFrom (p.after r) rest

/-- The same of a whole log. -/
def Taken (log : List WalRecord) : Prop := TakenFrom noPhases log

theorem takenFrom_append : TakenFrom p (log ++ log') ↔ TakenFrom p log ∧ TakenFrom (phases p log) log' := by
  induction log generalizing p with
  | nil => simp [TakenFrom]
  | cons r rest ih => simp [cons_append, TakenFrom, phases_cons, ih, and_assoc]

variable {r : WalRecord}

theorem Phases.Allows.takes (h : p.Allows r) : p.Takes r := by
  obtain ⟨lsn, data⟩ := r
  cases data with
  | write t tableId opType key value | commit t | rollback t => exact h
  | begin t | prepare t | checkpoint lsn activeTxns => trivial

theorem LegalFrom.taken (h : LegalFrom p log) : TakenFrom p log := by
  induction log generalizing p with
  | nil => trivial
  | cons r rest ih => exact ⟨h.1.takes, ih h.2⟩

theorem Legal.taken (h : Legal log) : Taken log := LegalFrom.taken h

/-! ## The writes of a log -/

/-- The write records of a log, each with its transaction and with the records after it. -/
def writesAndRest : List WalRecord → List ((TransactionId × RecoveredWrite) × List WalRecord)
  | [] => []
  | r :: rest =>
    match r.data with
    | .write t tableId opType key value =>
      ((t, ⟨tableId, opType, key, value⟩), rest) :: writesAndRest rest
    | _ => writesAndRest rest

/-- The transaction running at the head of a log commits in it: its first outcome there is a
commit, and no reuse of its id comes before. -/
def commitsIn (t : TransactionId) : List WalRecord → Bool
  | [] => false
  | r :: rest =>
    if r.data = .commit t then true else if r.data = .rollback t ∨ r.data = .begin t then false
    else commitsIn t rest

/-- The writes of the transactions whose commit record is in the log, in log order. -/
def committedWrites (log : List WalRecord) : List RecoveredWrite :=
  ((writesAndRest log).filter fun x => commitsIn x.1.1 x.2).map fun x => x.1.2

/-- A prepare record of `t`, or a begin record that reuses its id. -/
def Restarts (t : TransactionId) (r : WalRecord) : Prop := r.data = .prepare t ∨ r.data = .begin t

/-- A record after which recovery has none of the writes `t` logged before. -/
def Discards (t : TransactionId) (r : WalRecord) : Prop := Restarts t r ∨ r.data = .rollback t

instance (t : TransactionId) (r : WalRecord) : Decidable (Restarts t r) :=
  inferInstanceAs (Decidable (_ ∨ _))

instance (t : TransactionId) (r : WalRecord) : Decidable (Discards t r) :=
  inferInstanceAs (Decidable (_ ∨ _))

variable {t : TransactionId}

theorem not_discards_of_txnId_ne (h : r.data.txnId ≠ some t) :
    ¬ Discards t r := by
  obtain ⟨lsn, data⟩ := r
  cases data <;> simp_all [Discards, Restarts, RecordData.txnId]

/-- No write of a committed transaction is followed by a prepare record of it, or by a begin
record that reuses its id. -/
def NoWriteBeforePrepare (log : List WalRecord) : Prop :=
  ∀ x ∈ writesAndRest log, commitsIn x.1.1 x.2 = true → ∀ r ∈ x.2, ¬ Restarts x.1.1 r

instance (log : List WalRecord) : Decidable (NoWriteBeforePrepare log) :=
  inferInstanceAs (Decidable (∀ x ∈ writesAndRest log, _))

/-! ## What the writer emits -/

namespace WalWriter

variable {cfg : WalWriterConfig} {w : WalWriterState}

variable (cfg w) in
theorem flushInternal_ok :
    flushInternal cfg .ok w = ({ w with file := w.file ++ w.buffer, buffer := [] }, .ok ()) := by
  unfold flushInternal
  by_cases h : w.buffer = []
  · obtain ⟨lsn, offset, active, buffer, file⟩ := w
    cases h
    simp
  · rw [if_neg h]

theorem groupFlush_ok (t : TransactionId) (lsn : ℕ) :
    groupFlush .ok w t lsn = ({ w with file := w.file ++ w.buffer, buffer := [] }, .ok ()) := by
  unfold groupFlush
  by_cases h : w.buffer = []
  · obtain ⟨lsn, offset, active, buffer, file⟩ := w
    cases h
    simp
  · rw [if_neg h]

variable (cfg w) in
/-- **A record is written whole or not at all**, as long as the file takes its flushes. -/
theorem writeRecordInternal_cases {record : WalRecord} :
    (∃ e, writeRecordInternal cfg .ok w record = (w, .error e)) ∨
      ∃ w', writeRecordInternal cfg .ok w record = (w', .ok ()) ∧ w'.log = w.log ++ [record] ∧
        w'.activeTxns = w.activeTxns ∧ w'.currentLsn = w.currentLsn + 1 := by
  unfold writeRecordInternal
  cases cfg.encodeError record with
  | some e => exact .inl ⟨e, rfl⟩
  | none =>
    dsimp only
    split_ifs
    · exact .inl ⟨_, rfl⟩
    · refine .inr ⟨_, by rw [flushInternal_ok], ?_⟩
      simp [WalWriterState.log]
    · exact .inr ⟨_, rfl, by simp [WalWriterState.log]⟩

variable (cfg w) in
/-- The same of a record call: it is refused and changes nothing, or its record is the next
one of the log. -/
theorem writeChecked_cases (refusal : Option WalError)
    (data : RecordData) (track : List TransactionId → List TransactionId) :
    (∃ e, writeChecked cfg .ok w refusal data track = (w, .error e)) ∨
      ∃ w', writeChecked cfg .ok w refusal data track = (w', .ok w.currentLsn) ∧ refusal = none ∧
        w'.log = w.log ++ [⟨w.currentLsn, data⟩] ∧ w'.activeTxns = track w.activeTxns ∧
        w'.currentLsn = w.currentLsn + 1 := by
  unfold writeChecked
  cases refusal with
  | some e => exact .inl ⟨e, rfl⟩
  | none =>
    rcases writeRecordInternal_cases cfg w with
      ⟨e, he⟩ | ⟨w', hw, hlog, hact, hlsn⟩
    · exact .inl ⟨e, by rw [he]⟩
    · refine .inr ⟨{ w' with activeTxns := track w'.activeTxns }, by rw [hw], rfl, hlog, ?_, hlsn⟩
      rw [← hact]

theorem requireActive_eq_none : requireActive w t = none ↔ t ∈ w.activeTxns := by
  simp [requireActive]

/-- The writer's own record of the running transactions agrees with its log, and the log is
legal. -/
structure Consistent (w : WalWriterState) : Prop where
  legal : Legal w.log
  active : ∀ t, t ∈ w.activeTxns ↔ phases noPhases w.log t = some .active

theorem consistent_create : Consistent create where
  legal := trivial
  active t := by simp [create, WalWriterState.log, noPhases]

/-- The same of a log that goes on from the phases `p`. -/
structure ConsistentFrom (p : Phases) (w : WalWriterState) : Prop where
  legal : LegalFrom p w.log
  active : ∀ t, t ∈ w.activeTxns ↔ phases p w.log t = some .active

/-- **A record call keeps the writer consistent** when the check it makes is the one the log
needs, and it tracks what its record does to the phases. -/
theorem ConsistentFrom.writeChecked (h : ConsistentFrom p w) {refusal : Option WalError} {data : RecordData}
    {track : List TransactionId → List TransactionId}
    (hallow : refusal = none → (phases p w.log).Allows ⟨w.currentLsn, data⟩)
    (htrack : refusal = none → ∀ t, t ∈ track w.activeTxns ↔
      (phases p w.log).after ⟨w.currentLsn, data⟩ t = some .active) :
    ConsistentFrom p (writeChecked cfg .ok w refusal data track).1 := by
  rcases writeChecked_cases cfg w refusal data track with
    ⟨e, he⟩ | ⟨w', hw, hnone, hlog, hact, -⟩
  · rw [he]; exact h
  · rw [hw]
    refine ⟨?_, fun t => ?_⟩
    · rw [hlog]
      exact legalFrom_append.mpr ⟨h.legal, hallow hnone, trivial⟩
    · rw [hact, hlog, phases_append, phases_cons, phases_nil]
      exact htrack hnone t

/-- **What a flush keeps, a commit keeps** if its record does. -/
theorem writeCommit_keeps {P : WalWriterState → Prop} {t : TransactionId}
    (hflush : ∀ w, P w → P { w with file := w.file ++ w.buffer, buffer := [] })
    (hw : P (writeChecked cfg .ok w (requireActive w t) (.commit t) fun ts => ts.filter (· ≠ t)).1) :
    P (writeCommit cfg .ok w .ok t).1 := by
  rw [writeCommit]
  split
  · rename_i he
    rwa [he] at hw
  · rename_i he
    rw [he] at hw
    split_ifs
    · simpa only [groupFlush_ok] using hflush _ hw
    · simpa only [flushInternal_ok] using hflush _ hw
    · exact hw

theorem ConsistentFrom.flushed (h : ConsistentFrom p w) :
    ConsistentFrom p { w with file := w.file ++ w.buffer, buffer := [] } :=
  ⟨by simpa [WalWriterState.log] using h.legal, fun t => by simpa [WalWriterState.log] using h.active t⟩

variable {call : WalCall}

/-- **Every call keeps the writer consistent.** -/
theorem ConsistentFrom.exec (h : ConsistentFrom p w) :
    ConsistentFrom p (exec cfg w call) := by
  cases call with
  | begin t =>
    refine h.writeChecked (fun hr => ?_) (fun _ u => ?_)
    · have : t ∉ w.activeTxns := by simpa using hr
      simpa [Phases.Allows, ← h.active] using this
    · by_cases hu : u = t
      · simp [hu, Phases.after]
      · simp [Phases.after, hu, h.active]
  | operation t tableId opType key value =>
    refine h.writeChecked (fun hr => ?_) (fun _ u => ?_)
    · exact (h.active t).mp (requireActive_eq_none.mp hr)
    · exact h.active u
  | prepare t =>
    refine h.writeChecked (fun hr => ?_) (fun hr u => ?_)
    · exact (h.active t).mp (requireActive_eq_none.mp hr)
    · by_cases hu : u = t
      · simpa [hu, Phases.after] using requireActive_eq_none.mp hr
      · simp [Phases.after, hu, h.active]
  | commit t =>
    refine writeCommit_keeps (fun _ hw => hw.flushed) (h.writeChecked (fun hr => ?_) fun _ u => ?_)
    · exact (h.active t).mp (requireActive_eq_none.mp hr)
    · by_cases hu : u = t
      · simp [hu, Phases.after]
      · simp [Phases.after, hu, h.active]
  | rollback t =>
    refine h.writeChecked (fun hr => ?_) (fun _ u => ?_)
    · exact (h.active t).mp (requireActive_eq_none.mp hr)
    · by_cases hu : u = t
      · simp [hu, Phases.after]
      · simp [Phases.after, hu, h.active]
  | checkpoint => exact h.writeChecked (fun _ => trivial) (fun _ u => h.active u)
  | flush => simpa only [WalWriter.exec, flush, flushInternal_ok] using h.flushed

theorem Consistent.exec (h : Consistent w) : Consistent (exec cfg w call) := by
  have hfrom : ConsistentFrom noPhases w := ⟨h.legal, h.active⟩
  have hexec : ConsistentFrom noPhases (WalWriter.exec cfg w call) := hfrom.exec
  exact ⟨hexec.legal, hexec.active⟩

/-- **Whatever the calls, the file of a writer is a legal log.** -/
theorem legal_run_file {calls : List WalCall} : Legal (run cfg calls).file := by
  have h : Consistent (run cfg calls) := by
    unfold run
    induction calls using List.reverseRecOn with
    | nil => exact consistent_create
    | append_singleton calls call ih =>
      rw [foldl_append]
      exact ih.exec
  exact (legalFrom_append.mp h.legal).1

end WalWriter

end NanoStore.Wal
