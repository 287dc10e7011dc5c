import NanoStore.Wal.Log
/-!
# Write-ahead log — logs that recovery panics on

`process_write` checks that recovery knows the transaction of a write
record, and then unwraps its entry in the map of writes, which a rollback
record has removed. Over arbitrary logs recovery panics exactly if it gets
to a write record of a transaction that was rolled back and not begun
since (`recover_returns_iff`). It does not get behind a record whose
transaction was never begun.
-/

namespace NanoStore.Wal

/-- The last record that begins, prepares or rolls back a transaction. -/
def lastMark (log : List WalRecord) (t : TransactionId) : Option WalRecord :=
  log.reverse.find? fun r => Discards t r

/-- The transaction of a record is begun by the record, or recovery has met it before. -/
def NamesKnown (before : List WalRecord) (r : WalRecord) : Prop :=
  ∀ t, r.data.txnId = some t → Restarts t r ∨ (lastMark before t).isSome

/-- All records name such transactions. -/
def Complete (log : List WalRecord) : Prop := ∀ before r, before ++ [r] <+: log → NamesKnown before r

/-- A write record of a transaction that was rolled back and not begun since. -/
def WritesRolledBack (before : List WalRecord) (r : WalRecord) : Prop :=
  ∃ t tableId opType key value, r.data = .write t tableId opType key value ∧
    ∃ mark ∈ lastMark before t, mark.data = .rollback t

/-- Recovery gets to such a record. -/
def Panics (log : List WalRecord) : Prop :=
  ∃ before r, before ++ [r] <+: log ∧ Complete before ∧ WritesRolledBack before r

variable {log : List WalRecord} {record : WalRecord} {t : TransactionId}

theorem lastMark_snoc :
    lastMark (log ++ [record]) t = if Discards t record then some record else lastMark log t := by
  by_cases h : Discards t record <;> simp [lastMark, h]

theorem complete_snoc : Complete (log ++ [record]) ↔ Complete log ∧ NamesKnown log record := by
  simp only [Complete, List.prefix_concat_iff, or_imp, forall_and]
  simp [and_comm]

theorem panics_snoc : Panics (log ++ [record]) ↔ Panics log ∨ Complete log ∧ WritesRolledBack log record := by
  simp only [Panics, List.prefix_concat_iff, or_and_right, exists_or]
  simp [or_comm]

namespace WalRecovery

/-- The keys of recovery's maps after a log. -/
structure Knows (log : List WalRecord) (r : WalRecovery) : Prop where
  transactions : ∀ t, t ∈ r.transactions ↔ (lastMark log t).isSome
  writes : ∀ t, t ∈ r.transactionWrites ↔ ∃ mark ∈ lastMark log t, mark.data ≠ .rollback t

variable {r r' : WalRecovery}

/-- **One record changes one entry.** -/
theorem Knows.snoc (h : Knows log r) (hid : record.data.txnId = some t)
    (hframe : ∀ u, u ≠ t → (u ∈ r'.transactions ↔ u ∈ r.transactions) ∧
      (u ∈ r'.transactionWrites ↔ u ∈ r.transactionWrites))
    (htransactions : t ∈ r'.transactions ∧ (lastMark (log ++ [record]) t).isSome)
    (hwrites : t ∈ r'.transactionWrites ↔ ∃ mark ∈ lastMark (log ++ [record]) t, mark.data ≠ .rollback t) :
    Knows (log ++ [record]) r' := by
  have hother : ∀ u, u ≠ t → lastMark (log ++ [record]) u = lastMark log u := by
    intro u hu
    have hne : record.data.txnId ≠ some u := fun h => hu (Option.some.inj (h.symm.trans hid))
    rw [lastMark_snoc, if_neg (not_discards_of_txnId_ne hne)]
  refine ⟨fun u => ?_, fun u => ?_⟩ <;> by_cases hu : u = t
  · simp [hu, htransactions]
  · rw [(hframe u hu).1, h.transactions, hother u hu]
  · rw [hu, hwrites]
  · rw [(hframe u hu).2, h.writes, hother u hu]

theorem Knows.begins (h : Knows log r) (hid : record.data.txnId = some t) (hrestarts : Restarts t record)
    {n : ℕ} : Knows (log ++ [record]) ({ r with recordsProcessed := n }.processBegin t) := by
  have hmark : lastMark (log ++ [record]) t = some record := lastMark_snoc.trans (if_pos (.inl hrestarts))
  refine h.snoc hid (fun u hu => ?_) ?_ ?_
  · simp [processBegin, hu.symm]
  · simp [processBegin, hmark]
  · rcases hrestarts with hdata | hdata <;> simp [processBegin, hmark, hdata]

/-- **What recovery does with a record**: it takes it, it panics, or it returns an error. -/
theorem Knows.processRecord (h : Knows log r) :
    (NamesKnown log record ∧ ¬ WritesRolledBack log record ∧
        ∃ r', r.processRecord record = .ok r' ∧ Knows (log ++ [record]) r') ∨
      (WritesRolledBack log record ∧ r.processRecord record = .error .panicked) ∨
      ¬ NamesKnown log record ∧ ¬ WritesRolledBack log record ∧
        ∃ e, r.processRecord record = .error (.error e) := by
  obtain ⟨lsn, data⟩ := record
  have hnames : ∀ t, data.txnId = some t → ¬ Restarts t ⟨lsn, data⟩ →
      (NamesKnown log ⟨lsn, data⟩ ↔ t ∈ r.transactions) := by
    intro t hid hno
    simp [NamesKnown, hid, hno, h.transactions]
  have hwrite : (∀ t tableId op key value, data ≠ .write t tableId op key value) →
      ¬ WritesRolledBack log ⟨lsn, data⟩ := by
    rintro hno ⟨t, tableId, op, key, value, hdata, -⟩
    exact hno t tableId op key value hdata
  cases data with
  | begin t =>
    refine .inl ⟨fun u hu => .inl (.inr ?_), hwrite (by simp), _, rfl, h.begins rfl (.inr rfl)⟩
    rw [Option.some.inj hu]
  | prepare t =>
    refine .inl ⟨fun u hu => .inl (.inl ?_), hwrite (by simp), _, rfl, h.begins rfl (.inl rfl)⟩
    rw [Option.some.inj hu]
  | checkpoint l ts =>
    refine .inl ⟨(fun _ h => by cases h), hwrite (by simp), _, rfl, ⟨fun u => ?_, fun u => ?_⟩⟩
    · simpa [processCheckpoint, lastMark_snoc, Discards, Restarts] using h.transactions u
    · simpa [processCheckpoint, lastMark_snoc, Discards, Restarts] using h.writes u
  | write t tableId opType key value =>
    have hwrites : WritesRolledBack log ⟨lsn, .write t tableId opType key value⟩ ↔
        ∃ mark ∈ lastMark log t, mark.data = .rollback t := by
      simp [WritesRolledBack]
    rw [hnames t rfl (by simp [Restarts]), hwrites, h.transactions]
    simp only [WalRecovery.processRecord, processWrite, h.transactions]
    cases hmark : lastMark log t with
    | none => exact .inr (.inr ⟨by simp, by simp, _, if_neg (by simp)⟩)
    | some mark =>
      have hent := h.writes t
      rw [Std.TreeMap.mem_iff_isSome_getElem?, hmark] at hent
      by_cases hrolled : mark.data = .rollback t
      · have hgone : r.transactionWrites[t]? = none := by simpa [hrolled] using hent
        exact .inr (.inl ⟨⟨mark, rfl, hrolled⟩, by rw [hgone]; rfl⟩)
      · obtain ⟨writes, hent⟩ := Option.isSome_iff_exists.mp (hent.mpr ⟨mark, rfl, hrolled⟩)
        rw [hent]
        refine .inl ⟨rfl, by simpa using hrolled, _, rfl, h.snoc rfl (fun u hu => ?_) ?_ ?_⟩
        · simp [hu.symm]
        · simp [h.transactions, lastMark_snoc, Discards, Restarts, hmark]
        · simp [lastMark_snoc, Discards, Restarts, hmark, hrolled]
  | commit t =>
    rw [hnames t rfl (by simp [Restarts])]
    simp only [WalRecovery.processRecord, processCommit]
    by_cases ht : t ∈ r.transactions
    · refine .inl ⟨ht, hwrite (by simp), _, if_pos ht, h.snoc rfl (fun u hu => ?_) ?_ ?_⟩
      · simp [hu.symm]
      · simpa [lastMark_snoc, Discards, Restarts] using (h.transactions t).mp ht
      · simpa [lastMark_snoc, Discards, Restarts] using h.writes t
    · exact .inr (.inr ⟨ht, hwrite (by simp), _, if_neg ht⟩)
  | rollback t =>
    rw [hnames t rfl (by simp [Restarts])]
    simp only [WalRecovery.processRecord, processRollback]
    by_cases ht : t ∈ r.transactions
    · refine .inl ⟨ht, hwrite (by simp), _, if_pos ht, h.snoc rfl (fun u hu => ?_) ?_ ?_⟩
      · simp [hu.symm]
      · simp [lastMark_snoc, Discards]
      · simp [lastMark_snoc, Discards]
    · exact .inr (.inr ⟨ht, hwrite (by simp), _, if_neg ht⟩)

/-- **What recovery does with a log.** -/
theorem processAll_cases :
    (Complete log ∧ ¬ Panics log ∧ ∃ r, processAll log = .ok r ∧ Knows log r) ∨
      (Panics log ∧ processAll log = .error .panicked) ∨
      ¬ Complete log ∧ ¬ Panics log ∧ ∃ e, processAll log = .error (.error e) := by
  induction log using List.reverseRecOn with
  | nil =>
    have hnew : Knows [] new := ⟨by simp [new, lastMark], by simp [new, lastMark]⟩
    exact .inl ⟨by simp [Complete], by simp [Panics], new, rfl, hnew⟩
  | append_singleton log record ih =>
    rw [processAll_snoc, complete_snoc, panics_snoc]
    rcases ih with ⟨hcomplete, hno, r, hr, hknows⟩ | ⟨hpanics, hr⟩ | ⟨hcomplete, hno, e, hr⟩
    · rw [hr]
      simp only [hcomplete, hno, true_and, false_or]
      exact hknows.processRecord
    · exact .inr (.inl ⟨.inl hpanics, by rw [hr]; rfl⟩)
    · exact .inr (.inr ⟨fun h => hcomplete h.1, by simp [hno, hcomplete], e, by rw [hr]; rfl⟩)

/-- **Recovery of a log returns, with a result or an error,** exactly if it gets to no write record of a
transaction that was rolled back and not begun since. -/
theorem recover_returns_iff (log : List WalRecord) :
    ((∃ result, recover log = .ok result) ∨ ∃ e, recover log = .error (.error e)) ↔
      ∀ before r, before ++ [r] <+: log → Complete before → ¬ WritesRolledBack before r := by
  have hcondition : (∀ before r, before ++ [r] <+: log → Complete before → ¬ WritesRolledBack before r) ↔
      ¬ Panics log := by
    simp [Panics]
  rw [hcondition, recover]
  rcases processAll_cases with ⟨-, hno, r, hr, -⟩ | ⟨hpanics, hr⟩ | ⟨-, hno, e, hr⟩
  · exact iff_of_true (.inl ⟨r.buildResult, by rw [hr]; rfl⟩) hno
  · rw [hr]
    refine iff_of_false ?_ (not_not.mpr hpanics)
    rintro (⟨result, hno⟩ | ⟨e, hno⟩) <;> cases hno
  · exact iff_of_true (.inr ⟨e, by rw [hr]; rfl⟩) hno

/-- A write record behind the rollback of its transaction. -/
theorem recover_write_after_rollback :
    recover [⟨1, .begin 1⟩, ⟨2, .rollback 1⟩, ⟨3, .write 1 1 .put [1] [2]⟩] = .error .panicked := by
  rfl

end WalRecovery

end NanoStore.Wal
