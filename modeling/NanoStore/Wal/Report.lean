import NanoStore.Wal.Log
/-!
# Write-ahead log — what recovery reports

Recovery follows a legal log with two maps: the phase of every
transaction, and for the running and the committed ones their *pending*
writes, those no later record discards. Its result lists the pending
writes of the transactions that end committed. Since a prepare record
discards, the result is short of the committed writes exactly by those
that a prepare record of their transaction follows.
-/

namespace NanoStore.Wal

open List Std.TreeMap

/-! ## The maps of recovery -/

theorem writesAndRest_append (log log' : List WalRecord) : writesAndRest (log ++ log') =
    (writesAndRest log).map (fun x => (x.1, x.2 ++ log')) ++ writesAndRest log' := by
  induction log with
  | nil => rfl
  | cons r rest ih =>
    simp only [cons_append, writesAndRest]
    split <;> simp [ih]

/-- The writes of `t` that no later record discards, in log order. -/
def pending (t : TransactionId) (log : List WalRecord) : List RecoveredWrite :=
  ((writesAndRest log).filter fun x => x.1.1 = t ∧ ∀ r ∈ x.2, ¬ Discards t r).map fun x => x.1.2

variable {t : TransactionId} {r : WalRecord}

theorem pending_snoc_of_discards (h : Discards t r) (log : List WalRecord) : pending t (log ++ [r]) = [] := by
  have hr : writesAndRest [r] = [] := by
    rcases h with (h | h) | h <;> simp [writesAndRest, h]
  simp only [pending, writesAndRest_append, hr, append_nil, filter_map, map_map,
    map_eq_nil_iff, filter_eq_nil_iff]
  intro x _
  simp [h]

/-- One more record that discards nothing of `t` adds to its pending writes what it writes. -/
theorem pending_snoc (h : ¬ Discards t r)
    (log : List WalRecord) : pending t (log ++ [r]) = pending t log ++ pending t [r] := by
  simp only [pending, writesAndRest_append, filter_append, filter_map, map_append, map_map]
  congr 2
  refine filter_congr fun x _ => decide_eq_decide.mpr ?_
  simp [or_imp, forall_and, h]

variable {p : Phases} {u : TransactionId}

theorem Phases.after_of_txnId_ne (h : r.data.txnId ≠ some u) : p.after r u = p u := by
  obtain ⟨lsn, data⟩ := r
  cases data <;> simp only [RecordData.txnId, ne_eq, Option.some.injEq] at h <;>
    simp [Phases.after, Ne.symm h]

theorem pending_snoc_of_txnId_ne (h : r.data.txnId ≠ some u) (log : List WalRecord) :
    pending u (log ++ [r]) = pending u log := by
  rw [pending_snoc (not_discards_of_txnId_ne h)]
  obtain ⟨lsn, data⟩ := r
  cases data <;> simp_all [pending, writesAndRest, RecordData.txnId]

variable {log : List WalRecord}

namespace WalRecovery

/-- What recovery's maps hold after a log: the phase of every transaction, and the pending
writes of the running and the committed ones. -/
structure Tracks (log : List WalRecord) (r : WalRecovery) : Prop where
  state : ∀ t, r.transactions[t]? = phases noPhases log t
  writes : ∀ t, phases noPhases log t = some .active ∨ phases noPhases log t = some .committed →
    r.transactionWrites[t]? = some (pending t log)

variable {record : WalRecord} {r : WalRecovery}

/-- **One record changes one entry.** A step that leaves the maps alone outside its record's
transaction has to be checked at that transaction only. -/
theorem Tracks.snoc {r' : WalRecovery} (h : Tracks log r) (hid : record.data.txnId = some t)
    (hframe : ∀ u, u ≠ t → r'.transactions[u]? = r.transactions[u]? ∧
      r'.transactionWrites[u]? = r.transactionWrites[u]?)
    (hstate : r'.transactions[t]? = (phases noPhases log).after record t)
    (hwrites : (phases noPhases log).after record t ≠ some .rolledBack →
      r'.transactionWrites[t]? = some (pending t (log ++ [record]))) : Tracks (log ++ [record]) r' := by
  have hother : ∀ u, u ≠ t → record.data.txnId ≠ some u := fun u hut hu =>
    hut (Option.some.inj (hu.symm.trans hid))
  refine ⟨fun u => ?_, fun u hu => ?_⟩ <;> by_cases hut : u = t
  · simpa [hut] using hstate
  · simp [(hframe u hut).1, h.state, Phases.after_of_txnId_ne (hother u hut)]
  · subst hut
    refine hwrites fun hrb => ?_
    simp [hrb] at hu
  · rw [(hframe u hut).2, pending_snoc_of_txnId_ne (hother u hut)]
    refine h.writes u ?_
    simpa [Phases.after_of_txnId_ne (hother u hut)] using hu

theorem Tracks.snoc_begin (h : Tracks log r) (hid : record.data.txnId = some t) (hd : Discards t record)
    (hafter : (phases noPhases log).after record t = some .active) (n : ℕ) :
    Tracks (log ++ [record]) ({ r with recordsProcessed := n }.processBegin t) := by
  refine h.snoc hid (fun u hu => ?_) ?_ fun _ => ?_
  · simp [processBegin, Std.TreeMap.getElem?_insert, hu.symm]
  · simp [processBegin, hafter]
  · simp [processBegin, pending_snoc_of_discards hd]

theorem Tracks.mem_transactions (h : Tracks log r) (hact : phases noPhases log t = some .active) :
    t ∈ r.transactions := by
  rw [mem_iff_isSome_getElem?, h.state, hact]
  rfl

/-- **Recovery takes a record**, and its maps follow the log. -/
theorem Tracks.processRecord (h : Tracks log r) (htakes : (phases noPhases log).Takes record) :
    ∃ r', r.processRecord record = .ok r' ∧ Tracks (log ++ [record]) r' := by
  obtain ⟨lsn, data⟩ := record
  cases data with
  | begin t => exact ⟨_, rfl, h.snoc_begin rfl (.inl (.inr rfl)) (by simp [Phases.after]) _⟩
  | prepare t => exact ⟨_, rfl, h.snoc_begin rfl (.inl (.inl rfl)) (by simp [Phases.after]) _⟩
  | write t tableId opType key value =>
    have hact : phases noPhases log t = some .active := htakes
    have hw := h.writes t (.inl hact)
    refine ⟨{ r with
        recordsProcessed := r.recordsProcessed + 1
        transactionWrites := r.transactionWrites.insert t
          (pending t log ++ [⟨tableId, opType, key, value⟩]) }, ?_, ?_⟩
    · simp [processRecord, processWrite, h.mem_transactions hact, hw]
    · refine h.snoc rfl (fun u hu => ?_) ?_ fun _ => ?_
      · simp [Std.TreeMap.getElem?_insert, hu.symm]
      · simp [Phases.after, h.state]
      · have hnd : ¬ Discards t ⟨lsn, .write t tableId opType key value⟩ := by
          simp [Discards, Restarts]
        rw [pending_snoc hnd]
        simp [pending, writesAndRest]
  | commit t =>
    have hact : phases noPhases log t = some .active := htakes
    refine ⟨{ r with
        recordsProcessed := r.recordsProcessed + 1
        transactions := r.transactions.insert t .committed }, ?_, ?_⟩
    · simp [processRecord, processCommit, h.mem_transactions hact]
    · refine h.snoc rfl (fun u hu => ?_) ?_ fun _ => ?_
      · simp [Std.TreeMap.getElem?_insert, hu.symm]
      · simp [Phases.after]
      · have hnd : ¬ Discards t ⟨lsn, .commit t⟩ := by simp [Discards, Restarts]
        rw [pending_snoc hnd, h.writes t (.inl hact)]
        simp [pending, writesAndRest]
  | rollback t =>
    refine ⟨{ r with
        recordsProcessed := r.recordsProcessed + 1
        transactions := r.transactions.insert t .rolledBack
        transactionWrites := r.transactionWrites.erase t }, ?_, ?_⟩
    · simp [processRecord, processRollback, h.mem_transactions htakes]
    · refine h.snoc rfl (fun u hu => ?_) ?_ fun hne => ?_
      · simp [Std.TreeMap.getElem?_insert, Std.TreeMap.getElem?_erase, hu.symm]
      · simp [Phases.after]
      · simp [Phases.after] at hne
  | checkpoint l ts =>
    have hid : ∀ u, RecordData.txnId (.checkpoint l ts) ≠ some u := by simp [RecordData.txnId]
    refine ⟨_, rfl, ⟨fun u => ?_, fun u hu => ?_⟩⟩
    · simp [processCheckpoint, h.state, Phases.after]
    · rw [pending_snoc_of_txnId_ne (hid u)]
      exact h.writes u (by simpa [Phases.after] using hu)

/-- **Recovery of a log it takes succeeds**, with the phases and the pending writes of the log. -/
theorem exists_processAll (h : Taken log) : ∃ r, processAll log = .ok r ∧ Tracks log r := by
  induction log using List.reverseRecOn with
  | nil => exact ⟨new, rfl, fun t => by simp [new, noPhases], fun t h => by simp [noPhases] at h⟩
  | append_singleton log record ih =>
    obtain ⟨hlog, htakes, -⟩ := takenFrom_append.mp h
    obtain ⟨r, hr, htracks⟩ := ih hlog
    obtain ⟨r', hr', htracks'⟩ := htracks.processRecord htakes
    refine ⟨r', ?_, htracks'⟩
    rw [processAll_snoc, hr]
    exact hr'

end WalRecovery

open WalRecovery

/-! ## Which writes are reported -/

variable {x : (TransactionId × RecoveredWrite) × List WalRecord}

theorem exists_append_of_mem_writesAndRest (hx : x ∈ writesAndRest log) : ∃ before lsn, log = before ++
    ⟨lsn, .write x.1.1 x.1.2.tableId x.1.2.opType x.1.2.key x.1.2.value⟩ :: x.2 := by
  induction log with
  | nil => simp [writesAndRest] at hx
  | cons r rest ih =>
    obtain ⟨lsn, data⟩ := r
    have hrest : x ∈ writesAndRest rest → ∃ before lsn', ⟨lsn, data⟩ :: rest = before ++
        ⟨lsn', .write x.1.1 x.1.2.tableId x.1.2.opType x.1.2.key x.1.2.value⟩ :: x.2 := by
      intro h
      obtain ⟨before, lsn', hlog⟩ := ih h
      exact ⟨⟨lsn, data⟩ :: before, lsn', by rw [hlog]; rfl⟩
    cases data with
    | write t tableId opType key value =>
      simp only [writesAndRest, mem_cons] at hx
      rcases hx with rfl | hx
      · exact ⟨[], lsn, rfl⟩
      · exact hrest hx
    | _ => exact hrest (by simpa [writesAndRest] using hx)

theorem Taken.rest (h : Taken log) (hx : x ∈ writesAndRest log) :
    ∃ p : Phases, p x.1.1 = some .active ∧ TakenFrom p x.2 ∧ phases noPhases log = phases p x.2 := by
  obtain ⟨before, lsn, hlog⟩ := exists_append_of_mem_writesAndRest hx
  rw [Taken, hlog, takenFrom_append] at h
  exact ⟨phases noPhases before, h.2.1, h.2.2, by rw [hlog, phases_append]; rfl⟩

/-- A record that discards nothing of `t` changes its phase only by committing it. -/
theorem Phases.after_of_not_discards (h : ¬ Discards t r) :
    p.after r t = if r.data = .commit t then some .committed else p t := by
  obtain ⟨lsn, data⟩ := r
  by_cases ht : data.txnId = some t
  · cases data <;> simp_all [Discards, Restarts, Phases.after, RecordData.txnId]
  · have hne : data ≠ .commit t := fun e => ht (by rw [e]; rfl)
    rw [Phases.after_of_txnId_ne ht, if_neg hne]

variable {rest : List WalRecord}

theorem phases_of_committed (hp : p t = some .committed) (hd : ∀ r ∈ rest, ¬ Discards t r) :
    phases p rest t = some .committed := by
  induction rest generalizing p with
  | nil => exact hp
  | cons r rest ih =>
    refine ih ?_ fun r' hr' => hd r' (mem_cons_of_mem r hr')
    rw [Phases.after_of_not_discards (hd r mem_cons_self), hp, ite_self]

theorem phases_eq_committed_iff (hp : p t = some .active) (hd : ∀ r ∈ rest, ¬ Discards t r) :
    phases p rest t = some .committed ↔ commitsIn t rest = true := by
  induction rest generalizing p with
  | nil => simp [commitsIn, hp]
  | cons r rest ih =>
    have hr := hd r mem_cons_self
    have hrest : ∀ r' ∈ rest, ¬ Discards t r' := fun r' h => hd r' (mem_cons_of_mem r h)
    have hafter := Phases.after_of_not_discards (p := p) hr
    by_cases hc : r.data = .commit t
    · rw [if_pos hc] at hafter
      simp [commitsIn, hc, phases_of_committed hafter hrest]
    · rw [if_neg hc, hp] at hafter
      have hno : ¬ (r.data = .rollback t ∨ r.data = .begin t) := by
        rintro (h | h)
        · exact hr (.inr h)
        · exact hr (.inl (.inr h))
      simp only [phases_cons, commitsIn, if_neg hc, if_neg hno]
      exact ih hafter hrest

theorem not_rollback_of_not_active
    (hp : p t ≠ some .active) (htaken : TakenFrom p rest) (hr : ∀ r ∈ rest, ¬ Restarts t r) :
    ∀ r ∈ rest, r.data ≠ .rollback t := by
  induction rest generalizing p with
  | nil => simp
  | cons r rest ih =>
    obtain ⟨htakes, htaken⟩ := htaken
    have hroll : r.data ≠ .rollback t := by
      intro h
      simp only [Phases.Takes, h] at htakes
      exact hp htakes
    have hnd : ¬ Discards t r := not_or.mpr ⟨hr r mem_cons_self, hroll⟩
    have hp' : p.after r t ≠ some .active := by
      rw [Phases.after_of_not_discards hnd]
      split_ifs
      · simp
      · exact hp
    intro r' hr'
    rcases mem_cons.mp hr' with rfl | hr'
    · exact hroll
    · exact ih hp' htaken (fun r'' h => hr r'' (mem_cons_of_mem r h)) r' hr'

theorem not_rollback_of_commitsIn
    (htaken : TakenFrom p rest) (hc : commitsIn t rest = true) (hr : ∀ r ∈ rest, ¬ Restarts t r) :
    ∀ r ∈ rest, r.data ≠ .rollback t := by
  induction rest generalizing p with
  | nil => simp
  | cons r rest ih =>
    have hr' : ∀ r' ∈ rest, ¬ Restarts t r' := fun r' h => hr r' (mem_cons_of_mem r h)
    simp only [commitsIn] at hc
    split_ifs at hc with hcom hother
    · -- past its commit the transaction is not running
      have hp : p.after r t ≠ some .active := by simp [Phases.after, hcom]
      have := not_rollback_of_not_active hp htaken.2 hr'
      simpa [hcom] using this
    · have := ih htaken.2 hc hr'
      simp only [mem_cons, forall_eq_or_imp]
      exact ⟨fun h => hother (.inl h), this⟩

/-- Recovery reports a write if its transaction commits after it and nothing discards it. -/
def Reported (x : (TransactionId × RecoveredWrite) × List WalRecord) : Prop :=
  commitsIn x.1.1 x.2 = true ∧ ∀ r ∈ x.2, ¬ Discards x.1.1 r

instance (x : (TransactionId × RecoveredWrite) × List WalRecord) : Decidable (Reported x) :=
  inferInstanceAs (Decidable (_ ∧ _))

/-- The writes recovery reports for `t`, in log order. -/
def reportedFor (t : TransactionId) (log : List WalRecord) : List RecoveredWrite :=
  ((writesAndRest log).filter fun x => x.1.1 = t ∧ Reported x).map fun x => x.1.2

/-- **The pending writes of a committed transaction are the reported ones.** -/
theorem reportedFor_eq_pending (h : Taken log)
    (ht : phases noPhases log t = some .committed) : reportedFor t log = pending t log := by
  unfold reportedFor pending
  congr 1
  refine filter_congr fun x hx => decide_eq_decide.mpr ?_
  constructor
  · rintro ⟨rfl, -, hd⟩
    exact ⟨rfl, hd⟩
  · rintro ⟨rfl, hd⟩
    obtain ⟨p, hp, -, hphases⟩ := h.rest hx
    exact ⟨rfl, (phases_eq_committed_iff hp hd).mp (hphases ▸ ht), hd⟩

/-- **Nothing is reported for a transaction that does not end committed.** -/
theorem reportedFor_eq_nil (h : Taken log)
    (ht : phases noPhases log t ≠ some .committed) : reportedFor t log = [] := by
  simp only [reportedFor, map_eq_nil_iff, filter_eq_nil_iff, decide_eq_true_eq]
  rintro x hx ⟨rfl, hc, hd⟩
  obtain ⟨p, hp, -, hphases⟩ := h.rest hx
  exact ht (hphases ▸ (phases_eq_committed_iff hp hd).mpr hc)

/-- **The result lists the reported writes of the known transactions, in the order of their
ids.** -/
theorem WalRecovery.Tracks.attributedWrites_eq {r : WalRecovery}
    (h : Tracks log r) (htaken : Taken log) : r.attributedWrites =
      r.transactions.keys.flatMap fun t => (reportedFor t log).map fun write => (t, write) := by
  rw [attributedWrites, ← map_fst_toList_eq_keys, flatMap_map]
  refine flatMap_congr fun entry hent => ?_
  obtain ⟨t, state⟩ := entry
  have hstate : phases noPhases log t = some state := by
    rw [← h.state, mem_toList_iff_getElem?_eq_some.mp hent]
  cases state with
  | committed => simp [h.writes t (.inr hstate), reportedFor_eq_pending htaken hstate]
  | active | rolledBack => simp [reportedFor_eq_nil htaken (t := t) (by simp [hstate])]

/-- Grouping a list by the values of `f` only reorders it. -/
theorem flatMap_filter_perm {α β : Type} [DecidableEq β] {f : α → β} {l : List α} {ids : List β}
    (hids : ids.Nodup) :
    (ids.flatMap fun t => l.filter fun x => f x = t).Perm (l.filter fun x => f x ∈ ids) := by
  induction ids with
  | nil => simp
  | cons t ids ih =>
    obtain ⟨ht, hids⟩ := nodup_cons.mp hids
    have hsplit := filter_append_perm (fun x => decide (f x = t)) (l.filter fun x => f x ∈ t :: ids)
    rw [filter_filter, filter_filter] at hsplit
    have hfst : (l.filter fun x => decide (f x = t) && decide (f x ∈ t :: ids)) =
        l.filter fun x => f x = t := by
      refine filter_congr fun x _ => ?_
      by_cases hx : f x = t <;> simp [hx]
    have hsnd : (l.filter fun x => (!decide (f x = t)) && decide (f x ∈ t :: ids)) =
        l.filter fun x => f x ∈ ids := by
      refine filter_congr fun x _ => ?_
      by_cases hx : f x = t <;> simp [hx, ht]
    rw [hfst, hsnd] at hsplit
    exact ((ih hids).append_left _).trans hsplit

/-- **Recovery reports exactly the reported writes of the log**, each once. -/
theorem WalRecovery.Tracks.committedWrites_perm {r : WalRecovery} (h : Tracks log r) (htaken : Taken log) :
    r.buildResult.committedWrites.Perm
      (((writesAndRest log).filter fun x => Reported x).map fun x => x.1.2) := by
  set reported := (writesAndRest log).filter fun x => Reported x with hreported
  have hgroups : r.buildResult.committedWrites =
      (r.transactions.keys.flatMap fun t => reported.filter fun x => x.1.1 = t).map
        fun x => x.1.2 := by
    rw [buildResult, h.attributedWrites_eq htaken, map_flatMap, map_flatMap]
    refine flatMap_congr fun t _ => ?_
    simp [reportedFor, hreported, filter_filter, Function.comp_def]
  rw [hgroups]
  refine List.Perm.map _ ((flatMap_filter_perm ?_).trans ?_)
  · exact nodup_keys
  · -- every reported write belongs to a transaction recovery knows
    rw [filter_eq_self.mpr]
    intro x hx
    have hx' := mem_filter.mp hx
    obtain ⟨p, hp, -, hphases⟩ := htaken.rest hx'.1
    obtain ⟨hc, hd⟩ := of_decide_eq_true hx'.2
    have hcomm := (phases_eq_committed_iff hp hd).mpr hc
    rw [← hphases, ← h.state] at hcomm
    rw [decide_eq_true_eq, Std.TreeMap.mem_keys, mem_iff_isSome_getElem?, hcomm]
    rfl

/-- Among the writes of committed transactions, the reported ones are those that neither a
prepare record nor a reuse of the id follows. -/
theorem reported_iff (h : Taken log) (hx : x ∈ writesAndRest log)
    (hc : commitsIn x.1.1 x.2 = true) : Reported x ↔ ∀ r ∈ x.2, ¬ Restarts x.1.1 r := by
  obtain ⟨p, -, htaken, -⟩ := h.rest hx
  constructor
  · rintro ⟨-, hd⟩ r hr hrestart
    exact hd r hr (.inl hrestart)
  · intro hr
    have hroll := not_rollback_of_commitsIn htaken hc hr
    exact ⟨hc, fun r hmem => not_or.mpr ⟨hr r hmem, hroll r hmem⟩⟩

theorem filter_reported : ((writesAndRest log).filter fun x => Reported x) =
    ((writesAndRest log).filter fun x => commitsIn x.1.1 x.2).filter fun x => Reported x := by
  rw [filter_filter]
  refine filter_congr fun x _ => ?_
  by_cases hx : Reported x
  · simp [hx, hx.1]
  · simp [hx]

/-- **Recovery of a log it takes reports the writes of its committed transactions** exactly if none of them
precedes a prepare record of its transaction or a reuse of its id; and it reports no others. -/
theorem Taken.recover_committedWrites (h : Taken log) : ∃ result, recover log = .ok result ∧
    (result.committedWrites : Multiset RecoveredWrite) ≤ (committedWrites log : Multiset _) ∧
    ((result.committedWrites : Multiset RecoveredWrite) = (committedWrites log : Multiset _) ↔
      NoWriteBeforePrepare log) := by
  obtain ⟨r, hr, htracks⟩ := exists_processAll h
  have hperm := htracks.committedWrites_perm h
  refine ⟨r.buildResult, by rw [recover, hr]; rfl, ?_, ?_⟩
  · have hsub : (((writesAndRest log).filter fun x => Reported x).map fun x => x.1.2).Sublist
        (committedWrites log) := by
      rw [filter_reported, committedWrites]
      exact filter_sublist.map _
    exact Multiset.coe_le.mpr (hperm.subperm.trans hsub.subperm)
  · rw [Multiset.coe_eq_coe]
    constructor
    · intro heq x hx hc
      have hlen := (hperm.symm.trans heq).length_eq
      simp only [committedWrites, length_map] at hlen
      rw [filter_reported, length_filter_eq_length_iff] at hlen
      have hrep := hlen x (mem_filter.mpr ⟨hx, hc⟩)
      exact (reported_iff h hx hc).mp (of_decide_eq_true hrep)
    · intro hno
      refine hperm.trans (List.Perm.of_eq ?_)
      rw [committedWrites, filter_reported, filter_eq_self.mpr]
      intro x hx
      obtain ⟨hx, hc⟩ := mem_filter.mp hx
      exact decide_eq_true ((reported_iff h hx hc).mpr (hno x hx hc))

/-! ## Recovery of the writer's logs -/

/-- **Recovery of a log reports the writes of its committed transactions exactly if none of
them precedes a prepare record of its transaction** (or a reuse of its id). -/
theorem recover_committedWrites_iff (cfg : WalWriterConfig) (calls : List WalCall) :
    ∃ result, recover (WalWriter.run cfg calls).file = .ok result ∧
      ((result.committedWrites : Multiset RecoveredWrite) =
          (committedWrites (WalWriter.run cfg calls).file : Multiset RecoveredWrite) ↔
        NoWriteBeforePrepare (WalWriter.run cfg calls).file) := by
  have hlegal : Legal (WalWriter.run cfg calls).file := WalWriter.legal_run_file
  obtain ⟨result, hres, -, hiff⟩ := hlegal.taken.recover_committedWrites
  exact ⟨result, hres, hiff⟩

theorem exists_commit_of_commitsIn (h : commitsIn t rest = true) : ∃ r ∈ rest, r.data = .commit t := by
  induction rest with
  | nil => simp [commitsIn] at h
  | cons r rest ih =>
    simp only [commitsIn] at h
    split_ifs at h with hc
    · exact ⟨r, mem_cons_self, hc⟩
    · obtain ⟨r', hr', hc'⟩ := ih h
      exact ⟨r', mem_cons_of_mem _ hr', hc'⟩

/-- The log of one transaction that writes, prepares and commits, as every commit of the
transaction layer logs it. -/
def preparedCommit : List WalCall := [.begin 1, .operation 1 1 .put [0] [7], .prepare 1, .commit 1]

/-- **Its write is lost**: recovery of that log reports nothing. -/
theorem recover_loses_preparedCommit :
    ∃ result, recover (WalWriter.run .default preparedCommit).file = .ok result ∧
      (result.committedWrites : Multiset RecoveredWrite) ≠
        (committedWrites (WalWriter.run .default preparedCommit).file : Multiset RecoveredWrite) :=
  ⟨_, rfl, by decide⟩

end NanoStore.Wal
