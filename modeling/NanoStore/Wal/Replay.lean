import NanoStore.Wal.Report
/-!
# Write-ahead log — the order of replay

Recovery lists the reported writes transaction by transaction, in the
order of the transaction ids. Replaying the list gives every key its last
committed value exactly as far as that order is the order of the commits.
-/

namespace NanoStore.Wal

open Function List
open WalWriter (run)

/-! ## Replaying writes -/

/-- One write applied to the contents of the tables. The writes of the specialised engines
carry no value of a key. -/
def applyWrite (contents : TableKey → Option Bytes) (write : RecoveredWrite) : TableKey → Option Bytes :=
  match write.opType with
  | .put => update contents (write.tableId, write.key) (some write.value)
  | .delete => update contents (write.tableId, write.key) none
  | _ => contents

/-- The contents after a list of writes. -/
def replay (contents : TableKey → Option Bytes) (writes : List RecoveredWrite) : TableKey → Option Bytes :=
  writes.foldl applyWrite contents

/-- A put or a delete of the key. -/
def Touches (k : TableKey) (write : RecoveredWrite) : Prop :=
  (write.opType = .put ∨ write.opType = .delete) ∧ (write.tableId, write.key) = k

instance (k : TableKey) (write : RecoveredWrite) : Decidable (Touches k write) :=
  inferInstanceAs (Decidable (_ ∧ _))

variable {write : RecoveredWrite} {k : TableKey} {contents : TableKey → Option Bytes}

theorem applyWrite_of_not_touches (h : ¬ Touches k write) :
    applyWrite contents write k = contents k := by
  cases hop : write.opType <;> simp only [applyWrite, hop]
  · exact update_of_ne (fun e => h ⟨.inl hop, e.symm⟩) _ _
  · exact update_of_ne (fun e => h ⟨.inr hop, e.symm⟩) _ _

theorem applyWrite_of_touches (h : Touches k write) (contents contents' : TableKey → Option Bytes) :
    applyWrite contents write k = applyWrite contents' write k := by
  obtain ⟨hop | hop, rfl⟩ := h <;> simp [applyWrite, hop]

variable {writes : List RecoveredWrite}

theorem replay_of_not_touches (h : ∀ write ∈ writes, ¬ Touches k write) (contents : TableKey → Option Bytes) :
    replay contents writes k = contents k := by
  induction writes generalizing contents with
  | nil => rfl
  | cons write writes ih =>
    rw [replay, foldl_cons, ← replay, ih fun w hw => h w (mem_cons_of_mem _ hw)]
    exact applyWrite_of_not_touches (h write mem_cons_self)

/-- **What a key holds after writes that touch it does not depend on what it held before.** -/
theorem replay_of_touches
    (h : ∃ write ∈ writes, Touches k write) (contents contents' : TableKey → Option Bytes) :
    replay contents writes k = replay contents' writes k := by
  induction writes generalizing contents contents' with
  | nil => simp at h
  | cons write writes ih =>
    simp only [replay, foldl_cons]
    by_cases hrest : ∃ w ∈ writes, Touches k w
    · exact ih hrest _ _
    · -- the head is the last write of the key
      have hhead : Touches k write := by
        obtain ⟨w, hw, hk⟩ := h
        rcases mem_cons.mp hw with rfl | hw
        · exact hk
        · exact absurd ⟨w, hw, hk⟩ hrest
      push Not at hrest
      have h₁ := replay_of_not_touches hrest (applyWrite contents write)
      have h₂ := replay_of_not_touches hrest (applyWrite contents' write)
      exact h₁.trans ((applyWrite_of_touches hhead _ _).trans h₂.symm)

/-! ## The order of the commits -/

/-- The place of the last commit record of `t` in the log, counted from 1; 0 without one. -/
def lastCommit (t : TransactionId) : List WalRecord → ℕ
  | [] => 0
  | r :: rest =>
    if 0 < lastCommit t rest then lastCommit t rest + 1 else if r.data = .commit t then 1 else 0

/-- `t` and `u` have committed, `t` first. -/
def CommitsBefore (log : List WalRecord) (t u : TransactionId) : Prop :=
  0 < lastCommit t log ∧ lastCommit t log < lastCommit u log

instance (log : List WalRecord) (t u : TransactionId) : Decidable (CommitsBefore log t u) :=
  inferInstanceAs (Decidable (_ ∧ _))

variable {log : List WalRecord} {t : TransactionId}

theorem lastCommit_pos (h : ∃ r ∈ log, r.data = .commit t) : 0 < lastCommit t log := by
  induction log with
  | nil => simp at h
  | cons r rest ih =>
    simp only [lastCommit]
    split_ifs with hrest hr
    · omega
    · exact Nat.one_pos
    · obtain ⟨r', hr', hc⟩ := h
      rcases mem_cons.mp hr' with rfl | hr'
      · exact absurd hc hr
      · exact absurd (ih ⟨r', hr', hc⟩) hrest

variable {u : TransactionId}

theorem eq_of_lastCommit_eq
    (hpos : 0 < lastCommit t log) (h : lastCommit t log = lastCommit u log) : t = u := by
  induction log with
  | nil => simp [lastCommit] at hpos
  | cons r rest ih =>
    simp only [lastCommit] at hpos h
    by_cases ht : 0 < lastCommit t rest <;> by_cases hu : 0 < lastCommit u rest
    · rw [if_pos ht, if_pos hu] at h
      exact ih ht (by omega)
    · rw [if_pos ht, if_neg hu] at h
      split_ifs at h
      all_goals omega
    · rw [if_neg ht, if_pos hu] at h
      split_ifs at h
      all_goals omega
    · rw [if_neg ht] at hpos
      rw [if_neg ht, if_neg hu] at h
      have hr : r.data = .commit t := by_contra fun hr => by simp [hr] at hpos
      have hru : r.data = .commit u := by_contra fun hru => by rw [if_pos hr, if_neg hru] at h; omega
      exact RecordData.commit.inj (hr.symm.trans hru)

theorem CommitsBefore.asymm (h : CommitsBefore log t u) : ¬ CommitsBefore log u t := by
  unfold CommitsBefore at *
  omega

theorem lastCommit_pos_of_reported
    {x : (TransactionId × RecoveredWrite) × List WalRecord} (hx : x ∈ writesAndRest log)
    (h : Reported x) : 0 < lastCommit x.1.1 log := by
  obtain ⟨before, lsn, hlog⟩ := exists_append_of_mem_writesAndRest hx
  obtain ⟨r, hr, hc⟩ := exists_commit_of_commitsIn h.1
  refine lastCommit_pos ⟨r, ?_, hc⟩
  rw [hlog]
  exact mem_append_right _ (mem_cons_of_mem _ hr)

/-! ## Replay order -/

/-- The write records of `t`, in log order. -/
def writesOf (t : TransactionId) (log : List WalRecord) : List RecoveredWrite :=
  ((writesAndRest log).filter fun x => x.1.1 = t).map fun x => x.1.2

/-- The part of a list of attributed writes that is `t`'s. -/
def partOf (t : TransactionId) (writes : List (TransactionId × RecoveredWrite)) : List RecoveredWrite :=
  (writes.filter fun entry => entry.1 = t).map Prod.snd

/-- A list of writes is fit for replay. -/
structure InReplayOrder (log : List WalRecord) (writes : List (TransactionId × RecoveredWrite)) : Prop where
  /-- No write comes before a write of a transaction that committed earlier. -/
  commitOrder : writes.Pairwise fun a b => ¬ CommitsBefore log b.1 a.1
  /-- The writes of one transaction are in log order. -/
  logOrder : ∀ t, (partOf t writes).Sublist (writesOf t log)
  /-- A key ends with the value of the last transaction to commit among those that wrote it. -/
  lastWriter : ∀ (contents : TableKey → Option Bytes) (k : TableKey) (t : TransactionId),
    (∃ write ∈ partOf t writes, Touches k write) →
    (∀ u, u ≠ t → (∃ write ∈ partOf u writes, Touches k write) → CommitsBefore log u t) →
    replay contents (writes.map Prod.snd) k = replay contents (partOf t writes) k

/-- Transactions with reported writes have committed in the order of their ids. -/
def IdsInCommitOrder (log : List WalRecord) : Prop :=
  ∀ x ∈ writesAndRest log, ∀ y ∈ writesAndRest log, Reported x → Reported y →
    x.1.1 < y.1.1 → CommitsBefore log x.1.1 y.1.1

theorem exists_reported_of_mem_reportedFor (h : write ∈ reportedFor t log) :
    ∃ x ∈ writesAndRest log, x.1 = (t, write) ∧ Reported x := by
  simp only [reportedFor, mem_map, mem_filter, decide_eq_true_eq] at h
  obtain ⟨x, ⟨hx, rfl, hrep⟩, rfl⟩ := h
  exact ⟨x, hx, rfl, hrep⟩

variable {ids : List TransactionId}

theorem partOf_flatMap {group : TransactionId → List RecoveredWrite}
    (hids : ids.Nodup) :
    partOf t (ids.flatMap fun u => (group u).map fun write => (u, write)) =
      if t ∈ ids then group t else [] := by
  induction ids with
  | nil => rfl
  | cons u ids ih =>
    obtain ⟨hu, hids⟩ := nodup_cons.mp hids
    have ih := ih hids
    simp only [partOf, flatMap_cons, filter_append, map_append] at ih ⊢
    rw [ih]
    by_cases htu : u = t
    · subst htu
      simp [hu, filter_map, comp_def]
    · have htu' : t ≠ u := fun e => htu e.symm
      simp [htu, htu', filter_map, comp_def]

namespace WalRecovery

variable {r : WalRecovery}

theorem Tracks.partOf_attributedWrites (h : Tracks log r) (hlegal : Legal log)
    (t : TransactionId) : partOf t r.attributedWrites = reportedFor t log := by
  rw [h.attributedWrites_eq hlegal.taken, partOf_flatMap Std.TreeMap.nodup_keys]
  split_ifs with ht
  · rfl
  · have hnone : phases noPhases log t = none := by
      rw [← h.state, Std.TreeMap.getElem?_eq_none]
      rwa [Std.TreeMap.mem_keys] at ht
    rw [reportedFor_eq_nil hlegal.taken (by simp [hnone])]

/-- In a list in increasing order, a relation between each entry and the later ones holds
between any two entries, the smaller first. -/
theorem pairwise_lt_apply {R : TransactionId → TransactionId → Prop}
    (hsort : ids.Pairwise (· < ·)) (hR : ids.Pairwise R) (ht : t ∈ ids)
    (hu : u ∈ ids) (htu : t < u) : R t u := by
  induction ids with
  | nil => simp at ht
  | cons a ids ih =>
    obtain ⟨hlt, hsort⟩ := pairwise_cons.mp hsort
    obtain ⟨hRa, hR⟩ := pairwise_cons.mp hR
    rcases mem_cons.mp ht with rfl | ht' <;> rcases mem_cons.mp hu with rfl | hu'
    · exact absurd htu (lt_irrefl _)
    · exact hRa u hu'
    · exact absurd (hlt t ht') htu.asymm
    · exact ih hsort hR ht' hu'

theorem sorted_keys (r : WalRecovery) : r.transactions.keys.Pairwise (· < ·) := by
  simpa only [Nat.compare_eq_lt] using Std.TreeMap.ordered_keys (t := r.transactions)

section

variable (h : Tracks log r)
include h

theorem Tracks.commitOrder (hlegal : Legal log) (hids : IdsInCommitOrder log) :
    r.attributedWrites.Pairwise fun a b => ¬ CommitsBefore log b.1 a.1 := by
  rw [h.attributedWrites_eq hlegal.taken, pairwise_flatMap]
  constructor
  · intro t _
    exact pairwise_map.mpr (pairwise_of_forall fun _ _ hself => hself.asymm hself)
  · refine r.sorted_keys.imp fun {t u} htu a ha b hb => ?_
    obtain ⟨wa, hwa, rfl⟩ := mem_map.mp ha
    obtain ⟨wb, hwb, rfl⟩ := mem_map.mp hb
    obtain ⟨x, hx, hxt, hxrep⟩ := exists_reported_of_mem_reportedFor hwa
    obtain ⟨y, hy, hyu, hyrep⟩ := exists_reported_of_mem_reportedFor hwb
    have hbefore := hids x hx y hy hxrep hyrep (by simpa [hxt, hyu] using htu)
    simpa [hxt, hyu] using hbefore.asymm

theorem Tracks.idsInCommitOrder (hlegal : Legal log)
    (hord : r.attributedWrites.Pairwise fun a b => ¬ CommitsBefore log b.1 a.1) : IdsInCommitOrder log := by
  intro x hx y hy hxrep hyrep hxy
  rw [h.attributedWrites_eq hlegal.taken, pairwise_flatMap] at hord
  have hkey : ∀ z ∈ writesAndRest log, Reported z → z.1.1 ∈ r.transactions.keys ∧
      z.1.2 ∈ reportedFor z.1.1 log := by
    intro z hz hrep
    have hmem : z.1.2 ∈ reportedFor z.1.1 log :=
      mem_map.mpr ⟨z, mem_filter.mpr ⟨hz, by simpa using hrep⟩, rfl⟩
    refine ⟨?_, hmem⟩
    by_contra hnot
    have hpart := h.partOf_attributedWrites hlegal z.1.1
    rw [h.attributedWrites_eq hlegal.taken, partOf_flatMap Std.TreeMap.nodup_keys, if_neg hnot] at hpart
    rw [← hpart] at hmem
    simp at hmem
  obtain ⟨hxkey, hxmem⟩ := hkey x hx hxrep
  obtain ⟨hykey, hymem⟩ := hkey y hy hyrep
  -- the smaller id stands first in the list, so its writes do too
  have hnot : ¬ CommitsBefore log y.1.1 x.1.1 := by
    have hgroups := pairwise_lt_apply r.sorted_keys hord.2 hxkey hykey hxy
    exact hgroups _ (mem_map_of_mem hxmem) _ (mem_map_of_mem hymem)
  have hxpos := lastCommit_pos_of_reported hx hxrep
  have hypos := lastCommit_pos_of_reported hy hyrep
  have hplace : lastCommit x.1.1 log ≠ lastCommit y.1.1 log := fun e => hxy.ne (eq_of_lastCommit_eq hxpos e)
  unfold CommitsBefore at hnot ⊢
  omega

/-- **A key ends with the value of its last writer** when the ids follow the commits: the
groups after that writer's leave the key alone. -/
theorem Tracks.lastWriter (hlegal : Legal log) (hids : IdsInCommitOrder log)
    (ht : ∃ write ∈ reportedFor t log, Touches k write)
    (hlast : ∀ u, u ≠ t → (∃ write ∈ reportedFor u log, Touches k write) → CommitsBefore log u t) :
    replay contents (r.attributedWrites.map Prod.snd) k = replay contents (reportedFor t log) k := by
  have htkey : t ∈ r.transactions.keys := by
    by_contra hnot
    have hpart := h.partOf_attributedWrites hlegal t
    rw [h.attributedWrites_eq hlegal.taken, partOf_flatMap Std.TreeMap.nodup_keys, if_neg hnot] at hpart
    simp [← hpart] at ht
  obtain ⟨smaller, larger, hkeys⟩ := append_of_mem htkey
  have hsort := r.sorted_keys
  rw [hkeys, pairwise_append] at hsort
  have hlarger : ∀ u ∈ larger, t < u := (pairwise_cons.mp hsort.2.1).1
  have hrest : ∀ write ∈ larger.flatMap fun u => reportedFor u log, ¬ Touches k write := by
    intro write hwrite hk
    obtain ⟨u, hu, hw⟩ := mem_flatMap.mp hwrite
    have hut := hlast u (hlarger u hu).ne' ⟨write, hw, hk⟩
    obtain ⟨wt, hwt, -⟩ := ht
    obtain ⟨x, hx, hxt, hxrep⟩ := exists_reported_of_mem_reportedFor hwt
    obtain ⟨y, hy, hyu, hyrep⟩ := exists_reported_of_mem_reportedFor hw
    have hbefore := hids x hx y hy hxrep hyrep (by simpa [hxt, hyu] using hlarger u hu)
    simp only [hxt, hyu] at hbefore
    exact hbefore.asymm hut
  have hlist : r.attributedWrites.map Prod.snd = (smaller.flatMap fun u => reportedFor u log) ++
      (reportedFor t log ++ larger.flatMap fun u => reportedFor u log) := by
    rw [h.attributedWrites_eq hlegal.taken, hkeys]
    simp [map_flatMap, comp_def]
  rw [hlist, replay, foldl_append, foldl_append, ← replay, ← replay, ← replay, replay_of_not_touches hrest]
  exact replay_of_touches ht _ _

/-- **The result is in replay order exactly if the ids follow the commits.** -/
theorem Tracks.inReplayOrder_iff (hlegal : Legal log) :
    InReplayOrder log r.attributedWrites ↔ IdsInCommitOrder log := by
  constructor
  · intro hord
    exact h.idsInCommitOrder hlegal hord.commitOrder
  · intro hids
    refine ⟨h.commitOrder hlegal hids, fun t => ?_, fun contents k t ht hlast => ?_⟩
    · rw [h.partOf_attributedWrites hlegal]
      refine List.Sublist.map _ (monotone_filter_right _ fun x hx => ?_)
      simp only [decide_eq_true_eq] at hx ⊢
      exact hx.1
    · simp only [h.partOf_attributedWrites hlegal] at ht hlast ⊢
      exact h.lastWriter hlegal hids ht hlast

end

end WalRecovery

open WalRecovery

/-- **Recovery of a log of the writer lists its writes in replay order exactly if the
transactions it reports writes of have committed in the order of their ids.** -/
theorem recover_inReplayOrder_iff (cfg : WalWriterConfig) (calls : List WalCall) :
    ∃ r, processAll (run cfg calls).file = .ok r ∧
      recover (run cfg calls).file = .ok r.buildResult ∧
      r.buildResult.committedWrites = r.attributedWrites.map Prod.snd ∧
      (InReplayOrder (run cfg calls).file r.attributedWrites ↔
        IdsInCommitOrder (run cfg calls).file) := by
  have hlegal : Legal (run cfg calls).file := WalWriter.legal_run_file
  obtain ⟨r, hr, htracks⟩ := exists_processAll hlegal.taken
  refine ⟨r, hr, by rw [recover, hr]; rfl, rfl, htracks.inReplayOrder_iff hlegal⟩

/-- Two transactions put the same key one after the other, and the one that began later is
the first to put and to commit. -/
def crossedCommits : List WalCall :=
  [.begin 1, .begin 2, .operation 2 1 .put [0] [2], .commit 2, .operation 1 1 .put [0] [1], .commit 1]

/-- **Replay of the result gives the key the value of the transaction that committed first.** -/
theorem recover_crossedCommits : ∃ r, processAll (run .default crossedCommits).file = .ok r ∧
    ¬ InReplayOrder (run .default crossedCommits).file r.attributedWrites ∧
    CommitsBefore (run .default crossedCommits).file 2 1 ∧
    replay (fun _ => none) r.buildResult.committedWrites (1, [0]) = some [2] := by
  refine ⟨_, rfl, fun h => ?_, by decide, by decide⟩
  have := h.commitOrder
  revert this
  decide

end NanoStore.Wal
