import NanoStore.Engine.Locks
/-!
# The database — histories and lost updates

Two transactions that overlap and write one key lose an update if both
commit. The write locks prevent it while both are open; nothing looks at
what was committed between a transaction's snapshot and its first write
of the key, and that is the only way an update is lost.
-/

namespace NanoStore.Engine

open Wal Steps Txn Table List

/-- The isolation level a transaction is begun at. -/
def Call.isolation : Call → Option IsolationLevel
  | .beginRead isolation | .beginWrite _ isolation _ | .beginReadAt _ isolation => some isolation
  | _ => none

/-- Every transaction of the history is begun at the level. -/
def AtIsolation (level : IsolationLevel) (trace : List Event) : Prop :=
  ∀ event ∈ trace, event.1.isolation = none ∨ event.1.isolation = some level

/-- A committed transaction: its id and what it wrote. -/
abbrev Commit := TransactionId × List (TableKey × Option Bytes)

/-- The keys a committed transaction wrote. -/
def Commit.keys (c : Commit) : List TableKey := c.2.map Prod.fst

/-- The transactions that committed since `t` began, the latest first. -/
def committedSince (t : TransactionId) : List Event → List Commit
  | [] => []
  | event :: trace =>
    if begun event = some t then [] else (committed event).toList ++ committedSince t trace

variable {t : TransactionId} {event : Event} {trace : List Event}

theorem mem_committedSince_cons
    {c : Commit} : c ∈ committedSince t (event :: trace) ↔
      begun event ≠ some t ∧ (committed event = some c ∨ c ∈ committedSince t trace) := by
  rw [committedSince]
  split_ifs with h
  · simp [h]
  · simp [h, eq_comm]

/-- An update is lost: each of two committed transactions began before the other committed,
and both wrote the key. -/
def LostUpdate (trace : List Event) : Prop :=
  ∃ (c₁ c₂ : Commit) (k : TableKey), c₁.1 ≠ c₂.1 ∧
    c₁ ∈ committedSince c₂.1 trace ∧ c₂ ∈ committedSince c₁.1 trace ∧ k ∈ c₁.keys ∧ k ∈ c₂.keys

/-- The call writes no key that a transaction wrote which committed after the writer began. -/
def WritesFresh {T : Type} (E : Engines T) (trace : List Event) (db : Database T) (call : Call) :
    Prop :=
  ∀ t, call.subject = some t → ∀ k, call.WritesKey E db k → ∀ c ∈ committedSince t trace, k ∉ c.keys

namespace Database

variable {T : Type} {E : Engines T} {cfg : WalWriterConfig} {db db' : Database T}
  {choices : CommitChoices} {txn : Transaction} {k : TableKey}

theorem mem_keys_of_fits (h : txn.Fits choices) : k ∈ Commit.keys (t, choices.writes) ↔ k ∈ txn.writeSet := by
  have hperm : (Commit.keys (t, choices.writes)).Perm (txn.writes.map Prod.fst) :=
    h.writes.map Prod.fst
  rw [hperm.mem_iff, AList.mem_keys, AList.keys, List.keys]
  simp [Transaction.writes, Function.comp_def]

variable {value : Option Bytes}

theorem mem_writes_of_fits (h : txn.Fits choices) :
    (k, value) ∈ choices.writes ↔ txn.writeSet.lookup k = some value := by
  rw [h.writes.mem_iff, ← Option.mem_def, AList.mem_lookup_iff]
  constructor
  · intro hmem
    obtain ⟨⟨_, _⟩, hent, heq⟩ := mem_map.mp hmem
    cases heq
    exact hent
  · intro hent
    exact mem_map.mpr ⟨_, hent, rfl⟩

theorem nodup_keys_of_fits (h : txn.Fits choices) : (choices.writes.map Prod.fst).Nodup := by
  have hperm : (choices.writes.map Prod.fst).Perm (txn.writes.map Prod.fst) := h.writes.map _
  rw [hperm.nodup_iff]
  have hkeys : txn.writes.map Prod.fst = txn.writeSet.keys := by
    simp [Transaction.writes, AList.keys, List.keys, Function.comp_def]
  rw [hkeys]
  exact txn.writeSet.keys_nodup

theorem mem_tables_of_fits (h : txn.Fits choices) (hk : (k, value) ∈ choices.writes) :
    k.1 ∈ choices.tables := by
  rw [h.tables.mem_iff, Transaction.modifiedTables, mem_dedup, mem_append]
  exact .inl (mem_map.mpr ⟨_, h.writes.mem_iff.mp hk, rfl⟩)

/-- What the run so far has kept: nothing an open transaction has written was committed since
it began, and no update is lost. -/
structure Isolated (trace : List Event) (db : Database T) : Prop where
  wellFormed : db.WellFormed
  writes : ∀ t txn, db.txns t = some txn → ∀ k ∈ txn.writeSet, ∀ c ∈ committedSince t trace, k ∉ c.keys
  noLostUpdate : ¬LostUpdate trace

theorem committedSince_of_neither (hbegun : begun event = none) (hcomm : committed event = none) :
    committedSince t (event :: trace) = committedSince t trace := by
  simp [committedSince, hbegun, hcomm]

theorem not_lostUpdate_cons (h : ¬LostUpdate trace)
    (hcomm : committed event = none) : ¬LostUpdate (event :: trace) := by
  rintro ⟨c₁, c₂, k, hne, h₁, h₂, hk₁, hk₂⟩
  rw [mem_committedSince_cons] at h₁ h₂
  simp only [hcomm, reduceCtorEq, false_or] at h₁ h₂
  exact h ⟨c₁, c₂, k, hne, h₁.2, h₂.2, hk₁, hk₂⟩

theorem isolated_consume {sh' : Shared T} (h : Isolated trace db) (hbegun : begun event = none)
    (hcomm : committed event = none)
    (hwf : WellFormed { db with shared := sh', txns := Function.update db.txns t none }) :
    Isolated (event :: trace)
      { db with shared := sh', txns := Function.update db.txns t none } := by
  refine ⟨hwf, ?_, not_lostUpdate_cons h.noLostUpdate hcomm⟩
  intro u txn' hu
  rw [committedSince_of_neither hbegun hcomm]
  rcases update_eq_some hu with ⟨-, hno⟩ | ⟨-, hu⟩
  · cases hno
  · exact h.writes u txn' hu

/-- **Every call that writes only fresh keys keeps the history free of lost updates.** -/
theorem isolated_effect {call : Call} {answer : Answer}
    (h : Isolated trace db) (hguard : WritesFresh E trace db call)
    (he : Effect E cfg db call answer db') : Isolated ((call, answer) :: trace) db' := by
  have hwf := wellFormed_effect h.wellFormed he
  cases he with
  | idle hbegun hcons hshared htxns hnext =>
    have hcomm := committed_eq_none hcons
    refine ⟨hwf, ?_, not_lostUpdate_cons h.noLostUpdate hcomm⟩
    intro u txn' hu
    rw [committedSince_of_neither hbegun hcomm]
    exact h.writes u txn' (htxns ▸ hu)
  | opened w hw snapshotLsn hsnap isolation durability hcall hact =>
    have hcomm : committed (call, .began (.ok db.nextTxnId)) = none := by
      cases call <;> rfl
    refine ⟨hwf, ?_, not_lostUpdate_cons h.noLostUpdate hcomm⟩
    intro u txn' hu k hk c hc
    rcases update_eq_some hu with ⟨-, hnew⟩ | ⟨-, hu⟩
    · cases hnew
      exact absurd hk (AList.notMem_empty k)
    · rw [mem_committedSince_cons, hcomm] at hc
      simp only [reduceCtorEq, false_or] at hc
      exact h.writes u txn' hu k hk c hc.2
  | @continued call answer t txn txn' sh' hopen hcont hwritten hsubj hbegun hcons =>
    have hcomm := committed_eq_none hcons
    refine ⟨hwf, ?_, not_lostUpdate_cons h.noLostUpdate hcomm⟩
    intro u txn'' hu k hk
    rw [committedSince_of_neither hbegun hcomm]
    rcases update_eq_some hu with ⟨rfl, hnew⟩ | ⟨-, hu⟩
    · cases hnew
      -- a key of the write set was there before, or the call has just written it
      rcases hwritten k hk with hk | hk
      · exact h.writes u txn hopen k hk
      · exact hguard u hsubj k hk
    · exact h.writes u txn'' hu k hk
  | @committed t txn choices sh' lsn hopen hfits hcom =>
    have hown : ∀ k ∈ Commit.keys (t, choices.writes), k ∈ txn.writeSet :=
      fun k hk => (mem_keys_of_fits hfits).mp hk
    refine ⟨hwf, ?_, ?_⟩
    · intro u txn' hu k hk c hc
      rcases update_eq_some hu with ⟨-, hno⟩ | ⟨hne, hu⟩
      · cases hno
      rcases (mem_committedSince_cons.mp hc).2 with hnew | hc
      · -- both would hold the lock of the key
        cases hnew
        intro hkey
        have h₁ := h.wellFormed.held u txn' hu k hk
        have h₂ := h.wellFormed.held t txn hopen k (hown k hkey)
        rw [h.wellFormed.ids u txn' hu] at h₁
        rw [h.wellFormed.ids t txn hopen, h₁] at h₂
        exact hne (Option.some.inj h₂)
      · exact h.writes u txn' hu k hk c hc
    · rintro ⟨c₁, c₂, k, hne, h₁, h₂, hk₁, hk₂⟩
      rcases (mem_committedSince_cons.mp h₁).2 with hnew₁ | h₁
      · cases hnew₁
        rcases (mem_committedSince_cons.mp h₂).2 with hnew₂ | h₂
        · cases hnew₂
          exact hne rfl
        · exact h.writes t txn hopen k (hown k hk₁) c₂ h₂ hk₂
      · rcases (mem_committedSince_cons.mp h₂).2 with hnew₂ | h₂
        · cases hnew₂
          exact h.writes t txn hopen k (hown k hk₂) c₁ h₁ hk₁
        · exact h.noLostUpdate ⟨c₁, c₂, k, hne, h₁, h₂, hk₁, hk₂⟩
  | refused | rolledBack => exact isolated_consume h rfl rfl hwf

/-- **If no call writes a key that was committed after its transaction began, no update is
lost.** -/
theorem no_lost_update {tables : T} {trace : List Event}
    (h : Run (exec E cfg) (WritesFresh E) (new tables) trace db) : ¬LostUpdate trace := by
  refine (h.invariant (P := Isolated) ⟨wellFormed_new, nofun, ?_⟩ ?_).noLostUpdate
  · rintro ⟨c₁, c₂, k, -, h₁, -⟩
    cases h₁
  · intro trace db call hinv hguard
    exact isolated_effect hinv hguard (exec_effect call)

/-- Two overlapping writers of different keys. -/
theorem no_lost_update_disjoint : ∃ (trace : List Event) (db : Database Versioned),
    Run (exec Versioned.unscanned .default) (WritesFresh Versioned.unscanned) (new Versioned.empty) trace db ∧
    (committedSince 1 trace).length = 2 ∧ (committedSince 2 trace).length = 2 ∧ ¬LostUpdate trace := by
  have hrun : Run (exec Versioned.unscanned .default) (WritesFresh Versioned.unscanned)
      (new Versioned.empty) _ _ :=
    ((((((Run.nil.call (.beginWrite .walOnly .snapshotIsolation .ok) nofun).call
      (.beginWrite .walOnly .snapshotIsolation .ok) nofun).call
      (.put 1 (1, [0]) [7] .ok) (by rintro _ ⟨⟩ _ ⟨⟩ c hc; cases hc)).call
      (.commit 1 ⟨[((1, [0]), some [7])], [], [1], fun _ => .ok⟩) (by rintro _ ⟨⟩ _ ⟨⟩)).call
      (.put 2 (1, [1]) [8] .ok) (by rintro _ ⟨⟩ _ ⟨⟩; decide)).call
      (.commit 2 ⟨[((1, [1]), some [8])], [], [1], fun _ => .ok⟩) (by rintro _ ⟨⟩ _ ⟨⟩))
  exact ⟨_, _, hrun, rfl, rfl, no_lost_update hrun⟩

/-- **An update is lost at snapshot isolation.** The second writer first touches the key when
the first has committed and released its lock. -/
theorem lostUpdate_second_writer : ∃ (trace : List Event) (db : Database Versioned),
    Run (exec Versioned.unscanned .default) anyCall (new Versioned.empty) trace db ∧
    AtIsolation .snapshotIsolation trace ∧ LostUpdate trace := by
  refine ⟨_, _, run_execute _ _ [.beginWrite .walOnly .snapshotIsolation .ok,
    .beginWrite .walOnly .snapshotIsolation .ok, .put 1 (1, [0]) [7] .ok,
    .commit 1 ⟨[((1, [0]), some [7])], [], [1], fun _ => .ok⟩, .put 2 (1, [0]) [8] .ok,
    .commit 2 ⟨[((1, [0]), some [8])], [], [1], fun _ => .ok⟩], ?_, ?_⟩
  · unfold AtIsolation
    decide
  · exact ⟨(1, [((1, [0]), some [7])]), (2, [((1, [0]), some [8])]), (1, [0]), by decide, by decide,
      by decide, by decide, by decide⟩

end Database

end NanoStore.Engine
