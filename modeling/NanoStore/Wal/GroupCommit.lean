import NanoStore.Common.Steps
import NanoStore.Wal.Log
import NanoStore.Wal.Moves
/-!
# Write-ahead log — group commit

Threads that commit, and the worker that syncs for them. A commit writes its
record under the lock of the writer, puts a request into the queue and
waits. The worker drains the queue, calls back into the writer for one
flush and one sync, and answers every request of the batch with what the
flush returned. Between these steps anything can happen: other commits,
other records, and flushes of a full buffer, which do not sync.

The worker's flush returns at once if it finds the buffer empty. If
another flush has emptied it, the batch is told that it is durable and
nothing has been synced.
-/

namespace NanoStore.Wal

open Function List WalWriter

namespace GroupCommit

/-- A thread that uses the writer. -/
abbrev ThreadId := ℕ

/-- `CommitRequest`; the channel of a request is the request itself. -/
structure CommitRequest where
  txnId : TransactionId
  lsn : ℕ
  thread : ThreadId
  deriving DecidableEq

/-- What the worker answers to a commit. -/
inductive CommitResult
  | success
  | error
  deriving DecidableEq

/-- Where a thread is in `write_commit`: not in it, with its record written, or with its request queued. -/
inductive Phase
  | outside
  | logged (txnId : TransactionId) (lsn : ℕ)
  | waiting (txnId : TransactionId) (lsn : ℕ)
  deriving DecidableEq

/-- Where the worker is in `worker_loop`: before the next batch, with a batch drained, or with the requests
of a batch still to be answered. -/
inductive Worker
  | idle
  | drained (batch : List CommitRequest)
  | notifying (batch : List CommitRequest) (result : CommitResult)
  deriving DecidableEq

/-- The writer, how many records of its file have been synced, and the coordinator. -/
structure State where
  writer : WalWriterState
  synced : ℕ
  queue : List CommitRequest
  worker : Worker
  threads : ThreadId → Phase
  replies : List (CommitRequest × CommitResult)

/-- A log without records, created or opened. -/
def State.init : State where
  writer := create
  synced := 0
  queue := []
  worker := .idle
  threads := fun _ => .outside
  replies := []

/-- How the writer was made: the flush callbacks of `create` and `open` differ. The file handle of an
opened log stands at its beginning, which is its end if it has no records. -/
inductive Origin
  | created
  | opened
  deriving DecidableEq

/-- The callback syncs what it has written. -/
def Origin.syncs (cfg : WalWriterConfig) : Origin → Bool
  | .created => true
  | .opened => cfg.syncOnWrite

/-- The steps of the system. `call` is the part of a writer call under the lock of the writer, for a commit
the part up to the coordinator. A write that fails leaves the first `left` records of the buffer in
the file. -/
inductive Action
  | call (i : ThreadId) (io : FlushIo) (left : ℕ) (call : WalCall)
  | enqueue (i : ThreadId)
  | drain
  | flush (io : FlushIo) (left : ℕ)
  | notify
  | receive (i : ThreadId)
  deriving DecidableEq

/-- The file of the writer after a write of the buffer has failed on the way. -/
def torn (left : ℕ) (w : WalWriterState) : WalWriterState :=
  { w with file := w.file ++ w.buffer.take left }

/-- A writer call without the coordinator, whose writes are whole or leave nothing. -/
def lockedWhole (cfg : WalWriterConfig) (io : FlushIo) (w : WalWriterState) :
    WalCall → WalWriterState × Except WalError ℕ
  | .begin t => writeBegin cfg io w t
  | .operation t tableId opType key value => writeOperation cfg io w t tableId opType key value
  | .prepare t => writePrepare cfg io w t
  | .commit t =>
    writeChecked cfg io w (requireActive w t) (.commit t) (fun ts => ts.filter (· ≠ t))
  | .rollback t => writeRollback cfg io w t
  | .checkpoint => writeCheckpoint cfg io w
  | .flush => ((flush cfg io w).1, (flush cfg io w).2.map fun _ => 0)

/-- A writer call without the coordinator. -/
def locked (cfg : WalWriterConfig) (io : FlushIo) (left : ℕ) (w : WalWriterState) (call : WalCall) :
    WalWriterState × Except WalError ℕ :=
  match io, lockedWhole cfg io w call with
  | .writeError, (w, .error .ioError) => (torn left w, .error .ioError)
  | _, outcome => outcome

/-- The flush callback: the writer and the synced part of its file behind it, and what it returns. -/
def callback (syncs : Bool) (io : FlushIo) (left : ℕ) (w : WalWriterState) (synced : ℕ) :
    WalWriterState × ℕ × CommitResult :=
  if w.buffer = [] then (w, synced, .success)
  else match io with
    | .writeError => (torn left w, synced, .error)
    | .ok =>
      ({ w with file := w.file ++ w.buffer, buffer := [] },
        if syncs then (w.file ++ w.buffer).length else synced, .success)
    | .syncError =>
      if syncs then ({ w with file := w.file ++ w.buffer }, synced, .error)
      else ({ w with file := w.file ++ w.buffer, buffer := [] }, synced, .success)

/-- What `write_commit` returns, if a step returns from it. -/
abbrev Answer := Option (TransactionId × Except WalError ℕ)

namespace State

variable (s : State)

/-- A writer call up to the coordinator. -/
def call (cfg : WalWriterConfig) (i : ThreadId) (io : FlushIo) (left : ℕ) (call : WalCall) :
    State × Answer :=
  match s.threads i with
  | .outside =>
    let (w, result) := locked cfg io left s.writer call
    match call, result with
    | .commit t, .ok lsn =>
      ({ s with writer := w, threads := update s.threads i (.logged t lsn) }, none)
    | .commit t, .error e => ({ s with writer := w }, some (t, .error e))
    | _, _ => ({ s with writer := w }, none)
  | _ => (s, none)

/-- `submit_commit` puts its request into the queue. -/
def enqueue (i : ThreadId) : State × Answer :=
  match s.threads i with
  | .logged t lsn =>
    ({ s with
        queue := s.queue ++ [⟨t, lsn, i⟩]
        threads := update s.threads i (.waiting t lsn) }, none)
  | _ => (s, none)

/-- The worker takes all that waits. -/
def drain : State × Answer :=
  match s.worker with
  | .idle => if s.queue = [] then (s, none) else ({ s with queue := [], worker := .drained s.queue }, none)
  | _ => (s, none)

/-- The worker flushes once for the commits it took. -/
def flush (syncs : Bool) (io : FlushIo) (left : ℕ) : State × Answer :=
  match s.worker with
  | .drained batch =>
    let (w, synced, result) := callback syncs io left s.writer s.synced
    ({ s with writer := w, synced := synced, worker := .notifying batch result }, none)
  | _ => (s, none)

/-- The worker answers the next request of its batch. -/
def notify : State × Answer :=
  match s.worker with
  | .notifying [] _ => ({ s with worker := .idle }, none)
  | .notifying (request :: batch) result =>
    ({ s with worker := .notifying batch result, replies := (request, result) :: s.replies }, none)
  | _ => (s, none)

/-- `submit_commit` receives the answer, and `write_commit` returns. -/
def receive (i : ThreadId) : State × Answer :=
  match s.threads i with
  | .waiting t lsn =>
    if (⟨t, lsn, i⟩, .success) ∈ s.replies then
      ({ s with
          threads := update s.threads i .outside
          replies := s.replies.erase (⟨t, lsn, i⟩, .success) }, some (t, .ok lsn))
    else if (⟨t, lsn, i⟩, .error) ∈ s.replies then
      ({ s with
          threads := update s.threads i .outside
          replies := s.replies.erase (⟨t, lsn, i⟩, .error) },
        some (t, .error (.commitNotificationError t lsn)))
    else (s, none)
  | _ => (s, none)

end State

/-- One step. A step that the system cannot make changes nothing. -/
def exec (cfg : WalWriterConfig) (origin : Origin) (s : State) : Action → State × Answer
  | .call i io left call => s.call cfg i io left call
  | .enqueue i => s.enqueue i
  | .drain => s.drain
  | .flush io left => s.flush (origin.syncs cfg) io left
  | .notify => s.notify
  | .receive i => s.receive i

/-- The commit record of `t` at position `lsn` and every record of the log up to there is in the part of the
file that has been synced. -/
def Durable (s : State) (t : TransactionId) (lsn : ℕ) : Prop :=
  ⟨lsn, .commit t⟩ ∈ s.writer.file.take s.synced ∧
    ∀ r ∈ s.writer.log, r.lsn ≤ lsn → r ∈ s.writer.file.take s.synced

instance (s : State) (t : TransactionId) (lsn : ℕ) : Decidable (Durable s t lsn) :=
  inferInstanceAs (Decidable (_ ∧ ∀ r ∈ s.writer.log, _ → _))

/-- If the flush of the worker finds the buffer empty then all that has been written has been synced, and if
not then it syncs. -/
def Unspilled (cfg : WalWriterConfig) (origin : Origin)
    (_ : List (Action × Answer)) (s : State) (a : Action) : Prop :=
  match a, s.worker with
  | .flush _ _, .drained _ =>
    if s.writer.buffer = [] then s.synced = s.writer.file.length else origin.syncs cfg = true
  | _, _ => True

/-! ## What a step does to the log -/

/-- Records are added to the log behind the positions handed out before, and stay. -/
structure Grows (w w' : WalWriterState) : Prop where
  front : ∀ n, w.file.take n ⊆ w'.file.take n
  kept : w.log ⊆ w'.log
  new : ∀ r ∈ w'.log, r ∈ w.log ∨ w.currentLsn ≤ r.lsn
  position : w.currentLsn ≤ w'.currentLsn

variable {cfg : WalWriterConfig} {w w' : WalWriterState} {t : TransactionId} {lsn synced : ℕ}
  {io : FlushIo} {left : ℕ}

theorem Grows.torn (h : Grows w w') (left : ℕ) : Grows w (torn left w') where
  front n := by
    rw [GroupCommit.torn, take_append]
    exact fun r hr => mem_append_left _ (h.front n hr)
  kept r hr := by
    rcases mem_append.mp (h.kept hr) with hfile | hbuf
    · exact mem_append_left _ (mem_append_left _ hfile)
    · exact mem_append_right _ hbuf
  new r hr := by
    rcases mem_append.mp hr with hfile | hbuf
    · rcases mem_append.mp hfile with hfile | hleft
      · exact h.new r (mem_append_left _ hfile)
      · exact h.new r (mem_append_right _ (mem_of_mem_take hleft))
    · exact h.new r (mem_append_right _ hbuf)
  position := h.position

theorem grows_of_flushed {buffer : List WalRecord} (hnew : ∀ r ∈ buffer, r ∈ w.buffer ∨ w.currentLsn ≤ r.lsn)
    (hkept : w.buffer ⊆ buffer) (h : WalWriter.Flushed { w with buffer := buffer } w')
    (hpos : w.currentLsn ≤ w'.currentLsn) : Grows w w' := by
  -- whatever the flush does, the file is added to and the log is that of the buffer
  obtain ⟨added, hfile, hlog⟩ : ∃ added, w'.file = w.file ++ added ∧
      ∀ r, r ∈ w'.log ↔ r ∈ w.file ∨ r ∈ buffer := by
    simp only [WalWriterState.log]
    cases h with
    | kept hfile hbuf =>
      refine ⟨[], by rw [hfile, append_nil], fun r => ?_⟩
      rw [hfile, hbuf, mem_append]
    | moved hfile hbuf =>
      refine ⟨buffer, hfile, fun r => ?_⟩
      rw [hfile, hbuf, append_nil, mem_append]
    | doubled hfile hbuf =>
      refine ⟨buffer, hfile, fun r => ?_⟩
      rw [hfile, hbuf, mem_append, mem_append, or_assoc, or_self]
  refine ⟨fun n => ?_, fun r hr => ?_, fun r hr => ?_, hpos⟩
  · rw [hfile, take_append]
    exact subset_append_left _ _
  · refine (hlog r).mpr ((mem_append.mp hr).imp id fun hbuf => hkept hbuf)
  · rcases (hlog r).mp hr with hold | hbuf
    · exact .inl (mem_append_left _ hold)
    · exact (hnew r hbuf).imp (fun hold => mem_append_right _ hold) id

theorem grows_writeChecked {refusal : Option WalError} {data : RecordData}
    {track : List TransactionId → List TransactionId} {result : Except WalError ℕ}
    (h : writeChecked cfg io w refusal data track = (w', result)) : Grows w w' := by
  have hpos : w.currentLsn ≤ w'.currentLsn := by
    rcases writeChecked_result h with ⟨-, -, hlsn, -⟩ | ⟨-, hlsn, -⟩ <;> omega
  rcases writeChecked_flushed h with ⟨hfile, hbuf, -⟩ | ⟨-, hflushed, -⟩
  · exact grows_of_flushed (fun _ hr => .inl hr) (List.Subset.refl _) (.kept hfile hbuf) hpos
  · refine grows_of_flushed (fun r hr => ?_) (subset_append_left _ _) hflushed hpos
    rcases mem_append.mp hr with hold | hnew
    · exact .inl hold
    · rw [mem_singleton.mp hnew]
      exact .inr le_rfl

theorem grows_lockedWhole {call : WalCall} : Grows w (lockedWhole cfg io w call).1 := by
  have hcheck : ∀ (refusal : Option WalError) (data : RecordData)
      (track : List TransactionId → List TransactionId),
      Grows w (writeChecked cfg io w refusal data track).1 :=
    fun _ _ _ => grows_writeChecked rfl
  cases call with
  | begin t => exact hcheck _ _ _
  | operation t tableId opType key value | prepare t | commit t | rollback t | checkpoint =>
    exact hcheck _ _ _
  | flush =>
    have hflushed : flushInternal cfg io w =
      ((flush cfg io w).1, (flush cfg io w).2) := rfl
    refine grows_of_flushed (fun _ hr => .inl hr) (List.Subset.refl _) (flushInternal_flushed hflushed).1 ?_
    exact (flushInternal_frame hflushed).1.ge

theorem grows_locked {call : WalCall} (h : (locked cfg io left w call).1 = w') : Grows w w' := by
  have hgrows : Grows w (lockedWhole cfg io w call).1 := grows_lockedWhole
  subst h
  unfold locked
  split
  · next heq =>
    rw [heq] at hgrows
    exact hgrows.torn left
  · exact hgrows

theorem lockedWhole_of_ok {call : WalCall} (h : locked cfg io left w call = (w', .ok lsn)) :
    lockedWhole cfg io w call = (w', .ok lsn) := by
  unfold locked at h
  split at h
  · cases h
  · exact h

theorem mem_log_locked (h : locked cfg io left w (.commit t) = (w', .ok lsn)) :
    lsn < w'.currentLsn ∧ ⟨lsn, .commit t⟩ ∈ w'.log := by
  have hcheck : writeChecked cfg io w (requireActive w t) (.commit t)
      (fun ts => ts.filter (· ≠ t)) = (w', .ok lsn) := lockedWhole_of_ok h
  rcases writeChecked_result hcheck with ⟨-, hok, hlsn, -⟩ | ⟨⟨e, he⟩, -⟩
  · cases hok
    rcases writeChecked_flushed hcheck with ⟨-, -, e, he⟩ | ⟨-, -, hlog⟩
    · cases he
    · refine ⟨by omega, ?_⟩
      rw [hlog _ rfl]
      exact mem_append_right _ (mem_singleton_self _)
  · cases he

theorem grows_callback (syncs : Bool) (io : FlushIo) (left : ℕ) (w : WalWriterState) (synced : ℕ) :
    Grows w (callback syncs io left w synced).1 := by
  have hgrows : ∀ w', WalWriter.Flushed w w' → w'.currentLsn = w.currentLsn → Grows w w' :=
    fun w' hflushed hpos =>
      grows_of_flushed (fun _ hr => .inl hr) (List.Subset.refl _) hflushed hpos.ge
  unfold callback
  split_ifs
  · exact hgrows _ (.kept rfl rfl) rfl
  · cases io with
    | ok => exact hgrows _ (.moved rfl rfl) rfl
    | writeError => exact (hgrows w (.kept rfl rfl) rfl).torn left
    | syncError => exact hgrows _ (.doubled rfl rfl) rfl
  · cases io with
    | ok => exact hgrows _ (.moved rfl rfl) rfl
    | writeError => exact (hgrows w (.kept rfl rfl) rfl).torn left
    | syncError => exact hgrows _ (.moved rfl rfl) rfl

theorem synced_callback (syncs : Bool) (io : FlushIo) (left : ℕ) (w : WalWriterState) (synced : ℕ) :
    (callback syncs io left w synced).2.1 = synced ∨
      (callback syncs io left w synced).2.1 = (callback syncs io left w synced).1.file.length := by
  unfold callback
  split_ifs
  · exact .inl rfl
  · cases io with
    | ok => exact .inr rfl
    | writeError | syncError => exact .inl rfl
  · cases io <;> exact .inl rfl

/-- **A callback that succeeds leaves nothing to be synced**, if it meets no flush that did. -/
theorem callback_success {syncs : Bool}
    (hunspilled : if w.buffer = [] then synced = w.file.length else syncs = true)
    (h : (callback syncs io left w synced).2.2 = .success) :
    (callback syncs io left w synced).1.buffer = [] ∧
      (callback syncs io left w synced).2.1 = (callback syncs io left w synced).1.file.length := by
  unfold callback at h ⊢
  by_cases hemp : w.buffer = []
  · rw [if_pos hemp] at hunspilled
    simp only [if_pos hemp]
    exact ⟨hemp, hunspilled⟩
  · rw [if_neg hemp] at hunspilled
    simp only [if_neg hemp, hunspilled, if_true] at h ⊢
    cases io with
    | ok => exact ⟨rfl, rfl⟩
    | writeError | syncError => cases h

/-! ## What every step keeps -/

/-- The commit record of `t` was written at a position handed out before. -/
def Logged (w : WalWriterState) (t : TransactionId) (lsn : ℕ) : Prop :=
  lsn < w.currentLsn ∧ ⟨lsn, .commit t⟩ ∈ w.log

/-- It was written, and it is durable. -/
def Safe (s : State) (t : TransactionId) (lsn : ℕ) : Prop := Logged s.writer t lsn ∧ Durable s t lsn

/-- Every request is for a record that was written, and whoever has been told of a success was told so
rightly. -/
structure Sound (trace : List (Action × Answer)) (s : State) : Prop where
  logged : ∀ i t lsn, s.threads i = .logged t lsn → Logged s.writer t lsn
  queued : ∀ request ∈ s.queue, Logged s.writer request.txnId request.lsn
  drained : ∀ batch, s.worker = .drained batch → ∀ request ∈ batch, Logged s.writer request.txnId request.lsn
  notifying : ∀ batch, s.worker = .notifying batch .success → ∀ request ∈ batch,
    Safe s request.txnId request.lsn
  replied : ∀ request, (request, .success) ∈ s.replies → Safe s request.txnId request.lsn
  returned : ∀ a t lsn, (a, some (t, .ok lsn)) ∈ trace → Safe s t lsn

variable {origin : Origin} {s : State} {trace : List (Action × Answer)}

theorem Logged.grows (h : Logged w t lsn) (hgrows : Grows w w') : Logged w' t lsn :=
  ⟨h.1.trans_le hgrows.position, hgrows.kept h.2⟩

/-- What is durable stays durable: nothing is logged behind it at an earlier position. -/
theorem Safe.grows (h : Safe s t lsn) (hgrows : Grows s.writer w)
    (hsync : s.writer.file.take s.synced ⊆ w.file.take synced) :
    Safe { s with writer := w, synced := synced } t lsn := by
  obtain ⟨hlogged, hcom, hearlier⟩ := h
  refine ⟨hlogged.grows hgrows, hsync hcom, fun r hr hle => ?_⟩
  rcases hgrows.new r hr with hold | hnew
  · exact hsync (hearlier r hold hle)
  · have hlt := hlogged.1
    omega

section

variable (h : Sound trace s)
include h

theorem Sound.grows (hgrows : Grows s.writer w)
    (hsync : s.writer.file.take s.synced ⊆ w.file.take synced) :
    Sound trace { s with writer := w, synced := synced } where
  logged i t lsn hi := (h.logged i t lsn hi).grows hgrows
  queued request hmem := (h.queued request hmem).grows hgrows
  drained batch hworker request hmem := (h.drained batch hworker request hmem).grows hgrows
  notifying batch hworker request hmem := (h.notifying batch hworker request hmem).grows hgrows hsync
  replied request hmem := (h.replied request hmem).grows hgrows hsync
  returned a t lsn hmem := (h.returned a t lsn hmem).grows hgrows hsync

theorem Sound.answered {a : Action} {answer : Answer}
    (hans : ∀ t lsn, answer = some (t, .ok lsn) → Safe s t lsn) : Sound ((a, answer) :: trace) s where
  __ := h
  returned a' t lsn hmem := by
    rcases mem_cons.mp hmem with heq | hbefore
    · exact hans t lsn (Prod.ext_iff.mp heq).2.symm
    · exact h.returned a' t lsn hbefore

theorem Sound.silent {a : Action} : Sound ((a, none) :: trace) s :=
  h.answered fun _ _ hans => absurd hans (Option.some_ne_none _).symm

theorem Sound.thread {i : ThreadId} {phase : Phase}
    (hphase : ∀ t lsn, phase = .logged t lsn → Logged s.writer t lsn) :
    Sound trace { s with threads := update s.threads i phase } where
  __ := h
  logged j t lsn hj := by
    dsimp only at hj
    by_cases hij : j = i
    · subst hij
      rw [update_self] at hj
      exact hphase t lsn hj
    · rw [update_of_ne hij] at hj
      exact h.logged j t lsn hj

theorem Sound.call {i : ThreadId} {call : WalCall} :
    Sound ((.call i io left call, (s.call cfg i io left call).2) :: trace) (s.call cfg i io left call).1 := by
  unfold State.call
  split
  · obtain ⟨⟨w, result⟩, hlocked⟩ : ∃ x, locked cfg io left s.writer call = x := ⟨_, rfl⟩
    have hgrows : Grows s.writer w := grows_locked (by rw [hlocked])
    have hwritten : Sound trace { s with writer := w } := h.grows hgrows (hgrows.front s.synced)
    rw [hlocked]
    dsimp only
    split
    · -- a commit that has written its record
      refine Sound.silent ?_
      refine hwritten.thread fun t lsn hphase => ?_
      cases hphase
      exact mem_log_locked hlocked
    · refine hwritten.answered fun t lsn hans => ?_
      cases hans
    · exact hwritten.silent
  · exact h.silent

theorem Sound.enqueue {i : ThreadId} :
    Sound ((.enqueue i, (s.enqueue i).2) :: trace) (s.enqueue i).1 := by
  unfold State.enqueue
  split
  · rename_i t lsn hphase
    have hmoved : Sound trace { s with threads := update s.threads i (.waiting t lsn) } :=
      h.thread fun _ _ hlogged => (nomatch hlogged)
    refine Sound.silent ?_
    refine { hmoved with queued := fun request hmem => ?_ }
    rcases mem_append.mp hmem with hold | hnew
    · exact h.queued request hold
    · rw [mem_singleton.mp hnew]
      exact h.logged i t lsn hphase
  · exact h.silent

theorem Sound.drain : Sound ((.drain, s.drain.2) :: trace) s.drain.1 := by
  unfold State.drain
  split
  · split_ifs
    · exact h.silent
    · refine Sound.silent ?_
      refine { h with
        queued := fun _ hmem => absurd hmem not_mem_nil
        drained := fun batch hworker => ?_
        notifying := fun _ hworker => (nomatch hworker) }
      cases hworker
      exact h.queued
  · exact h.silent

/-- **The flush of the worker** makes its batch durable if it succeeds. -/
theorem Sound.flush
    (hunspilled : Unspilled cfg origin trace s (.flush io left)) :
    Sound ((.flush io left, (s.flush (origin.syncs cfg) io left).2) :: trace)
      (s.flush (origin.syncs cfg) io left).1 := by
  unfold State.flush
  split
  · rename_i batch hworker
    simp only [Unspilled, hworker] at hunspilled
    have hsucc : (callback (origin.syncs cfg) io left s.writer s.synced).2.2 = .success → _ :=
      callback_success hunspilled
    have hgrows := grows_callback (origin.syncs cfg) io left s.writer s.synced
    have hsync := synced_callback (origin.syncs cfg) io left s.writer s.synced
    generalize callback (origin.syncs cfg) io left s.writer s.synced = x at hsucc hgrows hsync ⊢
    obtain ⟨w, synced, result⟩ := x
    dsimp only at hsucc hgrows hsync ⊢
    have htaken : s.writer.file.take s.synced ⊆ w.file.take synced := by
      rcases hsync with hsame | hall
      · rw [hsame]
        exact hgrows.front s.synced
      · rw [hall, take_length]
        exact fun r hr => take_subset _ _ (hgrows.front s.synced hr)
    have hwritten := h.grows hgrows htaken
    refine Sound.silent ?_
    refine { hwritten with drained := fun _ hidle => (nomatch hidle), notifying := ?_ }
    intro batch' hnotifying request hmem
    cases hnotifying
    -- the log is the file, and all of the file is synced
    obtain ⟨hbuf, hall⟩ := hsucc rfl
    have hlogged : Logged w request.txnId request.lsn := hwritten.drained batch hworker request hmem
    have hlog : w.log = w.file.take synced := by
      rw [WalWriterState.log, hbuf, append_nil, hall, take_length]
    refine ⟨hlogged, ?_, fun r hr _ => ?_⟩
    · rw [← hlog]
      exact hlogged.2
    · rw [← hlog]
      exact hr
  · exact h.silent

theorem Sound.notify : Sound ((.notify, s.notify.2) :: trace) s.notify.1 := by
  unfold State.notify
  split
  · refine Sound.silent ?_
    exact { h with drained := fun _ hidle => (nomatch hidle), notifying := fun _ hidle => (nomatch hidle) }
  · rename_i request batch result hworker
    refine Sound.silent ?_
    refine { h with drained := fun _ hidle => (nomatch hidle), notifying := ?_, replied := ?_ }
    · intro rest hrest other hmem
      cases hrest
      exact h.notifying _ hworker other (mem_cons_of_mem _ hmem)
    · intro other hmem
      rcases mem_cons.mp hmem with heq | hbefore
      · cases heq
        exact h.notifying _ hworker request mem_cons_self
      · exact h.replied other hbefore
  · exact h.silent

theorem Sound.receive {i : ThreadId} :
    Sound ((.receive i, (s.receive i).2) :: trace) (s.receive i).1 := by
  unfold State.receive
  split
  · rename_i t lsn hphase
    have hleft : ∀ reply, Sound trace { s with
        threads := update s.threads i .outside, replies := s.replies.erase reply } := by
      intro reply
      have hmoved : Sound trace { s with threads := update s.threads i .outside } :=
        h.thread fun _ _ hlogged => (nomatch hlogged)
      exact { hmoved with replied := fun request hmem => h.replied request (mem_of_mem_erase hmem) }
    split_ifs with hsucc herror
    · refine (hleft _).answered fun t' lsn' hans => ?_
      cases hans
      exact h.replied _ hsucc
    · refine (hleft _).answered fun t' lsn' hans => ?_
      cases hans
    · exact h.silent
  · exact h.silent

end

theorem sound_init : Sound [] State.init where
  logged _ _ _ hphase := nomatch hphase
  queued _ hmem := absurd hmem not_mem_nil
  drained _ hworker := nomatch hworker
  notifying _ hworker := nomatch hworker
  replied _ hmem := absurd hmem not_mem_nil
  returned _ _ _ hmem := absurd hmem not_mem_nil

/-- **Whoever has been told that a commit succeeded was told so rightly**, in every interleaving in which no
flush of a full buffer takes the sync from the worker. -/
theorem durable_of_run (hrun : Steps.Run (exec cfg origin) (Unspilled cfg origin) State.init trace s)
    {a : Action} {t : TransactionId} {lsn : ℕ} (hreturned : (a, some (t, .ok lsn)) ∈ trace) :
    Durable s t lsn := by
  have hsound : Sound trace s := by
    refine hrun.invariant sound_init fun trace s a h hunspilled => ?_
    cases a with
    | call i io left call => exact h.call
    | enqueue i => exact h.enqueue
    | drain => exact h.drain
    | flush io left => exact h.flush hunspilled
    | notify => exact h.notify
    | receive i => exact h.receive
  exact (hsound.returned a t lsn hreturned).2

/-- Two transactions begin and commit. The first flush of the worker fails with one record written, and
the second one is for both. -/
def quietCommit : List Action :=
  [.call 0 .ok 0 (.begin 7), .call 1 .ok 0 (.begin 8), .call 1 .ok 0 (.commit 8), .enqueue 1, .drain,
    .flush .writeError 1, .call 0 .ok 0 (.commit 7), .enqueue 0, .notify, .notify, .receive 1, .drain,
    .flush .ok 0, .notify, .receive 0]

theorem durable_quietCommit : let run := Steps.execute (exec .default .created) State.init quietCommit
    (.receive 1, some (8, .error (.commitNotificationError 8 3))) ∈ run.1 ∧
      (.receive 0, some (7, .ok 4)) ∈ run.1 ∧ Durable run.2 7 4 := by
  have hreturned : (Action.receive 0, some (7, .ok 4)) ∈
      (Steps.execute (exec .default .created) State.init quietCommit).1 := by
    decide +kernel
  refine ⟨by decide +kernel, hreturned, durable_of_run (Steps.Guarded.run ?_) hreturned⟩
  exact ⟨trivial, trivial, trivial, trivial, trivial, rfl, trivial, trivial, trivial, trivial, trivial,
    trivial, rfl, trivial, trivial, trivial⟩

/-- Another thread flushes the buffer between the record of a commit and the flush of the worker. -/
def spilledCommit : List Action :=
  [.call 0 .ok 0 (.begin 7), .call 0 .ok 0 (.commit 7), .enqueue 0, .call 1 .ok 0 .flush, .drain,
    .flush .ok 0, .notify, .receive 0]

/-- The commit is told that it is durable, and nothing has been synced. -/
theorem not_durable_spilledCommit : let run := Steps.execute (exec .default .created) State.init spilledCommit
    (.receive 0, some (7, .ok 2)) ∈ run.1 ∧
      run.2.writer.file = [⟨1, .begin 7⟩, ⟨2, .commit 7⟩] ∧ run.2.synced = 0 ∧ ¬ Durable run.2 7 2 := by
  decide +kernel

/-! ## One commit at a time -/

/-- What `submit_commit` makes of the answer of the worker. -/
def CommitResult.answer (t : TransactionId) (lsn : ℕ) : CommitResult → Except WalError Unit
  | .success => .ok ()
  | .error => .error (.commitNotificationError t lsn)

/-- The callback of a created log is the flush of `write_commit` where there is one thread. -/
theorem groupFlush_callback (io : FlushIo) (synced : ℕ) (lsn : ℕ) :
    groupFlush io w t lsn =
      ((callback true io 0 w synced).1, (callback true io 0 w synced).2.2.answer t lsn) := by
  unfold groupFlush callback
  by_cases hemp : w.buffer = []
  · rw [if_pos hemp, if_pos hemp]
    rfl
  · rw [if_neg hemp, if_neg hemp]
    cases io with
    | ok | syncError => rfl
    | writeError => simp [torn, CommitResult.answer]

/-- **A commit that meets no other**, and whose failed writes leave nothing, leaves the writer and returns
what `write_commit` says. -/
theorem execute_writeCommit (hgroup : cfg.groupCommit = true) {s : State}
    {i : ThreadId} (hthread : s.threads i = .outside) (hworker : s.worker = .idle) (hqueue : s.queue = [])
    (hreplies : s.replies = []) (io' : FlushIo) :
    let run := Steps.execute (exec cfg .created) s
      [.call i io 0 (.commit t), .enqueue i, .drain, .flush io' 0, .notify, .receive i]
    run.2.writer = (writeCommit cfg io s.writer io' t).1 ∧
      some (t, (writeCommit cfg io s.writer io' t).2) ∈ run.1.map Prod.snd := by
  obtain ⟨⟨w, result⟩, hcheck⟩ : ∃ x, writeChecked cfg io s.writer (requireActive s.writer t) (.commit t)
    (fun ts => ts.filter (· ≠ t)) = x := ⟨_, rfl⟩
  have hlocked : locked cfg io 0 s.writer (.commit t) = (w, result) := by
    have hwhole : lockedWhole cfg io s.writer (.commit t) = (w, result) := hcheck
    unfold locked
    rw [hwhole]
    split
    · next heq =>
      cases heq
      simp [torn]
    · rfl
  simp only [Steps.execute, exec, Origin.syncs, foldl_cons, foldl_nil]
  cases result with
  | error e =>
    -- the call is refused, and the thread never gets to the coordinator
    have hcom : writeCommit cfg io s.writer io' t = (w, .error e) := by
      rw [writeCommit, hcheck]
    rw [hcom]
    simp [State.call, State.enqueue, State.drain, State.flush, State.notify, State.receive, hthread, hworker,
      hqueue, hlocked]
  | ok lsn =>
    have hcom : writeCommit cfg io s.writer io' t = ((callback true io' 0 w s.synced).1,
        ((callback true io' 0 w s.synced).2.2.answer t lsn).map fun _ => lsn) := by
      rw [writeCommit, hcheck]
      simp only [if_pos hgroup, groupFlush_callback io' s.synced]
      cases (callback true io' 0 w s.synced).2.2 with
      | success | error => rfl
    rw [hcom]
    generalize hflushed : callback true io' 0 w s.synced = x
    obtain ⟨w', synced, result⟩ := x
    cases result with
    | success | error =>
      simp [State.call, State.enqueue, State.drain, State.flush, State.notify, State.receive, hthread,
        hworker, hqueue, hlocked, hreplies, hflushed, CommitResult.answer, Except.map]

end GroupCommit

end NanoStore.Wal
