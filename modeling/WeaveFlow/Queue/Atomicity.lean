import WeaveFlow.Queue.Claimable

/-!
# Commits beside queue operations

`EnqueueWithCommit`, `CompleteWithCommit` and `FailWithCommit` apply a runtime commit and
a transition of the queue in one transaction, and report what became of it.  A report is
*truthful* (`Truthful`) if a nil error with the outcome committed means that the
transition, the records and the transaction are in the database, and if an error with the
outcome not started means that nothing changed.  A call *repeats* (`Repeats`) if the same
arguments again return the stored result and change nothing.

The reports of `CompleteWithCommit` and `FailWithCommit` are truthful.  That of
`EnqueueWithCommit` is not when the task is already there: the outcome is set to
committed before the row of the task is inserted, and a row that is there already ends
the call before the commit of the transaction (`Database.StoredBefore`).  A committed call
repeats exactly if its arguments name the transaction, and an enqueued task its id and its
time: what is blank is generated anew in each call.
-/

namespace WeaveFlow

open KeyedMap Option Database Outcome List

/-! ## Truthful reports -/

/-- A transition and the records of its commit are in the database, and the transaction is
stored under its id. -/
structure Database.Written (db : Database) (commit : Commit) (operation : TaskOperation)
    (marks : Option AttemptStatus) (result : CommitResult) (tasks : List Task) : Prop where
  rows : ∀ task ∈ tasks, db.tasks.get task.id = some task
  attempts : ∀ status, marks = some status → ∀ task ∈ tasks, ∃ attempt,
    db.attempts.get (toLex (task.id, task.attemptCount)) = some attempt ∧ attempt.status = status
  records : db.Records commit
  transaction : db.transactions.get commit.transactionID =
    some ⟨commit.transactionID, .atomic (commitFingerprint commit) operation, result, tasks⟩

/-- The stored transaction that a repeated call is answered from. -/
def Database.Answers (db : Database) (commit : Commit) (operation : TaskOperation)
    (result : CommitResult) (tasks : List Task) : Prop :=
  db.transactions.get commit.transactionID =
    some ⟨commit.transactionID, .atomic (commitFingerprint commit) operation, result, tasks⟩

/-- A call with a commit reports truthfully what it did. -/
structure Truthful {α : Type} (reply : Reply α) (tasksOf : α → List Task) (commit : Commit)
    (operation : TaskOperation) (marks : Option AttemptStatus) (db : Database) : Prop where
  /-- A nil error with the outcome committed: the transition and the records were written by
  this call or by the stored one that answers it. -/
  committed : ∀ value, reply.value = .ok value → reply.result.outcome = .committed →
    reply.database.Written commit operation marks reply.result (tasksOf value) ∨
      reply.database = db ∧ db.Answers commit operation reply.result (tasksOf value)
  /-- An error with the outcome not started: nothing was written. -/
  notStarted : ∀ error, reply.value = .error error → reply.result.outcome = .notStarted →
    reply.database = db

/-- A nil error with the outcome committed. -/
def Reply.Commits {α : Type} (reply : Reply α) : Prop :=
  (∃ value, reply.value = .ok value) ∧ reply.result.outcome = .committed

/-- The same call again, at any time, returns the stored result and changes nothing. -/
def Repeats {α : Type} (run : Database → Call → Reply α) (db : Database) (call : Call) : Prop :=
  ∀ again, run (run db call).database again = run db call

section

variable {α : Type} {db : Database} {call : Call} {commit : Commit}

/-- Only a transaction that reaches its commit changes the database, and one that fails
there is never reported as not started. -/
theorem settle_notStarted {fate : CommitFate} {tx : TxM (TxEnd α)} {error : TaskError}
    (hv : (db.settle fate (some commit) tx).value = .error error)
    (ho : (db.settle fate (some commit) tx).result.outcome = .notStarted) :
    (db.settle fate (some commit) tx).database = db := by
  unfold settle at hv ho ⊢
  split at hv
  · rfl
  · cases hv
  · dsimp only at ho hv ⊢
    split at hv
    · cases hv
    next hf =>
      rw [if_neg hf] at ho
      cases ho

theorem settle_eq_ok {fate : CommitFate} {tx : TxM (TxEnd α)} {value : α}
    (hv : (db.settle fate (some commit) tx).value = .ok value) :
    (∃ result, tx = .ok (.rollback result value) ∧
        db.settle fate (some commit) tx = ⟨db, result, .ok value⟩) ∨
      ∃ db' result, tx = .ok (.commit db' result value) ∧
        db.settle fate (some commit) tx = ⟨db', result, .ok value⟩ := by
  unfold settle at hv ⊢
  split at hv
  · cases hv
  next result value' =>
    cases hv
    exact .inl ⟨result, rfl, rfl⟩
  next db' result value' =>
    dsimp only at hv ⊢
    split at hv
    next hf =>
      cases hv
      refine .inr ⟨db', result, rfl, ?_⟩
      rw [if_pos hf, hf]
      rfl
    · cases hv

theorem settle_rollback {fate : CommitFate} {result : CommitResult} {value : α} :
    db.settle fate (some commit) (.ok (.rollback result value)) = ⟨db, result, .ok value⟩ := rfl

theorem settle_ok {fate : CommitFate} {tx : TxM (TxEnd α)} {value : α}
    (hv : (db.settle fate (some commit) tx).value = .ok value) : ∃ ending, tx = .ok ending := by
  rcases settle_eq_ok hv with ⟨_, htx, -⟩ | ⟨_, _, htx, -⟩
  · exact ⟨_, htx⟩
  · exact ⟨_, htx⟩

section

variable {tx : TxM (TxEnd α)} {fate : CommitFate} {tasksOf : α → List Task} {c : Commit}
  {operation : TaskOperation} {marks : Option AttemptStatus} {value : α} {fits : α → Prop}
  (hc : ∀ {db' result value}, tx = .ok (.commit db' result value) →
    db'.Written c operation marks result (tasksOf value) ∧ fits value)
  (hr : ∀ {result value}, tx = .ok (.rollback result value) →
    db.Answers c operation result (tasksOf value) ∧ fits value)
include hc hr

/-- A transaction is reported truthfully if what it commits is written with its row, and if
it returns early only from a stored one. -/
theorem truthful_of_tx :
    Truthful (db.settle fate (some commit) tx) tasksOf c operation marks db := by
  constructor
  · intro value hv _
    rcases settle_eq_ok hv with ⟨result, htx, hre⟩ | ⟨db', result, htx, hre⟩
    · rw [hre]
      exact .inr ⟨rfl, (hr htx).1⟩
    · rw [hre]
      exact .inl (hc htx).1
  · intro error hv ho
    exact settle_notStarted hv ho

/-- After a success the row of the transaction is there. -/
theorem settle_answers (hv : (db.settle fate (some commit) tx).value = .ok value) :
    (db.settle fate (some commit) tx).database.Answers c operation
      (db.settle fate (some commit) tx).result (tasksOf value) ∧ fits value := by
  rcases settle_eq_ok hv with ⟨result, htx, hre⟩ | ⟨db', result, htx, hre⟩
  · rw [hre]
    exact hr htx
  · rw [hre]
    exact ⟨(hc htx).1.transaction, (hc htx).2⟩

end

/-- A transaction that is answered from its row returns what the row says. -/
theorem settle_answer {reply : Reply α} (hv : reply.value = .ok value)
    (htx : tx = .ok (.rollback reply.result value)) :
    reply.database.settle fate (some commit) tx = reply := by
  rw [htx, settle_rollback, ← hv]

theorem exists_fresh (db : Database) (s : String) :
    ∃ u, db.transactions.get u = none ∧ u ≠ s := by
  obtain ⟨u, hu⟩ := Infinite.exists_notMem_finset (s :: db.transactions.vals.map (·.id)).toFinset
  rw [List.mem_toFinset, mem_cons, not_or] at hu
  refine ⟨u, ?_, hu.1⟩
  cases hg : db.transactions.get u with
  | none => rfl
  | some stored =>
    have hk : stored.id = u := key_of_get hg
    refine absurd (List.mem_map.mpr ⟨stored, mem_vals.mpr ?_, hk⟩) hu.2
    rw [hk, hg]

end

namespace Database

/-! ## The stored transaction -/

section

variable {db db' : Database} {commit : Commit} {operation : TaskOperation}

theorem storedTransaction_eq_ok (h : db.storedTransaction operation (some commit) = .ok stored) :
    validateRuntimeCommit commit = .ok () ∧
      ((stored = none ∧ db.transactions.get commit.transactionID = none) ∨
        ∃ transaction, stored = some transaction ∧
          db.transactions.get commit.transactionID = some transaction ∧
          transaction.fingerprint = .atomic (commitFingerprint commit) operation) := by
  obtain ⟨_, hv, h⟩ := of_bind h
  rw [reporting_eq_ok, asTaskError_eq_ok] at hv
  refine ⟨hv, ?_⟩
  split at h
  next hn => cases h; exact .inl ⟨rfl, hn⟩
  next transaction hs =>
    obtain ⟨_, hf, h⟩ := of_bind h
    cases h
    rw [reporting_eq_ok, requireTask_eq_ok, decide_eq_true_eq] at hf
    exact .inr ⟨transaction, rfl, hs, hf⟩

variable {tasks : List Task} {result : CommitResult} {task : Task} {status : AttemptStatus}

theorem storedTransaction_of_answers (hv : validateRuntimeCommit commit = .ok ())
    (h : db.Answers commit operation result tasks) :
    db.storedTransaction operation (some commit) =
      .ok (some ⟨commit.transactionID, .atomic (commitFingerprint commit) operation, result,
        tasks⟩) := by
  unfold Answers at h
  unfold storedTransaction
  simp only [hv, h, requireTask]
  rfl

/-- A stored transaction with its key and fingerprint. -/
theorem answers_of_get (hg : db.transactions.get commit.transactionID = some transaction)
    (hf : transaction.fingerprint = .atomic (commitFingerprint commit) operation) :
    db.Answers commit operation transaction.result transaction.tasks := by
  have hid : transaction.id = commit.transactionID := key_of_get hg
  unfold Answers
  rw [hg, ← hid, ← hf]

theorem insertTaskTransaction_get (hid : result.transactionID = commit.transactionID) :
    (db.insertTaskTransaction commit operation result tasks).Answers commit operation result
      tasks := by
  unfold Answers insertTaskTransaction
  rw [← hid]
  exact get_put_self db.transactions _

theorem Records.congr (h : db.Records commit) (hr : db'.runs = db.runs)
    (hs : db'.steps = db.steps) (hc : db'.checkpoints = db.checkpoints)
    (he : db'.events = db.events) (ha : db'.artifacts = db.artifacts) :
    db'.Records commit := by
  constructor
  · rw [hr]; exact h.run
  · rw [hs]; exact h.steps
  · rw [hc]; exact h.checkpoints
  · rw [he]; exact h.events
  · rw [ha]; exact h.artifacts

/-- The writes of a transition keep the records of a commit. -/
theorem records_of_rows (h : db.Records commit)
    (hr : db.requireTaskVersion version task error = .ok replaced)
    (ha : replaced.updateAttempt task status message finishedAt = .ok db') :
    (db'.insertTaskTransaction commit operation result tasks).Records commit := by
  rw [requireTaskVersion_eq_ok hr] at ha
  obtain ⟨attempt, -, hd⟩ := of_bind ha
  cases hd
  exact h.congr rfl rfl rfl rfl rfl

theorem Updates.row (h : Updates db db' task task' status) :
    db'.tasks.get task'.id = some task' := by
  rw [h.tasks]
  exact get_put_self db.tasks task'

theorem Updates.attempt (h : Updates db db' task task' status) : ∃ attempt,
      db'.attempts.get (toLex (task'.id, task'.attemptCount)) = some attempt ∧
        attempt.status = status := by
  obtain ⟨attempt, attempt', -, hk, hs, ha⟩ := h.marked
  refine ⟨attempt', ?_, hs⟩
  rw [ha, h.sameID, h.sameCount, ← hk]
  exact get_put_self db.attempts attempt'

end

/-! ## Complete -/

section

variable {db db' : Database} {call : Call} {lease : TaskLease} {taskResult : TaskResult}
  {commit : Commit} {result : CommitResult}

theorem completeNew_written
    (h : db.completeNew call lease taskResult (some commit) = .ok (.commit db' result completed)) :
    db'.Written commit (.complete lease taskResult) (some .completed) result [completed] ∧
      completed.id = lease.taskID := by
  obtain ⟨task, hc, hid⟩ := completeNew_eq_commit h
  obtain ⟨task, hl, h⟩ := of_bind h
  simp only [bind_eq_ok] at h
  obtain ⟨⟨db₁, result₁⟩, ha, db₂, hr, db₃, hat, h⟩ := h
  cases h
  rw [reporting_eq_ok] at hr hat
  obtain ⟨-, hre, ht, -⟩ := applyTaskCommit_eq_ok ha
  refine ⟨⟨?_, ?_, records_of_rows hre hr hat, ?_⟩, hid⟩
  · intro task hm
    rw [mem_singleton.mp hm]
    exact hc.toUpdates.row
  · intro status hs task hm
    cases hs
    rw [mem_singleton.mp hm]
    exact hc.toUpdates.attempt
  · exact insertTaskTransaction_get ht

theorem completeIdentified_rollback
    (h : db.completeIdentified call lease taskResult (some commit) = .ok (.rollback result value)) :
    db.Answers commit (.complete lease taskResult) result [value] ∧ value.id = lease.taskID := by
  obtain ⟨stored, hs, h⟩ := of_bind h
  obtain ⟨-, hc⟩ := storedTransaction_eq_ok hs
  rcases hc with ⟨rfl, -⟩ | ⟨transaction, rfl, hg, hf⟩
  · obtain ⟨task, -, h⟩ := of_bind h
    simp only [bind_eq_ok] at h
    obtain ⟨⟨db₁, result₁⟩, -, db₂, -, db₃, -, h⟩ := h
    cases h
  · have ha := answers_of_get hg hf
    unfold replayComplete at h
    dsimp only at h
    split at h
    next task ht =>
      split at h
      next hid =>
        cases h
        rw [ht] at ha
        exact ⟨ha, hid⟩
      · cases h
    · cases h

theorem validateRuntimeCommit_of_stored {α : Type} {rest : Option StoredTransaction → TxM (TxEnd α)}
    (h : ∃ ending, (db.storedTransaction operation (some commit) >>= rest) = .ok ending) :
    validateRuntimeCommit commit = .ok () := by
  obtain ⟨ending, h⟩ := h
  obtain ⟨stored, hs, -⟩ := of_bind h
  exact (storedTransaction_eq_ok hs).1

theorem completeIdentified_answer (hv : validateRuntimeCommit commit = .ok ())
    (ha : db.Answers commit (.complete lease taskResult) result [value])
    (hid : value.id = lease.taskID) :
    db.completeIdentified again lease taskResult (some commit) = .ok (.rollback result value) := by
  unfold completeIdentified
  rw [storedTransaction_of_answers hv ha]
  simp only [bind, Except.bind, replayComplete, hid, if_true]
  rfl

end

/-! ## Fail -/

section

variable {db db' : Database} {call : Call} {failures : List TaskFailureTransition}
  {commit : Commit} {result : CommitResult}

/-- The tasks that have failed so far are stored so, with their attempts. -/
structure FailProgress.Stored (progress : FailProgress) : Prop where
  rows : ∀ task ∈ progress.tasks, progress.db.tasks.get task.id = some task
  attempts : ∀ task ∈ progress.tasks, ∃ attempt,
    progress.db.attempts.get (toLex (task.id, task.attemptCount)) = some attempt ∧
      attempt.status = .failed
  seen : ∀ task ∈ progress.tasks, task.id ∈ progress.seen

theorem failOne_stored (hs : progress.Stored)
    (h : failOne now result progress transition = .ok progress') :
    progress'.Stored ∧ progress'.tasks.length = progress.tasks.length + 1 := by
  obtain ⟨_, hn, h⟩ := of_bind h
  simp only [bind_eq_ok] at h
  obtain ⟨task, hl, -, -, current, hle, db₁, hr, db₂, ha, h⟩ := h
  cases h
  rw [reporting_eq_ok] at hn hl hle hr ha
  rw [requireTask_eq_ok, decide_eq_true_eq] at hn
  rw [loadTask_eq_ok] at hl
  obtain ⟨hru, -, -, -⟩ := validateTaskLease_eq_ok hle
  have hu : Updates progress.db db₂ task (failedTask task transition.failure now) .failed :=
    updates_of_row hr ha hl hru rfl rfl
  have ht : task.id = transition.lease.taskID := id_of_task hl
  -- the task of this failure is not among the earlier ones
  have ho : ∀ earlier ∈ progress.tasks, earlier.id ≠ task.id := by
    intro earlier hm heq
    exact hn (ht ▸ heq ▸ hs.seen earlier hm)
  refine ⟨⟨?_, ?_, ?_⟩, by rw [length_append]; rfl⟩
  · refine forall_mem_append.mpr ⟨fun other hm => ?_, forall_mem_singleton.mpr hu.row⟩
    rw [hu.get, if_neg (ho other hm)]
    exact hs.rows other hm
  · refine forall_mem_append.mpr ⟨fun other hm => ?_, forall_mem_singleton.mpr hu.attempt⟩
    obtain ⟨attempt, hg, hst⟩ := hs.attempts other hm
    obtain ⟨_, attempt', -, hk, -, hat⟩ := hu.marked
    refine ⟨attempt, ?_, hst⟩
    rw [hat, get_put_other hk (ho other hm)]
    exact hg
  · exact forall_mem_append.mpr ⟨fun other hm => mem_cons_of_mem _ (hs.seen other hm),
      forall_mem_singleton.mpr (mem_cons.mpr (.inl ht))⟩

theorem failAll_stored (hs : progress.Stored)
    (h : failures.foldlM (failOne now result) progress = .ok progress') :
    progress'.Stored ∧ progress'.tasks.length = progress.tasks.length + failures.length := by
  induction failures generalizing progress with
  | nil => cases h; exact ⟨hs, rfl⟩
  | cons transition failures ih =>
    rw [foldlM_cons] at h
    obtain ⟨progress₁, ho, h⟩ := of_bind h
    obtain ⟨hstored₁, hlength₁⟩ := failOne_stored hs ho
    obtain ⟨hst, hl⟩ := ih hstored₁ h
    refine ⟨hst, ?_⟩
    rw [hl, hlength₁, length_cons]
    omega

theorem failNew_written {operation : TaskOperation} {tasks : List Task}
    (h : db.failNew call failures operation (some commit) = .ok (.commit db' result tasks)) :
    db'.Written commit operation (some .failed) result tasks ∧ tasks.length = failures.length := by
  obtain ⟨progress, hl, h⟩ := of_bind h
  obtain ⟨⟨db₁, result₁⟩, ha, h⟩ := of_bind h
  cases h
  obtain ⟨hs, hle⟩ := failAll_stored
    ⟨(fun _ hm => by cases hm), (fun _ hm => by cases hm), (fun _ hm => by cases hm)⟩
    hl
  obtain ⟨hsa, hr, ht, -⟩ := applyTaskCommit_eq_ok ha
  refine ⟨⟨?_, ?_, hr.congr rfl rfl rfl rfl rfl, ?_⟩, by rw [hle]; exact Nat.zero_add _⟩
  · intro task hm
    rw [tasks_recordOptional, hsa.tasks]
    exact hs.rows task hm
  · intro status hst task hm
    cases hst
    rw [attempts_recordOptional, hsa.attempts]
    exact hs.attempts task hm
  · exact insertTaskTransaction_get ht

theorem failIdentified_rollback {tasks : List Task}
    (h : db.failIdentified call failures (some commit) = .ok (.rollback result tasks)) :
    db.Answers commit (.fail (sortedFailures failures)) result tasks ∧
      tasks.length = failures.length := by
  obtain ⟨stored, hs, h⟩ := of_bind h
  obtain ⟨-, hc⟩ := storedTransaction_eq_ok hs
  rcases hc with ⟨rfl, -⟩ | ⟨transaction, rfl, hg, hf⟩
  · obtain ⟨progress, -, h⟩ := of_bind h
    obtain ⟨⟨db₁, result₁⟩, -, h⟩ := of_bind h
    cases h
  · unfold replayFail at h
    dsimp only at h
    split at h
    next hl =>
      cases h
      exact ⟨answers_of_get hg hf, hl⟩
    · cases h

theorem failIdentified_answer {tasks : List Task} (hv : validateRuntimeCommit commit = .ok ())
    (ha : db.Answers commit (.fail (sortedFailures failures)) result tasks)
    (hl : tasks.length = failures.length) :
    db.failIdentified again failures (some commit) = .ok (.rollback result tasks) := by
  unfold failIdentified
  rw [storedTransaction_of_answers hv ha]
  simp only [bind, Except.bind, replayFail, hl, if_true]
  rfl

end

/-! ## Enqueue -/

section

variable {db db' : Database} {call : Call} {task : Task} {commit : Commit} {result : CommitResult}

/-- A new commit that applies, beside a task that is already stored. -/
structure EnqueuesAgain (db : Database) (call : Call) (task : Task) (commit : Commit) : Prop where
  valid : validateRuntimeCommit commit = .ok ()
  new : db.transactions.get commit.transactionID = none
  applies : ∃ db' result, db.applyCommit call.ctx commit (notStarted commit) = .ok (db', result)
  writable : task.runID ≠ "" → db.fences.get task.runID = none
  present : db.tasks.get task.id = some task

theorem ensureTaskWritable_eq_ok : db.ensureTaskWritable task = .ok u ↔
    (task.runID ≠ "" → db.fences.get task.runID = none) := by
  unfold ensureTaskWritable
  split
  next hr => simp [hr]
  next hr => simp [hr]

theorem insertTask_eq_ok (h : db.insertTask result task = .ok ending) :
    (task.runID ≠ "" → db.fences.get task.runID = none) ∧
      ((db.tasks.get task.id = none ∧
          ending = .commit { db with tasks := db.tasks.put task } result task) ∨
        (db.tasks.get task.id = some task ∧ ending = .rollback result task)) := by
  obtain ⟨_, hw, h⟩ := of_bind h
  rw [reporting_eq_ok, ensureTaskWritable_eq_ok] at hw
  refine ⟨hw, ?_⟩
  split at h
  next hn => cases h; exact .inl ⟨hn, rfl⟩
  next existing hs =>
    split at h
    next heq =>
      cases h
      subst heq
      exact .inr ⟨hs, rfl⟩
    · cases h

theorem enqueueNormalized_written
    (h : db.enqueueNormalized call task (some commit) = .ok (.commit db' result value)) :
    db'.Written commit (.enqueue task) none result [value] ∧ value = task := by
  obtain ⟨stored, hs, h⟩ := of_bind h
  cases stored with
  | some transaction =>
    unfold replayEnqueue at h
    dsimp only at h
    split at h <;> cases h
  | none =>
    obtain ⟨⟨db₁, result₁⟩, ha, h⟩ := of_bind h
    obtain ⟨-, hr, ht, -⟩ := applyTaskCommit_eq_ok ha
    obtain ⟨-, ⟨-, he⟩ | ⟨-, he⟩⟩ := insertTask_eq_ok h
    · cases he
      refine ⟨⟨?_, ?_, hr.congr rfl rfl rfl rfl rfl, ?_⟩, rfl⟩
      · intro task hm
        rw [mem_singleton.mp hm]
        exact get_put_self _ _
      · intro status hst
        cases hst
      · exact insertTaskTransaction_get ht
    · cases he

theorem enqueueNormalized_rollback {value : Task} (ha : ¬ db.EnqueuesAgain call task commit)
    (h : db.enqueueNormalized call task (some commit) = .ok (.rollback result value)) :
    db.Answers commit (.enqueue task) result [value] ∧ value = task := by
  obtain ⟨stored, hs, h⟩ := of_bind h
  obtain ⟨hv, hc⟩ := storedTransaction_eq_ok hs
  rcases hc with ⟨rfl, hn⟩ | ⟨transaction, rfl, hg, hf⟩
  · obtain ⟨⟨db₁, result₁⟩, hap, h⟩ := of_bind h
    obtain ⟨⟨db₂, result₂⟩, hal, -⟩ := of_bind hap
    have hsa := (applyTaskCommit_eq_ok hap).1
    obtain ⟨hw, ⟨-, he⟩ | ⟨hp, -⟩⟩ := insertTask_eq_ok h
    · cases he
    · refine absurd ⟨hv, hn, ⟨db₂, result₂, mapError_eq_ok.mp hal⟩, ?_, ?_⟩ ha
      · intro hr
        rw [← hsa.fences]
        exact hw hr
      · rw [tasks_recordOptional, hsa.tasks] at hp
        exact hp
  · unfold replayEnqueue at h
    dsimp only at h
    split at h
    next ht =>
      cases h
      have han := answers_of_get hg hf
      rw [ht] at han
      exact ⟨han, rfl⟩
    · cases h

theorem enqueueNormalized_answer (hv : validateRuntimeCommit commit = .ok ())
    (ha : db.Answers commit (.enqueue task) result [task]) :
    db.enqueueNormalized again task (some commit) = .ok (.rollback result task) := by
  unfold enqueueNormalized
  rw [storedTransaction_of_answers hv ha]
  simp only [bind, Except.bind, replayEnqueue, if_true]
  rfl

/-- The outcome that is returned for a task that is already there. -/
theorem enqueueNormalized_again (h : db.EnqueuesAgain call task commit) :
    ∃ result, db.enqueueNormalized call task (some commit) = .ok (.rollback result task) ∧
      result.outcome = .committed ∧ result.transactionID = commit.transactionID := by
  obtain ⟨db', result, ha⟩ := h.applies
  have hs := (applyCommit_eq_ok ha).1
  have hst : db.storedTransaction (.enqueue task) (some commit) = .ok none := by
    unfold storedTransaction
    simp only [h.valid, h.new]
    rfl
  have ht : db.applyTaskCommit call.ctx commit (notStarted commit) =
      .ok (db', asCommitted commit result) := by
    unfold applyTaskCommit
    rw [ha]
    rfl
  refine ⟨asCommitted commit result, ?_, rfl, (applyTaskCommit_eq_ok ht).2.2.1⟩
  unfold enqueueNormalized
  rw [hst]
  simp only [bind, Except.bind, applyOptional, startResult, ht]
  have hw : (db'.recordOptional (.enqueue task) (asCommitted commit result) [task]
      (some commit)).ensureTaskWritable task = .ok () := by
    rw [ensureTaskWritable_eq_ok]
    intro hr
    have hf := h.writable hr
    rw [← hs.fences] at hf
    exact hf
  have hp : (db'.recordOptional (.enqueue task) (asCommitted commit result) [task]
      (some commit)).tasks.get task.id = some task := by
    rw [tasks_recordOptional, hs.tasks]
    exact h.present
  unfold insertTask
  simp only [hw, hp, if_true]
  rfl

end

end Database

/-! ## The reports -/

/-- The commit as a call applies it: a blank transaction id is replaced by a new one. -/
def Call.commitOf (call : Call) (commit : Commit) : Commit :=
  commit.identified call.transactionUUID

/-- The task under the id that a call stores it with. -/
def Call.identify (call : Call) (task : Task) : Task :=
  if trimSpace task.id = "" then { task with id := call.taskUUID } else task

/-- The task that a call stores. -/
def Call.taskOf (call : Call) (task : Task) : Task := defaultTask call.now (call.identify task)

section

variable {commit : Commit} {db : Database} {call again : Call} {task : Task}

theorem commitOf_of_name (hname : trimSpace commit.transactionID ≠ "") :
    call.commitOf commit = commit := if_neg hname

theorem commitOf_transactionID (hblank : trimSpace commit.transactionID = "") :
    (call.commitOf commit).transactionID = call.transactionUUID := by
  rw [Call.commitOf, Commit.identified, if_pos hblank]

/-- A call that may be repeated names its transaction: under a new id no row is found. -/
theorem named_of_repeats {α : Type} {run : Database → Call → Reply α} {tasksOf : α → List Task}
    {operation : Call → TaskOperation} {marks : Option AttemptStatus}
    (ht : ∀ db call, Truthful (run db call) tasksOf (call.commitOf commit) (operation call) marks db)
    (hco : (run db call).Commits) (hre : Repeats run db call) :
    trimSpace commit.transactionID ≠ "" := by
  intro hblank
  obtain ⟨⟨value, hv⟩, ho⟩ := hco
  obtain ⟨u, hu, -⟩ := exists_fresh (run db call).database ""
  have ha := hre { call with transactionUUID := u }
  have hs : ∃ result tasks op, (run db call).database.Answers
      ({ call with transactionUUID := u : Call }.commitOf commit) op result tasks := by
    rcases (ht _ _).committed value (by rw [ha, hv]) (by rw [ha, ho]) with hw | ⟨-, han⟩
    · have hst := hw.transaction
      rw [ha] at hst
      exact ⟨_, _, _, hst⟩
    · exact ⟨_, _, _, han⟩
  obtain ⟨_, _, _, han⟩ := hs
  rw [Answers, commitOf_transactionID hblank, hu] at han
  cases han

section

variable {lease : TaskLease} {result : TaskResult} {failures : List TaskFailureTransition}

theorem completeTx_commits
    (h : db.completeTx call lease result (some commit) = .ok (.commit db' outcome value)) :
    db'.Written (call.commitOf commit) (.complete lease result) (some .completed) outcome [value] ∧
      value.id = lease.taskID := by
  obtain ⟨stored, -, h⟩ := of_bind h
  cases stored with
  | some transaction =>
    unfold replayComplete at h
    dsimp only at h
    split at h
    · split at h <;> cases h
    · cases h
  | none => exact completeNew_written h

theorem completeWithCommit_truthful :
    Truthful (db.completeWithCommit call lease result (some commit)) (fun task => [task])
      (call.commitOf commit) (.complete lease result) (some .completed) db :=
  truthful_of_tx completeTx_commits completeIdentified_rollback

theorem completeWithCommit_repeats_iff
    (hco : (db.completeWithCommit call lease result (some commit)).Commits) :
    Repeats (fun db call => db.completeWithCommit call lease result (some commit)) db call ↔
      trimSpace commit.transactionID ≠ "" := by
  refine ⟨named_of_repeats (fun _ _ => completeWithCommit_truthful) hco, ?_⟩
  intro hname again
  obtain ⟨⟨value, hv⟩, -⟩ := hco
  obtain ⟨han, hid⟩ := settle_answers completeTx_commits completeIdentified_rollback hv
  have hva : validateRuntimeCommit (call.commitOf commit) = .ok () :=
    validateRuntimeCommit_of_stored (settle_ok hv)
  rw [commitOf_of_name hname] at han hva
  refine settle_answer hv ?_
  unfold completeTx
  rw [map_some, ← Call.commitOf, commitOf_of_name hname]
  exact completeIdentified_answer hva han hid

theorem failTx_commits
    (h : db.failTx call failures (some commit) = .ok (.commit db' outcome rows)) :
    db'.Written (call.commitOf commit) (.fail (sortedFailures failures)) (some .failed) outcome
        rows ∧ rows.length = failures.length := by
  obtain ⟨-, -, h⟩ := of_bind h
  obtain ⟨stored, -, h⟩ := of_bind h
  cases stored with
  | some transaction =>
    unfold replayFail at h
    dsimp only at h
    split at h <;> cases h
  | none => exact failNew_written h

theorem failTx_rollback
    (h : db.failTx call failures (some commit) = .ok (.rollback outcome rows)) :
    db.Answers (call.commitOf commit) (.fail (sortedFailures failures)) outcome rows ∧
      rows.length = failures.length := by
  obtain ⟨-, -, h⟩ := of_bind h
  exact failIdentified_rollback h

theorem failWithCommit_truthful :
    Truthful (db.failWithCommit call failures (some commit)) id (call.commitOf commit)
      (.fail (sortedFailures failures)) (some .failed) db :=
  truthful_of_tx failTx_commits failTx_rollback

theorem failWithCommit_repeats_iff
    (hco : (db.failWithCommit call failures (some commit)).Commits) :
    Repeats (fun db call => db.failWithCommit call failures (some commit)) db call ↔
      trimSpace commit.transactionID ≠ "" := by
  refine ⟨named_of_repeats (fun _ _ => failWithCommit_truthful) hco, ?_⟩
  intro hname again
  obtain ⟨⟨value, hv⟩, -⟩ := hco
  obtain ⟨han, hl⟩ := settle_answers failTx_commits failTx_rollback hv
  obtain ⟨ending, hok⟩ := settle_ok hv
  obtain ⟨_, hne, hok⟩ := of_bind hok
  have hva : validateRuntimeCommit (call.commitOf commit) = .ok () :=
    validateRuntimeCommit_of_stored ⟨ending, hok⟩
  rw [commitOf_of_name hname] at han hva
  refine settle_answer hv ?_
  unfold failTx
  rw [hne, map_some, ← Call.commitOf, commitOf_of_name hname]
  exact failIdentified_answer hva han hl

end

theorem enqueueTx_eq : db.enqueueTx call task (some commit) = (do
      reporting noResult (validateTask (call.identify task))
      db.enqueueNormalized call (call.taskOf task) (some (call.commitOf commit))) := rfl

/-- A valid task that is stored already, beside a new commit that applies. -/
def Database.StoredBefore (db : Database) (call : Call) (task : Task) (commit : Commit) : Prop :=
  validateTask (call.identify task) = .ok () ∧
    db.EnqueuesAgain call (call.taskOf task) (call.commitOf commit)

theorem enqueueTx_commits
    (h : db.enqueueTx call task (some commit) = .ok (.commit db' outcome value)) :
    db'.Written (call.commitOf commit) (.enqueue (call.taskOf task)) none outcome [value] ∧
      value = call.taskOf task := by
  obtain ⟨-, -, h⟩ := of_bind h
  exact enqueueNormalized_written h

theorem enqueueTx_rollback (hb : ¬ db.StoredBefore call task commit)
    (h : db.enqueueTx call task (some commit) = .ok (.rollback outcome value)) :
    db.Answers (call.commitOf commit) (.enqueue (call.taskOf task)) outcome [value] ∧
      value = call.taskOf task := by
  obtain ⟨_, hv, h⟩ := of_bind h
  rw [reporting_eq_ok] at hv
  exact enqueueNormalized_rollback (fun ha => hb ⟨hv, ha⟩) h

/-- The report of a task that is stored already. -/
theorem enqueueWithCommit_storedBefore (h : db.StoredBefore call task commit) :
    ∃ result, db.enqueueWithCommit call task (some commit) = ⟨db, result, .ok (call.taskOf task)⟩ ∧
      result.outcome = .committed ∧ result.transactionID = (call.commitOf commit).transactionID := by
  obtain ⟨result, hb, ho, hid⟩ := enqueueNormalized_again h.2
  refine ⟨result, ?_, ho, hid⟩
  unfold enqueueWithCommit
  rw [enqueueTx_eq, h.1]
  exact congrArg (db.settle call.fate (some commit)) hb

/-- The report of `EnqueueWithCommit` is truthful unless the task is already there. -/
theorem enqueueWithCommit_truthful_iff :
    Truthful (db.enqueueWithCommit call task (some commit)) (fun task => [task])
        (call.commitOf commit) (.enqueue (call.taskOf task)) none db ↔
      ¬ db.StoredBefore call task commit := by
  constructor
  · intro ht hb
    obtain ⟨result, hre, ho, -⟩ := enqueueWithCommit_storedBefore hb
    rw [hre] at ht
    have hn := hb.2.new
    -- the transaction is reported as committed and stored nowhere
    rcases ht.committed _ rfl ho with hw | ⟨-, han⟩
    · have hs := hw.transaction
      rw [hn] at hs
      cases hs
    · rw [Answers, hn] at han
      cases han
  · intro hb
    exact truthful_of_tx enqueueTx_commits (enqueueTx_rollback hb)

theorem enqueueWithCommit_answers (hb : ¬ db.StoredBefore call task commit)
    (hv : (db.enqueueWithCommit call task (some commit)).value = .ok value) :
    (db.enqueueWithCommit call task (some commit)).database.Answers (call.commitOf commit)
        (.enqueue (call.taskOf task)) (db.enqueueWithCommit call task (some commit)).result [value] ∧
      value = call.taskOf task :=
  settle_answers enqueueTx_commits (enqueueTx_rollback hb) hv

/-- A stored enqueueing answers only for its own task. -/
theorem taskOf_eq_of_answers
    (hv : (db.enqueueWithCommit call task (some commit)).value = .ok value)
    (ha : db.Answers (call.commitOf commit) (.enqueue stored) result rows) :
    stored = call.taskOf task := by
  obtain ⟨ending, hok⟩ := settle_ok hv
  rw [enqueueTx_eq] at hok
  obtain ⟨-, -, hok⟩ := of_bind hok
  obtain ⟨found, hs, -⟩ := of_bind hok
  obtain ⟨-, ⟨-, hn⟩ | ⟨transaction, -, hg, hf⟩⟩ := storedTransaction_eq_ok hs
  · rw [Answers, hn] at ha
    cases ha
  · rw [Answers, hg] at ha
    cases ha
    cases hf
    rfl

/-- A call that may be repeated stores its task as it is given: what is generated differs the
next time. -/
theorem taskOf_const_of_repeats (hname : trimSpace commit.transactionID ≠ "")
    (hb : ¬ db.StoredBefore call task commit)
    (hv : (db.enqueueWithCommit call task (some commit)).value = .ok value)
    (hre : Repeats (fun db call => db.enqueueWithCommit call task (some commit)) db call)
    (again : Call) : call.taskOf task = again.taskOf task := by
  have han := (enqueueWithCommit_answers hb hv).1
  have hva : ((db.enqueueWithCommit call task (some commit)).database.enqueueWithCommit again task
      (some commit)).value = (db.enqueueWithCommit call task (some commit)).value :=
    congrArg Reply.value (hre again)
  generalize db.enqueueWithCommit call task (some commit) = reply at han hva hv
  rw [commitOf_of_name hname, ← show again.commitOf commit = commit from if_neg hname] at han
  exact taskOf_eq_of_answers (hva.trans hv) han

theorem enqueueWithCommit_repeats_iff (hb : ¬ db.StoredBefore call task commit)
    (hco : (db.enqueueWithCommit call task (some commit)).Commits) :
    Repeats (fun db call => db.enqueueWithCommit call task (some commit)) db call ↔
      trimSpace commit.transactionID ≠ "" ∧ trimSpace task.id ≠ "" ∧
        task.createdAt ≠ zeroInstant := by
  obtain ⟨⟨value, hv⟩, ho⟩ := hco
  constructor
  · intro hre
    have hname : trimSpace commit.transactionID ≠ "" := by
      intro hblank
      obtain ⟨u, hu, hne⟩ := exists_fresh (db.enqueueWithCommit call task (some commit)).database
        (db.enqueueWithCommit call task (some commit)).result.transactionID
      have ha := hre { call with transactionUUID := u }
      dsimp only at ha
      by_cases hst : (db.enqueueWithCommit call task (some commit)).database.StoredBefore
          { call with transactionUUID := u } task commit
      · obtain ⟨result, hr, -, hid⟩ := enqueueWithCommit_storedBefore hst
        rw [hr] at ha
        rw [commitOf_transactionID hblank] at hid
        exact hne (hid.symm.trans (congrArg (·.result.transactionID) ha))
      · have han := (enqueueWithCommit_answers hst ((congrArg Reply.value ha).trans hv)).1
        rw [Answers, commitOf_transactionID hblank, ha, hu] at han
        cases han
    refine ⟨hname, ?_, ?_⟩
    · intro hid
      have h := congrArg Task.id (taskOf_const_of_repeats hname hb hv hre
        { call with taskUUID := call.taskUUID ++ "x" })
      simp only [Call.taskOf, Call.identify, if_pos hid, defaultTask] at h
      simpa using congrArg String.length h
    · intro hc
      have h := congrArg Task.createdAt (taskOf_const_of_repeats hname hb hv hre
        { call with now := call.now + 1 })
      have hci : ∀ c : Call, (c.identify task).createdAt = zeroInstant := by
        intro c
        unfold Call.identify
        split <;> exact hc
      simp [Call.taskOf, defaultTask, hci] at h
  · rintro ⟨hname, hid, hc⟩ again
    have htask : ∀ c : Call, c.taskOf task = defaultTask task.createdAt task := by
      intro c
      rw [Call.taskOf, Call.identify, if_neg hid]
      simp only [defaultTask, if_neg hc]
    obtain ⟨han, rfl⟩ := enqueueWithCommit_answers hb hv
    obtain ⟨ending, hok⟩ := settle_ok hv
    rw [enqueueTx_eq] at hok
    obtain ⟨_, hvt, hok⟩ := of_bind hok
    have hva : validateRuntimeCommit (call.commitOf commit) = .ok () :=
      validateRuntimeCommit_of_stored ⟨ending, hok⟩
    rw [commitOf_of_name hname] at han hva
    refine settle_answer hv ?_
    have hin : again.identify task = call.identify task := by
      rw [Call.identify, Call.identify, if_neg hid, if_neg hid]
    rw [enqueueTx_eq, hin, hvt, commitOf_of_name hname, htask again, htask call]
    rw [htask call] at han
    exact enqueueNormalized_answer hva han

end

end WeaveFlow
