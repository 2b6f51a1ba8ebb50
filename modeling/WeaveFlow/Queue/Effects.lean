import WeaveFlow.Queue.Operations

/-!
# What the queue does to its rows

Each operation of the queue is taken apart once, into what it finds in the row of the
task and in its last attempt, and what it leaves there: `Updates` for the operations of
a worker that holds a lease, `Cancels` for a cancellation and `Claims` for a claim.
What is proved about histories of the queue only uses that.
-/

namespace WeaveFlow

open Outcome List

namespace Database

/-! ## What the operations do to the rows -/

@[simp] theorem reporting_eq_ok {α : Type} {x : Except TaskError α} {a : α} :
    reporting result x = .ok a ↔ x = .ok a := mapError_eq_ok

@[simp] theorem asTaskError_eq_ok {α : Type} {x : Except RunError α} {a : α} :
    asTaskError x = .ok a ↔ x = .ok a := mapError_eq_ok

theorem durable_eq_some {α : Type} {tx : TxM (TxEnd α)} {db' : Database} {a : α}
    (h : tx.durable fate = some (db', a)) : ∃ result, tx = .ok (.commit db' result a) := by
  unfold TxM.durable at h
  split at h
  next db result value =>
    split at h
    · cases h
    · cases h
      exact ⟨result, rfl⟩
  · cases h

/-- The last attempt of a task gets a status. -/
structure Marks (db db' : Database) (task : Task) (status : AttemptStatus) : Prop where
  marked : ∃ attempt attempt' : Attempt,
    db.attempts.get (toLex (task.id, task.attemptCount)) = some attempt ∧
      attempt'.key = toLex (task.id, task.attemptCount) ∧ attempt'.status = status ∧
      db'.attempts = db.attempts.put attempt'

/-- The row of a task is replaced. -/
structure Replaces (db db' : Database) (task task' : Task) : Prop where
  stored : db.tasks.get task.id = some task
  sameID : task'.id = task.id
  sameCount : task'.attemptCount = task.attemptCount
  tasks : db'.tasks = db.tasks.put task'

/-- The row of a running task is replaced, and its last attempt gets a status. -/
structure Updates (db db' : Database) (task task' : Task) (status : AttemptStatus) : Prop
    extends Replaces db db' task task', Marks db db' task status where
  running : task.status = .running

section

variable {db db' : Database} {task task' : Task} {status : AttemptStatus}

variable {lease : TaskLease}

theorem updateTaskVersion_eq_some (h : db.updateTaskVersion version task = some db') :
    db' = { db with tasks := db.tasks.put task } := by
  unfold updateTaskVersion at h
  split at h
  · cases h
  · split at h
    · cases h; rfl
    · cases h

theorem requireTaskVersion_eq_ok (h : db.requireTaskVersion version task error = .ok db') :
    db' = { db with tasks := db.tasks.put task } := by
  unfold requireTaskVersion at h
  split at h
  · cases h
  next hu => cases h; exact updateTaskVersion_eq_some hu

theorem key_of_attempt (h : db.attempts.get (toLex (taskID, number)) = some attempt) :
    attempt.key = toLex (taskID, number) := KeyedMap.key_of_get h

theorem updateAttempt_eq_ok (h : db.updateAttempt task status message finishedAt = .ok db') :
    Marks db db' task status ∧ db'.tasks = db.tasks ∧ db'.transactions = db.transactions := by
  obtain ⟨attempt, ha, h⟩ := of_bind h
  rw [loadAttempt_eq_ok] at ha
  cases h
  refine ⟨⟨attempt, _, ha, ?_, ?_, rfl⟩, rfl, rfl⟩
  · have hk : attempt.key = toLex (task.id, task.attemptCount) := key_of_attempt ha
    exact hk
  · rfl

theorem validateTaskLease_eq_ok (h : validateTaskLease task lease now = .ok current) :
    task.status = .running ∧ task.lease = some current ∧ current.sameIdentity lease = true ∧
      now < current.expiresAt := by
  unfold validateTaskLease at h
  split at h
  next lease' hs hl =>
    split at h
    next hv =>
      cases h
      rw [Bool.and_eq_true, decide_eq_true_eq] at hv
      exact ⟨hs, hl, hv⟩
    · cases h
  · cases h

theorem id_of_task (h : db.tasks.get taskID = some task) : task.id = taskID := KeyedMap.key_of_get h

/-- A replaced row, with its last attempt marked. -/
theorem updates_of_row (hr : db.requireTaskVersion version task' error = .ok replaced)
    (ha : replaced.updateAttempt task' status message finishedAt = .ok db')
    (hl : db.tasks.get taskID = some task) (hru : task.status = .running)
    (hid : task'.id = task.id) (hc : task'.attemptCount = task.attemptCount) :
    Updates db db' task task' status := by
  have hre := requireTaskVersion_eq_ok hr
  obtain ⟨⟨attempt, attempt', hg, hk, hs, hat⟩, ht, -⟩ := updateAttempt_eq_ok ha
  rw [hid, hc] at hg hk
  subst hre
  have hst : db.tasks.get task.id = some task := by rw [id_of_task hl]; exact hl
  exact ⟨⟨hst, hid, hc, ht⟩, ⟨attempt, attempt', hg, hk, hs, hat⟩, hru⟩

theorem applyTaskCommit_eq_ok {commit : Commit} {start : CommitResult}
    (h : db.applyTaskCommit ctx commit start = .ok (db', result)) :
    db.SameQueue db' ∧ db'.Records commit ∧ result.transactionID = start.transactionID ∧
      result.outcome = .committed := by
  obtain ⟨⟨db₁, result₁⟩, ha, h⟩ := of_bind h
  cases h
  obtain ⟨hs, hr, hid, -⟩ := applyCommit_eq_ok (mapError_eq_ok.mp ha)
  exact ⟨hs, hr, hid, rfl⟩

theorem applyOptional_eq_ok {start : CommitResult}
    (h : db.applyOptional ctx commit start = .ok (db', result)) : db.SameQueue db' := by
  cases commit with
  | none => cases h; exact ⟨rfl, rfl, rfl, rfl⟩
  | some commit => exact (applyTaskCommit_eq_ok h).1

@[simp] theorem tasks_recordOptional (result : CommitResult) (tasks : List Task)
    (commit : Option Commit) :
    (db.recordOptional operation result tasks commit).tasks = db.tasks := by
  cases commit <;> rfl

@[simp] theorem attempts_recordOptional (result : CommitResult) (tasks : List Task)
    (commit : Option Commit) :
    (db.recordOptional operation result tasks commit).attempts = db.attempts := by
  cases commit <;> rfl

@[simp] theorem id_defaultTask : (defaultTask now task).id = task.id := rfl

theorem validateRunnerStorageID_eq_ok (h : validateRunnerStorageID name value = .ok u) :
    trimSpace value = value ∧ value ≠ "" := by
  rw [validateRunnerStorageID, require_eq_ok] at h
  simp only [Bool.and_eq_true, decide_eq_true_eq, ne_eq] at h
  exact ⟨h.1.1.1.1.2, h.1.1.1.1.1⟩

theorem validateTask_eq_ok (h : validateTask task = .ok u) :
    trimSpace task.id = task.id ∧ task.id ≠ "" := by
  unfold validateTask at h
  obtain ⟨_, hid, -⟩ := of_bind h
  rw [asTaskError_eq_ok] at hid
  exact validateRunnerStorageID_eq_ok hid

theorem enqueueNormalized_eq_commit
    (h : db.enqueueNormalized call task commit = .ok (.commit db' result stored)) :
    stored = task ∧ db.tasks.get stored.id = none ∧ db'.tasks = db.tasks.put stored ∧
      db'.attempts = db.attempts := by
  obtain ⟨transaction, -, h⟩ := of_bind h
  cases transaction with
  | some transaction =>
    unfold replayEnqueue at h
    dsimp only at h
    split at h <;> cases h
  | none =>
    obtain ⟨⟨db₁, result₁⟩, ha, h⟩ := of_bind h
    have hs := applyOptional_eq_ok ha
    obtain ⟨-, -, h⟩ := of_bind h
    split at h
    next hn =>
      cases h
      rw [tasks_recordOptional, hs.tasks] at hn
      refine ⟨rfl, hn, ?_, ?_⟩
      · rw [tasks_recordOptional, hs.tasks]
      · exact (attempts_recordOptional _ _ _).trans hs.attempts
    · split at h <;> cases h

/-- An enqueued task is a new row, under a portable record id. -/
structure Enqueues (db db' : Database) (task : Task) : Prop where
  new : db.tasks.get task.id = none
  validID : trimSpace task.id = task.id ∧ task.id ≠ ""
  tasks : db'.tasks = db.tasks.put task
  attempts : db'.attempts = db.attempts

theorem enqueueTx_eq_commit (h : db.enqueueTx call task commit = .ok (.commit db' result stored)) :
    Enqueues db db' stored := by
  obtain ⟨_, hv, h⟩ := of_bind h
  obtain ⟨heq, hn, ht, ha⟩ := enqueueNormalized_eq_commit h
  refine ⟨hn, ?_, ht, ha⟩
  rw [heq, id_defaultTask]
  exact validateTask_eq_ok (reporting_eq_ok.mp hv)

/-- A heartbeat keeps the lease of a running task, apart from its times. -/
structure Renews (db db' : Database) (task task' : Task) : Prop
    extends Updates db db' task task' .running where
  status : task'.status = .running
  lease : ∀ lease', task'.lease = some lease' → ∃ lease, task.lease = some lease ∧
    lease'.token = lease.token ∧ lease'.epoch = lease.epoch

theorem heartbeatTx_eq_commit {ttl : Int}
    (h : db.heartbeatTx call lease now ttl = .ok (.commit db' result updated)) :
    ∃ task task', Renews db db' task task' := by
  obtain ⟨-, -, h⟩ := of_bind h
  simp only [bind_eq_ok] at h
  obtain ⟨task, hl, -, -, current, hle, db₁, hr, db₂, ha, h⟩ := h
  cases h
  rw [reporting_eq_ok] at hl hle hr ha
  rw [loadTask_eq_ok] at hl
  obtain ⟨hru, hc, -, -⟩ := validateTaskLease_eq_ok hle
  refine ⟨task, _, updates_of_row hr ha hl hru rfl rfl, hru, ?_⟩
  rintro lease' ⟨⟩
  exact ⟨current, hc, rfl, rfl⟩

theorem loadCompletable_eq_ok (h : db.loadCompletable lease now = .ok task) :
    db.tasks.get lease.taskID = some task ∧ ∃ current, validateTaskLease task lease now = .ok current := by
  obtain ⟨task₁, hl, h⟩ := of_bind h
  obtain ⟨-, -, h⟩ := of_bind h
  obtain ⟨current, hle, h⟩ := of_bind h
  rw [loadTask_eq_ok] at hl
  split at h
  · obtain ⟨run, -, h⟩ := of_bind h
    obtain ⟨-, -, h⟩ := of_bind h
    cases h
    exact ⟨hl, current, hle⟩
  · cases h
    exact ⟨hl, current, hle⟩

/-- The completion of a running task. -/
structure Completes (db db' : Database) (task completed : Task) : Prop
    extends Updates db db' task completed .completed where
  lease : completed.lease = none
  status : completed.status = .completed

theorem completeNew_eq_commit {completed : Task}
    (h : db.completeNew call lease taskResult commit = .ok (.commit db' result completed)) :
    ∃ task, Completes db db' task completed ∧ completed.id = lease.taskID := by
  obtain ⟨task, hl, h⟩ := of_bind h
  simp only [bind_eq_ok] at h
  obtain ⟨⟨db₁, result₁⟩, ha, db₂, hr, db₃, hat, h⟩ := h
  cases h
  rw [reporting_eq_ok] at hl hr hat
  obtain ⟨hl, current, hle⟩ := loadCompletable_eq_ok hl
  have hs := applyOptional_eq_ok ha
  obtain ⟨hru, -, -, -⟩ := validateTaskLease_eq_ok hle
  have hload₁ : db₁.tasks.get lease.taskID = some task := by rw [hs.tasks]; exact hl
  obtain ⟨hre, ⟨attempt, attempt', hg, hk, hst, hae⟩, -⟩ := updates_of_row hr hat hload₁ hru rfl rfl
  rw [hs.attempts] at hg hae
  refine ⟨task, ⟨⟨⟨?_, hre.sameID, hre.sameCount, ?_⟩, ⟨attempt, attempt', hg, hk,
    hst, ?_⟩, hru⟩, rfl, rfl⟩, ?_⟩
  · rw [id_of_task hl]; exact hl
  · rw [tasks_recordOptional, hre.tasks, hs.tasks]
  · rw [attempts_recordOptional, hae]
  · have hid : task.id = lease.taskID := id_of_task hl
    exact hid

theorem completeTx_eq_commit
    (h : db.completeTx call lease taskResult commit = .ok (.commit db' result completed)) :
    ∃ task, Completes db db' task completed ∧ completed.id = lease.taskID := by
  obtain ⟨transaction, -, h⟩ := of_bind h
  cases transaction with
  | some transaction =>
    unfold replayComplete at h
    dsimp only at h
    split at h
    · split at h <;> cases h
    · cases h
  | none => exact completeNew_eq_commit h

theorem failedStatus_ne (failure : TaskFailure) :
    failedStatus task failure ≠ .completed ∧ failedStatus task failure ≠ .running := by
  unfold failedStatus
  split
  · exact ⟨nofun, nofun⟩
  · split <;> exact ⟨nofun, nofun⟩

/-- The failure of a running task. -/
structure Fails (db db' : Database) : Prop where
  failed : ∃ task task', Updates db db' task task' .failed ∧ task'.lease = none ∧
    task'.status ≠ .completed ∧ task'.status ≠ .running

theorem failOne_eq_ok {transition : TaskFailureTransition}
    (h : failOne now result progress transition = .ok progress') :
    Fails progress.db progress'.db := by
  obtain ⟨-, -, h⟩ := of_bind h
  simp only [bind_eq_ok] at h
  obtain ⟨task, hl, -, -, current, hle, db₁, hr, db₂, ha, h⟩ := h
  cases h
  rw [reporting_eq_ok] at hl hle hr ha
  rw [loadTask_eq_ok] at hl
  obtain ⟨hru, -, -, -⟩ := validateTaskLease_eq_ok hle
  exact ⟨task, _, updates_of_row hr ha hl hru rfl rfl, rfl,
    (failedStatus_ne _).1, (failedStatus_ne _).2⟩

/-- A property of the queue that a failure keeps is kept by a list of failures. -/
theorem failTx_preserves {failures : List TaskFailureTransition} {tasks : List Task}
    {P : Database → Prop}
    (hs : ∀ {db db' : Database}, db'.tasks = db.tasks → db'.attempts = db.attempts → P db → P db')
    (hf : ∀ {db db' : Database}, Fails db db' → P db → P db')
    (h : db.failTx call failures commit = .ok (.commit db' result tasks)) (hP : P db) : P db' := by
  obtain ⟨-, -, h⟩ := of_bind h
  obtain ⟨transaction, -, h⟩ := of_bind h
  cases transaction with
  | some transaction =>
    unfold replayFail at h
    dsimp only at h
    split at h <;> cases h
  | none =>
    obtain ⟨progress, hl, h⟩ := of_bind h
    obtain ⟨⟨db₁, result₁⟩, ha, h⟩ := of_bind h
    cases h
    have hlo : P progress.db := foldlM_induction (P := fun progress : FailProgress => P progress.db)
        (fun _ _ _ _ hb hst => hf (failOne_eq_ok hst) hb) hP hl
    have hq := applyOptional_eq_ok ha
    refine hs ?_ ?_ hlo
    · rw [tasks_recordOptional, hq.tasks]
    · rw [attempts_recordOptional, hq.attempts]

/-- The cancellation of a task that is not completed. -/
structure Cancels (db db' : Database) (task canceled : Task) : Prop
    extends Replaces db db' task canceled where
  open_ : task.status ≠ .completed
  lease : canceled.lease = none
  status : canceled.status = .canceled
  attempts : (task.attemptCount ≤ 0 ∧ db'.attempts = db.attempts) ∨ Marks db db' task .canceled

/-- The task was not canceled before, and an attempt is marked if the task has one. -/
structure CancelsOpen (db db' : Database) (task canceled : Task) : Prop
    extends Cancels db db' task canceled where
  uncanceled : task.status ≠ .canceled
  counted : db'.attempts = db.attempts ∨ 0 < task.attemptCount

theorem cancelStored_eq_ok (hs : db.tasks.get task.id = some task)
    (ho : task.status ≠ .completed) (hu : task.status ≠ .canceled)
    (h : db.cancelStored task now = .ok db') : CancelsOpen db db' task (canceledTask task now) := by
  obtain ⟨db₁, hr, h⟩ := of_bind h
  have hdb₁ := requireTaskVersion_eq_ok hr
  split at h
  next hc =>
    obtain ⟨hm, ht, -⟩ := updateAttempt_eq_ok h
    subst hdb₁
    exact ⟨⟨⟨hs, rfl, rfl, ht⟩, ho, rfl, rfl, .inr ⟨hm.marked⟩⟩, hu, .inr hc⟩
  next hc =>
    cases h
    subst hdb₁
    exact ⟨⟨⟨hs, rfl, rfl, rfl⟩, ho, rfl, rfl, .inl ⟨not_lt.mp hc, rfl⟩⟩, hu, .inl rfl⟩

theorem cancelTx_eq_commit {canceled : Task}
    (h : db.cancelTx call taskID version now = .ok (.commit db' result canceled)) :
    ∃ task, CancelsOpen db db' task canceled ∧ task.id = taskID := by
  obtain ⟨task, hl, h⟩ := of_bind h
  obtain ⟨-, -, h⟩ := of_bind h
  obtain ⟨-, -, h⟩ := of_bind h
  rw [reporting_eq_ok, loadTask_eq_ok] at hl
  split at h
  · cases h
  next ho =>
    obtain ⟨db₁, hc, h⟩ := of_bind h
    cases h
    rw [reporting_eq_ok] at hc
    have hs : db.tasks.get task.id = some task := by rw [id_of_task hl]; exact hl
    simp only [Bool.or_eq_true, decide_eq_true_eq, not_or] at ho
    exact ⟨task, cancelStored_eq_ok hs ho.1 ho.2 hc, id_of_task hl⟩

end

/-! ## What a claim does to the rows -/

/-- The attempts after the running one of an expired lease is abandoned. -/
structure Abandons (db : Database) (task : Task) (attempts : KeyedMap Attempt.key) : Prop where
  abandoned : (attempts = db.attempts ∧ (task.lease.isSome → task.attemptCount ≤ 0)) ∨
    ∃ attempt : Attempt, attempt.key = toLex (task.id, task.attemptCount) ∧
      attempt.status = .abandoned ∧
      (db.attempts.get (toLex (task.id, task.attemptCount))).isSome ∧
      attempts = db.attempts.put attempt

/-- A claim of a task: it was due, and it is running now under the new lease with a new
attempt. -/
structure Claims (db db' : Database) (task claimed : Task) (lease : TaskLease)
    (attempt : Attempt) : Prop where
  stored : db.tasks.get task.id = some task
  due : task.status = .queued ∨ task.status = .running ∧ task.lease.isSome
  expiry : task.status = .running → 0 < taskLeaseExpiry task
  left : attemptsLeft task = true
  sameID : claimed.id = task.id
  count : claimed.attemptCount = task.attemptCount + 1
  status : claimed.status = .running
  lease_eq : claimed.lease = some lease
  leaseTask : lease.taskID = task.id
  token : attempt.leaseToken = lease.token
  tasks : db'.tasks = db.tasks.put claimed
  key : attempt.key = toLex (task.id, task.attemptCount + 1)
  running : attempt.status = .running
  attempts : ∃ attempts, Abandons db task attempts ∧ attempts.get attempt.key = none ∧
    db'.attempts = attempts.put attempt

/-- How a claim goes on from the lease in the row: without one, the epochs begin again and no
attempt is abandoned. -/
structure Continues (db db' : Database) (task : Task) (lease : TaskLease) (attempt : Attempt) :
    Prop where
  epoch : lease.epoch = (task.lease.map (·.epoch)).getD 0 + 1
  unleased : task.lease = none → db'.attempts = db.attempts.put attempt

section

variable {db db' : Database} {task : Task}

variable {now : Instant} {attempt : Attempt}

theorem isDue_iff : isDue task now = true ↔
    (task.status = .queued ∧ unixNano task.availableAt ≤ unixNano now) ∨
      (task.status = .running ∧ 0 < taskLeaseExpiry task ∧
        taskLeaseExpiry task ≤ unixNano now) := by
  simp [isDue, and_assoc]

theorem lease_of_expiry (h : 0 < taskLeaseExpiry task) : task.lease.isSome := by
  unfold taskLeaseExpiry at h
  split at h
  · exact absurd h (lt_irrefl 0)
  next hl => rw [hl]; rfl

theorem selectClaimableTask_eq_ok (h : db.selectClaimableTask taskID kinds now = .ok task) :
    db.tasks.get task.id = some task ∧ db.isClaimable taskID kinds now task = true := by
  unfold selectClaimableTask at h
  dsimp only at h
  split at h
  · cases h
  next first rest hs =>
    cases h
    have hm : task ∈ (db.tasks.vals.filter (db.isClaimable taskID kinds now)) := by
      rw [← mem_insertionSort (fun a b => claimKey a ≤ claimKey b), hs]
      exact mem_cons_self
    obtain ⟨hr, hc⟩ := mem_filter.mp hm
    exact ⟨KeyedMap.mem_vals.mp hr, hc⟩

theorem abandonRunningAttempt_eq_ok (h : db.abandonRunningAttempt task now = .ok db') :
    db' = { db with attempts := db'.attempts } ∧ Abandons db task db'.attempts := by
  unfold abandonRunningAttempt at h
  split at h
  next hc => cases h; exact ⟨rfl, ⟨.inl ⟨rfl, fun _ => hc⟩⟩⟩
  · obtain ⟨attempt, ha, h⟩ := of_bind h
    rw [loadAttempt_eq_ok] at ha
    cases h
    refine ⟨rfl, ⟨.inr ⟨_, ?_, ?_, ?_, rfl⟩⟩⟩
    · have hk : attempt.key = toLex (task.id, task.attemptCount) := key_of_attempt ha
      exact hk
    · rfl
    · rw [ha]; rfl

theorem abandonLeased_eq_ok (h : db.abandonLeased task now = .ok db') :
    db' = { db with attempts := db'.attempts } ∧ Abandons db task db'.attempts ∧
      (task.lease = none → db'.attempts = db.attempts) := by
  unfold abandonLeased at h
  split at h
  next hl =>
    obtain ⟨hd, ha⟩ := abandonRunningAttempt_eq_ok h
    exact ⟨hd, ha, fun hn => by rw [hn] at hl; cases hl⟩
  next hl => cases h; exact ⟨rfl, ⟨.inl ⟨rfl, fun hs => absurd hs hl⟩⟩, fun _ => rfl⟩

theorem insertAttempt_eq_ok (h : db.insertAttempt attempt = .ok db') :
    db.attempts.get attempt.key = none ∧ db' = { db with attempts := db.attempts.put attempt } := by
  obtain ⟨-, -, h⟩ := of_bind h
  obtain ⟨_, hn, h⟩ := of_bind h
  cases h
  exact ⟨Option.isNone_iff_eq_none.mp (requireTask_eq_ok.mp hn), rfl⟩

theorem due_of_isClaimable (h : db.isClaimable taskID kinds now task = true) :
    (task.status = .queued ∨ task.status = .running ∧ task.lease.isSome) ∧
      (task.status = .running → 0 < taskLeaseExpiry task) ∧ attemptsLeft task = true := by
  simp only [isClaimable, Bool.and_eq_true] at h
  rcases isDue_iff.mp h.1.1.1.1 with ⟨hq, -⟩ | ⟨hr, he, -⟩
  · refine ⟨.inl hq, fun hr => ?_, h.2⟩
    simp [hq] at hr
  · exact ⟨.inr ⟨hr, lease_of_expiry he⟩, fun _ => he, h.2⟩

theorem claimOnce_eq_some
    (h : db.claimOnce workerID options now token attemptID = .ok (some (db', claimed, attempt))) :
    ∃ task lease, Claims db db' task claimed lease attempt ∧ Continues db db' task lease attempt := by
  obtain ⟨task, hs, h⟩ := of_bind h
  obtain ⟨db₁, ha, h⟩ := of_bind h
  obtain ⟨hst, hc⟩ := selectClaimableTask_eq_ok hs
  have hab := abandonLeased_eq_ok ha
  dsimp only at h
  split at h
  · cases h
  next db₂ hu =>
    obtain ⟨db₃, hi, h⟩ := of_bind h
    cases h
    have hdb₂ := updateTaskVersion_eq_some hu
    obtain ⟨hn, hdb₃⟩ := insertAttempt_eq_ok hi
    have ht : db₁.tasks = db.tasks := by rw [hab.1]
    subst hdb₂ hdb₃
    obtain ⟨hd, he, hl⟩ := due_of_isClaimable hc
    refine ⟨task, _, ⟨hst, hd, he, hl, rfl, rfl, rfl, rfl, rfl, rfl,
      ?_, rfl, rfl, _, hab.2.1, hn, rfl⟩, rfl, fun hno => ?_⟩
    · exact congrArg (fun tasks : KeyedMap Task.id => tasks.put _) ht
    · exact congrArg (fun attempts : KeyedMap Attempt.key => attempts.put _) (hab.2.2 hno)

theorem claimTx_eq_commit {workerID : String} {uuids : Nat → String × String}
    (h : db.claimTx call workerID options uuids = .ok (.commit db' result (claimed, attempt))) :
    ∃ task lease, Claims db db' task claimed lease attempt ∧ Continues db db' task lease attempt := by
  obtain ⟨-, -, h⟩ := of_bind h
  obtain ⟨-, -, h⟩ := of_bind h
  obtain ⟨⟨db₁, task₁, attempt₁⟩, hl, h⟩ := of_bind h
  cases h
  rw [reporting_eq_ok] at hl
  -- by induction on the retries left: the last one that was made has succeeded
  generalize (8 : Nat) = n at hl
  induction n with
  | zero => cases hl
  | succ n ih =>
    obtain ⟨claim, ho, hl⟩ := of_bind hl
    cases claim with
    | none => exact ih hl
    | some claim => cases hl; exact claimOnce_eq_some ho

end

end Database

end WeaveFlow
