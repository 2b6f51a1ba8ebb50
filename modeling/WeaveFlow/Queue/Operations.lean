import WeaveFlow.Queue.Database

/-!
# The task queue

The operations of the queue: a task is enqueued, claimed by a worker for a while,
kept by heartbeats, and completed, failed or canceled.  `Enqueue`, `Complete` and
`Fail` have a second form that applies a runtime commit in the same transaction, and
the source writes both forms as one function of an optional commit.

A call is the body of a transaction.  The body ends in one of three ways: in an
error, in a return before the commit, or in the commit.  The deferred rollback
undoes its writes in the first two cases, so only a body that ends in `commit` can
change the database (`settle`).
-/

namespace WeaveFlow

/-! ## Transactions -/

inductive TaskError where
  /-- `ErrTaskNotFound`. -/
  | notFound
  /-- `ErrTaskConflict`. -/
  | conflict (message : String)
  /-- `ErrTaskLeaseLost`. -/
  | leaseLost
  /-- An error of a check on runtime records. -/
  | runtime (error : RunError)
  /-- An error of the database. -/
  | storage (message : String)
  /-- An error without a sentinel. -/
  | invalid (message : String)
  deriving DecidableEq, Repr

/-- How the body of a transaction ends without an error. -/
inductive TxEnd (α : Type) where
  /-- It reaches `tx.Commit` with these writes. -/
  | commit (db : Database) (result : CommitResult) (value : α)
  /-- It returns before, and its writes are rolled back. -/
  | rollback (result : CommitResult) (value : α)

/-- A computation inside a transaction.  An error comes with the commit result returned
beside it. -/
abbrev TxM (α : Type) := Except (CommitResult × TaskError) α

/-- What becomes of `tx.Commit`. -/
inductive CommitFate where
  | committed
  /-- It fails and nothing was written. -/
  | lost
  /-- It fails and yet the writes are durable. -/
  | unacknowledged
  deriving DecidableEq, Repr

/-- What a call returns, with the database it leaves. -/
structure Reply (α : Type) where
  database : Database
  result : CommitResult
  value : Except TaskError α

/-- `CommitResult{}`. -/
def noResult : CommitResult := { transactionID := "", outcome := .unset }

def notStarted (commit : Commit) : CommitResult :=
  { transactionID := commit.transactionID, outcome := .notStarted }

/-- The result of a commit whose records are written. -/
def asCommitted (commit : Commit) (result : CommitResult) : CommitResult :=
  { result with artifacts := commit.artifacts, outcome := .committed }

def startResult : Option Commit → CommitResult
  | none => noResult
  | some commit => notStarted commit

/-- The result that is returned when `tx.Commit` fails. -/
def unknownResult (commit : Option Commit) (result : CommitResult) : CommitResult :=
  match commit with
  | none => result
  | some _ => { result with outcome := .outcomeUnknown }

/-- The writes of a body that become durable, with its value. -/
def TxM.durable {α : Type} (fate : CommitFate) : TxM (TxEnd α) → Option (Database × α)
  | .ok (.commit db _ value) => if fate = .lost then none else some (db, value)
  | _ => none

/-- The end of a call: `tx.Commit`, or the deferred rollback. -/
def Database.settle {α : Type} (db : Database) (fate : CommitFate) (commit : Option Commit)
    (tx : TxM (TxEnd α)) : Reply α :=
  let database := ((tx.durable fate).map Prod.fst).getD db
  match tx with
  | .error (result, error) => ⟨database, result, .error error⟩
  | .ok (.rollback result value) => ⟨database, result, .ok value⟩
  | .ok (.commit _ result value) =>
    if fate = .committed then ⟨database, result, .ok value⟩
    else ⟨database, unknownResult commit result, .error (.storage "commit")⟩

/-- An error of a step of the body, returned with a commit result. -/
def reporting {α : Type} (result : CommitResult) (x : Except TaskError α) :
    TxM α :=
  x.mapError (Prod.mk result)

/-- An error of a check on runtime records. -/
def asTaskError {α : Type} (x : Except RunError α) : Except TaskError α := x.mapError .runtime

/-- A check of the queue that fails with an error. -/
def requireTask (condition : Bool) (error : TaskError) : Except TaskError Unit :=
  if condition then .ok () else .error error

@[simp] theorem requireTask_eq_ok : requireTask condition error = .ok u ↔ condition = true := by
  cases condition <;> simp [requireTask]

/-- What a call draws from its surroundings. -/
structure Call where
  ctx : Context := {}
  /-- `time.Now`. -/
  now : Instant
  /-- The `uuid.NewString` of a task without an id. -/
  taskUUID : String := ""
  /-- The `uuid.NewString` of a commit without a transaction id. -/
  transactionUUID : String := ""
  fate : CommitFate := .committed
  deriving DecidableEq, Repr

/-- The commit under an id of its own. -/
def Commit.identified (commit : Commit) (uuid : String) : Commit :=
  if trimSpace commit.transactionID = "" then { commit with transactionID := uuid } else commit

/-! ## Rows of the queue -/

def taskLeaseExpiry (task : Task) : Int :=
  match task.lease with
  | none => 0
  | some lease => unixNano lease.expiresAt

def validateTask (task : Task) : Except TaskError Unit := do
  asTaskError (validateRunnerStorageID "task ID" task.id)
  requireTask (trimSpace task.kind ≠ "") (.invalid "task kind is required")
  if task.runID = "" then .ok () else asTaskError (validateRunnerStorageID "run ID" task.runID)

def TaskLease.sameIdentity (current lease : TaskLease) : Bool :=
  current.taskID = lease.taskID && current.workerID = lease.workerID &&
    current.token = lease.token && current.epoch = lease.epoch

/-- `validateTaskLease`; no caller allows an expired lease. -/
def validateTaskLease (task : Task) (lease : TaskLease) (now : Instant) : Except TaskError TaskLease :=
  match task.status, task.lease with
  | .running, some current =>
    if current.sameIdentity lease && now < current.expiresAt then .ok current
    else .error .leaseLost
  | _, _ => .error .leaseLost

/-- The kind of a task that runs a whole graph. -/
def taskKindGraphRun : String := "graph.run"

namespace Database

def loadTask (db : Database) (taskID : String) : Except TaskError Task :=
  match db.tasks.get taskID with
  | none => .error .notFound
  | some task => .ok task

@[simp] theorem loadTask_eq_ok {db : Database} {taskID : String} {task : Task} :
    db.loadTask taskID = .ok task ↔ db.tasks.get taskID = some task := by
  rw [loadTask]
  split <;> simp_all

/-- `ensureRunWritable` for the run of a task, if it has one. -/
def ensureTaskWritable (db : Database) (task : Task) : Except TaskError Unit :=
  if task.runID = "" then .ok () else asTaskError (db.ensureRunWritable task.runID)

/-- `updateTaskVersion`, without a result when no row has the expected version. -/
def updateTaskVersion (db : Database) (expectedVersion : Nat) (task : Task) : Option Database :=
  match db.tasks.get task.id with
  | none => none
  | some row =>
    if row.version = expectedVersion then some { db with tasks := db.tasks.put task } else none

/-- `updateTaskVersion` where a missing row is an error. -/
def requireTaskVersion (db : Database) (expectedVersion : Nat) (task : Task)
    (error : TaskError) : Except TaskError Database :=
  match db.updateTaskVersion expectedVersion task with
  | none => .error error
  | some db => .ok db

def loadAttempt (db : Database) (taskID : String) (number : Int) : Except TaskError Attempt :=
  match db.attempts.get (toLex (taskID, number)) with
  | none => .error (.storage "sql: no rows in result set")
  | some attempt => .ok attempt

@[simp] theorem loadAttempt_eq_ok {db : Database} {taskID : String} {number : Int}
    {attempt : Attempt} : db.loadAttempt taskID number = .ok attempt ↔
      db.attempts.get (toLex (taskID, number)) = some attempt := by
  rw [loadAttempt]
  split <;> simp_all

/-- `insertAttempt`: the attempt id and the number of the task are both unique. -/
def insertAttempt (db : Database) (attempt : Attempt) : Except TaskError Database := do
  requireTask (db.attempts.vals.all (·.id ≠ attempt.id))
    (.storage "constraint failed: attempts.attempt_id")
  requireTask (db.attempts.get attempt.key).isNone
    (.storage "constraint failed: attempts.task_id, attempts.number")
  return { db with attempts := db.attempts.put attempt }

/-- `updateAttempt`: the last attempt of the task gets a status. -/
def updateAttempt (db : Database) (task : Task) (status : AttemptStatus) (message : String)
    (finishedAt : Option Instant) : Except TaskError Database := do
  let attempt ← db.loadAttempt task.id task.attemptCount
  let heartbeatAt := (task.lease.map (·.heartbeatAt)).getD attempt.heartbeatAt
  let attempt := { attempt with status, error := message, heartbeatAt, finishedAt }
  return { db with attempts := db.attempts.put attempt }

def abandonRunningAttempt (db : Database) (task : Task) (now : Instant) :
    Except TaskError Database :=
  if task.attemptCount ≤ 0 then .ok db
  else do
    let attempt ← db.loadAttempt task.id task.attemptCount
    let attempt :=
      { attempt with status := .abandoned, finishedAt := some now, error := "task lease expired" }
    return { db with attempts := db.attempts.put attempt }

/-- The attempt of a lease that a claim takes over. -/
def abandonLeased (db : Database) (task : Task) (now : Instant) : Except TaskError Database :=
  if task.lease.isSome then db.abandonRunningAttempt task now else .ok db

/-- `ListAttempts`; the table is in the order of its keys. -/
def listAttempts (db : Database) (taskID : String) : List Attempt :=
  db.attempts.vals.filter (·.taskID = taskID)

/-! ## Commits beside an operation -/

def insertTaskTransaction (db : Database) (commit : Commit) (operation : TaskOperation)
    (result : CommitResult) (tasks : List Task) : Database :=
  let transaction :=
    ⟨result.transactionID, .atomic (commitFingerprint commit) operation, result, tasks⟩
  { db with transactions := db.transactions.put transaction }

/-- `applyCommit` as the queue calls it. -/
def applyTaskCommit (db : Database) (ctx : Context) (commit : Commit) (result : CommitResult) :
    TxM (Database × CommitResult) := do
  let (db, result) ← (db.applyCommit ctx commit result).mapError fun (result, error) =>
    (result, .runtime error)
  return (db, asCommitted commit result)

def applyOptional (db : Database) (ctx : Context) :
    Option Commit → CommitResult → TxM (Database × CommitResult)
  | none, result => .ok (db, result)
  | some commit, result => db.applyTaskCommit ctx commit result

/-- The transaction row of an operation, if it has a commit. -/
def recordOptional (db : Database) (operation : TaskOperation) (result : CommitResult)
    (tasks : List Task) : Option Commit → Database
  | none => db
  | some commit => db.insertTaskTransaction commit operation result tasks

/-- The checks of a commit before the transaction begins, and the transaction stored
under its id, if there is one with this fingerprint. -/
def storedTransaction (db : Database) (operation : TaskOperation) :
    Option Commit → TxM (Option StoredTransaction)
  | none => .ok none
  | some commit => do
      reporting (notStarted commit) (asTaskError (validateRuntimeCommit commit))
      match db.transactions.get commit.transactionID with
      | none => return none
      | some stored => do
          reporting (notStarted commit) <| requireTask
            (stored.fingerprint = .atomic (commitFingerprint commit) operation)
            (.invalid ("runtime transaction " ++ quoted commit.transactionID ++
              " fingerprint mismatch"))
          return some stored

/-! ## Enqueue -/

def defaultTask (now : Instant) (task : Task) : Task :=
  let createdAt := if task.createdAt = zeroInstant then now else task.createdAt
  { task with
    createdAt
    updatedAt := if task.updatedAt = zeroInstant then createdAt else task.updatedAt
    availableAt := if task.availableAt = zeroInstant then createdAt else task.availableAt
    status := if task.status = .unset then .queued else task.status }

/-- The row of the task.  A task that is there already is returned when it is the same
one, before the commit is reached. -/
def insertTask (db : Database) (result : CommitResult) (task : Task) : TxM (TxEnd Task) := do
  reporting result (db.ensureTaskWritable task)
  match db.tasks.get task.id with
  | none => return .commit { db with tasks := db.tasks.put task } result task
  | some existing =>
    if existing = task then return .rollback result existing
    else .error (result, .conflict ("enqueue task " ++ quoted task.id))

def replayEnqueue (stored : StoredTransaction) (task : Task) (result : CommitResult) : TxM (TxEnd Task) :=
  if stored.tasks = [task] then return .rollback stored.result task
  else .error (result, .conflict ("runtime transaction " ++ quoted result.transactionID ++
    " task mismatch"))

/-- The body of `enqueueWithCommit` once the task has its defaults and the commit its
id. -/
def enqueueNormalized (db : Database) (call : Call) (task : Task) (commit : Option Commit) :
    TxM (TxEnd Task) := do
  match ← db.storedTransaction (.enqueue task) commit with
  | some stored => replayEnqueue stored task (startResult commit)
  | none => do
      let (db, result) ← db.applyOptional call.ctx commit (startResult commit)
      (db.recordOptional (.enqueue task) result [task] commit).insertTask result task

/-- The body of `enqueueWithCommit`. -/
def enqueueTx (db : Database) (call : Call) (task : Task) (commit : Option Commit) : TxM (TxEnd Task) := do
  let task := if trimSpace task.id = "" then { task with id := call.taskUUID } else task
  reporting noResult (validateTask task)
  db.enqueueNormalized call (defaultTask call.now task)
    (commit.map (·.identified call.transactionUUID))

/-- `Enqueue` and `EnqueueWithCommit`. -/
def enqueueWithCommit (db : Database) (call : Call) (task : Task) (commit : Option Commit) :
    Reply Task :=
  db.settle call.fate commit (db.enqueueTx call task commit)

/-! ## Claim -/

structure ClaimOptions where
  taskID : String := ""
  kinds : List String := []
  now : Instant := zeroInstant
  ttl : Int
  deriving DecidableEq, Repr

def attemptsLeft (task : Task) : Bool :=
  task.maxAttempts ≤ 0 || task.attemptCount < task.maxAttempts

/-- A task is due: queued and available, or running with an expired lease. -/
def isDue (task : Task) (now : Instant) : Bool :=
  (task.status = .queued && unixNano task.availableAt ≤ unixNano now) ||
    (task.status = .running && 0 < taskLeaseExpiry task && taskLeaseExpiry task ≤ unixNano now)

/-- The condition of the query of `selectClaimableTask`. -/
def isClaimable (db : Database) (taskID : String) (kinds : List String) (now : Instant)
    (task : Task) : Bool :=
  isDue task now && (db.fences.get task.runID).isNone &&
    (trimSpace taskID = "" || task.id = trimSpace taskID) &&
    (kinds.isEmpty || task.kind ∈ kinds.map trimSpace) && attemptsLeft task

/-- The order of the query. -/
def claimKey (task : Task) : Int ×ₗ Int ×ₗ String :=
  toLex (unixNano task.availableAt, toLex (unixNano task.createdAt, task.id))

def selectClaimableTask (db : Database) (taskID : String) (kinds : List String) (now : Instant) :
    Except TaskError Task :=
  let rows := db.tasks.vals.filter (db.isClaimable taskID kinds now)
  match rows.insertionSort fun a b => claimKey a ≤ claimKey b with
  | [] => .error .notFound
  | task :: _ => .ok task

def claimedTask (task : Task) (lease : TaskLease) (now : Instant) : Task :=
  { task with
    status := .running
    lease := some lease
    attemptCount := task.attemptCount + 1
    version := task.version + 1
    updatedAt := now }

/-- The lease that a claim issues. -/
def newLease (task : Task) (workerID token : String) (now : Instant) (ttl : Int) : TaskLease where
  taskID := task.id
  workerID := workerID
  token := token
  epoch := (task.lease.map (·.epoch)).getD 0 + 1
  acquiredAt := now
  heartbeatAt := now
  expiresAt := now + ttl

/-- The attempt that a claim begins. -/
def newAttempt (task : Task) (lease : TaskLease) (attemptID : String) (now : Instant) :
    Attempt where
  id := attemptID
  taskID := task.id
  number := task.attemptCount
  workerID := lease.workerID
  leaseToken := lease.token
  leaseEpoch := lease.epoch
  status := .running
  startedAt := now
  heartbeatAt := now

/-- One transaction of `Claim`, without a result when the row had another version. -/
def claimOnce (db : Database) (workerID : String) (options : ClaimOptions) (now : Instant)
    (token attemptID : String) : Except TaskError (Option (Database × Task × Attempt)) := do
  let task ← db.selectClaimableTask options.taskID options.kinds now
  let db ← db.abandonLeased task now
  let lease := newLease task workerID token now options.ttl
  let claimed := claimedTask task lease now
  match db.updateTaskVersion task.version claimed with
  | none => return none
  | some db => do
      let attempt := newAttempt claimed lease attemptID now
      let db ← db.insertAttempt attempt
      return some (db, claimed, attempt)

/-- The loop of `Claim`; the uuids of an iteration are a token and an attempt id. -/
def claimLoop (db : Database) (workerID : String) (options : ClaimOptions) (now : Instant)
    (uuids : Nat → String × String) : Nat → Except TaskError (Database × Task × Attempt)
  | 0 => .error (.conflict "claim")
  | n + 1 => do
      match ← db.claimOnce workerID options now (uuids n).1 (uuids n).2 with
      | none => claimLoop db workerID options now uuids n
      | some claim => return claim

/-- The body of `Claim`. -/
def claimTx (db : Database) (call : Call) (workerID : String) (options : ClaimOptions)
    (uuids : Nat → String × String) : TxM (TxEnd (Task × Attempt)) := do
  reporting noResult (asTaskError (validateRunnerStorageID "worker ID" workerID))
  reporting noResult <| requireTask (0 < options.ttl)
    (.invalid "task lease TTL must be greater than zero")
  let now := if options.now = zeroInstant then call.now else options.now
  let (db, task, attempt) ← reporting noResult (db.claimLoop workerID options now uuids 8)
  return .commit db noResult (task, attempt)

def claim (db : Database) (call : Call) (workerID : String) (options : ClaimOptions)
    (uuids : Nat → String × String) : Reply (Task × Attempt) :=
  db.settle call.fate none (db.claimTx call workerID options uuids)

/-! ## Heartbeat -/

/-- The task as a heartbeat leaves it. -/
def renewedTask (task : Task) (lease : TaskLease) (now : Instant) : Task :=
  { task with lease := some lease, version := task.version + 1, updatedAt := now }

/-- The body of `Heartbeat`. -/
def heartbeatTx (db : Database) (call : Call) (lease : TaskLease) (now : Instant) (ttl : Int) :
    TxM (TxEnd TaskLease) := do
  reporting noResult <| requireTask (0 < ttl) (.invalid "task lease TTL must be greater than zero")
  let now := if now = zeroInstant then call.now else now
  let task ← reporting noResult (db.loadTask lease.taskID)
  reporting noResult (db.ensureTaskWritable task)
  let current ← reporting noResult (validateTaskLease task lease now)
  let updated := { current with heartbeatAt := now, expiresAt := now + ttl }
  let renewed := renewedTask task updated now
  let db ← reporting noResult (db.requireTaskVersion task.version renewed .leaseLost)
  let db ← reporting noResult (db.updateAttempt renewed .running "" none)
  return .commit db noResult updated

def heartbeat (db : Database) (call : Call) (lease : TaskLease) (now : Instant) (ttl : Int) :
    Reply TaskLease :=
  db.settle call.fate none (db.heartbeatTx call lease now ttl)

/-! ## Complete -/

/-- The checks of `completeWithCommit` on the task. -/
def loadCompletable (db : Database) (lease : TaskLease) (now : Instant) :
    Except TaskError Task := do
  let task ← db.loadTask lease.taskID
  db.ensureTaskWritable task
  let _ ← validateTaskLease task lease now
  if task.kind = taskKindGraphRun then do
    let run ← asTaskError (db.loadRun task.runID)
    requireTask run.status.isTerminal
      (.conflict ("graph run task " ++ quoted task.id ++ " cannot complete while run " ++
        quoted task.runID ++ " is not terminal"))
    return task
  else return task

/-- The task as its completion leaves it. -/
def completedTask (task : Task) (result : TaskResult) (now : Instant) : Task :=
  { task with
    status := .completed
    payload := result.payload
    lease := none
    version := task.version + 1
    updatedAt := now
    completedAt := some now }

/-- The part of `completeWithCommit` after the duplicate check. -/
def completeNew (db : Database) (call : Call) (lease : TaskLease) (taskResult : TaskResult)
    (commit : Option Commit) : TxM (TxEnd Task) := do
  let task ← reporting (startResult commit) (db.loadCompletable lease call.now)
  let (db, result) ← db.applyOptional call.ctx commit (startResult commit)
  let completed := completedTask task taskResult call.now
  let db ← reporting result (db.requireTaskVersion task.version completed .leaseLost)
  let db ← reporting result (db.updateAttempt completed .completed "" (some call.now))
  return .commit (db.recordOptional (.complete lease taskResult) result [completed] commit) result
    completed

def replayComplete (stored : StoredTransaction) (lease : TaskLease) (result : CommitResult) :
    TxM (TxEnd Task) :=
  match stored.tasks with
  | [task] =>
    if task.id = lease.taskID then return .rollback stored.result task
    else .error (result, .conflict ("runtime transaction " ++ quoted result.transactionID ++
      " completed task mismatch"))
  | _ => .error (result, .conflict ("runtime transaction " ++ quoted result.transactionID ++
      " completed task mismatch"))

/-- The body of `completeWithCommit` once the commit has its id. -/
def completeIdentified (db : Database) (call : Call) (lease : TaskLease) (taskResult : TaskResult)
    (commit : Option Commit) : TxM (TxEnd Task) := do
  match ← db.storedTransaction (.complete lease taskResult) commit with
  | some stored => replayComplete stored lease (startResult commit)
  | none => db.completeNew call lease taskResult commit

/-- The body of `completeWithCommit`. -/
def completeTx (db : Database) (call : Call) (lease : TaskLease) (taskResult : TaskResult)
    (commit : Option Commit) : TxM (TxEnd Task) :=
  db.completeIdentified call lease taskResult (commit.map (·.identified call.transactionUUID))

/-- `Complete` and `CompleteWithCommit`. -/
def completeWithCommit (db : Database) (call : Call) (lease : TaskLease) (taskResult : TaskResult)
    (commit : Option Commit) : Reply Task :=
  db.settle call.fate commit (db.completeTx call lease taskResult commit)

/-! ## Fail -/

def failedStatus (task : Task) (failure : TaskFailure) : TaskStatus :=
  if failure.retryable && attemptsLeft task then .queued
  else if 0 < task.maxAttempts && task.maxAttempts ≤ task.attemptCount then .dead
  else .failed

def failedTask (task : Task) (failure : TaskFailure) (now : Instant) : Task :=
  let status := failedStatus task failure
  let retryAt := if failure.retryAt = zeroInstant then now else failure.retryAt
  { task with
    status
    availableAt := if status = .queued then retryAt else task.availableAt
    lastError := trimSpace failure.message
    lease := none
    version := task.version + 1
    updatedAt := now
    completedAt := if status = .queued then task.completedAt else some now }

/-- The loop variables of `failWithCommit`. -/
structure FailProgress where
  db : Database
  tasks : List Task := []
  seen : List String := []

/-- An iteration of `failWithCommit`.  Most of its errors come with an empty commit
result, that of a fenced run with the one of the call. -/
def failOne (now : Instant) (result : CommitResult) (progress : FailProgress)
    (transition : TaskFailureTransition) : TxM FailProgress := do
  let lease := transition.lease
  reporting noResult <| requireTask (lease.taskID ∉ progress.seen)
    (.invalid ("duplicate task failure " ++ quoted lease.taskID))
  let task ← reporting noResult (progress.db.loadTask lease.taskID)
  reporting result (progress.db.ensureTaskWritable task)
  let _ ← reporting noResult (validateTaskLease task lease now)
  let failed := failedTask task transition.failure now
  let db ← reporting noResult (progress.db.requireTaskVersion task.version failed .leaseLost)
  let db ← reporting noResult (db.updateAttempt failed .failed failed.lastError (some now))
  return ⟨db, progress.tasks ++ [failed], lease.taskID :: progress.seen⟩

/-- The part of `failWithCommit` after the duplicate check. -/
def failNew (db : Database) (call : Call) (failures : List TaskFailureTransition)
    (operation : TaskOperation) (commit : Option Commit) : TxM (TxEnd (List Task)) := do
  let progress ← failures.foldlM (failOne call.now (startResult commit)) { db }
  let (db, result) ← progress.db.applyOptional call.ctx commit (startResult commit)
  return .commit (db.recordOptional operation result progress.tasks commit) result progress.tasks

/-- The order of the failures in a fingerprint. -/
def sortedFailures (failures : List TaskFailureTransition) : List TaskFailureTransition :=
  failures.insertionSort fun a b =>
    toLex (a.lease.taskID, a.lease.epoch) ≤ toLex (b.lease.taskID, b.lease.epoch)

def replayFail (stored : StoredTransaction) (failures : List TaskFailureTransition)
    (result : CommitResult) : TxM (TxEnd (List Task)) :=
  if stored.tasks.length = failures.length then return .rollback stored.result stored.tasks
  else .error (result, .conflict ("runtime transaction " ++ quoted result.transactionID ++
    " failed task count mismatch"))

/-- The body of `failWithCommit` once the commit has its id. -/
def failIdentified (db : Database) (call : Call) (failures : List TaskFailureTransition)
    (commit : Option Commit) : TxM (TxEnd (List Task)) := do
  match ← db.storedTransaction (.fail (sortedFailures failures)) commit with
  | some stored => replayFail stored failures (startResult commit)
  | none => db.failNew call failures (.fail (sortedFailures failures)) commit

/-- The body of `failWithCommit`. -/
def failTx (db : Database) (call : Call) (failures : List TaskFailureTransition)
    (commit : Option Commit) : TxM (TxEnd (List Task)) := do
  reporting noResult <| requireTask (!failures.isEmpty) (.invalid "task failures are required")
  db.failIdentified call failures (commit.map (·.identified call.transactionUUID))

/-- `Fail`, for a list of one failure, and `FailWithCommit`. -/
def failWithCommit (db : Database) (call : Call) (failures : List TaskFailureTransition)
    (commit : Option Commit) : Reply (List Task) :=
  db.settle call.fate commit (db.failTx call failures commit)

/-! ## Cancel -/

/-- The task as its cancellation leaves it. -/
def canceledTask (task : Task) (now : Instant) : Task :=
  { task with
    status := .canceled
    lease := none
    version := task.version + 1
    updatedAt := now
    completedAt := some now }

/-- The update of `Cancel`. -/
def cancelStored (db : Database) (task : Task) (now : Instant) : Except TaskError Database := do
  let canceled := canceledTask task now
  let db ← db.requireTaskVersion task.version canceled (.conflict "cancel")
  if 0 < canceled.attemptCount then
    db.updateAttempt canceled .canceled "task canceled" canceled.completedAt
  else return db

/-- The body of `Cancel`. -/
def cancelTx (db : Database) (call : Call) (taskID : String) (expectedVersion : Nat)
    (now : Instant) : TxM (TxEnd Task) := do
  let now := if now = zeroInstant then call.now else now
  let task ← reporting noResult (db.loadTask taskID)
  reporting noResult (db.ensureTaskWritable task)
  reporting noResult <| requireTask (task.version = expectedVersion) (.conflict "cancel")
  if task.status = .completed || task.status = .canceled then return .rollback noResult task
  else do
    let db ← reporting noResult (db.cancelStored task now)
    return .commit db noResult (canceledTask task now)

def cancel (db : Database) (call : Call) (taskID : String) (expectedVersion : Nat)
    (now : Instant) : Reply Task :=
  db.settle call.fate none (db.cancelTx call taskID expectedVersion now)

end Database

end WeaveFlow
