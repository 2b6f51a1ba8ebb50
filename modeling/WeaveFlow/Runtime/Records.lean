import WeaveFlow.State.Path

/-!
# Runtime records

The records a runtime store keeps: runs with their execution lease, their child
reservations and their deletion state, steps with their effect, checkpoints and
events.  A commit groups writes of several records into one transaction.

A missing value of the source (a nil pointer) is `none`, and the zero value of a
field is its default here, so a record names only what is set.  An instant is a
number of nanoseconds, and the zero instant is the one the source calls zero.  Revisions and
epochs are `uint64` in the source; they are counted here without a wrap, as they are below
`2 ^ 64`.
-/

namespace WeaveFlow

/-- An instant; the zero instant is an unset one. -/
abbrev Time := Nat

/-! ## Errors -/

/-- The errors of the runtime.  The source tells some of them apart by a
sentinel; the others carry their text only. -/
inductive RunError where
  /-- `ErrRunnerRecordNotFound`. -/
  | recordNotFound (message : String)
  /-- `ErrRunControlNotAllowed`. -/
  | controlNotAllowed (message : String)
  /-- `RunRevisionConflictError`. -/
  | revisionConflict (runID : String) (expected actual : Nat)
  /-- `runRevisionRetriesExceeded`, which wraps a revision conflict. -/
  | retriesExceeded (action : String)
  /-- `ErrExecutionLeaseLost`. -/
  | leaseLost (message : String)
  /-- `ErrExecutionLeaseHeld`. -/
  | leaseHeld (message : String)
  /-- An error without a sentinel. -/
  | invalid (message : String)
  deriving DecidableEq, Repr

/-- `fmt.Errorf` with `%w`: a context in front of an error.  A revision conflict
keeps its own text. -/
def RunError.within (context : String) : RunError → RunError
  | recordNotFound message => recordNotFound (context ++ ": " ++ message)
  | controlNotAllowed message => controlNotAllowed (context ++ ": " ++ message)
  | revisionConflict runID expected actual => revisionConflict runID expected actual
  | retriesExceeded action => retriesExceeded (context ++ ": " ++ action)
  | leaseLost message => leaseLost (context ++ ": " ++ message)
  | leaseHeld message => leaseHeld (context ++ ": " ++ message)
  | invalid message => invalid (context ++ ": " ++ message)

/-- `errors.Is(err, ErrRunRevisionConflict)`. -/
def RunError.isRevisionConflict : RunError → Bool
  | revisionConflict _ _ _ | retriesExceeded _ => true
  | _ => false

/-- `%q` of a text without characters to escape. -/
def quoted (s : String) : String := "\"" ++ s ++ "\""

/-- A check that fails with an error. -/
def require (condition : Bool) (error : RunError) : Except RunError Unit :=
  if condition then .ok () else .error error

@[simp] theorem require_eq_ok : require condition error = .ok u ↔ condition = true := by
  cases condition <;> simp [require]

def runRevisionRetryLimit : Nat := 8

/-! ## Execution leases -/

inductive ExecutionLeaseStatus where
  | active
  | released
  deriving DecidableEq, Repr

/-- The exclusive right of an owner to execute a run. -/
structure ExecutionLease where
  ownerID : String
  token : String
  epoch : Nat
  status : ExecutionLeaseStatus
  acquiredAt : Time
  heartbeatAt : Time
  expiresAt : Time
  deriving DecidableEq, Repr

/-- What a lease holder shows with a write. -/
structure ExecutionLeaseGuard where
  runID : String
  token : String
  epoch : Nat
  deriving DecidableEq, Repr

inductive ExecutionLeaseMutationKind where
  | acquire
  | heartbeat
  | release
  deriving DecidableEq, Repr

structure ExecutionLeaseMutation where
  kind : ExecutionLeaseMutationKind
  now : Time
  deriving DecidableEq, Repr

/-! ## Runs -/

inductive RunStatus where
  | pending
  | running
  | paused
  | failed
  | completed
  | canceled
  deriving DecidableEq, Repr

/-- `isTerminalRunStatus`. -/
def RunStatus.isTerminal : RunStatus → Bool
  | completed | failed | canceled => true
  | _ => false

/-- `isActiveDeleteRunStatus`. -/
def RunStatus.isActiveDelete : RunStatus → Bool
  | pending | running => true
  | _ => false

/-- A child run that a parent has announced and not yet linked. -/
structure PendingChildRun where
  requestKey : String
  childRunID : String
  parentRunID : String
  parentStepID : String
  parentTaskID : String
  graphRef : String
  graphID : String
  graphVersion : String
  graphHash : String := ""
  graphSnapshotHash : String := ""
  graphSessionID : String := ""
  «namespace» : String
  inputHash : String
  reservedAt : Time
  deriving DecidableEq, Repr

inductive RunDeletionPhase where
  | reserved
  | planned
  | unlinked
  | deleted
  deriving DecidableEq, Repr

/-- The deletion a run is reserved for.  The requested run carries the plan. -/
structure RunDeletionState where
  id : String
  rootRunID : String
  parentRunID : String := ""
  phase : RunDeletionPhase
  runIDs : List String := []
  deriving DecidableEq, Repr

structure RunRecord where
  runID : String
  revision : Nat := 0
  parentRunID : String := ""
  parentStepID : String := ""
  parentTaskID : String := ""
  childRequestKey : String := ""
  childInputHash : String := ""
  executionLease : Option ExecutionLease := none
  rootRunID : String := ""
  «namespace» : String := ""
  childRunIDs : List String := []
  pendingChildRuns : List PendingChildRun := []
  deletion : Option RunDeletionState := none
  graphID : String := ""
  graphVersion : String := ""
  graphHash : String := ""
  graphSnapshotHash : String := ""
  graphSessionID : String := ""
  status : RunStatus := .pending
  currentNodeID : String := ""
  currentNodeIDs : List String := []
  currentStepIDs : List String := []
  nextNodeIDs : List String := []
  parallelWaveID : String := ""
  lastStepID : String := ""
  lastCheckpointID : String := ""
  pauseRequested : Bool := false
  cancelRequested : Bool := false
  errorCode : String := ""
  errorMessage : String := ""
  updatedAt : Time := 0
  finishedAt : Option Time := none
  deriving DecidableEq, Repr

/-! ## Steps -/

inductive StepStatus where
  | scheduled
  | running
  | succeeded
  | failed
  | paused
  | canceled
  deriving DecidableEq, Repr

/-- `core.EffectClass`; `unset` is the empty text of a step without an effect. -/
inductive EffectClass where
  | unset
  | unspecified
  | pure
  | readOnly
  | idempotentWrite
  | nonIdempotentWrite
  | compensatable
  deriving DecidableEq, Repr

/-- `core.NormalizeEffectClass`. -/
def EffectClass.normalize : EffectClass → EffectClass
  | unset => unspecified
  | effectClass => effectClass

/-- `core.EffectStatus`; `unset` is the empty text of a step without an effect. -/
inductive EffectStatus where
  | unset
  | intent
  | succeeded
  | failed
  | unknown
  | notApplied
  | compensated
  deriving DecidableEq, Repr

inductive EffectResolutionAction where
  | confirmNotApplied
  | compensate
  deriving DecidableEq, Repr

inductive EffectResolutionStatus where
  | intent
  | succeeded
  | unknown
  deriving DecidableEq, Repr

structure EffectResolution where
  id : String
  attemptID : String
  action : EffectResolutionAction
  status : EffectResolutionStatus
  actor : String
  reason : String
  compensationKey : String := ""
  error : String := ""
  requestedAt : Time
  resolvedAt : Option Time := none
  deriving DecidableEq, Repr

structure StepRecord where
  stepID : String
  runID : String
  taskID : String := ""
  nodeID : String := ""
  operationKey : String := ""
  effectClass : EffectClass := .unset
  effectStatus : EffectStatus := .unset
  effectResolution : Option EffectResolution := none
  waveID : String := ""
  attempt : Nat := 0
  status : StepStatus := .scheduled
  checkpointBeforeID : String := ""
  checkpointAfterID : String := ""
  errorCode : String := ""
  errorMessage : String := ""
  startedAt : Time := 0
  updatedAt : Time := 0
  finishedAt : Option Time := none
  deriving DecidableEq, Repr

/-! ## Checkpoints and events -/

inductive CheckpointStage where
  | beforeNode
  | afterNode
  | afterWave
  | agent
  | final
  deriving DecidableEq, Repr

structure CheckpointRecord where
  checkpointID : String
  runID : String
  stepID : String := ""
  taskID : String := ""
  nodeID : String := ""
  stage : CheckpointStage
  /-- Where the payload is kept. -/
  payloadRef : String := ""
  createdAt : Time := 0
  deriving DecidableEq, Repr

/-- The event types a modelled function builds or tests. -/
inductive EventType where
  | llmReasoningChunk
  | llmContentChunk
  | effectIntent
  | effectOutcome
  | other (name : String)
  deriving DecidableEq, Repr

/-- `IsStreamingEvent`: the events no store keeps. -/
def EventType.isStreaming : EventType → Bool
  | llmReasoningChunk | llmContentChunk => true
  | _ => false

structure Event where
  id : String
  runID : String
  stepID : String := ""
  taskID : String := ""
  nodeID : String := ""
  operationKey : String := ""
  type : EventType
  timestamp : Time := 0
  payload : String := ""
  deriving DecidableEq, Repr

/-! ## Commits -/

inductive RunWriteMode where
  | create
  | update
  | check
  deriving DecidableEq, Repr

structure RunWrite where
  mode : RunWriteMode
  run : RunRecord
  deriving DecidableEq, Repr

inductive StepWriteMode where
  | append
  | update
  deriving DecidableEq, Repr

structure StepWrite where
  mode : StepWriteMode
  step : StepRecord
  deriving DecidableEq, Repr

structure CheckpointWrite where
  record : CheckpointRecord
  payload : List UInt8
  deriving DecidableEq, Repr

/-- An artifact that a transaction makes final, by run and id. -/
structure ArtifactStage where
  transactionID : String
  runID : String
  artifactID : String
  deriving DecidableEq, Repr

structure Commit where
  transactionID : String
  lease : Option ExecutionLeaseGuard := none
  run : Option RunWrite := none
  steps : List StepWrite := []
  checkpoints : List CheckpointWrite := []
  events : List Event := []
  artifacts : List ArtifactStage := []
  deriving DecidableEq, Repr

/-- The outcomes of a transaction; `unset` is the empty text of a result that
was not filled in. -/
inductive TransactionOutcome where
  | unset
  | notStarted
  | committed
  | outcomeUnknown
  deriving DecidableEq, Repr

structure CommitResult where
  transactionID : String
  outcome : TransactionOutcome
  run : Option RunRecord := none
  artifacts : List ArtifactStage := []
  deriving DecidableEq, Repr

/-- A commit up to its transaction id.  It stands for the digest the source
takes of it, and two digests are equal exactly when the commits are. -/
abbrev Fingerprint := Commit

def commitFingerprint (commit : Commit) : Fingerprint := { commit with transactionID := "" }

/-! ## Contexts -/

/-- The values a call carries in its context. -/
structure Context where
  /-- `runDeletionMutationKey`. -/
  deletionMutation : Option String := none
  /-- `runDeletionUnlinkMutationKey`: the deletion and the child it unlinks. -/
  unlinkMutation : Option (String × String) := none
  /-- `executionLeaseMutationKey`. -/
  leaseMutation : Option ExecutionLeaseMutation := none
  /-- `executionLeaseGuardKey`. -/
  leaseGuard : Option ExecutionLeaseGuard := none
  deriving DecidableEq, Repr

end WeaveFlow
