import WeaveFlow.Runtime.LeaseFencing
import WeaveFlow.Runtime.StoreProc

/-!
# Child runs

`RunChild` starts a run as the child of another one.  It reserves the child in
the record of the parent, creates the child, and moves it from the reserved to
the linked children.  These are three writes to two records, each of them
repeated when the parent has changed in between, and a call that finds what an
earlier one has left continues from there.

A call is a program of atomic store operations, so a crash is a program that
takes no further step, and calls by any number of runners are a pool.
-/

namespace WeaveFlow

open Proc

/-! ## Requests -/

structure ChildRunRequest where
  parentRunID : String
  parentStepID : String
  parentTaskID : String
  graphRef : String
  «namespace» : String := ""
  deriving DecidableEq, Repr

/-- The graph a runner executes. -/
structure RunnerGraph where
  graphID : String
  graphVersion : String
  graphHash : String := ""
  graphSnapshotHash : String := ""
  graphSessionID : String := ""
  entryNodeID : String
  deriving DecidableEq, Repr

/-- The execution of the parent, through which a call changes the parent's record.
Its pause and cancel flags are read again and again while others set them. -/
structure ChildRunController where
  runID : String
  /-- The pause and the cancel flag at each reading. -/
  controls : Nat → Bool × Bool
  /-- How many rounds the calls of the controller take at most. -/
  rounds : Nat

/-- A call of `RunChild`, with all it reads outside the store. -/
structure ChildCall where
  request : ChildRunRequest
  /-- `RunnerMetadataFromContext`: the run, the step and the task. -/
  metadata : Option (String × String × String)
  /-- `validateRunGraphHash` of the runner in the context. -/
  checkParentGraph : RunRecord → Except RunError Unit := fun _ => .ok ()
  graph : RunnerGraph
  inputHash : String
  /-- The checks of the input state when the child is prepared. -/
  checkInput : Except RunError Unit := .ok ()
  controller : Option ChildRunController := none
  leaseGuard : Option ExecutionLeaseGuard := none
  /-- The lease of the new run. -/
  owner : LeaseOwner
  reservedAt : Time
  /-- The clock, at each change of the parent. -/
  clock : Nat → Time
  /-- The generated transaction ids. -/
  transactionIDs : Nat → String
  checkpointID : String
  checkpointPayload : List UInt8 := []
  eventIDs : Nat → String

structure ChildRunResult where
  run : RunRecord
  resumed : Bool

/-- `strings.Trim(s, "/")`. -/
def trimSlashes (s : String) : String :=
  String.ofList ((s.toList.dropWhile (· = '/')).reverse.dropWhile (· = '/')).reverse

/-! ## The lists of the parent -/

/-- The loop of `validateMatchingPendingChildRun`. -/
def validateMatchingPendingChildRun (existing proposed : PendingChildRun) :
    Except RunError Unit := do
  [("child run ID", existing.childRunID, proposed.childRunID),
    ("parent run ID", existing.parentRunID, proposed.parentRunID),
    ("parent task ID", existing.parentTaskID, proposed.parentTaskID),
    ("graph ref", existing.graphRef, proposed.graphRef),
    ("graph ID", existing.graphID, proposed.graphID),
    ("graph version", existing.graphVersion, proposed.graphVersion),
    ("graph hash", existing.graphHash, proposed.graphHash),
    ("graph snapshot hash", existing.graphSnapshotHash, proposed.graphSnapshotHash),
    ("graph session ID", existing.graphSessionID, proposed.graphSessionID),
    ("namespace", existing.«namespace», proposed.«namespace»),
    ("input hash", existing.inputHash, proposed.inputHash)].forM fun field =>
      require (field.2.1 = field.2.2)
        (.invalid ("pending child request " ++ quoted existing.requestKey ++ " " ++ field.1 ++
          " changed from " ++ quoted field.2.1 ++ " to " ++ quoted field.2.2))
  validatePendingChildRun existing

def pendingChildRunByKey (pendingRuns : List PendingChildRun) (requestKey : String) :
    Except RunError (Option PendingChildRun) :=
  match pendingRuns.filter (·.requestKey = requestKey) with
  | [] => .ok none
  | [matched] => .ok (some matched)
  | _ => .error (.invalid ("request key " ++ quoted requestKey ++
      " has several pending child reservations"))

def RunStatus.allowsChildren (status : RunStatus) : Bool :=
  status.isActiveDelete || status = .paused

/-- The linked children are listed once each. -/
def requireDistinctChildren (parentRun : RunRecord) : Except RunError Unit :=
  require (decide parentRun.childRunIDs.Nodup)
    (.invalid ("parent run " ++ quoted parentRun.runID ++ " has a duplicate child run ID"))

/-- `reservePendingChildRun`: the reservation and, if the parent changes, its record. -/
def reservePendingChildRun (parentRun : RunRecord) (proposed : PendingChildRun) (now : Time) :
    Except RunError (PendingChildRun × Option RunRecord) := do
  validatePendingChildRun proposed
  require (parentRun.runID = proposed.parentRunID)
    (.invalid ("child reservation parent mismatch: run=" ++ quoted parentRun.runID ++
      " request=" ++ quoted proposed.parentRunID))
  require parentRun.status.allowsChildren
    (.invalid ("parent run " ++ quoted parentRun.runID ++ " cannot reserve a child"))
  require parentRun.deletion.isNone
    (.invalid ("parent run " ++ quoted parentRun.runID ++ " is reserved for deletion"))
  requireDistinctChildren parentRun
  let finalized := parentRun.childRunIDs.contains proposed.childRunID
  let existing ← pendingChildRunByKey parentRun.pendingChildRuns proposed.requestKey
  match existing with
  | some existing => do
      validateMatchingPendingChildRun existing proposed
      require (!finalized)
        (.invalid ("parent run " ++ quoted parentRun.runID ++ " child " ++
          quoted proposed.childRunID ++ " is both pending and finalized"))
      return (existing, none)
  | none =>
    if finalized then return (proposed, none)
    else return (proposed, some { parentRun with
      pendingChildRuns := parentRun.pendingChildRuns ++ [proposed]
      updatedAt := now })

/-- The reservation that is finalized belongs to the child and to the parent. -/
def validateFinalizedReservation (parentRun : RunRecord) (childRunID : String)
    (pending : PendingChildRun) : Except RunError Unit := do
  require (pending.childRunID = childRunID)
    (.invalid ("pending child request " ++ quoted pending.requestKey ++ " reserves run " ++
      quoted pending.childRunID ++ ", not " ++ quoted childRunID))
  (validatePendingChildRun pending).mapError
    (.within ("parent run " ++ quoted parentRun.runID ++ " has invalid pending child request " ++
      quoted pending.requestKey))
  require (pending.parentRunID = parentRun.runID)
    (.invalid ("pending child request " ++ quoted pending.requestKey ++ " parent is " ++
      quoted pending.parentRunID ++ ", not " ++ quoted parentRun.runID))

/-- The parent with a child moved from the reserved to the linked ones. -/
def linkChild (parentRun : RunRecord) (requestKey childRunID : String) (now : Time) : RunRecord :=
  { parentRun with
    pendingChildRuns := parentRun.pendingChildRuns.filter (·.requestKey ≠ requestKey)
    childRunIDs :=
      if parentRun.childRunIDs.contains childRunID then parentRun.childRunIDs
      else parentRun.childRunIDs ++ [childRunID]
    updatedAt := now }

/-- `finalizePendingChildRun`: the record of the parent, if it changes. -/
def finalizePendingChildRun (parentRun : RunRecord) (requestKey childRunID : String)
    (now : Time) : Except RunError (Option RunRecord) := do
  let requestKey := trimSpace requestKey
  let childRunID := trimSpace childRunID
  require (requestKey ≠ "") (.invalid "child request key is required")
  validateRunnerStorageID "child run ID" childRunID
  require (decide (parentRun.pendingChildRuns.map (·.requestKey)).Nodup)
    (.invalid ("parent run " ++ quoted parentRun.runID ++
      " has a duplicate pending child request key"))
  let matched := parentRun.pendingChildRuns.find? (·.requestKey = requestKey)
  matched.toList.forM (validateFinalizedReservation parentRun childRunID)
  requireDistinctChildren parentRun
  match matched with
  | none => do
      require (parentRun.childRunIDs.contains childRunID)
        (.invalid ("child run " ++ quoted childRunID ++
          " has no pending reservation or finalized link"))
      return none
  | some _ => return some (linkChild parentRun requestKey childRunID now)

/-! ## Changing the parent -/

/-- A change of the parent: an answer and, if the parent changes, its record. -/
abbrev ParentUpdate (α : Type) := RunRecord → Nat → Except RunError (α × Option RunRecord)

/-- The loops of `reserveChildRun` and `finalizeChildRun` without a controller. -/
def swapParent {α : Type} (guard : Option ExecutionLeaseGuard) (parentRunID action : String)
    (update : ParentUpdate α) : StoreProc α :=
  swapRun { leaseGuard := guard } parentRunID action id
    (fun loaded i => do
      let parentRun ← loaded
      update parentRun i)
    runRevisionRetryLimit

def guardExecutionCommit (guard : Option ExecutionLeaseGuard) (commit : Commit) :
    Except RunError Commit :=
  if commit.run.any (·.mode = .create) then .ok commit
  else do
    let runID ← singleCommitRunID commit
    match guard with
    | none => return commit
    | some guard => do
        require (guard.runID = runID)
          (.leaseLost ("execution lease guard for run " ++ quoted guard.runID ++
            " cannot commit run " ++ quoted runID))
        return { commit with lease := some guard }

/-- `commitRuntime`, under a generated transaction id. -/
def commitRuntime (guard : Option ExecutionLeaseGuard) (commit : Commit) :
    StoreProc (Except RunError CommitResult) :=
  attempt fun store => do
    let guarded ← guardExecutionCommit guard commit
    store.commitGenerated {} guarded

def validateRunExecutionOwner (guard : Option ExecutionLeaseGuard) (run : RunRecord) :
    Except RunError Unit := do
  validateChildRunRecordIdentity run
  match guard with
  | some guard => validateExecutionLeaseGuard run guard
  | none =>
    require (!run.leaseActive)
      (.leaseLost ("run " ++ quoted run.runID ++ " has no execution lease guard"))

/-- The record with the requests of the execution merged in. -/
def mergeControls (controls : Bool × Bool) (run : RunRecord) : RunRecord :=
  { run with
    pauseRequested := run.pauseRequested || controls.1
    cancelRequested := run.cancelRequested || controls.2 }

/-- A request of the execution is missing in the record. -/
def dropsControls (controls : Bool × Bool) (run : RunRecord) : Bool :=
  (controls.1 && !run.pauseRequested) || (controls.2 && !run.cancelRequested)

/-- `persistRunChecked`: the loop ends with an answer, an error, or too many
conflicts; it goes round again as long as requests keep coming in. -/
def persistRunChecked {α : Type} (controller : ChildRunController)
    (guard : Option ExecutionLeaseGuard) (transactionIDs : Nat → String)
    (update : ParentUpdate α) : Nat → Nat → StoreProc α
  | 0, _ => throw (.invalid "persist run did not finish")
  | rounds + 1, conflicts => do
      let loaded ← loadRun controller.runID
      let run ← compute loaded
      compute (validateRunExecutionOwner guard run)
      let merged := mergeControls (controller.controls (2 * rounds)) run
      let updated ← compute (update merged rounds)
      let again := persistRunChecked controller guard transactionIDs update rounds
      if updated.2.isNone && merged = run then
        if dropsControls (controller.controls (2 * rounds + 1)) run then again conflicts
        else return updated.1
      else
        let next := updated.2.getD merged
        let committed ← commitRuntime guard
          { transactionID := transactionIDs rounds, run := some ⟨.update, next⟩ }
        match committed with
        | .ok _ =>
          if dropsControls (controller.controls (2 * rounds + 1)) next then again conflicts
          else return updated.1
        | .error e =>
          if e.isRevisionConflict then
            if runRevisionRetryLimit ≤ conflicts + 1 then throw (.retriesExceeded "persist run")
            else again (conflicts + 1)
          else throw e

/-- Change the record of the parent, through its execution if there is one. -/
def updateParent {α : Type} (call : ChildCall) (parentRunID action : String)
    (update : ParentUpdate α) : StoreProc α :=
  match call.controller with
  | none => swapParent call.leaseGuard parentRunID action update
  | some controller => do
      compute (require (controller.runID = parentRunID)
        (.invalid ("child run parent mismatch: execution=" ++ quoted controller.runID ++
          " request=" ++ quoted parentRunID)))
      persistRunChecked controller call.leaseGuard call.transactionIDs update
        controller.rounds 0

def reserveChildRun (call : ChildCall) (parentRunID : String) (proposed : PendingChildRun) :
    StoreProc PendingChildRun :=
  updateParent call parentRunID "reserve child run" fun parentRun i =>
    reservePendingChildRun parentRun proposed (call.clock i)

def finalizeChildRun (call : ChildCall) (parentRunID requestKey childRunID : String) :
    StoreProc Unit :=
  updateParent call parentRunID "finalize child run" fun parentRun i =>
    (finalizePendingChildRun parentRun requestKey childRunID (call.clock i)).map fun next =>
      ((), next)

/-! ## Creating the child -/

/-- The run that `prepareRun` creates for a reservation. -/
def preparedChildRun (call : ChildCall) (reservation : PendingChildRun) (rootRunID : String) :
    RunRecord where
  runID := reservation.childRunID
  graphID := call.graph.graphID
  graphVersion := call.graph.graphVersion
  graphHash := call.graph.graphHash
  graphSnapshotHash := call.graph.graphSnapshotHash
  graphSessionID := call.graph.graphSessionID
  status := .running
  executionLease := some (newExecutionLease call.owner none)
  childRequestKey := reservation.requestKey
  childInputHash := reservation.inputHash
  parentRunID := trimSpace reservation.parentRunID
  parentStepID := trimSpace reservation.parentStepID
  parentTaskID := trimSpace reservation.parentTaskID
  rootRunID := if trimSpace rootRunID = "" then reservation.childRunID else trimSpace rootRunID
  «namespace» :=
    if trimSlashes (trimSpace reservation.«namespace») = "" then reservation.childRunID
    else trimSlashes (trimSpace reservation.«namespace»)
  currentNodeID := call.graph.entryNodeID
  lastCheckpointID := call.checkpointID
  updatedAt := call.owner.now

/-- The commit of `prepareRun`. -/
def preparedChildCommit (call : ChildCall) (run : RunRecord) : Commit where
  transactionID := call.transactionIDs 0
  run := some ⟨.create, run⟩
  checkpoints := [{
    record := {
      checkpointID := call.checkpointID
      runID := run.runID
      taskID := call.graph.entryNodeID
      nodeID := call.graph.entryNodeID
      stage := .beforeNode
      createdAt := call.owner.now }
    payload := call.checkpointPayload }]
  events := [
    { id := call.eventIDs 0, runID := run.runID, type := .other "run.created" },
    { id := call.eventIDs 1, runID := run.runID, type := .other "run.started" },
    { id := call.eventIDs 2, runID := run.runID, nodeID := call.graph.entryNodeID,
      type := .other "checkpoint.created" }]

/-- `startRun` for a reservation. -/
def startChildRun (call : ChildCall) (reservation : PendingChildRun) (rootRunID : String) :
    StoreProc (Except RunError RunRecord) := do
  let run := preparedChildRun call reservation rootRunID
  let prepared : Except RunError Unit := do
    validatePendingChildRun reservation
    call.checkInput
    validateReservedChildRun run reservation
  match prepared with
  | .error e => return .error e
  | .ok _ => do
      let committed ← commitRuntime none (preparedChildCommit call run)
      return committed.map fun result => result.run.getD run

/-! ## The call -/

section

variable (digest : List String → String)

/-- The request with blanks removed. -/
def ChildRunRequest.normalize (request : ChildRunRequest) : ChildRunRequest where
  parentRunID := trimSpace request.parentRunID
  parentStepID := trimSpace request.parentStepID
  parentTaskID := trimSpace request.parentTaskID
  graphRef := trimSpace request.graphRef
  «namespace» := trimSlashes (trimSpace request.«namespace»)

def ChildRunRequest.withNamespace (request : ChildRunRequest) (parentRun : RunRecord) :
    ChildRunRequest :=
  if request.«namespace» = "" then
    { request with
      «namespace» := trimSlashes (parentRun.«namespace» ++ "/" ++ request.graphRef ++ ":" ++
        request.parentTaskID) }
  else request

/-- The texts a request key is made of. -/
def ChildRunRequest.keyFields (request : ChildRunRequest) : List String :=
  [request.parentRunID, request.parentTaskID, request.graphRef, request.«namespace»]

/-- `childRunRequestKey`; `digest` is the hash of the texts. -/
def childRunRequestKey (request : ChildRunRequest) : String := digest request.keyFields

/-- The checks of a request against the metadata of the runner. -/
def validateChildRequest (call : ChildCall) : Except RunError Unit := do
  let request := call.request.normalize
  require (request.parentRunID ≠ "" && request.parentStepID ≠ "" && request.parentTaskID ≠ "" &&
      request.graphRef ≠ "")
    (.invalid
      "child run requires parent_run_id, parent_step_id, parent_task_id, and graph_ref")
  match call.metadata with
  | none => .error (.invalid "child run requires runner metadata")
  | some (runID, stepID, taskID) => do
      require (trimSpace runID ≠ "") (.invalid "child run requires runner metadata")
      require (runID = request.parentRunID && stepID = request.parentStepID &&
          taskID = request.parentTaskID)
        (.invalid "child run parent identity does not match runner metadata")

def validateChildParent (call : ChildCall) (parentRun : RunRecord) : Except RunError Unit := do
  (call.checkParentGraph parentRun).mapError
    (.within ("validate parent run " ++ quoted parentRun.runID))
  require parentRun.status.allowsChildren
    (.invalid ("parent run " ++ quoted parentRun.runID ++ " cannot create or resume a child"))

/-- No text of the request key contains the separator of the digest. -/
def validateKeyFields (request : ChildRunRequest) : Except RunError Unit :=
  require (request.keyFields.all fun field => !field.toList.contains (Char.ofNat 0))
    (.invalid "child run key fields must not contain NUL")

def proposedChildRun (call : ChildCall) (request : ChildRunRequest) : PendingChildRun where
  requestKey := childRunRequestKey digest request
  childRunID := childRunIDForRequestKey (childRunRequestKey digest request)
  parentRunID := request.parentRunID
  parentStepID := request.parentStepID
  parentTaskID := request.parentTaskID
  graphRef := request.graphRef
  graphID := call.graph.graphID
  graphVersion := call.graph.graphVersion
  graphHash := call.graph.graphHash
  graphSnapshotHash := call.graph.graphSnapshotHash
  graphSessionID := call.graph.graphSessionID
  «namespace» := request.«namespace»
  inputHash := call.inputHash
  reservedAt := call.reservedAt

/-- What `findChildRun` makes of the record under the id of the child. -/
def checkFoundChild (request : ChildRunRequest) (requestKey : String) (run : RunRecord) :
    Except RunError Unit := do
  validateChildRunRecordIdentity run
  require (run.childRequestKey = requestKey && run.parentRunID = request.parentRunID &&
      run.parentTaskID = request.parentTaskID)
    (.invalid ("child run " ++ quoted run.runID ++ " identity does not match request key " ++
      quoted requestKey))

def findChildRun (request : ChildRunRequest) (requestKey : String) :
    StoreProc (Option RunRecord) := do
  let loaded ← loadRun (childRunIDForRequestKey requestKey)
  match loaded with
  | .error (.recordNotFound _) => return none
  | .error e => throw e
  | .ok run => do
      compute (checkFoundChild request requestKey run)
      return some run

/-- `RunChild` for a child that exists: it is linked, if it is not yet. -/
def resumeChild (call : ChildCall) (proposed : PendingChildRun) (existing : RunRecord) :
    StoreProc ChildRunResult := do
  compute (require (trimSpace existing.parentStepID ≠ "")
    (.invalid ("child run " ++ quoted existing.runID ++ " parent step ID is empty")))
  compute (validateReservedChildRun existing
    { proposed with parentStepID := existing.parentStepID })
  finalizeChildRun call proposed.parentRunID proposed.requestKey existing.runID
  return ⟨existing, true⟩

/-- The new child, or the one that has meanwhile been created. -/
def startOrLoadChild (call : ChildCall) (reservation : PendingChildRun) (rootRunID : String) :
    StoreProc RunRecord := do
  let started ← startChildRun call reservation rootRunID
  match started with
  | .ok run => return run
  | .error e => do
      let persisted ← loadRun reservation.childRunID
      match persisted with
      | .ok run => return run
      | .error _ => throw e

/-- `RunChild` for a child that was not found: it is reserved, created and linked. -/
def createChild (call : ChildCall) (proposed : PendingChildRun) (rootRunID : String) :
    StoreProc ChildRunResult := do
  let reservation ← reserveChildRun call proposed.parentRunID proposed
  let run ← startOrLoadChild call reservation rootRunID
  compute (validateReservedChildRun run reservation)
  finalizeChildRun call proposed.parentRunID proposed.requestKey run.runID
  return ⟨run, false⟩

/-- `RunChild` once the request is complete: continue with the child that exists or
create it. -/
def runRequestedChild (call : ChildCall) (request : ChildRunRequest) (rootRunID : String) :
    StoreProc ChildRunResult := do
  compute (validateKeyFields request)
  let proposed := proposedChildRun digest call request
  let existing ← findChildRun request proposed.requestKey
  match existing with
  | some existing => resumeChild call proposed existing
  | none => createChild call proposed rootRunID

/-- `RunChild` up to `continueChildRun`, which executes the child. -/
def runChild (call : ChildCall) : StoreProc ChildRunResult := do
  compute (validateChildRequest call)
  let loaded ← loadRun call.request.normalize.parentRunID
  let parentRun ← compute (loaded.mapError
    (.within ("load parent run " ++ quoted call.request.normalize.parentRunID)))
  compute (validateChildParent call parentRun)
  runRequestedChild digest call (call.request.normalize.withNamespace parentRun)
    parentRun.rootRunID

end

end WeaveFlow
