import WeaveFlow.Lib.Outcome
import WeaveFlow.Runtime.Records

/-!
# Record validation

The checks that every store makes before it takes a record: record ids, leases
and the guards shown for them, child reservations, deletion states, effects.
Each check is a fallible computation without a result, and a store runs them in
the order of the source, so the first failing one gives the error.
-/

namespace WeaveFlow

/-! ## Record ids -/

/-- A character of a portable record id. -/
def isPortable (c : Char) : Bool :=
  ('a' ≤ c && c ≤ 'z') || ('A' ≤ c && c ≤ 'Z') || ('0' ≤ c && c ≤ '9') || c = '-' || c = '_' ||
    c = '.'

def validateRunnerStorageID (name value : String) : Except RunError Unit :=
  require
    (value ≠ "" && trimSpace value = value && value ≠ "." && value ≠ ".." &&
      value.toList.length ≤ 200 && value.toList.all isPortable)
    (.invalid (name ++ " must be a portable record ID"))

/-! ## Leases -/

def validateExecutionLease : Option ExecutionLease → Except RunError Unit
  | none => .ok ()
  | some lease => do
      validateRunnerStorageID "execution lease owner ID" (trimSpace lease.ownerID)
      validateRunnerStorageID "execution lease token" (trimSpace lease.token)
      require (lease.epoch ≠ 0) (.invalid "execution lease epoch must be greater than zero")
      require (lease.acquiredAt ≠ 0 && lease.heartbeatAt ≠ 0 && lease.expiresAt ≠ 0)
        (.invalid "execution lease timestamps are required")
      require (lease.acquiredAt ≤ lease.heartbeatAt)
        (.invalid "execution lease heartbeat precedes acquisition")
      require (lease.status ≠ .active || lease.heartbeatAt < lease.expiresAt)
        (.invalid "active execution lease expiry must follow heartbeat")

/-- The lease a guard shows is the active lease of the run. -/
def ExecutionLeaseGuard.matches (guard : ExecutionLeaseGuard) (run : RunRecord) : Bool :=
  run.runID = guard.runID &&
    match run.executionLease with
    | none => false
    | some lease =>
      lease.status = .active && lease.token = guard.token && lease.epoch = guard.epoch

def validateExecutionLeaseGuard (run : RunRecord) (guard : ExecutionLeaseGuard) :
    Except RunError Unit := do
  validateRunnerStorageID "execution lease guard run ID" guard.runID
  validateRunnerStorageID "execution lease guard token" guard.token
  require (guard.epoch ≠ 0) (.invalid "execution lease guard epoch must be greater than zero")
  require (guard.matches run) (.leaseLost ("for run " ++ quoted guard.runID))

def RunRecord.leaseActive (run : RunRecord) : Bool :=
  match run.executionLease with
  | none => false
  | some lease => lease.status = .active

def validateCommitExecutionLease (run : RunRecord) (commit : Commit) : Except RunError Unit :=
  if commit.run.any fun write => write.mode = .create && write.run.runID = run.runID then .ok ()
  else match commit.lease with
    | some guard => validateExecutionLeaseGuard run guard
    | none =>
      require (!run.leaseActive)
        (.leaseLost ("runtime commit for run " ++ quoted run.runID ++ " has no guard"))

/-- What a heartbeat and a release may not change. -/
def ExecutionLease.sameIdentity (previous lease : ExecutionLease) : Bool :=
  previous.ownerID = lease.ownerID && previous.token = lease.token &&
    previous.epoch = lease.epoch && previous.acquiredAt = lease.acquiredAt

/-- The lease an acquisition puts in place of a previous one. -/
def validateExecutionLeaseTakeover (previous : Option ExecutionLease) (lease : ExecutionLease)
    (now : Time) : Except RunError Unit :=
  match previous with
  | none => require (lease.epoch = 1) (.invalid "initial execution lease epoch must be one")
  | some previous => do
      require (previous.status ≠ .active || previous.expiresAt ≤ now)
        (.leaseHeld ("by owner " ++ quoted previous.ownerID))
      require (lease.epoch = previous.epoch + 1)
        (.invalid "execution lease takeover must increment epoch")
      require (lease.token ≠ previous.token)
        (.invalid "execution lease takeover must rotate token")

def validateExecutionLeaseMutation (existing next : RunRecord)
    (mutation : ExecutionLeaseMutation) : Except RunError Unit :=
  match mutation.kind, existing.executionLease, next.executionLease with
  | .acquire, previous, some lease => do
      require (lease.status = .active)
        (.invalid "execution lease acquisition requires an active lease")
      validateExecutionLeaseTakeover previous lease mutation.now
  | .acquire, _, none => .error (.invalid "execution lease acquisition requires an active lease")
  | .heartbeat, some previous, some lease => do
      require (previous.status = .active && lease.status = .active)
        (.leaseLost "heartbeat requires an active lease")
      require (previous.sameIdentity lease) (.leaseLost "heartbeat identity changed")
      require (previous.heartbeatAt ≤ lease.heartbeatAt && previous.expiresAt ≤ lease.expiresAt)
        (.invalid "execution lease heartbeat cannot move backward")
  | .heartbeat, _, _ => .error (.leaseLost "heartbeat requires an active lease")
  | .release, some previous, some lease => do
      require (previous.status = .active && lease.status = .released)
        (.leaseLost "release requires an active lease")
      require (previous.sameIdentity lease) (.leaseLost "release identity changed")
  | .release, _, _ => .error (.leaseLost "release requires an active lease")

/-- `executionLeaseGuardFromContext`. -/
def Context.executionLeaseGuard (ctx : Context) : Option ExecutionLeaseGuard :=
  ctx.leaseGuard.filter fun guard => guard.runID ≠ "" && guard.token ≠ "" && 0 < guard.epoch

def validateRunExecutionLeaseTransition (ctx : Context) (existing next : RunRecord) :
    Except RunError Unit := do
  (validateExecutionLease existing.executionLease).mapError
    (.within ("existing run " ++ quoted existing.runID ++ " execution lease"))
  (validateExecutionLease next.executionLease).mapError
    (.within ("run " ++ quoted next.runID ++ " execution lease"))
  if ctx.deletionMutation.isSome then
    require (existing.executionLease = next.executionLease)
      (.controlNotAllowed
        ("deletion cannot change run " ++ quoted existing.runID ++ " execution lease"))
  else match ctx.leaseMutation with
    | some mutation => validateExecutionLeaseMutation existing next mutation
    | none => do
        require (existing.executionLease = next.executionLease)
          (.controlNotAllowed ("run " ++ quoted existing.runID ++
            " execution lease cannot change outside a lease mutation"))
        if existing.leaseActive then
          match ctx.executionLeaseGuard with
          | some guard => validateExecutionLeaseGuard existing guard
          | none => .error (.leaseLost
              ("run " ++ quoted existing.runID ++ " requires an execution lease guard"))
        else .ok ()

/-! ## Child runs -/

def childRunIDForRequestKey (requestKey : String) : String := "child-" ++ requestKey

def validatePendingChildRun (pending : PendingChildRun) : Except RunError Unit := do
  require (trimSpace pending.requestKey ≠ "") (.invalid "child request key is required")
  require (trimSpace pending.requestKey = pending.requestKey)
    (.invalid "child request key cannot contain surrounding whitespace")
  validateRunnerStorageID "child run ID" pending.childRunID
  require (pending.childRunID = childRunIDForRequestKey pending.requestKey)
    (.invalid ("child reservation run ID " ++ quoted pending.childRunID ++
      " does not match request key " ++ quoted pending.requestKey))
  [("parent run ID", pending.parentRunID), ("parent step ID", pending.parentStepID),
    ("parent task ID", pending.parentTaskID), ("graph ref", pending.graphRef),
    ("graph ID", pending.graphID), ("graph version", pending.graphVersion),
    ("namespace", pending.«namespace»), ("input hash", pending.inputHash)].forM fun field =>
      require (trimSpace field.2 ≠ "")
        (.invalid ("child reservation " ++ field.1 ++ " is required"))
  require (pending.reservedAt ≠ 0) (.invalid "child reservation time is required")

def validateChildRunRecordIdentity (run : RunRecord) : Except RunError Unit :=
  let requestKey := trimSpace run.childRequestKey
  require (requestKey = "" || run.runID = childRunIDForRequestKey requestKey)
    (.invalid ("child run " ++ quoted run.runID ++ " does not match request key " ++
      quoted requestKey))

def validateReservedChildRun (run : RunRecord) (reservation : PendingChildRun) :
    Except RunError Unit := do
  validateChildRunRecordIdentity run
  [("run ID", run.runID, reservation.childRunID),
    ("request key", run.childRequestKey, reservation.requestKey),
    ("input hash", run.childInputHash, reservation.inputHash),
    ("parent run ID", run.parentRunID, reservation.parentRunID),
    ("parent step ID", run.parentStepID, reservation.parentStepID),
    ("parent task ID", run.parentTaskID, reservation.parentTaskID),
    ("graph ID", run.graphID, reservation.graphID),
    ("graph version", run.graphVersion, reservation.graphVersion),
    ("graph hash", run.graphHash, reservation.graphHash),
    ("graph snapshot hash", run.graphSnapshotHash, reservation.graphSnapshotHash),
    ("graph session ID", run.graphSessionID, reservation.graphSessionID),
    ("namespace", run.«namespace», reservation.«namespace»)].forM fun field =>
      require (field.2.1 = field.2.2)
        (.invalid ("child run " ++ quoted run.runID ++ " " ++ field.1 ++ " is " ++
          quoted field.2.1 ++ ", want " ++ quoted field.2.2))

/-- The loop of `validateRunChildState` over the linked children; `linked` are
the ones before. -/
def validateLinkedChildren (runID : String) : List String → List String → Except RunError Unit
  | _, [] => .ok ()
  | linked, childRunID :: rest => do
      (validateRunnerStorageID "child run ID" childRunID).mapError
        (.within ("run " ++ quoted runID))
      require (!linked.contains childRunID)
        (.invalid ("run " ++ quoted runID ++ " has duplicate child run ID " ++ quoted childRunID))
      validateLinkedChildren runID (childRunID :: linked) rest

/-- The loop of `validateRunChildState` over the reserved children; `seen` are
the ones before. -/
def validatePendingChildren (runID : String) (linked : List String) :
    List PendingChildRun → List PendingChildRun → Except RunError Unit
  | _, [] => .ok ()
  | seen, pending :: rest => do
      (validatePendingChildRun pending).mapError
        (.within ("run " ++ quoted runID ++ " pending child"))
      require (pending.parentRunID = runID)
        (.invalid ("run " ++ quoted runID ++ " pending child " ++ quoted pending.childRunID ++
          " declares parent " ++ quoted pending.parentRunID))
      require (seen.all fun other => other.requestKey ≠ pending.requestKey)
        (.invalid ("run " ++ quoted runID ++ " has duplicate pending child request key " ++
          quoted pending.requestKey))
      require (seen.all fun other => other.childRunID ≠ pending.childRunID)
        (.invalid ("run " ++ quoted runID ++ " has duplicate pending child run ID " ++
          quoted pending.childRunID))
      require (!linked.contains pending.childRunID)
        (.invalid ("run " ++ quoted runID ++ " child " ++ quoted pending.childRunID ++
          " is both pending and finalized"))
      validatePendingChildren runID linked (pending :: seen) rest

def validateRunChildState (run : RunRecord) : Except RunError Unit := do
  (validateExecutionLease run.executionLease).mapError (.within ("run " ++ quoted run.runID))
  validateLinkedChildren run.runID [] run.childRunIDs
  validatePendingChildren run.runID run.childRunIDs [] run.pendingChildRuns
  if run.childRequestKey = "" && run.childInputHash = "" then .ok ()
  else do
    require (trimSpace run.childRequestKey ≠ "" && trimSpace run.childInputHash ≠ "")
      (.invalid ("child run " ++ quoted run.runID ++ " requires both request key and input hash"))
    require (run.childRequestKey = trimSpace run.childRequestKey)
      (.invalid ("child run " ++ quoted run.runID ++
        " request key cannot contain surrounding whitespace"))
    require (run.parentRunID ≠ "" && run.parentStepID ≠ "" && run.parentTaskID ≠ "")
      (.invalid ("child run " ++ quoted run.runID ++
        " request identity requires parent run, step, and task IDs"))
    validateChildRunRecordIdentity run

/-! ## Deletion -/

/-- The loop of `validateRunDeletionPlan`; `seen` are the runs before. -/
def validateDistinctRuns (rootID : String) : List String → List String → Except RunError Unit
  | _, [] => .ok ()
  | seen, runID :: rest => do
      validateRunnerStorageID "deletion run ID" runID
      require (!seen.contains runID)
        (.invalid ("run " ++ quoted rootID ++ " deletion plan contains duplicate run " ++
          quoted runID))
      validateDistinctRuns rootID (runID :: seen) rest

def validateRunDeletionPlan (rootID : String) (runIDs : List String) : Except RunError Unit := do
  require (runIDs.getLast? = some rootID)
    (.invalid ("run " ++ quoted rootID ++ " deletion plan must end with the requested run"))
  validateDistinctRuns rootID [] runIDs

def validateRunDeletionIdentity (id rootRunID parentRunID : String) : Except RunError Unit := do
  validateRunnerStorageID "deletion ID" id
  validateRunnerStorageID "deletion root run ID" rootRunID
  if parentRunID = "" then .ok ()
  else do
    validateRunnerStorageID "deletion parent run ID" parentRunID
    require (parentRunID ≠ rootRunID)
      (.invalid ("deletion root run " ++ quoted rootRunID ++ " cannot be its own parent"))

def validateRunDeletionState (deletion : RunDeletionState) : Except RunError Unit := do
  validateRunDeletionIdentity deletion.id deletion.rootRunID deletion.parentRunID
  deletion.runIDs.forM fun runID => validateRunnerStorageID "deletion run ID" runID
  match deletion.phase with
  | .reserved =>
    require deletion.runIDs.isEmpty
      (.invalid ("reserved deletion " ++ quoted deletion.id ++ " cannot contain a run plan"))
  | .planned | .unlinked => validateRunDeletionPlan deletion.rootRunID deletion.runIDs
  | .deleted => .error (.invalid ("deletion " ++ quoted deletion.id ++ " has unsupported phase"))

def validateRunDeletionStatus (run : RunRecord) : Except RunError Unit :=
  require (!run.status.isActiveDelete)
    (.controlNotAllowed ("run " ++ quoted run.runID ++ " must be stopped before deletion"))

def validateRunDeletionPhaseTransition (existing next : RunDeletionPhase) :
    Except RunError Unit :=
  require
    (match existing, next with
      | .reserved, .reserved | .reserved, .planned => true
      | .planned, .planned | .planned, .unlinked => true
      | .unlinked, .unlinked => true
      | _, _ => false)
    (.invalid "deletion phase cannot move")

/-- The deletion state of a record checked, if it has one. -/
def validateOptionalDeletion (context : String) : Option RunDeletionState → Except RunError Unit
  | none => .ok ()
  | some deletion => (validateRunDeletionState deletion).mapError (.within context)

def validateRunDeletionUnlinkTransition (existing next : RunRecord) (deletionID childRunID : String) :
    Except RunError Unit := do
  require (deletionID ≠ "" && childRunID ≠ "")
    (.invalid "run deletion unlink mutation is incomplete")
  require (existing.runID = next.runID)
    (.invalid "run deletion unlink cannot change run identity")
  existing.deletion.toList.forM fun deletion => do
    (validateRunDeletionState deletion).mapError
      (.within ("run " ++ quoted existing.runID ++ " deletion state"))
    require (deletion.phase = .reserved && deletion.runIDs.isEmpty)
      (.invalid ("run " ++ quoted existing.runID ++ " deletion is already planned"))
  require (existing.deletion = next.deletion)
    (.invalid ("run " ++ quoted existing.runID ++ " unlink cannot change parent deletion state"))
  let wantChildren := existing.childRunIDs.filter (· ≠ childRunID)
  let foundLinked := existing.childRunIDs.contains childRunID
  -- The linked children lose the child, or they did not have it and stay.
  require
    ((foundLinked && wantChildren = next.childRunIDs) ||
      (!foundLinked && existing.childRunIDs = next.childRunIDs))
    (.invalid ("run " ++ quoted existing.runID ++ " unlink must only remove child run " ++
      quoted childRunID))
  let wantPending := existing.pendingChildRuns.filter (·.childRunID ≠ childRunID)
  let found := foundLinked || existing.pendingChildRuns.any (·.childRunID = childRunID)
  require (found && wantPending = next.pendingChildRuns)
    (.invalid ("run " ++ quoted existing.runID ++ " unlink must only remove child run " ++
      quoted childRunID))
  require
    ({ existing with childRunIDs := [], pendingChildRuns := [] } =
      { next with childRunIDs := [], pendingChildRuns := [] })
    (.invalid ("run " ++ quoted existing.runID ++ " unlink cannot change parent run data"))

def RunRecord.withoutDeletion (run : RunRecord) : RunRecord := { run with deletion := none }

/-- The first reservation of a run. -/
def validateRunDeletionBegin (existing next : RunRecord) (deletion : RunDeletionState) :
    Except RunError Unit := do
  validateRunDeletionStatus existing
  require (deletion.phase = .reserved && deletion.runIDs.isEmpty)
    (.invalid ("run " ++ quoted existing.runID ++ " deletion must begin in phase reserved"))
  require (deletion.rootRunID ≠ next.runID || deletion.parentRunID = next.parentRunID)
    (.invalid ("run " ++ quoted existing.runID ++ " deletion parent changed"))
  require (existing.withoutDeletion = next.withoutDeletion)
    (.invalid ("run " ++ quoted existing.runID ++
      " deletion reservation cannot change run data"))

/-- A later step of the deletion a run is reserved for. -/
def validateRunDeletionAdvance (existing next : RunRecord)
    (previous deletion : RunDeletionState) : Except RunError Unit := do
  require (previous.rootRunID = deletion.rootRunID)
    (.invalid ("run " ++ quoted existing.runID ++ " deletion root is immutable"))
  require (previous.parentRunID = deletion.parentRunID)
    (.invalid ("run " ++ quoted existing.runID ++ " deletion parent is immutable"))
  require
    (previous.rootRunID = existing.runID ||
      (previous.phase = .reserved && deletion.phase = .reserved && deletion.runIDs.isEmpty))
    (.invalid ("descendant run " ++ quoted existing.runID ++
      " deletion reservation cannot advance phases"))
  require (previous.rootRunID ≠ existing.runID || deletion.parentRunID = next.parentRunID)
    (.invalid ("run " ++ quoted existing.runID ++ " deletion parent changed"))
  require (previous.runIDs.isEmpty || previous.runIDs = deletion.runIDs)
    (.invalid ("run " ++ quoted existing.runID ++ " deletion plan is immutable"))
  (validateRunDeletionPhaseTransition previous.phase deletion.phase).mapError
    (.within ("run " ++ quoted existing.runID ++ " deletion"))
  require (existing.withoutDeletion = next.withoutDeletion)
    (.invalid ("run " ++ quoted existing.runID ++ " deletion mutation cannot change run data"))

def validateRunDeletionTransition (ctx : Context) (existing next : RunRecord) :
    Except RunError Unit :=
  match ctx.unlinkMutation with
  | some unlink => validateRunDeletionUnlinkTransition existing next unlink.1 unlink.2
  | none => do
      validateOptionalDeletion
        ("run " ++ quoted existing.runID ++ " existing deletion state") existing.deletion
      validateOptionalDeletion ("run " ++ quoted next.runID ++ " next deletion state")
        next.deletion
      let reserved : RunError :=
        .controlNotAllowed ("run " ++ quoted existing.runID ++ " is reserved for deletion")
      match existing.deletion, next.deletion with
      | none, none => .ok ()
      | none, some deletion => do
          require (ctx.deletionMutation = some deletion.id) reserved
          validateRunDeletionBegin existing next deletion
      | some _, none => .error reserved
      | some previous, some deletion => do
          require (ctx.deletionMutation = some deletion.id && previous.id = deletion.id) reserved
          validateRunDeletionAdvance existing next previous deletion

def ensureRunNotDeleting (run : RunRecord) (action : String) : Except RunError Unit :=
  require run.deletion.isNone
    (.controlNotAllowed ("run " ++ quoted run.runID ++ " is reserved for deletion and cannot " ++
      action))

def validateNewRunDeletion (run : RunRecord) : Except RunError Unit :=
  require run.deletion.isNone
    (.invalid ("new run " ++ quoted run.runID ++ " cannot start with deletion state"))

def validateNewRunParent (run parent : RunRecord) : Except RunError Unit :=
  if run.parentRunID = "" then .ok ()
  else do
    validateRunnerStorageID "parent run ID" run.parentRunID
    require (parent.runID = run.parentRunID)
      (.invalid ("child run " ++ quoted run.runID ++ " parent lookup returned run " ++
        quoted parent.runID ++ ", want " ++ quoted run.parentRunID))
    ensureRunNotDeleting parent "create a child run"
    require (run.rootRunID ≠ "" && parent.rootRunID ≠ "" && run.rootRunID = parent.rootRunID)
      (.invalid ("child run " ++ quoted run.runID ++ " root " ++ quoted run.rootRunID ++
        " does not match parent run " ++ quoted parent.runID ++ " root " ++
        quoted parent.rootRunID))
    if run.childRequestKey = "" then .ok ()
    else match parent.pendingChildRuns.filter (·.childRunID = run.runID) with
      | [] => .error (.invalid ("child run " ++ quoted run.runID ++
          " has no pending reservation in parent run " ++ quoted parent.runID))
      | [reservation] => validateReservedChildRun run reservation
      | _ => .error (.invalid ("parent run " ++ quoted parent.runID ++
          " has duplicate reservations for child run " ++ quoted run.runID))

/-! ## Effects -/

/-- The action of a resolution and the key that goes with it. -/
def validateEffectResolutionAction (stepID : String) (resolution : EffectResolution) :
    Except RunError Unit :=
  match resolution.action with
  | .confirmNotApplied =>
    require (resolution.compensationKey = "")
      (.invalid ("step " ++ quoted stepID ++
        " confirmed effect resolution cannot have a compensation key"))
  | .compensate =>
    (validateRunnerStorageID "compensation key" resolution.compensationKey).mapError
      (.within ("step " ++ quoted stepID))

/-- The status of a resolution against the status of the effect. -/
def validateEffectResolutionStatus (step : StepRecord) (resolution : EffectResolution) :
    Except RunError Unit :=
  match resolution.status with
  | .intent => do
      require resolution.resolvedAt.isNone
        (.invalid ("step " ++ quoted step.stepID ++ " intent effect resolution cannot be resolved"))
      require (step.effectStatus = .unknown)
        (.invalid ("step " ++ quoted step.stepID ++
          " intent effect resolution requires unknown effect status"))
  | .unknown =>
    require (resolution.resolvedAt.isSome && resolution.error ≠ "" && step.effectStatus = .unknown)
      (.invalid ("step " ++ quoted step.stepID ++ " unknown effect resolution is incomplete"))
  | .succeeded => do
      require (resolution.resolvedAt.isSome && resolution.error = "")
        (.invalid ("step " ++ quoted step.stepID ++ " succeeded effect resolution is incomplete"))
      require (resolution.action ≠ .confirmNotApplied || step.effectStatus = .notApplied)
        (.invalid ("step " ++ quoted step.stepID ++ " confirmed effect resolution status mismatch"))
      require (resolution.action ≠ .compensate || step.effectStatus = .compensated)
        (.invalid ("step " ++ quoted step.stepID ++
          " compensated effect resolution status mismatch"))

def validateEffectResolution (step : StepRecord) : Except RunError Unit :=
  match step.effectResolution with
  | none =>
    require (step.effectStatus ≠ .notApplied && step.effectStatus ≠ .compensated)
      (.invalid ("step " ++ quoted step.stepID ++
        " resolved effect status requires a resolution"))
  | some resolution => do
      (validateRunnerStorageID "effect resolution ID" resolution.id).mapError
        (.within ("step " ++ quoted step.stepID))
      (validateRunnerStorageID "effect resolution attempt ID" resolution.attemptID).mapError
        (.within ("step " ++ quoted step.stepID))
      require (resolution.actor ≠ "" && trimSpace resolution.actor = resolution.actor)
        (.invalid ("step " ++ quoted step.stepID ++ " effect resolution actor is invalid"))
      require (resolution.reason ≠ "" && trimSpace resolution.reason = resolution.reason)
        (.invalid ("step " ++ quoted step.stepID ++ " effect resolution reason is invalid"))
      require (resolution.requestedAt ≠ 0)
        (.invalid ("step " ++ quoted step.stepID ++ " effect resolution requested_at is required"))
      validateEffectResolutionAction step.stepID resolution
      validateEffectResolutionStatus step resolution

def validateStepEffect (step : StepRecord) : Except RunError Unit :=
  if step.operationKey = "" then
    require (step.effectClass = .unset && step.effectStatus = .unset)
      (.invalid ("step " ++ quoted step.stepID ++ " effect metadata requires an operation key"))
  else do
    validateRunnerStorageID "step operation key" step.operationKey
    require (step.effectClass.normalize = step.effectClass)
      (.invalid ("step " ++ quoted step.stepID ++ " has invalid effect class"))
    require (step.effectStatus ≠ .unset)
      (.invalid ("step " ++ quoted step.stepID ++ " has invalid effect status"))
    validateEffectResolution step

/-- What a resolution may not change once it is recorded. -/
def EffectResolution.sameIdentity (previous resolution : EffectResolution) : Bool :=
  previous.id = resolution.id && previous.attemptID = resolution.attemptID &&
    previous.action = resolution.action && previous.actor = resolution.actor &&
    previous.reason = resolution.reason &&
    previous.compensationKey = resolution.compensationKey &&
    previous.requestedAt = resolution.requestedAt

def validateStepEffectTransition (existing next : StepRecord) : Except RunError Unit := do
  validateStepEffect next
  match existing.effectResolution, next.effectResolution with
  | none, none => .ok ()
  | none, some resolution =>
    require (existing.effectStatus = .unknown && resolution.status = .intent)
      (.invalid ("step " ++ quoted next.stepID ++
        " effect resolution must start from unknown with intent"))
  | some _, none =>
    .error (.invalid ("step " ++ quoted next.stepID ++ " effect resolution cannot be removed"))
  | some previous, some resolution => do
      require (previous.sameIdentity resolution)
        (.invalid ("step " ++ quoted next.stepID ++
          " effect resolution identity cannot change"))
      require
        (previous.status = .intent ||
          (previous = resolution && existing.effectStatus = next.effectStatus))
        (.invalid ("step " ++ quoted next.stepID ++ " effect resolution status cannot change"))

/-! ## Commits -/

def validateArtifactStages (transactionID : String) (stages : List ArtifactStage) :
    Except RunError Unit :=
  stages.forM fun stage => do
    require (stage.transactionID = transactionID)
      (.invalid ("artifact stage transaction " ++ quoted stage.transactionID ++
        " does not match transaction " ++ quoted transactionID))
    validateRunnerStorageID "run ID" stage.runID
    validateRunnerStorageID "artifact ID" stage.artifactID

/-- The run ids a commit names, in the order `singleCommitRunID` reads them. -/
def Commit.runIDs (commit : Commit) : List String :=
  commit.run.toList.map (·.run.runID) ++ commit.steps.map (·.step.runID) ++
    commit.checkpoints.map (·.record.runID) ++ commit.events.map (·.runID) ++
    commit.artifacts.map (·.runID)

/-- The loop of `singleCommitRunID`. -/
def singleRunID : String → List String → Except RunError String
  | runID, [] => .ok runID
  | runID, candidate :: rest =>
    let candidate := trimSpace candidate
    if candidate = "" || candidate = runID then singleRunID runID rest
    else if runID = "" then singleRunID candidate rest
    else .error (.invalid ("runtime commit spans runs " ++ quoted runID ++ " and " ++
      quoted candidate))

def singleCommitRunID (commit : Commit) : Except RunError String := do
  let runID ← singleRunID "" commit.runIDs
  require (runID ≠ "") (.invalid "runtime commit requires a run ID")
  return runID

/-- The guard of a commit names the one run the commit is about. -/
def validateCommitGuard (commit : Commit) (guard : ExecutionLeaseGuard) :
    Except RunError Unit := do
  validateRunnerStorageID "execution lease guard run ID" guard.runID
  validateRunnerStorageID "execution lease guard token" guard.token
  require (guard.epoch ≠ 0) (.invalid "execution lease guard epoch must be greater than zero")
  let runID ← singleCommitRunID commit
  require (runID = guard.runID)
    (.invalid ("execution lease guard run " ++ quoted guard.runID ++
      " does not match commit run " ++ quoted runID))

def validateRuntimeCommit (commit : Commit) : Except RunError Unit := do
  validateRunnerStorageID "transaction ID" commit.transactionID
  commit.lease.toList.forM (validateCommitGuard commit)
  commit.run.toList.forM fun write => do
    validateRunnerStorageID "run ID" write.run.runID
    validateRunChildState write.run
  commit.steps.forM fun write => do
    validateRunnerStorageID "run ID" write.step.runID
    validateRunnerStorageID "step ID" write.step.stepID
    validateStepEffect write.step
  commit.checkpoints.forM fun write => do
    validateRunnerStorageID "run ID" write.record.runID
    validateRunnerStorageID "checkpoint ID" write.record.checkpointID
  commit.events.forM fun event =>
    if event.type.isStreaming then .ok ()
    else do
      validateRunnerStorageID "run ID" event.runID
      validateRunnerStorageID "event ID" event.id
  validateArtifactStages commit.transactionID commit.artifacts

end WeaveFlow
