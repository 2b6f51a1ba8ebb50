import WeaveFlow.Runtime.MemoryStore

/-!
# The runtime database

The SQLite store keeps the runtime records and the task queue in one database.
A row carries its record, and its other columns are read off the record, so a
table is a set of records with the keys of the schema.  Every call is one
transaction on the database: it takes the write lock when it begins, and what it
wrote is rolled back unless it reaches the commit at its end.

This module has the tables, the part of a transaction that writes the records of a
runtime commit (`applyCommit`), and what is in the database after it
(`Database.Records`).  Versions and epochs are counted without a wrap, as they are below
`2 ^ 64`.
-/

namespace WeaveFlow

open KeyedMap Outcome List

/-! ## Instants -/

/-- An instant of the queue, in nanoseconds before or after 1970. -/
abbrev Instant := Int

/-- `time.Time{}`, the first day of the year one. -/
def zeroInstant : Instant := -62135596800000000000

def unixNano (t : Instant) : Int := if t = zeroInstant then 0 else t

/-! ## Tasks and attempts -/

/-- `TaskStatus`.  Nothing checks the text of a task that is enqueued, so it may be
empty or any other one. -/
inductive TaskStatus where
  | unset
  | queued
  | running
  | completed
  | failed
  | canceled
  | dead
  | other (name : String)
  deriving DecidableEq, Repr

inductive AttemptStatus where
  | running
  | completed
  | failed
  | canceled
  | abandoned
  deriving DecidableEq, Repr

/-- The right of a worker to execute a task until it expires. -/
structure TaskLease where
  taskID : String
  workerID : String
  token : String
  epoch : Nat
  acquiredAt : Instant := zeroInstant
  heartbeatAt : Instant := zeroInstant
  expiresAt : Instant := zeroInstant
  deriving DecidableEq, Repr

structure Task where
  id : String
  kind : String
  runID : String := ""
  stepID : String := ""
  graphTaskID : String := ""
  operationID : String := ""
  graphID : String := ""
  graphSessionID : String := ""
  checkpointID : String := ""
  /-- The JSON text of the payload. -/
  payload : String := ""
  status : TaskStatus := .unset
  version : Nat := 0
  attemptCount : Int := 0
  maxAttempts : Int := 0
  availableAt : Instant := zeroInstant
  lease : Option TaskLease := none
  lastError : String := ""
  createdAt : Instant := zeroInstant
  updatedAt : Instant := zeroInstant
  completedAt : Option Instant := none
  deriving DecidableEq, Repr

structure Attempt where
  id : String
  taskID : String
  number : Int
  workerID : String
  leaseToken : String
  leaseEpoch : Nat
  status : AttemptStatus
  startedAt : Instant
  heartbeatAt : Instant
  finishedAt : Option Instant := none
  error : String := ""
  deriving DecidableEq, Repr

/-- The unique key of the attempts table apart from the attempt id. -/
def Attempt.key (attempt : Attempt) : String ×ₗ Int := toLex (attempt.taskID, attempt.number)

/-- `TaskResult`, by the JSON text of its payload. -/
structure TaskResult where
  payload : String := ""
  deriving DecidableEq, Repr

structure TaskFailure where
  message : String := ""
  retryAt : Instant := zeroInstant
  retryable : Bool := false
  deriving DecidableEq, Repr

structure TaskFailureTransition where
  lease : TaskLease
  failure : TaskFailure
  deriving DecidableEq, Repr

/-! ## The tables -/

/-- What `taskAtomicFingerprint` takes besides the commit. -/
inductive TaskOperation where
  | enqueue (task : Task)
  | complete (lease : TaskLease) (result : TaskResult)
  | fail (failures : List TaskFailureTransition)
  deriving DecidableEq, Repr

/-- The fingerprint of a stored transaction: the one of a plain commit, or that of a
commit together with a queue operation.  It stands for the digest the source takes. -/
inductive TransactionFingerprint where
  | runtime (commit : Fingerprint)
  | atomic (commit : Fingerprint) (operation : TaskOperation)
  deriving DecidableEq, Repr

/-- A row of `runtime_transactions`: `taskTransactionResult` with its key. -/
structure StoredTransaction where
  id : String
  fingerprint : TransactionFingerprint
  result : CommitResult
  tasks : List Task := []
  deriving DecidableEq, Repr

/-- A row of `artifact_stages`; the content stands for metadata and payload. -/
structure StagedArtifact where
  stage : ArtifactStage
  content : String
  deriving DecidableEq, Repr

/-- A row of `artifacts`. -/
structure FinalArtifact where
  runID : String
  artifactID : String
  content : String
  deriving DecidableEq, Repr

/-- The tables of the schema. -/
structure Database where
  runs : KeyedMap RunRecord.runID := .empty
  steps : KeyedMap StepRecord.stepID := .empty
  checkpoints : KeyedMap (fun checkpoint : MemoryCheckpoint => checkpoint.record.checkpointID) :=
    .empty
  /-- The events by their sequence; their ids are unique. -/
  events : List Event := []
  artifactStages : List StagedArtifact := []
  artifacts : List FinalArtifact := []
  transactions : KeyedMap StoredTransaction.id := .empty
  /-- The deletion fences, by run. -/
  fences : SortedMap String String := .empty
  tasks : KeyedMap Task.id := .empty
  attempts : KeyedMap Attempt.key := .empty

namespace Database

/-! ## Runs -/

def ensureRunWritable (db : Database) (runID : String) : Except RunError Unit :=
  match db.fences.get runID with
  | none => .ok ()
  | some deletionID => .error (.controlNotAllowed ("run " ++ quoted runID ++
      " is fenced by deletion " ++ quoted deletionID))

@[simp] theorem ensureRunWritable_eq_ok {db : Database} {runID : String} {u : Unit} :
    db.ensureRunWritable runID = .ok u ↔ db.fences.get runID = none := by
  rw [ensureRunWritable]
  split <;> simp_all

def loadRun (db : Database) (runID : String) : Except RunError RunRecord :=
  found (db.runs.get runID)

/-- The guard of a commit against the run it names. -/
def checkCommitLease (db : Database) (commit : Commit) : Except RunError Unit :=
  match commit.lease with
  | none => .ok ()
  | some guard => do
      let run ← db.loadRun guard.runID
      validateExecutionLeaseGuard run guard

/-- The parent of a run that a commit creates.  A fence of the parent is not looked
at here. -/
def checkCommitParent (db : Database) (run : RunRecord) : Except RunError Unit :=
  if run.parentRunID = "" then .ok ()
  else do
    let parent ← (db.loadRun run.parentRunID).mapError
      (.within ("parent run " ++ quoted run.parentRunID))
    validateNewRunParent run parent

/-- The branch `RunWriteCreate` of `applyCommit`. -/
def createCommitRun (db : Database) (run : RunRecord) : Except RunError RunRecord := do
  require (db.runs.get run.runID).isNone (.invalid ("run " ++ quoted run.runID ++ " already exists"))
  validateNewRunDeletion run
  db.ensureRunWritable run.runID
  db.checkCommitParent run
  return run

/-- The branch `RunWriteUpdate, RunWriteCheck` of `applyCommit` up to the update. -/
def checkCommitRun (db : Database) (commit : Commit) (run : RunRecord) :
    Except RunError RunRecord := do
  let existing ← db.loadRun run.runID
  require (existing.revision = run.revision)
    (.revisionConflict run.runID run.revision existing.revision)
  validateCommitExecutionLease existing commit
  require (existing.executionLease = run.executionLease)
    (.controlNotAllowed ("runtime commit cannot change run " ++ quoted run.runID ++
      " execution lease"))
  db.ensureRunWritable run.runID
  ensureRunNotDeleting existing "write runtime records"
  return existing

/-- The record a run write leaves in the table. -/
def writtenRun (write : RunWrite) : RunRecord :=
  match write.mode with
  | .create | .check => write.run
  | .update => { write.run with revision := write.run.revision + 1 }

/-- The run of a commit, as it is written if it is.  The update names the revision that
was just read, so it meets the row. -/
def commitRun (db : Database) (ctx : Context) (commit : Commit) :
    Except RunError (Option RunRecord) :=
  match commit.run with
  | none => .ok none
  | some ⟨.create, run⟩ => do
      let run ← db.createCommitRun run
      return some run
  | some ⟨.check, run⟩ => do
      let _ ← db.checkCommitRun commit run
      return none
  | some ⟨.update, run⟩ => do
      let existing ← db.checkCommitRun commit run
      validateRunDeletionTransition ctx existing run
      return some (writtenRun ⟨.update, run⟩)

/-- `insertRun` and `updateRun`. -/
def putRun (db : Database) : Option RunRecord → Database
  | none => db
  | some run => { db with runs := db.runs.put run }

/-! ## The other records of a commit -/

/-- `validateCommitRunWrite`, with the run it is about. -/
def validateCommitRunWrite (db : Database) (commit : Commit) (runID action : String) :
    Except RunError Unit := do
  let run ← db.loadRun runID
  validateCommitExecutionLease run commit
  db.ensureRunWritable run.runID
  ensureRunNotDeleting run action

def commitStep (commit : Commit) (db : Database) (write : StepWrite) :
    Except RunError Database := do
  db.validateCommitRunWrite commit write.step.runID "write a step"
  MemoryStore.checkStepWrite write.step write.mode (db.steps.get write.step.stepID)
  return { db with steps := db.steps.put write.step }

/-- The row a checkpoint write leaves in the table. -/
def writtenCheckpoint (write : CheckpointWrite) : MemoryCheckpoint :=
  ⟨{ write.record with payloadRef := "" }, write.payload⟩

def commitCheckpoint (commit : Commit) (db : Database) (write : CheckpointWrite) :
    Except RunError Database := do
  db.validateCommitRunWrite commit write.record.runID "write a checkpoint"
  require (db.checkpoints.get write.record.checkpointID).isNone
    (.invalid ("save checkpoint " ++ quoted write.record.checkpointID))
  return { db with checkpoints := db.checkpoints.put (writtenCheckpoint write) }

def insertEvent (db : Database) (event : Event) : Except RunError Database := do
  validateRunnerStorageID "run ID" event.runID
  let _ ← db.loadRun event.runID
  db.ensureRunWritable event.runID
  require (db.events.all (·.id ≠ event.id)) (.invalid "constraint failed: events.event_id")
  return { db with events := db.events ++ [event] }

/-- An event of a commit; streaming events are not kept. -/
def commitEvent (commit : Commit) (db : Database) (event : Event) : Except RunError Database :=
  if event.type.isStreaming then .ok db
  else do
    db.validateCommitRunWrite commit event.runID "publish an event"
    db.insertEvent event

def FinalArtifact.isOf (stage : ArtifactStage) (row : FinalArtifact) : Bool :=
  row.runID = stage.runID && row.artifactID = stage.artifactID

/-- A stage row is the one that a transaction finalizes. -/
def StagedArtifact.isOf (transactionID : String) (stage : ArtifactStage) (row : StagedArtifact) :
    Bool :=
  row.stage.transactionID = transactionID && row.stage.artifactID = stage.artifactID

/-- The insertion of `finalizeArtifactStage`, and the removal of the stage. -/
def finalizeStaged (db : Database) (transactionID : String) (stage : ArtifactStage)
    (staged : StagedArtifact) : Except RunError Database := do
  require (staged.stage.runID = stage.runID)
    (.invalid ("artifact stage " ++ quoted stage.artifactID ++ " run mismatch"))
  db.ensureRunWritable stage.runID
  let stages := db.artifactStages.filter fun row => !StagedArtifact.isOf transactionID stage row
  match db.artifacts.find? (FinalArtifact.isOf stage) with
  | none =>
    return { db with
      artifacts := db.artifacts ++ [⟨stage.runID, stage.artifactID, staged.content⟩]
      artifactStages := stages }
  | some existing => do
      require (existing.content = staged.content)
        (.invalid ("artifact " ++ quoted stage.artifactID ++
          " already exists with different content"))
      return { db with artifactStages := stages }

def finalizeArtifactStage (db : Database) (transactionID : String) (stage : ArtifactStage) :
    Except RunError Database :=
  match db.artifactStages.find? (StagedArtifact.isOf transactionID stage) with
  | some staged => db.finalizeStaged transactionID stage staged
  | none => do
      require (db.artifacts.any (FinalArtifact.isOf stage))
        (.recordNotFound ("artifact stage " ++ quoted stage.artifactID))
      return db

def commitArtifact (commit : Commit) (db : Database) (stage : ArtifactStage) :
    Except RunError Database := do
  db.validateCommitRunWrite commit stage.runID "finalize an artifact"
  db.finalizeArtifactStage commit.transactionID stage

/-- The writes of `applyCommit` after the run. -/
def applyWrites (db : Database) (commit : Commit) : Except RunError Database := do
  let db ← commit.steps.foldlM (commitStep commit) db
  let db ← commit.checkpoints.foldlM (commitCheckpoint commit) db
  let db ← commit.events.foldlM (commitEvent commit) db
  commit.artifacts.foldlM (commitArtifact commit) db

/-- The lease guard and the run of `applyCommit`. -/
def applyRun (db : Database) (ctx : Context) (commit : Commit) :
    Except RunError (Option RunRecord) := do
  db.checkCommitLease commit
  db.commitRun ctx commit

/-- `applyCommit`.  The result is filled in as soon as the run is written, and a later
failure hands it back so. -/
def applyCommit (db : Database) (ctx : Context) (commit : Commit) (result : CommitResult) :
    Except (CommitResult × RunError) (Database × CommitResult) := do
  let run ← (db.applyRun ctx commit).mapError (Prod.mk result)
  let result := { result with run := run }
  let db ← ((db.putRun run).applyWrites commit).mapError (Prod.mk result)
  return (db, result)

/-! ## What a commit leaves in the database -/

/-- Every record of a commit is in the database: the run as it was written, the last
write of every step, the checkpoints, the events that are kept and the artifacts. -/
structure Records (db : Database) (commit : Commit) : Prop where
  run : ∀ write, commit.run = some write → write.mode ≠ .check →
    db.runs.get write.run.runID = some (writtenRun write)
  steps : ∀ before write after, commit.steps = before ++ write :: after →
    (∀ later ∈ after, later.step.stepID ≠ write.step.stepID) →
    db.steps.get write.step.stepID = some write.step
  checkpoints : ∀ write ∈ commit.checkpoints,
    db.checkpoints.get write.record.checkpointID = some (writtenCheckpoint write)
  events : ∀ event ∈ commit.events, event.type.isStreaming = false → event ∈ db.events
  artifacts : ∀ stage ∈ commit.artifacts, ∃ row ∈ db.artifacts, FinalArtifact.isOf stage row = true

section

variable {db db' : Database} {commit : Commit}

theorem commitStep_eq_ok (h : commitStep commit db write = .ok db') :
    db' = { db with steps := db.steps.put write.step } := by
  obtain ⟨-, -, h⟩ := of_bind h
  obtain ⟨-, -, h⟩ := of_bind h
  cases h
  rfl

theorem commitCheckpoint_eq_ok (h : commitCheckpoint commit db write = .ok db') :
    db.checkpoints.get write.record.checkpointID = none ∧
      db' = { db with checkpoints := db.checkpoints.put (writtenCheckpoint write) } := by
  obtain ⟨-, -, h⟩ := of_bind h
  obtain ⟨_, hn, h⟩ := of_bind h
  cases h
  exact ⟨Option.isNone_iff_eq_none.mp (require_eq_ok.mp hn), rfl⟩

theorem commitEvent_eq_ok (h : commitEvent commit db event = .ok db') :
    ∃ kept, db' = { db with events := db.events ++ kept } ∧
      (event.type.isStreaming = false → event ∈ kept) := by
  rw [commitEvent] at h
  split at h
  next hs =>
    cases h
    refine ⟨[], by rw [append_nil], ?_⟩
    intro hk
    simp [hs] at hk
  · obtain ⟨-, -, h⟩ := of_bind h
    obtain ⟨-, -, h⟩ := of_bind h
    obtain ⟨-, -, h⟩ := of_bind h
    obtain ⟨-, -, h⟩ := of_bind h
    obtain ⟨-, -, h⟩ := of_bind h
    cases h
    exact ⟨[event], rfl, fun _ => mem_singleton_self event⟩

theorem finalizeStaged_eq_ok (h : db.finalizeStaged transactionID stage staged = .ok db') :
    ∃ final stages, db' = { db with artifacts := db.artifacts ++ final, artifactStages := stages } ∧
      ∃ row ∈ db.artifacts ++ final, FinalArtifact.isOf stage row = true := by
  obtain ⟨-, -, h⟩ := of_bind h
  obtain ⟨-, -, h⟩ := of_bind h
  dsimp only at h
  split at h
  · cases h
    refine ⟨_, _, rfl, _, mem_append_right _ (mem_singleton_self _), ?_⟩
    simp [FinalArtifact.isOf]
  next existing he =>
    obtain ⟨-, -, h⟩ := of_bind h
    cases h
    refine ⟨[], _, by rw [append_nil], existing, ?_, List.find?_some he⟩
    exact mem_append_left _ (mem_of_find?_eq_some he)

theorem commitArtifact_eq_ok (h : commitArtifact commit db stage = .ok db') :
    ∃ final stages, db' = { db with artifacts := db.artifacts ++ final, artifactStages := stages } ∧
      ∃ row ∈ db.artifacts ++ final, FinalArtifact.isOf stage row = true := by
  obtain ⟨-, -, h⟩ := of_bind h
  rw [finalizeArtifactStage] at h
  split at h
  · exact finalizeStaged_eq_ok h
  · obtain ⟨_, hf, h⟩ := of_bind h
    cases h
    obtain ⟨row, hr, hof⟩ := any_eq_true.mp (require_eq_ok.mp hf)
    exact ⟨[], db.artifactStages, by rw [append_nil], row, mem_append_left _ hr, hof⟩

/-- The step writes of a commit change the steps only, and the last write of a step
stays. -/
theorem commitSteps_eq_ok (h : commit.steps.foldlM (commitStep commit) db = .ok db') :
    (∃ steps, db' = { db with steps := steps }) ∧
      ∀ before write after, commit.steps = before ++ write :: after →
        (∀ later ∈ after, later.step.stepID ≠ write.step.stepID) →
        db'.steps.get write.step.stepID = some write.step := by
  constructor
  · refine foldlM_induction (P := fun d : Database => ∃ steps, d = { db with steps })
      ?_ ⟨db.steps, rfl⟩ h
    rintro d write d' - ⟨steps, rfl⟩ hw
    have hd := commitStep_eq_ok hw
    exact ⟨_, hd⟩
  · intro before write after hs hl
    rw [hs, foldlM_append] at h
    obtain ⟨d, -, h⟩ := of_bind h
    rw [foldlM_cons] at h
    obtain ⟨d', hw, h⟩ := of_bind h
    -- the writes after the last one of this step are writes of other steps
    refine foldlM_induction
      (P := fun d : Database => d.steps.get write.step.stepID = some write.step) ?_ ?_ h
    · intro b later b' hm hg hla
      rw [commitStep_eq_ok hla]
      exact (get_put_ne (hl later hm).symm b.steps).trans hg
    · rw [commitStep_eq_ok hw]
      exact get_put_self d.steps write.step

theorem commitCheckpoints_eq_ok
    (h : commit.checkpoints.foldlM (commitCheckpoint commit) db = .ok db') :
    (∃ checkpoints, db' = { db with checkpoints := checkpoints }) ∧ ∀ write ∈ commit.checkpoints,
        db'.checkpoints.get write.record.checkpointID = some (writtenCheckpoint write) := by
  constructor
  · refine foldlM_induction (P := fun d : Database => ∃ checkpoints, d = { db with checkpoints })
      ?_ ⟨db.checkpoints, rfl⟩ h
    rintro d write d' - ⟨checkpoints, rfl⟩ hw
    exact ⟨_, (commitCheckpoint_eq_ok hw).2⟩
  · refine foldlM_forall_mem (P := fun write (d : Database) =>
      d.checkpoints.get write.record.checkpointID = some (writtenCheckpoint write)) ?_ ?_ h
    · intro b write b' hw
      rw [(commitCheckpoint_eq_ok hw).2]
      exact get_put_self b.checkpoints (writtenCheckpoint write)
    · intro b write other b' hg ho
      obtain ⟨hn, rfl⟩ := commitCheckpoint_eq_ok ho
      -- a checkpoint that is there is not the one that is inserted
      have hne : write.record.checkpointID ≠ (writtenCheckpoint other).record.checkpointID := by
        intro heq
        have hge : b.checkpoints.get other.record.checkpointID = _ := heq ▸ hg
        simp [hn] at hge
      rw [get_put, if_neg hne]
      exact hg

theorem commitEvents_eq_ok (h : commit.events.foldlM (commitEvent commit) db = .ok db') :
    (∃ events, db' = { db with events := events }) ∧
      ∀ event ∈ commit.events, event.type.isStreaming = false → event ∈ db'.events := by
  constructor
  · refine foldlM_induction (P := fun d : Database => ∃ events, d = { db with events })
      ?_ ⟨db.events, rfl⟩ h
    rintro d event d' - ⟨events, rfl⟩ he
    obtain ⟨kept, hd, -⟩ := commitEvent_eq_ok he
    exact ⟨_, hd⟩
  · refine foldlM_forall_mem (P := fun event (d : Database) =>
      event.type.isStreaming = false → event ∈ d.events) ?_ ?_ h
    · intro b event b' he hk
      obtain ⟨kept, rfl, hm⟩ := commitEvent_eq_ok he
      exact mem_append_right _ (hm hk)
    · intro b event other b' hm ho hk
      obtain ⟨kept, rfl, -⟩ := commitEvent_eq_ok ho
      exact mem_append_left _ (hm hk)

theorem commitArtifacts_eq_ok (h : commit.artifacts.foldlM (commitArtifact commit) db = .ok db') :
    (∃ final stages, db' = { db with artifacts := final, artifactStages := stages }) ∧
      ∀ stage ∈ commit.artifacts, ∃ row ∈ db'.artifacts, FinalArtifact.isOf stage row = true := by
  constructor
  · refine foldlM_induction (P := fun d : Database =>
        ∃ final stages, d = { db with artifacts := final, artifactStages := stages })
      ?_ ⟨db.artifacts, db.artifactStages, rfl⟩ h
    rintro d stage d' - ⟨final, stages, rfl⟩ hs
    obtain ⟨final', stages', hd, -⟩ := commitArtifact_eq_ok hs
    exact ⟨_, _, hd⟩
  · refine foldlM_forall_mem (P := fun stage (d : Database) =>
      ∃ row ∈ d.artifacts, FinalArtifact.isOf stage row = true) ?_ ?_ h
    · intro b stage b' hs
      obtain ⟨final, stages, rfl, hr⟩ := commitArtifact_eq_ok hs
      exact hr
    · rintro b stage other b' ⟨row, hr, hof⟩ ho
      obtain ⟨final, stages, rfl, -⟩ := commitArtifact_eq_ok ho
      exact ⟨row, mem_append_left _ hr, hof⟩

/-- A database with the same queue, transactions and fences. -/
structure SameQueue (db db' : Database) : Prop where
  tasks : db'.tasks = db.tasks
  attempts : db'.attempts = db.attempts
  transactions : db'.transactions = db.transactions
  fences : db'.fences = db.fences

theorem commitRun_eq_ok (h : db.commitRun ctx commit = .ok written) (hr : commit.run = some write)
    (hm : write.mode ≠ .check) : written = some (writtenRun write) := by
  rw [commitRun, hr] at h
  obtain ⟨mode, run⟩ := write
  cases mode with
  | create =>
    obtain ⟨run', hru, h⟩ := of_bind h
    obtain ⟨-, -, hru⟩ := of_bind hru
    simp only [bind_eq_ok] at hru
    obtain ⟨-, -, -, -, -, -, hru⟩ := hru
    cases hru
    cases h
    rfl
  | update =>
    obtain ⟨existing, -, h⟩ := of_bind h
    obtain ⟨-, -, h⟩ := of_bind h
    cases h
    rfl
  | check => exact absurd rfl hm

theorem runID_writtenRun : (writtenRun write).runID = write.run.runID := by
  obtain ⟨mode, run⟩ := write
  cases mode <;> rfl

/-- The writes after the run touch neither the runs nor the queue, and each of them is in
the database at the end. -/
theorem applyWrites_eq_ok (h : db.applyWrites commit = .ok db')
    (hr : ∀ write, commit.run = some write → write.mode ≠ .check →
      db.runs.get write.run.runID = some (writtenRun write)) :
    db.SameQueue db' ∧ db'.Records commit := by
  obtain ⟨db₁, h₁, h⟩ := of_bind h
  obtain ⟨db₂, h₂, h⟩ := of_bind h
  obtain ⟨db₃, h₃, h₄⟩ := of_bind h
  obtain ⟨⟨steps, rfl⟩, hs⟩ := commitSteps_eq_ok h₁
  obtain ⟨⟨checkpoints, rfl⟩, hc⟩ := commitCheckpoints_eq_ok h₂
  obtain ⟨⟨events, rfl⟩, he⟩ := commitEvents_eq_ok h₃
  obtain ⟨⟨final, stages, rfl⟩, ha⟩ := commitArtifacts_eq_ok h₄
  exact ⟨⟨rfl, rfl, rfl, rfl⟩, ⟨hr, hs, hc, he, ha⟩⟩

/-- An applied commit has put its records into the database and left the queue alone. -/
theorem applyCommit_eq_ok (h : db.applyCommit ctx commit start = .ok (db', result)) :
    db.SameQueue db' ∧ db'.Records commit ∧ result.transactionID = start.transactionID ∧
      result.outcome = start.outcome := by
  obtain ⟨run, hr, h⟩ := of_bind h
  obtain ⟨db₁, hw, h⟩ := of_bind h
  cases h
  obtain ⟨-, -, hr⟩ := of_bind (mapError_eq_ok.mp hr)
  obtain ⟨hs, hre⟩ := applyWrites_eq_ok (mapError_eq_ok.mp hw) (by
    intro write hwr hm
    rw [commitRun_eq_ok hr hwr hm, putRun, ← runID_writtenRun]
    exact get_put_self db.runs (writtenRun write))
  refine ⟨?_, hre, rfl, rfl⟩
  cases run with
  | none => exact hs
  | some run => exact ⟨hs.tasks, hs.attempts, hs.transactions, hs.fences⟩

end

end Database

end WeaveFlow
