import WeaveFlow.Runner.GraphSchedule

/-!
# Where a run is resumed

A checkpoint is taken at one of five stages.  `resumeTarget` reads from the checkpoint a run is
resumed from, and from the schedule in its state, with which tasks the run starts:

* before a node: the one task of the stored current wave, which must be of this node;
* after a node: the tasks the node leads to, resolved once more from the command that was kept
  or from the edges.  In a wave of several tasks this is refused;
* after a wave: the stored next tasks;
* inside an agent: the task of the agent;
* the final checkpoint is refused.

`resumeExistingRun` then completes the run if there is nothing to start but the end, pauses it
again if the command was to suspend, and otherwise hands the tasks to the scheduler loop, which
places them beside the stored joins.
-/

namespace WeaveFlow

open Outcome

/-- `afterNodeCommand`: the command of a task, kept in its after-node checkpoint. -/
structure AfterNodeCommand where
  taskID : String
  nodeID : String
  command : Command

/-- A checkpoint, as far as a run is resumed from it.  The runtime state keeps the two wave
ids, and the after-node command is given beside the state that holds it. -/
structure Checkpoint where
  record : CheckpointRecord
  parallelWaveID : String := ""
  waveID : String := ""
  afterNodeCommand : Option AfterNodeCommand := none
  business : State

/-- Why a run is not resumed: a text, or a route that could not be resolved. -/
inductive ResumeError where
  | text (message : String)
  | route (e : RouteError)
  deriving DecidableEq, Repr

/-- The tasks a run starts with, and whether it is suspended before them. -/
structure ResumeTarget where
  tasks : List GraphTask
  suspend : Bool := false

def requireResume (condition : Bool) (message : String) : Except ResumeError Unit :=
  (requireText condition message).mapError .text

def isParallelWaveTaskCheckpoint (checkpoint : Checkpoint) (schedule : GraphSchedule) : Bool :=
  checkpoint.parallelWaveID ≠ "" || checkpoint.waveID ≠ "" ||
    decide (schedule.currentTasks.length > 1) ||
    schedule.currentTasks.any fun t => decide (t.2.parallelWaveSize > 1)

namespace Graph

variable (g : Graph) (env : WaveEnv)

/-- The resolution of a node id, with its error. -/
def resumeNodeID (ref : String) : Except ResumeError String :=
  (requireResolved ref (g.resolveNodeID ref)).mapError .text

def resolveRestoredGoto (targets : List String) : Except RouteError (List GraphTask) := do
  let nodeIDs ← g.resolveTargets targets
  return staticRouteTasks (KeySort.sort (fun a b => decide (a < b)) nodeIDs.dedup)

def resolveRestoredSend (parent : GraphTask) (sends : List Send) :
    Except RouteError (List GraphTask) := do
  let tasks ← g.resolveCommandSends env parent sends 0
  return numberDynamic 0 tasks

/-- The tasks of the one command that was restored. -/
def restoredCommandTarget (parent : GraphTask) (command : Command) :
    Except RouteError ResumeTarget :=
  if command.returns then .ok ⟨[], false⟩
  else if command.suspend then do
    let tasks ← g.resolveNextTasks env parent
    return ⟨tasks, true⟩
  else if command.goto ≠ [] then do
    let tasks ← g.resolveRestoredGoto command.goto
    return ⟨tasks, false⟩
  else do
    let tasks ← g.resolveRestoredSend env parent command.send
    return ⟨tasks, false⟩

/-- `resolveAfterNodeCommand`, for a command that is there. -/
def resolveAfterNodeCommand (checkpoint : Checkpoint) (parent : GraphTask)
    (record : AfterNodeCommand) : Except ResumeError ResumeTarget := do
  requireResume (trimSpace record.taskID ≠ "") "after-node command task id is required"
  requireResume (trimSpace record.nodeID ≠ "") "after-node command node id is required"
  requireResume (record.taskID = parent.taskID && record.nodeID = parent.nodeID &&
      record.taskID = checkpoint.record.taskID && record.nodeID = checkpoint.record.nodeID)
    ("after-node command source " ++ quote record.taskID ++ "/" ++ quote record.nodeID ++
      " does not match checkpoint " ++ quote checkpoint.record.taskID ++ "/" ++
      quote checkpoint.record.nodeID)
  requireResume (controlCount record.command = 1)
    ("task " ++ quote parent.taskID ++ " at node " ++ quote parent.nodeID ++ " restored " ++
      toString (controlCount record.command) ++ " control commands")
  (g.restoredCommandTarget env parent record.command).mapError .route

def afterNodeParent (checkpoint : Checkpoint) (nodeID : String) : GraphTask :=
  { taskID := if checkpoint.record.taskID = "" then nodeID else checkpoint.record.taskID
    nodeID := nodeID }

/-- The branch of `resumeTarget` after a node. -/
def afterNodeTarget (checkpoint : Checkpoint) (parent : GraphTask) :
    Except ResumeError ResumeTarget :=
  match checkpoint.afterNodeCommand with
  | some record => g.resolveAfterNodeCommand env checkpoint parent record
  | none => do
      let tasks ← (g.resolveNextTasks env parent).mapError .route
      return { tasks }

/-- The branch of `resumeTarget` inside an agent. -/
def agentTarget (checkpoint : Checkpoint) (currentTasks : List GraphTask) :
    Except ResumeError ResumeTarget :=
  match currentTasks.find? fun task => task.taskID = checkpoint.record.taskID, currentTasks with
  | some task, _ => .ok { tasks := [task] }
  | none, [task] => .ok { tasks := [task] }
  | none, _ => .error (.text
      ("agent checkpoint " ++ quote checkpoint.record.checkpointID ++ " has no current task"))

/-- `resumeTarget`, for the schedule that was loaded. -/
def resumeTarget (checkpoint : Checkpoint) (schedule : GraphSchedule) :
    Except ResumeError ResumeTarget :=
  match checkpoint.record.stage with
  | .beforeNode => do
      let nodeID ← g.resumeNodeID checkpoint.record.nodeID
      requireResume (schedule.currentTasks.map (fun t => t.1.nodeID) = [nodeID])
        ("before-node checkpoint " ++ quote checkpoint.record.checkpointID ++
          " has invalid current task schedule")
      return { tasks := schedule.currentTasks.map Prod.fst }
  | .afterNode => do
      let nodeID ← g.resumeNodeID checkpoint.record.nodeID
      requireResume (!isParallelWaveTaskCheckpoint checkpoint schedule)
        ("parallel wave after_node checkpoint " ++ quote checkpoint.record.checkpointID ++
          " is not independently resumable; resume from an after_wave checkpoint")
      g.afterNodeTarget env checkpoint (afterNodeParent checkpoint nodeID)
  | .afterWave => return { tasks := schedule.nextTasks.map Prod.fst }
  | .agent => agentTarget checkpoint (schedule.currentTasks.map Prod.fst)
  | .final => .error (.text
      ("final checkpoint " ++ quote checkpoint.record.checkpointID ++ " is not resumable"))

end Graph

/-- How a run goes on that is resumed. -/
inductive Resumption where
  | completed
  | paused (nextTasks : List GraphTask) (pending : TaskMap)
  | runs (s : Schedule)

namespace Graph

variable (g : Graph) (env : WaveEnv)

/-- The end of `resumeExistingRun`, and the start of the scheduler loop. -/
def startResumed (target : ResumeTarget) (pending : TaskMap) : Resumption :=
  if target.suspend then .paused target.tasks pending
  else if target.tasks = [] ∨ target.tasks.map GraphTask.nodeID = [endNodeID] then .completed
  else .runs (g.resumeSchedule target.tasks pending)

/-- `resumeExistingRun`, for a state that is restored. -/
def resumeRestored (checkpoint : Checkpoint) (restored : State) :
    Except ResumeError Resumption := do
  let schedule ← (loadGraphSchedule restored).mapError .text
  let target ← g.resumeTarget env checkpoint schedule
  return g.startResumed target
    (TaskMap.taskMapByNodeID (schedule.pendingFanInTasks.map Prod.fst))

def resumeExistingRun (checkpoint : Checkpoint) : Except ResumeError Resumption :=
  match checkpoint.business.restore with
  | .error e => .error (.text e.message)
  | .ok restored => g.resumeRestored env checkpoint restored

variable {g env}

theorem resumeExistingRun_eq : g.resumeExistingRun env checkpoint =
      g.resumeRestored env checkpoint checkpoint.business.restored := by
  rw [resumeExistingRun, State.restore_eq]

theorem resumeExistingRun_of (hl : loadGraphSchedule checkpoint.business.restored = .ok schedule)
    (ht : g.resumeTarget env checkpoint schedule = .ok target) :
    g.resumeExistingRun env checkpoint = .ok (g.startResumed target
      (TaskMap.taskMapByNodeID (schedule.pendingFanInTasks.map Prod.fst))) := by
  rw [resumeExistingRun_eq]
  refine bind_eq_ok.mpr ⟨schedule, mapError_eq_ok.mpr hl, ?_⟩
  exact bind_eq_ok.mpr ⟨target, ht, rfl⟩

end Graph

end WeaveFlow
