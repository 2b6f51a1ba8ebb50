import WeaveFlow.Graph.ContractFrame
import WeaveFlow.Runner.AfterWave
import WeaveFlow.Runner.ResumeTarget

/-!
# Checkpoints inside a wave

An agent node writes checkpoints while it works, so that its model and tool calls need not be
repeated.  Such a checkpoint holds the state that the agent works on, with the task of the agent
as the only current task, and it becomes the last checkpoint of the run at once.  The other
tasks of the wave have written none of this kind: their results are merged after the wave, and
the checkpoint after the wave is the next one that the run names.

The state that the agent works on is a copy of the state of the wave, cut down to what its
contract declares.  Nothing of the internal section is in it, so that the joins that wait are
not in the checkpoint either.

`agent_checkpoint_keeps_wave_iff` says what is resumed when the process stops in between.  The
run starts with the task of the agent alone.  The other tasks of the wave are not executed
again, what they lead to is not scheduled, and joins that waited are forgotten: the wave is kept
exactly if it had no other task and no join waited.
-/

namespace WeaveFlow

open WeaveFlow.Graph Outcome List

/-! ## Writing the checkpoint -/

def agentResumePath : Path := ⟨sectionInternal, ["agent", "resume"], by decide⟩

/-- The fields of an `agentResumeState`. -/
def agentResumeEntries (invocationID phase : String) : List (String × Option Raw) :=
  [("invocation_id", some (Raw.string invocationID)), ("phase", some (Raw.string phase))]

/-- An `agentResumeState`. -/
def agentResumeValue (invocationID phase : String) : Raw :=
  .leaf (.opaqueValue "runtime.agentResumeState"
    (.node (Assoc.present (agentResumeEntries invocationID phase))))

theorem valid_agentResumeValue (invocationID phase : String) :
    (agentResumeValue invocationID phase).Valid := by
  have hj : Raw.Valid (.node (Assoc.present (agentResumeEntries invocationID phase))) := by
    refine valid_present (sorted_of_keys ["invocation_id", "phase"] rfl (by decide)) ?_
    simp only [agentResumeEntries, forall_mem_cons, not_mem_nil, false_implies,
      implies_true, and_true, Option.some.injEq, forall_eq']
    exact ⟨rfl, rfl⟩
  exact Raw.valid_opaqueValue (by decide) hj

/-- The call of `SetPath` in `StoreAgentResumeState`. -/
def agentResumeOp (invocationID phase : String) : PatchOp :=
  ⟨.set, agentResumePath, agentResumeValue invocationID phase, "",
    valid_agentResumeValue invocationID phase⟩

def storeAgentResumeState (current : State) (invocationID phase : String) :
    Except String State := do
  requireText (trimSpace invocationID ≠ "" && trimSpace phase ≠ "")
    "agent resume state requires invocation ID and phase"
  ((Patch.mk [agentResumeOp invocationID phase]).apply current).mapError PatchError.message

/-- `Checkpoint` of the recorder of an agent: the state that the agent provides, with the task of
the agent as its only current task. -/
def agentCheckpoint (agentState : State) (task : GraphTask × TaskData) (invocationID phase : String)
    (record : CheckpointRecord) : Except String Checkpoint := do
  let noted ← storeAgentResumeState agentState invocationID phase
  let schedule ← (loadGraphSchedule noted).mapError fun message =>
    "load agent checkpoint schedule: " ++ message
  let business ← (storeGraphSchedule noted
    { currentTasks := [task]
      nextTasks := schedule.nextTasks
      pendingFanInTasks := schedule.pendingFanInTasks }).mapError fun e =>
    "store agent checkpoint schedule: " ++ e.message
  return {
    record := { record with
      stage := .agent
      taskID := task.1.taskID
      nodeID := task.1.nodeID }
    business }

/-! ## The commits of a wave -/

/-- The tasks of a wave with their data, as they are stored before it. -/
def waveTasks (carried : CarriedData) (wave : List GraphTask) : List (GraphTask × TaskData) :=
  wave.map fun t => (t, { carried.of t with parallelWaveSize := wave.length })

def WaveState (carried : CarriedData) (s : Schedule) (wave : List GraphTask)
    (waveState : State) : Prop :=
  ∃ before : State, before.read graphSchedulerLegacyPendingPath = none ∧
    storeGraphSchedule before
      { currentTasks := waveTasks carried wave
        pendingFanInTasks := carried.tasks s.pending.sortedTasksByNodeID } = .ok waveState

/-- The state that an agent provides: the input of its task is applied to the state of the wave,
the result is cut down to the contract of the node, and what the agent has written so far is
applied to that.  Contracts and nodes leave the reserved sections alone. -/
def AgentState (waveState : State) (data : TaskData) (agentState : State) : Prop :=
  ∃ (reducers : Reducers) (inputState : State) (contract : Contract) (written : Patch),
    validateInputPatch data.input = [] ∧
    data.input.applyWithReducers waveState reducers = .ok inputState ∧
    (∀ field ∈ contract.fields, isReservedPath field.path = false) ∧
    (∀ op ∈ written.ops, isReservedPath op.path = false) ∧
    written.applyWithReducers (projectStateByContract inputState contract) reducers =
      .ok agentState

/-- What a commit of the wave does to the checkpoint that the run names. -/
inductive WaveCommit (carried : CarriedData) (wave : List GraphTask) (waveState : State) :
    Option Checkpoint → Option Checkpoint → Prop where
  /-- A node starts, a failure is routed, the wave is marked: the run keeps its checkpoint. -/
  | keeps (last : Option Checkpoint) : WaveCommit carried wave waveState last last
  /-- An agent writes a checkpoint; its task has got an operation id. -/
  | agent {last : Option Checkpoint} {task : GraphTask} {operationID invocationID phase : String}
      {agentState : State} {record : CheckpointRecord} {checkpoint : Checkpoint}
      (mem : task ∈ wave) (operation : checkOperationID operationID = .ok ())
      (provided : AgentState waveState (carried.of task) agentState)
      (written : agentCheckpoint agentState
        (task, { carried.of task with parallelWaveSize := wave.length, operationID })
        invocationID phase record = .ok checkpoint) :
      WaveCommit carried wave waveState last (some checkpoint)
  /-- A node of a wave of one task is finished. -/
  | afterNode {last : Option Checkpoint} {checkpoint : Checkpoint} (alone : wave.length ≤ 1)
      (stage : checkpoint.record.stage = .afterNode) :
      WaveCommit carried wave waveState last (some checkpoint)
  /-- The wave is finished. -/
  | afterWave {last : Option Checkpoint} {checkpoint : Checkpoint}
      (stage : checkpoint.record.stage = .afterWave) :
      WaveCommit carried wave waveState last (some checkpoint)

/-- The process stops in the wave, and the run names this checkpoint. -/
def StopsAt (carried : CarriedData) (wave : List GraphTask) (waveState : State)
    (checkpoint : Checkpoint) : Prop :=
  ∃ first : Option Checkpoint, (∀ c, first = some c → c.record.stage ≠ .agent) ∧
    Relation.ReflTransGen (WaveCommit carried wave waveState) first (some checkpoint)

/-- The run that is resumed executes all tasks of the wave and then schedules as the run that was
not interrupted.  The state may differ: the checkpoint has the one projected to the agent's
contract. -/
def KeepsWave (g : Graph) (s : Schedule) (wave : List GraphTask) (checkpoint : Checkpoint) :
    Prop :=
  ∃ resumed first, (∀ env, g.resumeExistingRun env checkpoint = .ok (.runs resumed)) ∧
    g.activeTasks resumed.ready = .ok first ∧ (∀ t ∈ wave, t ∈ first) ∧
    ∀ cfg env, g.waveStep cfg env resumed = g.waveStep cfg env s

/-! ## What an agent checkpoint holds -/

section

variable {g : Graph} {carried : CarriedData} {s : Schedule} {wave : List GraphTask}
  {waveState : State}

/-- A run that names an agent checkpoint names one of a task of the wave. -/
theorem agent_of_stopsAt (h : StopsAt carried wave waveState checkpoint)
    (hs : checkpoint.record.stage = .agent) :
    ∃ task operationID invocationID phase agentState record, task ∈ wave ∧
      checkOperationID operationID = .ok () ∧
      AgentState waveState (carried.of task) agentState ∧
      agentCheckpoint agentState
        (task, { carried.of task with parallelWaveSize := wave.length, operationID })
        invocationID phase record = .ok checkpoint := by
  obtain ⟨first, hf, hr⟩ := h
  generalize hl : some checkpoint = last at hr
  induction hr generalizing checkpoint with
  | refl => exact absurd hs (hf checkpoint hl.symm)
  | tail _ hc ih =>
    cases hc with
    | keeps => exact ih hs hl
    | agent hm ho hp hw =>
      cases hl
      exact ⟨_, _, _, _, _, _, hm, ho, hp, hw⟩
    | afterNode _ ha =>
      cases hl
      rw [hs] at ha
      cases ha
    | afterWave ha =>
      cases hl
      rw [hs] at ha
      cases ha

/-- Nothing of the internal section is in the state that an agent provides. -/
theorem AgentState.read_internal (h : AgentState waveState data agentState)
    (hp : path.sectionName = sectionInternal) (hs : path.segments ≠ []) :
    agentState.read path = none := by
  obtain ⟨reducers, inputState, contract, written, -, -, hc, hw, ha⟩ := h
  have hr : isReservedPath path = true := by
    rw [isReservedPath, hp]
    rfl
  rw [(Patch.aside_of_unreserved hr hw).read_eq ha]
  exact read_projection_reserved hc hr hs

/-- The phase of the agent is stored beside the schedule. -/
theorem read_noted (h : storeAgentResumeState current invocationID phase = .ok noted)
    (hp : pathWithin agentResumePath path = false ∧ pathWithin path agentResumePath = false) :
    noted.read path = current.read path := by
  obtain ⟨_, -, hpa⟩ := of_bind h
  exact Patch.Aside.read_eq (forall_mem_singleton.mpr hp) (mapError_eq_ok.mp hpa)

theorem validateOp_normal (h : validateOp op = []) : validateOp op.normal = [] := by
  obtain ⟨-, hki, hm⟩ := validateOp_eq_nil h
  have hs : op.normal.kind = op.kind := by
    cases hk : op.kind with
    | other text =>
      rw [hk] at hki
      cases hki
    | _ => rw [PatchOp.normal, hk]; rfl
  have hv : op.kind = .merge → op.value.jsonNormal.asMap.isNone = false := by
    intro hk
    obtain ⟨overlay, ho⟩ := hm hk
    rw [ho, Raw.jsonNormal_node]
    rfl
  simp only [validateOp, append_eq_nil_iff] at h ⊢
  obtain ⟨⟨⟨hp, hva⟩, -⟩, hr⟩ := h
  rw [hs]
  refine ⟨⟨⟨hp, hva⟩, if_neg ?_⟩, hr⟩
  rw [Bool.and_eq_true, decide_eq_true_eq]
  rintro ⟨hk, hn⟩
  exact Bool.false_ne_true ((hv hk).symm.trans hn)

/-- A checked input is still accepted when it is decoded. -/
theorem validateInputPatch_normal (h : validateInputPatch input = []) :
    validateInputPatch input.normal = [] := by
  obtain ⟨hv, hr⟩ := append_eq_nil_iff.mp h
  have hu := unreserved_of_reservedPaths hr
  refine append_eq_nil_iff.mpr ⟨validatePatch_eq_nil.mpr ?_, ?_⟩
  · intro decoded hd
    obtain ⟨op, hop, rfl⟩ := mem_map.mp hd
    exact validateOp_normal (validatePatch_eq_nil.mp hv op hop)
  · refine map_eq_nil_iff.mpr (filter_eq_nil_iff.mpr fun decoded hd => ?_)
    obtain ⟨op, hop, rfl⟩ := mem_map.mp hd
    exact Bool.eq_false_iff.mp (hu op hop)

/-- A task is resumed alone if no join waits. -/
theorem resumeSchedule_alone : g.resumeSchedule [task] TaskMap.empty = ⟨[task], TaskMap.empty⟩ := by
  have hn : ∀ ready : TaskMap, g.releasePendingFanIn ready TaskMap.empty =
      (ready, TaskMap.empty) := by
    intro ready
    have hg : ∀ n, TaskMap.empty.get n = none := fun _ => rfl
    refine Prod.ext (TaskMap.ext fun n => ?_) (TaskMap.ext fun n => ?_)
    · rw [(get_releasePendingFanIn ready TaskMap.empty n).1]
      simp [hg]
    · rw [(get_releasePendingFanIn ready TaskMap.empty n).2]
      simp [hg]
  have hf : ∀ t ∈ [task], t.dynamic = false → TaskMap.empty.get t.nodeID = none := fun _ _ _ => rfl
  have hp := foldl_placeResumed_new TaskMap.empty hf
  rw [resumeSchedule, hp, released, hn]
  cases hd : task.dynamic with
  | true =>
    rw [filter_cons_of_neg (by simp [hd]), filter_cons_of_pos hd]
    rfl
  | false =>
    rw [filter_cons_of_pos (by simp [hd]), filter_cons_of_neg (by simp [hd])]
    rfl

/-- A checkpoint of an agent has its task and nothing else in the schedule, so that the run is
resumed with this task alone. -/
theorem resume_agentCheckpoint (hg : g.Closed) {task : GraphTask} (hn : g.Named task)
    (he : task.nodeID ≠ endNodeID) {operationID invocationID phase : String}
    (ho : checkOperationID operationID = .ok ()) {agentState : State}
    (hp : AgentState waveState (carried.of task) agentState) {size : Int}
    {record : CheckpointRecord} {checkpoint : Checkpoint}
    (hw : agentCheckpoint agentState
      (task, { carried.of task with parallelWaveSize := size, operationID })
      invocationID phase record = .ok checkpoint) (env : WaveEnv) :
    g.resumeExistingRun env checkpoint = .ok (.runs ⟨[task], TaskMap.empty⟩) := by
  obtain ⟨noted, hno, hw⟩ := of_bind hw
  obtain ⟨schedule, hs, hw⟩ := of_bind hw
  obtain ⟨business, hb, hw⟩ := of_bind hw
  cases hw
  have hr : ∀ path : Path, pathWithin agentResumePath path = false ∧
      pathWithin path agentResumePath = false → path.sectionName = sectionInternal →
      path.segments ≠ [] → noted.read path = none := fun path ha hse hsg =>
    (read_noted hno ha).trans (hp.read_internal hse hsg)
  have hnn := hr graphSchedulerPath (by decide) rfl (by decide)
  have hl := hr graphSchedulerLegacyPendingPath (by decide) rfl (by decide)
  have hlo := mapError_eq_ok.mp hs
  rw [loadGraphSchedule, hnn] at hlo
  cases hlo
  obtain ⟨_, _, _, _, hi, -⟩ := hp
  generalize hd : ({ carried.of task with
    parallelWaveSize := size, operationID } : TaskData) = data at *
  have hst : storeGraphSchedule noted ⟨[(task, data)], [], []⟩ = .ok business :=
    mapError_eq_ok.mp hb
  have hc : Loadable "current_tasks" [normalTask (task, data)] := by
    refine ⟨forall_mem_singleton.mpr ?_, nodup_singleton _,
      fun h => absurd h (by decide)⟩
    subst hd
    exact ⟨hn.taskID, hg.trimmed_target hn.nodeID, ho, validateInputPatch_normal hi⟩
  have hag : loadGraphSchedule business.restored = .ok ⟨[normalTask (task, data)], [], []⟩ :=
    (loadGraphSchedule_restored hst hl).mpr ⟨rfl, hc, ⟨by rintro _ ⟨⟩, nodup_nil, fun _ => nodup_nil⟩,
        ⟨by rintro _ ⟨⟩, nodup_nil, fun _ => nodup_nil⟩⟩
  have ht : g.resumeTarget env
      { record := { record with stage := .agent, taskID := task.taskID, nodeID := task.nodeID }
        business } ⟨[normalTask (task, data)], [], []⟩ = .ok { tasks := [task] } := by
    simp [resumeTarget, agentTarget, normalTask]
  rw [resumeExistingRun_of hag ht, startResumed, if_neg Bool.false_ne_true,
    if_neg (by simpa using he)]
  exact congrArg (fun s => Except.ok (Resumption.runs s)) resumeSchedule_alone

/-! ## What is resumed -/

theorem nodup_collectActive (h : g.collectActive tasks active = .ok result)
    (ha : (active.map GraphTask.taskID).Nodup) : (result.map GraphTask.taskID).Nodup := by
  induction tasks generalizing active with
  | nil =>
    cases h
    exact ha
  | cons t tasks ih =>
    rw [collectActive] at h
    split at h
    · cases h
    · split at h
      · exact ih h ha
      · split at h
        · cases h
        · split at h
          · cases h
          next hn =>
            refine ih h ?_
            rw [map_append, map_singleton, nodup_append]
            refine ⟨ha, nodup_singleton _, ?_⟩
            simpa using hn

/-- The tasks of a wave have different ids. -/
theorem nodup_activeTasks (h : g.activeTasks tasks = .ok active) :
    (active.map GraphTask.taskID).Nodup := by
  obtain ⟨collected, hc, hs⟩ := of_bind h
  cases hs
  refine ((KeySort.perm_sort activeLess collected).map _).nodup_iff.mpr ?_
  exact nodup_collectActive hc nodup_nil

theorem activeTasks_alone (hg : g.Closed) (hn : g.Named task) (he : task.nodeID ≠ endNodeID) :
    g.activeTasks [task] = .ok [task] := by
  have hno := hg.trimmed_target hn.nodeID
  have hm := hn.nodeID.resolve_right he
  have hr : g.resolveNodeID task.nodeID = some task.nodeID := by
    rw [resolveNodeID, hno.1, if_pos ⟨hno.2, hm⟩]
  have hc : g.collectActive [task] [] = .ok [task] := by
    simp [collectActive, hno.2, hn.taskID.2, he, hr]
  rw [activeTasks, hc]
  rfl

def interruptingEnv : WaveEnv :=
  ⟨fun _ => .interrupt, fun _ _ => .error ⟨"", false, false⟩, fun _ _ _ => "", fun _ _ => true⟩

theorem waveStep_interrupting (h : g.activeTasks s.ready = .ok [task]) :
    g.waveStep ⟨1, []⟩ interruptingEnv s = .paused [task] s.pending := by
  rw [waveStep, h]
  rfl

/-- In every run of a graph that was built and validated, and wherever the process stops in a
wave while the run names an agent checkpoint, the run that is resumed executes the tasks of the
wave and schedules as the run that was not interrupted exactly if the wave has one task and no
join waits. -/
theorem agent_checkpoint_keeps_wave_iff {checks : DeclarationChecks} (hbuilt : g.Built)
    (hvalid : g.validate checks = .ok ()) (hs : g.ScheduleReached s)
    (hactive : g.activeTasks s.ready = .ok wave) (hwave : WaveState carried s wave waveState)
    {checkpoint : Checkpoint} (hstops : StopsAt carried wave waveState checkpoint)
    (hstage : checkpoint.record.stage = .agent) :
    KeepsWave g s wave checkpoint ↔ wave.length = 1 ∧ s.pending = TaskMap.empty := by
  have hg := closed_of_validate hbuilt hvalid
  obtain ⟨task, operationID, invocationID, phase, agentState, record, hm, ho, hp,
    hw⟩ := agent_of_stopsAt hstops hstage
  obtain ⟨hr, he⟩ := (mem_activeTasks hactive).mp hm
  have hn := (hs.named hg).ready task hr
  have hre := resume_agentCheckpoint hg hn he ho hp hw
  have hf := activeTasks_alone hg hn he
  constructor
  · rintro ⟨resumed, first, hru, ha, hal, hgo⟩
    cases (hre interruptingEnv).symm.trans (hru interruptingEnv)
    cases hf.symm.trans ha
    have hon : ∀ t ∈ wave, t = task := fun t ht => mem_singleton.mp (hal t ht)
    have hno := List.Nodup.of_map _ (nodup_activeTasks hactive)
    rw [eq_replicate_of_mem hon, nodup_replicate] at hno
    have hl : wave.length = 1 := le_antisymm hno (length_pos_of_mem hm)
    refine ⟨hl, ?_⟩
    -- the joins show when the one task of the wave interrupts
    obtain rfl : wave = [task] := by
      rw [eq_replicate_of_mem hon, hl]
      rfl
    have hpa := hgo ⟨1, []⟩ interruptingEnv
    rw [waveStep_interrupting hf, waveStep_interrupting hactive] at hpa
    injection hpa with _ hpe
    exact hpe.symm
  · rintro ⟨hl, hpe⟩
    obtain ⟨t, rfl⟩ := length_eq_one_iff.mp hl
    cases mem_singleton.mp hm
    refine ⟨⟨[task], TaskMap.empty⟩, [task], hre, hf, fun t ht => ht, fun cfg env => ?_⟩
    rw [waveStep, waveStep, hf, hactive, hpe]

/-- `start` leads to the agent `a` and to `b`, and both lead to `j`. -/
def agentGraph : Graph where
  nodes := ["start", "a", "b", "j"]
  entryPoint := "start"
  finishPoint := ""
  defaultEdges := ((((SortedMap.empty.put "start" ["a", "b"]).put "a" ["j"]).put "b" ["j"]).put
    "j" [endNodeID])
  conditionalEdges := SortedMap.empty
  failureRoutes := SortedMap.empty

theorem agentGraph_valid : agentGraph.Built ∧
    agentGraph.validate ⟨.ok (), fun _ _ => .ok (), .ok ()⟩ = .ok () := by
  refine ⟨?_, rfl⟩
  have hn := (((Graph.Built.new.addNode "start" rfl).addNode "a" rfl).addNode "b" rfl).addNode
    "j" rfl
  have hf := ((hn.setEntryPoint "start" rfl).addEdge "start" "a" rfl).addEdge
    "start" "b" rfl
  exact ((hf.addEdge "a" "j" rfl).addEdge "b" "j" rfl).addEdge "j" "__end__" rfl

/-- Every node succeeds and follows its edges. -/
def plainEnv : WaveEnv :=
  ⟨fun _ => .success {}, fun _ _ => .error ⟨"", false, false⟩, fun _ _ _ => "send-0",
    fun _ _ => true⟩

theorem namesSends_plainEnv : NamesSends plainEnv := by
  have hn : Trimmed "send-0" := ⟨by decide, by decide⟩
  exact fun _ _ _ => hn

/-- An agent whose contract declares nothing provides an empty state. -/
theorem agentState_empty (waveState : State) (task : GraphTask) :
    AgentState waveState (nothingCarried.of task) .newState := by
  obtain ⟨inputState, hi⟩ : ∃ inputState,
      (nothingCarried.of task).input.applyWithReducers waveState (fun _ => none) =
        .ok inputState := ⟨_, rfl⟩
  exact ⟨fun _ => none, inputState, ⟨[], false, false⟩, ⟨[]⟩, rfl, hi, nofun, nofun,
    congrArg Except.ok (State.clone_eq .newState)⟩

/-- An agent that is alone in its wave is scheduled again. -/
theorem lone_agent_kept : ∃ checkpoint : Checkpoint, checkpoint.record.stage = .agent ∧
    KeepsWave agentGraph agentGraph.startSchedule [newStaticGraphTask "start" 0] checkpoint := by
  obtain ⟨waveState, checkpoint, hw, hwr, hs⟩ :
      ∃ waveState checkpoint, WaveState nothingCarried agentGraph.startSchedule
          [newStaticGraphTask "start" 0] waveState ∧
        agentCheckpoint .newState (newStaticGraphTask "start" 0,
          { nothingCarried.of (newStaticGraphTask "start" 0) with
            parallelWaveSize := 1, operationID := "" })
          "call" "tool_calls" { checkpointID := "c", runID := "r", stage := .agent } =
            .ok checkpoint ∧ checkpoint.record.stage = .agent :=
    ⟨_, _, ⟨.newState, rfl, rfl⟩, rfl, rfl⟩
  have hi := agent_checkpoint_keeps_wave_iff agentGraph_valid.1 agentGraph_valid.2 .start rfl
    hw ⟨none, nofun, .single (.agent (mem_singleton_self _) rfl
      (agentState_empty waveState _) hwr)⟩ hs
  exact ⟨checkpoint, hs, hi.mpr ⟨rfl, rfl⟩⟩

/-- The wave of `a` and `b`. -/
def agentWave : Schedule :=
  agentGraph.scheduleNext (staticRouteTasks ["a", "b"]) TaskMap.empty

/-- The process stops while the agent `a` works beside `b`.  The run that is resumed executes
`a`, then `j`, and ends: `b` is not executed. -/
theorem agent_sibling_lost : agentGraph.ScheduleReached agentWave ∧
    agentGraph.activeTasks agentWave.ready = .ok (staticRouteTasks ["a", "b"]) ∧
    (∃ waveState checkpoint,
      WaveState nothingCarried agentWave (staticRouteTasks ["a", "b"]) waveState ∧
      StopsAt nothingCarried (staticRouteTasks ["a", "b"]) waveState checkpoint ∧
      checkpoint.record.stage = .agent ∧
      ∀ env, agentGraph.resumeExistingRun env checkpoint =
        .ok (.runs ⟨[newStaticGraphTask "a" 0], TaskMap.empty⟩)) ∧
    agentGraph.waveStep ⟨10, []⟩ plainEnv ⟨[newStaticGraphTask "a" 0], TaskMap.empty⟩ =
      .running ⟨[newStaticGraphTask "j" 0], TaskMap.empty⟩ ∧
    agentGraph.waveStep ⟨10, []⟩ plainEnv ⟨[newStaticGraphTask "j" 0], TaskMap.empty⟩ =
      .running ⟨[newStaticGraphTask endNodeID 0], TaskMap.empty⟩ ∧
    agentGraph.waveStep ⟨10, []⟩ plainEnv ⟨[newStaticGraphTask endNodeID 0], TaskMap.empty⟩ =
      .finished false TaskMap.empty := by
  have hr : agentGraph.ScheduleReached agentWave :=
    .wave ⟨10, []⟩ plainEnv namesSends_plainEnv .start rfl
  obtain ⟨waveState, checkpoint, hw, hwr, hs⟩ :
      ∃ waveState checkpoint, WaveState nothingCarried agentWave (staticRouteTasks ["a", "b"])
          waveState ∧
        agentCheckpoint .newState (newStaticGraphTask "a" 0,
          { nothingCarried.of (newStaticGraphTask "a" 0) with
            parallelWaveSize := 2, operationID := "" })
          "call" "tool_calls" { checkpointID := "c", runID := "r", stage := .agent } =
            .ok checkpoint ∧ checkpoint.record.stage = .agent :=
    ⟨_, _, ⟨.newState, rfl, rfl⟩, rfl, rfl⟩
  have hm : newStaticGraphTask "a" 0 ∈ staticRouteTasks ["a", "b"] := mem_cons_self
  have hg := closed_of_validate agentGraph_valid.1 agentGraph_valid.2
  have hp := agentState_empty waveState (newStaticGraphTask "a" 0)
  have hn := (hr.named hg).ready (newStaticGraphTask "a" 0) mem_cons_self
  refine ⟨hr, rfl, ⟨waveState, checkpoint, hw,
    ⟨none, nofun, .single (.agent hm rfl hp hwr)⟩, hs, ?_⟩, rfl, rfl, rfl⟩
  exact resume_agentCheckpoint hg hn (by decide) rfl hp hwr

end

end WeaveFlow
