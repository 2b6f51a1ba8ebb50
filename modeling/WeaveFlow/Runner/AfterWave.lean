import WeaveFlow.Graph.ResumePoint
import WeaveFlow.Runner.GraphSchedule

/-!
# Resuming between two waves

After every wave the scheduler stores the tasks of the next wave and the joins that wait, and
the runner may write a checkpoint of stage `after_wave`.  A run that is resumed from it loads
the schedule from the restored state, starts with the stored next tasks (`resumeTarget`), and
places them again beside the stored joins (`resumeSchedule`).

`after_wave_resumes_iff` compares this with the run that goes on.  They have the same schedule
whenever the stored one can be loaded, and it can be loaded unless two of its tasks have the
same id or the input of a task fails its check.  Both occur in runs of validated graphs.  The
id of a failure task is made from the id of the task that failed, so that a node which fails
twice leads to two tasks of one id, and different failure routes can bring them to different
joins, where both wait (`waiting_failures_not_resumed`).  And the inputs that a condition sends
are not checked before they are stored.
-/

namespace WeaveFlow

open WeaveFlow.Graph List

/-- What the tasks of a schedule carry.  Operation id and wave size are only set in the copies
that a wave executes. -/
structure CarriedData where
  input : GraphTask → Patch
  details : GraphTask → Option ValidObject

namespace CarriedData

def of (carried : CarriedData) (task : GraphTask) : TaskData :=
  { input := carried.input task, details := carried.details task }

def tasks (carried : CarriedData) (tasks : List GraphTask) : List (GraphTask × TaskData) :=
  tasks.map fun t => (t, carried.of t)

end CarriedData

def afterWaveSchedule (live : Schedule) (carried : CarriedData) : GraphSchedule where
  nextTasks := carried.tasks live.ready
  pendingFanInTasks := carried.tasks live.pending.sortedTasksByNodeID

namespace Graph

variable (g : Graph)

/-- A run is resumed from an after-wave checkpoint of the state: `LoadGraphSchedule`,
`resumeTarget`, and `resumeSchedule` in `invokeWithConfig`. -/
def resumeAfterWave (held : State) : Except String (GraphSchedule × Schedule) :=
  match held.restore with
  | .error e => .error e.message
  | .ok restored => do
      let schedule ← loadGraphSchedule restored
      return (schedule, g.resumeSchedule (schedule.nextTasks.map Prod.fst)
        (TaskMap.taskMapByNodeID (schedule.pendingFanInTasks.map Prod.fst)))

end Graph

/-- Loaded tasks are these tasks, with data of the same JSON. -/
def SameTasks (carried : CarriedData) (loaded : List (GraphTask × TaskData))
    (tasks : List GraphTask) : Prop :=
  List.Forall₂ (fun p t => p.1 = t ∧ TaskData.JSONEq t p.2 (carried.of t)) loaded tasks

/-- The resumed run has the schedule of the run that goes on. -/
def ResumesAs (g : Graph) (carried : CarriedData) (live : Schedule) (held : State) : Prop :=
  ∃ schedule, g.resumeAfterWave held = .ok (schedule, live) ∧
    SameTasks carried schedule.nextTasks live.ready ∧
    SameTasks carried schedule.pendingFanInTasks live.pending.sortedTasksByNodeID

/-- No two tasks of the next wave and no two tasks that wait have the same id. -/
def UniqueTaskIDs (live : Schedule) : Prop :=
  (live.ready.map GraphTask.taskID).Nodup ∧
    (live.pending.sortedTasksByNodeID.map GraphTask.taskID).Nodup

/-- The inputs of all tasks pass `ValidateInputPatch` as they are decoded. -/
def InputsPass (carried : CarriedData) (live : Schedule) : Prop :=
  ∀ t ∈ live.ready ++ live.pending.sortedTasksByNodeID,
    validateInputPatch (carried.input t).normal = []

section

variable {g : Graph} {carried : CarriedData}

theorem map_fst_normal (tasks : List GraphTask) :
    ((carried.tasks tasks).map normalTask).map Prod.fst = tasks := by
  rw [CarriedData.tasks, map_map, map_map]
  exact map_id tasks

theorem sameTasks_normal (tasks : List GraphTask) :
    SameTasks carried ((carried.tasks tasks).map normalTask) tasks := by
  rw [SameTasks, CarriedData.tasks, map_map, forall₂_map_left_iff, forall₂_same]
  exact fun t _ => ⟨rfl, (carried.of t).normal_jsonEq t⟩

theorem loadable_iff (carried : CarriedData) (hg : g.Closed) (field : String)
    (hn : ∀ t ∈ tasks, g.Named t)
    (hno : field = "pending_fan_in_tasks" → (tasks.map GraphTask.nodeID).Nodup) :
    Loadable field ((carried.tasks tasks).map normalTask) ↔ (tasks.map GraphTask.taskID).Nodup ∧
        ∀ t ∈ tasks, validateInputPatch (carried.input t).normal = [] := by
  have hi : ∀ {β : Type} (f : GraphTask → β),
      ((carried.tasks tasks).map normalTask).map (fun t => f t.1) = tasks.map f := by
    intro β f
    rw [CarriedData.tasks, map_map, map_map]
    rfl
  constructor
  · rintro ⟨he, hta, -⟩
    rw [hi] at hta
    refine ⟨hta, fun t ht => ?_⟩
    have hm : normalTask (t, carried.of t) ∈ (carried.tasks tasks).map normalTask :=
      mem_map_of_mem (mem_map_of_mem ht)
    exact (he _ hm).input
  · rintro ⟨hta, hin⟩
    refine ⟨fun p hp => ?_, by rw [hi]; exact hta, fun hf => ?_⟩
    · obtain ⟨q, hq, rfl⟩ := mem_map.mp hp
      obtain ⟨t, ht, rfl⟩ := mem_map.mp hq
      exact ⟨(hn t ht).taskID, hg.trimmed_target (hn t ht).nodeID, rfl, hin t ht⟩
    · rw [hi]
      exact hno hf

theorem resumeAfterWave_eq (held : State) : g.resumeAfterWave held = do
    let schedule ← loadGraphSchedule held.restored
    return (schedule, g.resumeSchedule (schedule.nextTasks.map Prod.fst)
      (TaskMap.taskMapByNodeID (schedule.pendingFanInTasks.map Prod.fst))) := by
  rw [resumeAfterWave, State.restore_eq]

/-- A run that is resumed at all has loaded what was stored. -/
theorem loadable_of_resumeAfterWave (hl : before.read graphSchedulerLegacyPendingPath = none)
    (hs : storeGraphSchedule before stored = .ok held) (hok : g.resumeAfterWave held = .ok r) :
    stored.normal.Loadable := by
  rw [resumeAfterWave_eq] at hok
  obtain ⟨loaded, hlo, -⟩ := Outcome.of_bind hok
  exact ((loadGraphSchedule_restored hs hl).mp hlo).2

/-- What is stored after a wave is resumed exactly if it can be loaded. -/
theorem resumesAs_iff (hg : g.Closed) {tasks : List GraphTask} {s : Schedule}
    (hs : g.NamedSchedule s) (hta : ∀ t ∈ tasks, g.Named t) {before held : State}
    (hl : before.read graphSchedulerLegacyPendingPath = none)
    (hst : storeGraphSchedule before
      (afterWaveSchedule (g.scheduleNext tasks s.pending) carried) = .ok held) :
    ResumesAs g carried (g.scheduleNext tasks s.pending) held ↔
      UniqueTaskIDs (g.scheduleNext tasks s.pending) ∧
        InputsPass carried (g.scheduleNext tasks s.pending) := by
  have hli := namedSchedule_scheduleNext hs hta
  have hr := resumeSchedule_scheduleNext tasks hs.joins hs.static
  generalize hlv : g.scheduleNext tasks s.pending = live at *
  have hpe : ∀ t ∈ live.pending.sortedTasksByNodeID, g.Named t := fun t ht =>
    hli.pending _ t (TaskMap.mem_sortedTasksByNodeID.mp ht)
  have hne := loadable_iff carried hg "next_tasks" hli.ready nofun
  have hpn := loadable_iff carried hg "pending_fan_in_tasks" hpe fun _ =>
    live.pending.nodup_sortedTasksByNodeID
  have hpa : (afterWaveSchedule live carried).normal.Loadable ↔
      UniqueTaskIDs live ∧ InputsPass carried live := by
    constructor
    · rintro ⟨-, hn, hp⟩
      obtain ⟨hn, hni⟩ := hne.mp hn
      obtain ⟨hp, hpi⟩ := hpn.mp hp
      exact ⟨⟨hn, hp⟩, forall_mem_append.mpr ⟨hni, hpi⟩⟩
    · rintro ⟨⟨hn, hp⟩, hi⟩
      obtain ⟨hni, hpi⟩ := forall_mem_append.mp hi
      exact ⟨⟨nofun, nodup_nil, nofun⟩, hne.mpr ⟨hn, hni⟩, hpn.mpr ⟨hp, hpi⟩⟩
  rw [← hpa]
  constructor
  · rintro ⟨schedule, hok, -⟩
    exact loadable_of_resumeAfterWave hl hst hok
  · intro hlo
    refine ⟨(afterWaveSchedule live carried).normal, ?_, sameTasks_normal _, sameTasks_normal _⟩
    rw [resumeAfterWave_eq, (loadGraphSchedule_restored hst hl).mpr ⟨rfl, hlo⟩]
    have hb : TaskMap.taskMapByNodeID live.pending.sortedTasksByNodeID = live.pending :=
      restorePending_eq hg hli.pending
    refine congrArg (fun next => Except.ok (_, next)) ?_
    rw [GraphSchedule.normal, afterWaveSchedule, map_fst_normal, map_fst_normal, hb]
    exact hr

/-- In every run of a graph that was built and validated, after every wave that goes on, the
run that is resumed from the stored schedule has the schedule of the run that goes on,
exactly if no two tasks of the next wave and no two waiting tasks have the same id and the
inputs of all tasks pass their check. -/
theorem after_wave_resumes_iff {checks : DeclarationChecks} (hbuilt : g.Built)
    (hvalid : g.validate checks = .ok ()) {s : Schedule} (hs : g.ScheduleReached s)
    {cfg : LoopConfig} {env : WaveEnv} (henv : NamesSends env) {handed : List GraphTask}
    (hhanded : g.handedTasks cfg env s = some handed) {before held : State}
    (hlegacy : before.read graphSchedulerLegacyPendingPath = none)
    (hstore : storeGraphSchedule before
      (afterWaveSchedule (g.scheduleNext handed s.pending) carried) = .ok held) :
    ResumesAs g carried (g.scheduleNext handed s.pending) held ↔
      UniqueTaskIDs (g.scheduleNext handed s.pending) ∧
        InputsPass carried (g.scheduleNext handed s.pending) := by
  have hg := closed_of_validate hbuilt hvalid
  have hn := hs.named hg
  exact resumesAs_iff hg hn (named_handedTasks hg henv hn.ready hhanded) hlegacy hstore

/-- `a` has two failure routes, to the joins `j` and `k`; `u` comes before both. -/
def twoRoutesGraph : Graph where
  nodes := ["start", "a", "w", "v", "u", "j", "k"]
  entryPoint := "start"
  finishPoint := ""
  defaultEdges := (((((((SortedMap.empty.put "start" ["a", "w"]).put "w" ["v"]).put "v"
    ["u"]).put "u" ["j"]).put "a" ["j", "k"]).put "j" ["k"]).put "k" [endNodeID])
  conditionalEdges := SortedMap.empty
  failureRoutes := SortedMap.empty.put "a" [⟨"j", [.node], ["timeout"], false⟩,
    ⟨"k", [.node], ["conflict"], false⟩]

theorem twoRoutesGraph_valid : twoRoutesGraph.Built ∧
    twoRoutesGraph.validate ⟨.ok (), fun _ _ => .ok (), .ok ()⟩ = .ok () := by
  refine ⟨?_, rfl⟩
  have hf := (((Graph.Built.new.addNode "start" rfl).addNode "a" rfl).addNode "w" rfl).addNode
    "v" rfl
  have hn := ((hf.addNode "u" rfl).addNode "j" rfl).addNode "k" rfl
  have he := hn.setEntryPoint "start" rfl
  have hfo := (he.addEdge "start" "a" rfl).addEdge "start" "w" rfl
  have hc := ((hfo.addEdge "w" "v" rfl).addEdge "v" "u" rfl).addEdge "u" "j" rfl
  have hj := ((hc.addEdge "a" "j" rfl).addEdge "a" "k" rfl).addEdge "j" "k" rfl
  have hen := hj.addEdge "k" "__end__" rfl
  exact (hen.addFailureRoute "a" "j" ⟨"", [.node], ["timeout"], false⟩ rfl).addFailureRoute
    "a" "k" ⟨"", [.node], ["conflict"], false⟩ rfl

/-- `a` fails with the given class, and `w` goes to `a` and `v`. -/
def twoFailuresEnv (errorClass : String) : WaveEnv where
  outcome t :=
    if t.nodeID = "a" then .error ⟨"failed", true, errorClass⟩
    else if t.nodeID = "w" then .success { goto := ["a", "v"] }
    else .success {}
  condition _ _ := .error ⟨"", false, false⟩
  dynamicTaskID _ _ _ := "send-0"
  sendInputOK _ _ := true

theorem namesSends_twoFailuresEnv : NamesSends (twoFailuresEnv errorClass) := by
  have hn : Trimmed "send-0" := ⟨by decide, by decide⟩
  exact fun _ _ _ => hn

/-- No inputs and no details. -/
def nothingCarried : CarriedData := ⟨fun _ => ⟨[]⟩, fun _ => none⟩

/-- The wave of `a` and `w`. -/
def firstFailureWave : Schedule :=
  twoRoutesGraph.scheduleNext (staticRouteTasks ["a", "w"]) TaskMap.empty

theorem reached_firstFailureWave : twoRoutesGraph.ScheduleReached firstFailureWave :=
  .wave ⟨10, []⟩ (twoFailuresEnv "timeout") namesSends_twoFailuresEnv .start rfl

def firstHanded : List GraphTask :=
  [newStaticGraphTask "a" 0, newStaticGraphTask "v" 1,
    { taskID := "failure-a", nodeID := "j", order := 0,
      failure := some ⟨.node, "timeout", "failed", "a"⟩ }]

/-- After the first failure the run is resumed as it goes on. -/
theorem first_failure_resumed : ∃ held : State, storeGraphSchedule .newState (afterWaveSchedule
      (twoRoutesGraph.scheduleNext firstHanded firstFailureWave.pending) nothingCarried) =
        .ok held ∧
    ResumesAs twoRoutesGraph nothingCarried
      (twoRoutesGraph.scheduleNext firstHanded firstFailureWave.pending) held := by
  obtain ⟨held, hs⟩ : ∃ held : State, storeGraphSchedule .newState (afterWaveSchedule
      (twoRoutesGraph.scheduleNext firstHanded firstFailureWave.pending) nothingCarried) =
        .ok held := ⟨_, rfl⟩
  refine ⟨held, hs, ?_⟩
  have hh : twoRoutesGraph.handedTasks ⟨10, []⟩ (twoFailuresEnv "timeout")
      firstFailureWave = some firstHanded := rfl
  have hi := after_wave_resumes_iff twoRoutesGraph_valid.1 twoRoutesGraph_valid.2
    reached_firstFailureWave namesSends_twoFailuresEnv hh rfl hs
  have hid : ["a", "v"].Nodup ∧ ["failure-a"].Nodup := by decide
  exact hi.mpr ⟨hid, fun t _ => rfl⟩

/-- The wave of `a` and `v`, while `j` waits for the first failure. -/
def secondFailureWave : Schedule :=
  twoRoutesGraph.scheduleNext firstHanded firstFailureWave.pending

theorem reached_secondFailureWave : twoRoutesGraph.ScheduleReached secondFailureWave :=
  .wave ⟨10, []⟩ (twoFailuresEnv "timeout") namesSends_twoFailuresEnv
    reached_firstFailureWave rfl

def secondHanded : List GraphTask :=
  [newStaticGraphTask "u" 0,
    { taskID := "failure-a", nodeID := "k", order := 0,
      failure := some ⟨.node, "conflict", "failed", "a"⟩ }]

/-- The wave of `u`, while `j` and `k` wait for the two failures of `a`. -/
def twoFailuresWait : Schedule :=
  twoRoutesGraph.scheduleNext secondHanded secondFailureWave.pending

/-- The wave of `j`, which goes on to `k`. -/
def joinWave : Schedule :=
  twoRoutesGraph.scheduleNext (staticRouteTasks ["j"]) twoFailuresWait.pending

/-- The wave of `k`, which goes on to the end. -/
def lastWave : Schedule := twoRoutesGraph.scheduleNext (staticRouteTasks ["k"]) joinWave.pending

/-- The run that goes on ends after `u`, `j` and `k`, but the run that is resumed from what is
stored before `u` finds two waiting tasks of one id and does not start. -/
theorem waiting_failures_not_resumed : twoRoutesGraph.Built ∧
    twoRoutesGraph.validate ⟨.ok (), fun _ _ => .ok (), .ok ()⟩ = .ok () ∧
    twoRoutesGraph.ScheduleReached secondFailureWave ∧
    twoRoutesGraph.handedTasks ⟨10, []⟩ (twoFailuresEnv "conflict") secondFailureWave =
      some secondHanded ∧
    (∃ held : State,
      storeGraphSchedule .newState (afterWaveSchedule twoFailuresWait nothingCarried) = .ok held ∧
      ∀ resumed, twoRoutesGraph.resumeAfterWave held ≠ .ok resumed) ∧
    Relation.ReflTransGen twoRoutesGraph.LoopStep (.running twoFailuresWait)
      (.finished false TaskMap.empty) := by
  obtain ⟨held, hs⟩ : ∃ held : State, storeGraphSchedule .newState
      (afterWaveSchedule twoFailuresWait nothingCarried) = .ok held := ⟨_, rfl⟩
  refine ⟨twoRoutesGraph_valid.1, twoRoutesGraph_valid.2, reached_secondFailureWave, rfl,
    ⟨held, hs, ?_⟩, ?_⟩
  · intro resumed hok
    have hi : ["failure-a", "failure-a"].Nodup :=
      (loadable_of_resumeAfterWave rfl hs hok).pending.taskIDs
    exact absurd hi (by decide)
  · have hst : ∀ s, twoRoutesGraph.LoopStep (.running s)
        (twoRoutesGraph.waveStep ⟨10, []⟩ (twoFailuresEnv "timeout") s) := .wave _ _
    have hf : twoRoutesGraph.LoopStep (.running twoFailuresWait) (.running joinWave) := hst _
    have hj : twoRoutesGraph.LoopStep (.running joinWave) (.running lastWave) := hst _
    have hl : twoRoutesGraph.LoopStep (.running lastWave)
      (.running (twoRoutesGraph.scheduleNext (staticRouteTasks [endNodeID])
        lastWave.pending)) := hst _
    exact .tail (.tail (.tail (.single hf) hj) hl) (hst _)

end

end WeaveFlow
