import WeaveFlow.Graph.Validate
import WeaveFlow.Runner.TaskCodec

/-!
# The stored schedule

`StoreGraphSchedule` writes the schedule of a run into the internal section of its state:
the tasks of the current wave, those of the next one and those that wait at joins, each list
under its own field and left out when it is empty.  `LoadGraphSchedule` reads them back and
refuses a list in which a task id occurs twice or is not trimmed, and a list of waiting tasks
with two tasks of one node.

`loadGraphSchedule_restored` says what `LoadGraphSchedule` returns after a checkpoint was
written and restored: the same tasks, with data of the same JSON, and that exactly if the
three lists pass the check.
-/

namespace WeaveFlow

open Raw Root Outcome MapTree List

/-- `GraphSchedule`, with the data of every task. -/
structure GraphSchedule where
  currentTasks : List (GraphTask × TaskData) := []
  nextTasks : List (GraphTask × TaskData) := []
  pendingFanInTasks : List (GraphTask × TaskData) := []

/-! ## Paths -/

def graphSchedulerVersion : String := "2"

def graphSchedulerPath : Path := ⟨sectionInternal, ["graph_scheduler"], by decide⟩
def graphSchedulerVersionPath : Path :=
  ⟨sectionInternal, ["graph_scheduler", "version"], by decide⟩
def graphSchedulerLegacyPendingPath : Path :=
  ⟨sectionInternal, ["graph_scheduler", "pending_fan_in_nodes"], by decide⟩
def graphSchedulerCurrentPath : Path :=
  ⟨sectionInternal, ["graph_scheduler", "current_tasks"], by decide⟩
def graphSchedulerNextPath : Path :=
  ⟨sectionInternal, ["graph_scheduler", "next_tasks"], by decide⟩
def graphSchedulerPendingTasksPath : Path :=
  ⟨sectionInternal, ["graph_scheduler", "pending_fan_in_tasks"], by decide⟩

/-! ## Storing -/

/-- A `[]GraphTask`. -/
def tasksValue (tasks : List (GraphTask × TaskData)) : Raw :=
  Raw.slice (.named "runtime.GraphTask")
    (tasks.map fun t => .leaf (.opaqueValue "runtime.GraphTask" (t.1.json t.2)))

theorem valid_tasksValue : (tasksValue tasks).Valid := by
  refine valid_slice.mpr fun v hv => ?_
  obtain ⟨t, -, rfl⟩ := mem_map.mp hv
  exact ⟨.inr rfl, valid_opaqueValue (by decide) (t.1.valid_json t.2)⟩

/-- A list of tasks is set, an empty one is deleted. -/
def storeTasks (path : Path) : List (GraphTask × TaskData) → PatchOp
  | [] => ⟨.delete, path, Raw.null, "", by decide⟩
  | t :: rest => ⟨.set, path, tasksValue (t :: rest), "", valid_tasksValue⟩

/-- The calls of `SetPath` and `DeletePath`, as operations of a patch. -/
def GraphSchedule.ops (schedule : GraphSchedule) : List PatchOp :=
  [⟨.set, graphSchedulerVersionPath, Raw.string graphSchedulerVersion, "", by decide⟩,
    storeTasks graphSchedulerCurrentPath schedule.currentTasks,
    storeTasks graphSchedulerNextPath schedule.nextTasks,
    storeTasks graphSchedulerPendingTasksPath schedule.pendingFanInTasks]

def storeGraphSchedule (current : State) (schedule : GraphSchedule) : Except PatchError State :=
  (Patch.mk schedule.ops).apply current

/-! ## Loading -/

def checkOperationID (operationID : String) : Except String Unit :=
  if operationID = "" then .ok ()
  else (validateRunnerStorageID "task operation ID" operationID).mapError fun _ =>
    "task operation ID must be a portable record ID"

/-- The loop of `graphScheduleTasks`, with the ids that were seen. -/
def checkTasks (field : String) : Nat → List String → List String → List (GraphTask × TaskData) →
    Except String Unit
  | _, _, _, [] => .ok ()
  | index, seenTaskIDs, seenNodeIDs, (task, data) :: rest => do
      let at_ := "graph scheduler field " ++ quote field ++ " task " ++ toString index
      requireText (trimSpace task.taskID ≠ "" && task.taskID = trimSpace task.taskID)
        (at_ ++ " has invalid task ID " ++ quote task.taskID)
      requireText (task.taskID ∉ seenTaskIDs)
        ("graph scheduler field " ++ quote field ++ " has duplicate task ID " ++
          quote task.taskID)
      (checkOperationID data.operationID).mapError fun message => at_ ++ ": " ++ message
      requireText (trimSpace task.nodeID ≠ "" && task.nodeID = trimSpace task.nodeID)
        (at_ ++ " has invalid node ID " ++ quote task.nodeID)
      requireText (field ≠ "pending_fan_in_tasks" || task.nodeID ∉ seenNodeIDs)
        ("graph scheduler field " ++ quote field ++ " has duplicate node ID " ++
          quote task.nodeID)
      requireText (validateInputPatch data.input).isEmpty (at_ ++ " input")
      checkTasks field (index + 1) (task.taskID :: seenTaskIDs) (task.nodeID :: seenNodeIDs) rest

/-- A marshalled `[]GraphTask` is decoded. -/
def decodeTasks : Raw → Option (List (GraphTask × TaskData))
  | .leaf .null => some []
  | .leaf (.slice _ items) => items.mapM decodeTask
  | _ => none

def graphScheduleTasks (field : String) : Option Raw →
    Except String (List (GraphTask × TaskData))
  | none => .ok []
  | some (.leaf .null) => .error ("graph scheduler field " ++ quote field ++ " cannot be null")
  | some value =>
    match decodeTasks value.jsonNormal with
    | none => .error ("decode graph scheduler field " ++ quote field)
    | some tasks => (checkTasks field 0 [] [] tasks).map fun _ => tasks

/-- `LoadGraphSchedule`; without a stored schedule all lists are empty. -/
def loadGraphSchedule (current : State) : Except String GraphSchedule := do
  if (current.read graphSchedulerPath).isNone then return {}
  requireText (current.read graphSchedulerLegacyPendingPath).isNone
    ("unsupported graph scheduler metadata field " ++
      quote graphSchedulerLegacyPendingPath.string)
  requireText ((current.read graphSchedulerVersionPath).any fun version =>
      Raw.beq version (Raw.string graphSchedulerVersion))
    "unsupported graph scheduler metadata version"
  let currentTasks ← graphScheduleTasks "current_tasks" (current.read graphSchedulerCurrentPath)
  let nextTasks ← graphScheduleTasks "next_tasks" (current.read graphSchedulerNextPath)
  let pendingFanInTasks ← graphScheduleTasks "pending_fan_in_tasks"
    (current.read graphSchedulerPendingTasksPath)
  return { currentTasks, nextTasks, pendingFanInTasks }

/-! ## The check of a list -/

/-- A task with data that passes the check by itself. -/
structure LoadableTask (task : GraphTask) (data : TaskData) : Prop where
  taskID : trimSpace task.taskID = task.taskID ∧ task.taskID ≠ ""
  nodeID : trimSpace task.nodeID = task.nodeID ∧ task.nodeID ≠ ""
  operationID : checkOperationID data.operationID = .ok ()
  input : validateInputPatch data.input = []

/-- A list that passes the check. -/
structure Loadable (field : String) (tasks : List (GraphTask × TaskData)) : Prop where
  each : ∀ t ∈ tasks, LoadableTask t.1 t.2
  taskIDs : (tasks.map fun t => t.1.taskID).Nodup
  nodeIDs : field = "pending_fan_in_tasks" → (tasks.map fun t => t.1.nodeID).Nodup

theorem trimmed_iff :
    (trimSpace s ≠ "" && decide (s = trimSpace s)) = true ↔ trimSpace s = s ∧ s ≠ "" := by
  rw [Bool.and_eq_true, decide_eq_true_eq, decide_eq_true_eq]
  constructor
  · rintro ⟨hne, heq⟩
    rw [← heq] at hne
    exact ⟨heq.symm, hne⟩
  · rintro ⟨ht, hne⟩
    rw [ht]
    exact ⟨hne, rfl⟩

variable {before s held : State} {schedule loaded : GraphSchedule} {field : String}
  {tasks : List (GraphTask × TaskData)}

theorem checkTasks_cons :
    checkTasks field index seenTaskIDs seenNodeIDs ((task, data) :: rest) = .ok () ↔
      LoadableTask task data ∧ task.taskID ∉ seenTaskIDs ∧
        (field = "pending_fan_in_tasks" → task.nodeID ∉ seenNodeIDs) ∧
        checkTasks field (index + 1) (task.taskID :: seenTaskIDs) (task.nodeID :: seenNodeIDs)
          rest = .ok () := by
  have hn : (field ≠ "pending_fan_in_tasks" || task.nodeID ∉ seenNodeIDs) = true ↔
      (field = "pending_fan_in_tasks" → task.nodeID ∉ seenNodeIDs) := by
    simp [imp_iff_not_or]
  simp only [checkTasks, bind_eq_ok]
  constructor
  · rintro ⟨_, ht, _, hs, _, ho, _, hno, _, hse, _, hi, h⟩
    refine ⟨⟨?_, ?_, mapError_eq_ok.mp ho, ?_⟩, ?_, ?_, h⟩
    · exact trimmed_iff.mp (requireText_eq_ok.mp ht)
    · exact trimmed_iff.mp (requireText_eq_ok.mp hno)
    · exact isEmpty_iff.mp (requireText_eq_ok.mp hi)
    · exact of_decide_eq_true (requireText_eq_ok.mp hs)
    · exact hn.mp (requireText_eq_ok.mp hse)
  · rintro ⟨⟨ht, hno, ho, hi⟩, hs, hse, h⟩
    refine ⟨(), requireText_eq_ok.mpr (trimmed_iff.mpr ht), (), ?_, (), mapError_eq_ok.mpr ho, (),
      requireText_eq_ok.mpr (trimmed_iff.mpr hno), (), ?_, (), ?_, h⟩
    · exact requireText_eq_ok.mpr (decide_eq_true hs)
    · exact requireText_eq_ok.mpr (hn.mpr hse)
    · exact requireText_eq_ok.mpr (isEmpty_iff.mpr hi)

theorem loadable_cons : Loadable field ((task, data) :: rest) ↔
      LoadableTask task data ∧ (∀ t ∈ rest, t.1.taskID ≠ task.taskID) ∧
        (field = "pending_fan_in_tasks" → ∀ t ∈ rest, t.1.nodeID ≠ task.nodeID) ∧
        Loadable field rest := by
  constructor
  · rintro ⟨he, hta, hn⟩
    obtain ⟨hne, hta⟩ := nodup_cons.mp hta
    refine ⟨he _ mem_cons_self, ?_, ?_, ⟨(forall_mem_cons.mp he).2, hta, ?_⟩⟩
    · exact fun t ht heq => hne (mem_map.mpr ⟨t, ht, heq⟩)
    · intro hf t ht heq
      exact (nodup_cons.mp (hn hf)).1 (mem_map.mpr ⟨t, ht, heq⟩)
    · exact fun hf => (nodup_cons.mp (hn hf)).2
  · rintro ⟨hts, hnw, hnn, he, hta, hn⟩
    refine ⟨?_, nodup_cons.mpr ⟨?_, hta⟩, fun hf => nodup_cons.mpr ⟨?_, ?_⟩⟩
    · exact forall_mem_cons.mpr ⟨hts, he⟩
    · intro hm
      obtain ⟨t, ht, heq⟩ := mem_map.mp hm
      exact hnw t ht heq
    · intro hm
      obtain ⟨t, ht, heq⟩ := mem_map.mp hm
      exact hnn hf t ht heq
    · exact hn hf

theorem checkTasks_eq_ok : checkTasks field index seenTaskIDs seenNodeIDs tasks = .ok () ↔
      Loadable field tasks ∧ (∀ t ∈ tasks, t.1.taskID ∉ seenTaskIDs) ∧
        (field = "pending_fan_in_tasks" → ∀ t ∈ tasks, t.1.nodeID ∉ seenNodeIDs) := by
  induction tasks generalizing index seenTaskIDs seenNodeIDs with
  | nil =>
    have hn : Loadable field [] := ⟨nofun, nodup_nil, fun _ => nodup_nil⟩
    exact ⟨fun _ => ⟨hn, nofun, fun _ => nofun⟩, fun _ => rfl⟩
  | cons t rest ih =>
    rw [checkTasks_cons, ih, loadable_cons]
    constructor
    · rintro ⟨hta, hs, hse, hr, hne, hnw⟩
      refine ⟨⟨hta, fun t ht heq => hne t ht (heq ▸ mem_cons_self), ?_, hr⟩,
        forall_mem_cons.mpr ⟨hs, fun t ht hm => ?_⟩, fun hf =>
        forall_mem_cons.mpr ⟨hse hf, fun t ht hm => ?_⟩⟩
      · exact fun hf t ht heq => hnw hf t ht (heq ▸ mem_cons_self)
      · exact hne t ht (mem_cons_of_mem _ hm)
      · exact hnw hf t ht (mem_cons_of_mem _ hm)
    · rintro ⟨⟨hta, hne, hnw, hr⟩, hs, hse⟩
      refine ⟨hta, hs _ mem_cons_self, fun hf =>
        hse hf _ mem_cons_self, hr, fun t ht hm => ?_, fun hf t ht hm =>
        ?_⟩
      · rcases mem_cons.mp hm with heq | hm
        · exact hne t ht heq
        · exact hs t (mem_cons_of_mem _ ht) hm
      · rcases mem_cons.mp hm with heq | hm
        · exact hnw hf t ht heq
        · exact hse hf t (mem_cons_of_mem _ ht) hm

/-! ## A list that was stored -/

def normalTask (t : GraphTask × TaskData) : GraphTask × TaskData := (t.1, t.2.normal t.1)

def tasksSlot : List (GraphTask × TaskData) → Option Raw
  | [] => none
  | t :: rest => some (tasksValue (t :: rest))

theorem jsonNormal_tasksValue : (tasksValue tasks).jsonNormal =
      Raw.slice .any (tasks.map fun t => (t.1.json t.2).jsonNormal) := by
  rw [tasksValue, jsonNormal_slice (by decide), jsonItems_eq, map_map]
  rfl

theorem mapM_decodeTask : (tasks.map fun t => (t.1.json t.2).jsonNormal).mapM decodeTask =
      if ∀ t ∈ tasks, validatePatch t.2.input.normal = [] then some (tasks.map normalTask)
      else none := by
  induction tasks with
  | nil => simp
  | cons t rest ih =>
    have ha : (∀ u ∈ t :: rest, validatePatch u.2.input.normal = []) ↔
        validatePatch t.2.input.normal = [] ∧
          ∀ u ∈ rest, validatePatch u.2.input.normal = [] := forall_mem_cons
    rw [map_cons, mapM_cons, decodeTask_json, ih, map_cons]
    by_cases hf : validatePatch t.2.input.normal = []
    · by_cases hr : ∀ u ∈ rest, validatePatch u.2.input.normal = []
      · rw [if_pos hf, if_pos hr, if_pos (ha.mpr ⟨hf, hr⟩)]
        rfl
      · rw [if_pos hf, if_neg hr, if_neg fun h => hr (ha.mp h).2]
        rfl
    · rw [if_neg hf, if_neg fun h => hf (ha.mp h).1]
      rfl

/-- A stored list comes back, in normal form, exactly if that passes the check. -/
theorem graphScheduleTasks_stored {loaded : List (GraphTask × TaskData)} :
    graphScheduleTasks field ((tasksSlot tasks).map jsonNormal) = .ok loaded ↔
      loaded = tasks.map normalTask ∧ Loadable field (tasks.map normalTask) := by
  cases tasks with
  | nil =>
    have hn : Loadable field [] := ⟨nofun, nodup_nil, fun _ => nodup_nil⟩
    constructor
    · intro h
      cases h
      exact ⟨rfl, hn⟩
    · rintro ⟨rfl, -⟩
      rfl
  | cons t rest =>
    rw [tasksSlot, Option.map_some, jsonNormal_tasksValue]
    generalize hta : t :: rest = tasks
    have hd : decodeTasks (Raw.slice .any (tasks.map fun t =>
        (t.1.json t.2).jsonNormal)).jsonNormal =
        if ∀ t ∈ tasks, validatePatch t.2.input.normal = [] then some (tasks.map normalTask)
        else none := by
      rw [← jsonNormal_tasksValue, jsonNormal_idem, jsonNormal_tasksValue, decodeTasks,
        mapM_decodeTask]
    rw [graphScheduleTasks, hd]
    · by_cases ha : ∀ t ∈ tasks, validatePatch t.2.input.normal = []
      · rw [if_pos ha]
        constructor
        · intro h
          obtain ⟨_, hc, rfl⟩ := map_eq_ok h
          exact ⟨rfl, (checkTasks_eq_ok.mp hc).1⟩
        · rintro ⟨rfl, hl⟩
          have hc : checkTasks field 0 [] [] (tasks.map normalTask) = .ok () :=
            checkTasks_eq_ok.mpr ⟨hl, fun _ _ => not_mem_nil, fun _ _ _ => not_mem_nil⟩
          simp only [hc]
          rfl
      · rw [if_neg ha]
        constructor
        · intro h
          cases h
        · rintro ⟨-, hl⟩
          refine absurd (fun t ht => ?_) ha
          have hi := (hl.each _ (mem_map_of_mem ht)).input
          exact (append_eq_nil_iff.mp hi).1
    · nofun

/-! ## Reading what was stored -/

/-- What an operation leaves at its path, when the others of the patch stay aside. -/
theorem read_apply_own (before : List PatchOp) {after : List PatchOp} {op : PatchOp} {s' : State}
    (h : (Patch.mk (before ++ op :: after)).apply s = .ok s')
    (ha : (Patch.mk after).Aside op.path) :
    ∃ o, opUpdate (fun _ => none) op o = some (s'.read op.path) := by
  have ho := Patch.applyWithReducers_eq_ok.mp h
  have hp := paths_of_applyOps ho
  have hpa := hp op (mem_append_right _ mem_cons_self)
  have hr := (applyOps_ok_iff s.ok hp).mp ho
  rw [map_append, map_cons, MapTree.Edit.run, Steps.run_append] at hr
  obtain ⟨o₁, -, hr⟩ := Option.bind_eq_some_iff.mp hr
  obtain ⟨o₂, how, hr⟩ := Option.bind_eq_some_iff.mp hr
  refine ⟨MapTree.lookAt op.path.keys o₁, ?_⟩
  rw [State.read, read_eq_lookAt hpa, MapTree.Edit.lookAt_run_disjoint ?_ hr]
  · exact lookAt_editAt opUpdate_passive how
  · intro e he
    obtain ⟨other, hot, rfl⟩ := mem_map.mp he
    have hem := hp other (mem_append_right _ (mem_cons_of_mem _ hot))
    exact Path.disjoint_keys hem hpa (ha other hot)

theorem storeTasks_path (path : Path) (tasks : List (GraphTask × TaskData)) :
    (storeTasks path tasks).path = path := by
  cases tasks <;> rfl

theorem opUpdate_storeTasks (hp : path.segments ≠ []) {o r : Option Raw}
    (h : opUpdate (fun _ => none) (storeTasks path tasks) o = some r) : r = tasksSlot tasks := by
  have hs : path.segments.isEmpty = false := by simpa using hp
  cases tasks with
  | nil =>
    simp only [storeTasks, opUpdate, deleteUpdate, hs] at h
    cases h
    rfl
  | cons t rest =>
    simp only [storeTasks, opUpdate, setUpdate, hs] at h
    cases h
    rfl

/-- The fields after a schedule was stored. -/
structure StoredFields (before : State) (schedule : GraphSchedule) (held : State) : Prop where
  version : held.read graphSchedulerVersionPath = some (Raw.string graphSchedulerVersion)
  current : held.read graphSchedulerCurrentPath = tasksSlot schedule.currentTasks
  next : held.read graphSchedulerNextPath = tasksSlot schedule.nextTasks
  pending : held.read graphSchedulerPendingTasksPath = tasksSlot schedule.pendingFanInTasks
  legacy : held.read graphSchedulerLegacyPendingPath = before.read graphSchedulerLegacyPendingPath

theorem storedFields (h : storeGraphSchedule before schedule = .ok held) :
    StoredFields before schedule held := by
  have hl : ∀ (done : List PatchOp) {rest : List PatchOp} {path : Path}
      {tasks : List (GraphTask × TaskData)},
      schedule.ops = done ++ storeTasks path tasks :: rest → path.segments ≠ [] →
      (Patch.mk rest).Aside path → held.read path = tasksSlot tasks := by
    intro done rest path tasks hop hs ha
    rw [storeGraphSchedule, hop] at h
    have hp := storeTasks_path path tasks
    obtain ⟨o, ho⟩ := read_apply_own done h (by rw [hp]; exact ha)
    rw [hp] at ho
    exact opUpdate_storeTasks hs ho
  refine ⟨?_, ?_, ?_, ?_, ?_⟩
  · have ha : (Patch.mk (schedule.ops.tail)).Aside graphSchedulerVersionPath := by
      simp only [Patch.Aside, GraphSchedule.ops, tail_cons, forall_mem_cons,
        storeTasks_path, not_mem_nil, false_implies, implies_true, and_true]
      decide
    obtain ⟨o, ho⟩ := read_apply_own [] h ha
    exact (Option.some.inj ho).symm
  · refine hl [_] rfl (by decide) ?_
    simp only [Patch.Aside, forall_mem_cons, storeTasks_path, not_mem_nil,
      false_implies, implies_true, and_true]
    decide
  · refine hl [_, _] rfl (by decide) ?_
    simp only [Patch.Aside, forall_mem_cons, storeTasks_path, not_mem_nil,
      false_implies, implies_true, and_true]
    decide
  · exact hl [_, _, _] rfl (by decide) (by rintro _ ⟨⟩)
  · refine Patch.Aside.read_eq ?_ h
    simp only [Patch.Aside, GraphSchedule.ops, forall_mem_cons, storeTasks_path,
      not_mem_nil, false_implies, implies_true, and_true]
    decide

/-! ## Through a checkpoint -/

/-- The fields below the namespace of the scheduler. -/
theorem read_schedulerField {kids : Object} (h : s.read graphSchedulerPath = some (.node kids))
    {path : Path} {name : String}
    (hp : path.sectionName = sectionInternal ∧ path.segments = ["graph_scheduler", name]) :
    s.read path = Assoc.get name kids := by
  have hk : path.keys = graphSchedulerPath.keys ++ [name] := by
    rw [Path.keys, hp.1, hp.2]
    rfl
  have he : path.empty = false := by
    rw [Path.empty, hp.1]
    rfl
  have hg : graphSchedulerPath.empty = false := rfl
  rw [State.read, read_eq_lookAt hg] at h
  rw [State.read, read_eq_lookAt he, hk, lookAt_append, h, lookAt_cons_node, lookAt_nil]

theorem scheduler_kids (h : s.read graphSchedulerVersionPath = some v) :
    ∃ kids, s.read graphSchedulerPath = some (.node kids) := by
  have hv : graphSchedulerVersionPath.empty = false := rfl
  have hg : graphSchedulerPath.empty = false := rfl
  have hk : graphSchedulerVersionPath.keys = graphSchedulerPath.keys ++ ["version"] := rfl
  rw [State.read, read_eq_lookAt hv, hk, lookAt_append] at h
  rw [State.read, read_eq_lookAt hg]
  generalize MapTree.lookAt graphSchedulerPath.keys (some (MapTree.node s.root)) = o at h ⊢
  rcases o with _ | (a | kids)
  · cases h
  · cases h
  · exact ⟨kids, rfl⟩

/-- The schedule with its data in normal form. -/
def GraphSchedule.normal (schedule : GraphSchedule) : GraphSchedule where
  currentTasks := schedule.currentTasks.map normalTask
  nextTasks := schedule.nextTasks.map normalTask
  pendingFanInTasks := schedule.pendingFanInTasks.map normalTask

/-- The three lists pass the check. -/
structure GraphSchedule.Loadable (schedule : GraphSchedule) : Prop where
  current : WeaveFlow.Loadable "current_tasks" schedule.currentTasks
  next : WeaveFlow.Loadable "next_tasks" schedule.nextTasks
  pending : WeaveFlow.Loadable "pending_fan_in_tasks" schedule.pendingFanInTasks

/-- `LoadGraphSchedule`, when every field holds a list that was stored. -/
theorem loadGraphSchedule_eq_ok {s : State} {schedule loaded : GraphSchedule}
    (hna : (s.read graphSchedulerPath).isNone = false)
    (hl : (s.read graphSchedulerLegacyPendingPath).isNone = true)
    (hv : ((s.read graphSchedulerVersionPath).any fun version =>
      Raw.beq version (Raw.string graphSchedulerVersion)) = true)
    (hcu : ∀ tasks, graphScheduleTasks "current_tasks" (s.read graphSchedulerCurrentPath) =
      .ok tasks ↔ tasks = schedule.currentTasks.map normalTask ∧
        WeaveFlow.Loadable "current_tasks" (schedule.currentTasks.map normalTask))
    (hne : ∀ tasks, graphScheduleTasks "next_tasks" (s.read graphSchedulerNextPath) =
      .ok tasks ↔ tasks = schedule.nextTasks.map normalTask ∧
        WeaveFlow.Loadable "next_tasks" (schedule.nextTasks.map normalTask))
    (hpe : ∀ tasks, graphScheduleTasks "pending_fan_in_tasks"
        (s.read graphSchedulerPendingTasksPath) = .ok tasks ↔
      tasks = schedule.pendingFanInTasks.map normalTask ∧
        WeaveFlow.Loadable "pending_fan_in_tasks" (schedule.pendingFanInTasks.map normalTask)) :
    loadGraphSchedule s = .ok loaded ↔ loaded = schedule.normal ∧ schedule.normal.Loadable := by
  have hlo : loadGraphSchedule s = do
      let currentTasks ← graphScheduleTasks "current_tasks" (s.read graphSchedulerCurrentPath)
      let nextTasks ← graphScheduleTasks "next_tasks" (s.read graphSchedulerNextPath)
      let pendingFanInTasks ← graphScheduleTasks "pending_fan_in_tasks"
        (s.read graphSchedulerPendingTasksPath)
      return { currentTasks, nextTasks, pendingFanInTasks } := by
    rw [loadGraphSchedule, hna, hl, hv]
    rfl
  rw [hlo]
  constructor
  · intro h
    simp only [bind_eq_ok] at h
    obtain ⟨current, hc, next, hn, pending, hp, h⟩ := h
    cases h
    obtain ⟨rfl, hcl⟩ := (hcu current).mp hc
    obtain ⟨rfl, hnl⟩ := (hne next).mp hn
    obtain ⟨rfl, hpl⟩ := (hpe pending).mp hp
    exact ⟨rfl, hcl, hnl, hpl⟩
  · rintro ⟨rfl, hcl, hnl, hpl⟩
    refine bind_eq_ok.mpr ⟨_, (hcu _).mpr ⟨rfl, hcl⟩, ?_⟩
    refine bind_eq_ok.mpr ⟨_, (hne _).mpr ⟨rfl, hnl⟩, ?_⟩
    exact bind_eq_ok.mpr ⟨_, (hpe _).mpr ⟨rfl, hpl⟩, rfl⟩

/-- What `LoadGraphSchedule` reads from a restored state that holds a schedule. -/
theorem StoredFields.load_restored (hf : StoredFields before schedule held)
    (hl : before.read graphSchedulerLegacyPendingPath = none) :
    loadGraphSchedule held.restored = .ok loaded ↔
      loaded = schedule.normal ∧ schedule.normal.Loadable := by
  obtain ⟨hv, hc, hn, hp, hk⟩ := hf
  obtain ⟨kids, hki⟩ := scheduler_kids hv
  have hr := State.read_restored hki
  rw [jsonNormal_node] at hr
  have hfi : ∀ {path : Path} {name : String},
      path.sectionName = sectionInternal ∧ path.segments = ["graph_scheduler", name] →
      held.restored.read path = (held.read path).map jsonNormal := by
    intro path name hpa
    rw [read_schedulerField hr hpa, read_schedulerField hki hpa, Assoc.get_mapVals]
  refine loadGraphSchedule_eq_ok ?_ ?_ ?_ ?_ ?_ ?_
  · rw [hr]
    rfl
  · rw [hfi ⟨rfl, rfl⟩, hk, hl]
    rfl
  · rw [hfi ⟨rfl, rfl⟩, hv]
    exact (beq_iff _ _).mpr rfl
  · rw [hfi ⟨rfl, rfl⟩, hc]
    exact fun _ => graphScheduleTasks_stored
  · rw [hfi ⟨rfl, rfl⟩, hn]
    exact fun _ => graphScheduleTasks_stored
  · rw [hfi ⟨rfl, rfl⟩, hp]
    exact fun _ => graphScheduleTasks_stored

/-- Store a schedule, write a checkpoint, restore it and load the schedule: it comes back in
normal form, exactly if that passes the check. -/
theorem loadGraphSchedule_restored (hs : storeGraphSchedule before schedule = .ok held)
    (hl : before.read graphSchedulerLegacyPendingPath = none) :
    loadGraphSchedule held.restored = .ok loaded ↔
      loaded = schedule.normal ∧ schedule.normal.Loadable :=
  (storedFields hs).load_restored hl

end WeaveFlow
