import WeaveFlow.Graph.Commands
import WeaveFlow.Graph.FanIn

/-!
# The scheduler loop

One round of `invokeWithConfig` as a function (`waveStep`): the active tasks of the schedule
run, and from how they end follows the next schedule, a pause, the end or a failure.  A run is
any sequence of rounds and resumes, under any outcomes.  Ends with an error that come from
outside the scheduler (cancellation, limits, observers, the merge of the patches) are not
modelled: such a run stops where it is.
-/

namespace WeaveFlow

open List

/-- What is configured for an invocation. -/
structure LoopConfig where
  maxFanOut : Nat
  interruptAfterNodeIDs : List String := []
  deriving DecidableEq, Repr

/-- Where a run stands. -/
inductive LoopState where
  /-- before a wave -/
  | running (s : Schedule)
  /-- interrupted: the tasks to start with, and the joins in the stored schedule -/
  | paused (nextTasks : List GraphTask) (pending : TaskMap)
  /-- ended, with or without a return command; the joins that were pending -/
  | finished (returned : Bool) (pending : TaskMap)
  | failed

/-- The tasks of a wave that raise an interrupt. -/
def interruptedTasks (env : WaveEnv) (tasks : List GraphTask) : List GraphTask :=
  tasks.filter fun t => env.outcome t = .interrupt

def failedTasks (env : WaveEnv) (tasks : List GraphTask) : List (GraphTask × NodeError) :=
  tasks.filterMap fun t =>
    match env.outcome t with
    | .error e => some (t, e)
    | _ => none

namespace Graph

variable (g : Graph) (cfg : LoopConfig) (env : WaveEnv)

/-- The next tasks are checked and placed. -/
def scheduleWave (tasks : List GraphTask) (pending : TaskMap) (andThen : Schedule → LoopState) :
    LoopState :=
  match g.validateNextTasks cfg.maxFanOut tasks pending with
  | .error _ => .failed
  | .ok () => andThen (g.scheduleNext tasks pending)

/-- After the wave: a suspend request or a configured interrupt pauses the run. -/
def afterWave (completedTasks : List GraphTask) (suspend : Option GraphTask) (s : Schedule) :
    LoopState :=
  if suspend.isSome ||
      completedTasks.any fun t => decide (t.nodeID ∈ cfg.interruptAfterNodeIDs) then
    .paused s.ready s.pending
  else .running s

def failureWave (pending : TaskMap) (completedTasks : List GraphTask) (task : GraphTask)
    (e : NodeError) : LoopState :=
  match g.resolveNodeFailure task e with
  | [] => .failed
  | failureTask :: more =>
    match g.validateNextTasks cfg.maxFanOut (failureTask :: more) pending with
    | .error _ => .failed
    | .ok () =>
      match g.resolveCommands env cfg.maxFanOut completedTasks with
      | .error _ => .failed
      | .ok r =>
        if r.returns || r.suspend.isSome then .failed
        else
          match g.validateNextTasks cfg.maxFanOut r.tasks pending with
          | .error _ => .failed
          | .ok () =>
            g.scheduleWave cfg (r.tasks ++ failureTask :: more) pending .running

def completeWave (pending : TaskMap) (completedTasks : List GraphTask) : LoopState :=
  match g.resolveCommands env cfg.maxFanOut completedTasks with
  | .error (.condition source _ failure) =>
    match (completedTasks.find? fun t => t.nodeID = source).or completedTasks.head? with
    | none => .failed
    | some task =>
      match g.resolveConditionFailure task source failure with
      | [] => .failed
      | failureTask :: more => g.scheduleWave cfg (failureTask :: more) pending .running
  | .error _ => .failed
  | .ok r =>
    if r.returns then .finished true pending
    else g.scheduleWave cfg r.tasks pending (afterWave cfg completedTasks r.suspend)

def waveStep (s : Schedule) : LoopState :=
  match g.activeTasks s.ready with
  | .error _ => .failed
  | .ok tasks =>
    if tasks = [] then .finished false s.pending
    else if tasks.length > cfg.maxFanOut then .failed
    else
      match interruptedTasks env tasks, failedTasks env tasks with
      | [], [] => g.completeWave cfg env s.pending tasks
      | [task], [] => .paused [task] s.pending
      | [], [(task, e)] => g.failureWave cfg env s.pending tasks task e
      | _, _ => .failed

/-- The schedule a new run starts with. -/
def startSchedule : Schedule :=
  g.resumeSchedule [newStaticGraphTask g.entryPoint 0] TaskMap.empty

/-- The pending joins as they are read back from the stored schedule. -/
def restorePending (pending : TaskMap) : TaskMap :=
  TaskMap.taskMapByNodeID pending.sortedTasksByNodeID

/-- The schedule a paused run is resumed with. -/
def resumedSchedule (startTasks : List GraphTask) (pending : TaskMap) : Schedule :=
  g.resumeSchedule
    (if startTasks = [] then [newStaticGraphTask g.entryPoint 0] else startTasks)
    (restorePending pending)

/-- A round of the loop under some outcomes, or the resumption of a paused run. -/
inductive LoopStep : LoopState → LoopState → Prop where
  | wave (cfg : LoopConfig) (env : WaveEnv) (s : Schedule) :
      LoopStep (.running s) (g.waveStep cfg env s)
  | resume (nextTasks startTasks : List GraphTask) (pending : TaskMap) :
      LoopStep (.paused nextTasks pending) (.running (g.resumedSchedule startTasks pending))

/-- The states that runs from the entry point reach. -/
def Reached (st : LoopState) : Prop :=
  Relation.ReflTransGen g.LoopStep (.running g.startSchedule) st

/-! ## What a round hands on -/

/-- Tasks are handed on if they pass the checks. -/
def checkedTasks (tasks : List GraphTask) (pending : TaskMap) : Option (List GraphTask) :=
  match g.validateNextTasks cfg.maxFanOut tasks pending with
  | .error _ => none
  | .ok () => some tasks

/-- What `failureWave` hands to `scheduleNext`. -/
def failureWaveTasks (pending : TaskMap) (completedTasks : List GraphTask) (task : GraphTask)
    (e : NodeError) : Option (List GraphTask) :=
  match g.resolveNodeFailure task e with
  | [] => none
  | failureTask :: more => do
      let _ ← g.checkedTasks cfg (failureTask :: more) pending
      match g.resolveCommands env cfg.maxFanOut completedTasks with
      | .error _ => none
      | .ok r =>
        if r.returns || r.suspend.isSome then none
        else do
          let tasks ← g.checkedTasks cfg r.tasks pending
          g.checkedTasks cfg (tasks ++ failureTask :: more) pending

/-- What `completeWave` hands to `scheduleNext`. -/
def completeWaveTasks (pending : TaskMap) (completedTasks : List GraphTask) :
    Option (List GraphTask) :=
  match g.resolveCommands env cfg.maxFanOut completedTasks with
  | .error (.condition source _ failure) => do
      let task ← (completedTasks.find? fun t => t.nodeID = source).or completedTasks.head?
      match g.resolveConditionFailure task source failure with
      | [] => none
      | failureTask :: more => g.checkedTasks cfg (failureTask :: more) pending
  | .error _ => none
  | .ok r => if r.returns then none else g.checkedTasks cfg r.tasks pending

/-- The tasks that a round hands to `scheduleNext`, if it gets there. -/
def handedTasks (s : Schedule) : Option (List GraphTask) :=
  match g.activeTasks s.ready with
  | .error _ => none
  | .ok tasks =>
    if tasks = [] then none
    else if tasks.length > cfg.maxFanOut then none
    else
      match interruptedTasks env tasks, failedTasks env tasks with
      | [], [] => g.completeWaveTasks cfg env s.pending tasks
      | [], [(task, e)] => g.failureWaveTasks cfg env s.pending tasks task e
      | _, _ => none

variable {g cfg env}

variable {tasks : List GraphTask} {st : LoopState} {pending : TaskMap}

theorem checkedTasks_eq_some : g.checkedTasks cfg tasks pending = some handed ↔
      g.validateNextTasks cfg.maxFanOut tasks pending = .ok () ∧ handed = tasks := by
  unfold checkedTasks
  split
  next e he => simp [he]
  next he => simp [he, eq_comm]

/-! ## What a round can do -/

/-- A round that hands on nothing fails, ends or pauses at one of its tasks.  One that hands on
tasks goes on or pauses with their schedule. -/
inductive Round (g : Graph) (s : Schedule) : Option (List GraphTask) → LoopState → Prop where
  | failed : Round g s none .failed
  | inactive (ha : g.activeTasks s.ready = .ok []) : Round g s none (.finished false s.pending)
  | returned : Round g s none (.finished true s.pending)
  | interrupted (ha : g.activeTasks s.ready = .ok active) (ht : task ∈ active) :
      Round g s none (.paused [task] s.pending)
  | running : Round g s (some handed) (.running (g.scheduleNext handed s.pending))
  | paused : Round g s (some handed)
      (.paused (g.scheduleNext handed s.pending).ready (g.scheduleNext handed s.pending).pending)

theorem round_scheduleWave
    (h : ∀ handed, g.Round s (some handed) (andThen (g.scheduleNext handed s.pending))) :
    g.Round s (g.checkedTasks cfg tasks s.pending)
      (g.scheduleWave cfg tasks s.pending andThen) := by
  rw [checkedTasks, scheduleWave]
  cases g.validateNextTasks cfg.maxFanOut tasks s.pending with
  | error e => exact .failed
  | ok u => exact h tasks

theorem round_failureWave : g.Round s (g.failureWaveTasks cfg env s.pending tasks task e)
    (g.failureWave cfg env s.pending tasks task e) := by
  rw [failureWaveTasks, failureWave]
  cases g.resolveNodeFailure task e with
  | nil => exact .failed
  | cons failureTask more =>
    dsimp only [checkedTasks]
    cases g.validateNextTasks cfg.maxFanOut (failureTask :: more) s.pending with
    | error e => exact .failed
    | ok u =>
      cases g.resolveCommands env cfg.maxFanOut tasks with
      | error e => exact .failed
      | ok r =>
        by_cases hp : r.returns || r.suspend.isSome
        · simp only [hp, if_true]
          exact .failed
        · simp only [hp]
          cases g.validateNextTasks cfg.maxFanOut r.tasks s.pending with
          | error e => exact .failed
          | ok u => exact round_scheduleWave fun _ => .running

theorem round_completeWave : g.Round s (g.completeWaveTasks cfg env s.pending tasks)
    (g.completeWave cfg env s.pending tasks) := by
  rw [completeWaveTasks, completeWave]
  split
  next source target failure _ =>
    cases (tasks.find? fun t => t.nodeID = source).or tasks.head? with
    | none => exact .failed
    | some task =>
      dsimp only [Option.bind_eq_bind, Option.bind_some]
      cases g.resolveConditionFailure task source failure with
      | nil => exact .failed
      | cons failureTask more => exact round_scheduleWave fun _ => .running
  · exact .failed
  next r _ =>
    split
    · exact .returned
    · refine round_scheduleWave fun handed => ?_
      rw [afterWave]
      split
      · exact .paused
      · exact .running

theorem round_waveStep : g.Round s (g.handedTasks cfg env s) (g.waveStep cfg env s) := by
  rw [handedTasks, waveStep]
  cases ha : g.activeTasks s.ready with
  | error e => exact .failed
  | ok tasks =>
    dsimp only
    split
    next hn => exact .inactive (hn ▸ ha)
    · split
      · exact .failed
      · cases hi : interruptedTasks env tasks with
        | nil =>
          cases failedTasks env tasks with
          | nil => exact round_completeWave
          | cons f fs =>
            cases fs with
            | nil => exact round_failureWave
            | cons f' fs => exact .failed
        | cons task rest =>
          have hm : task ∈ interruptedTasks env tasks := hi ▸ mem_cons_self
          cases rest with
          | nil =>
            cases failedTasks env tasks with
            | nil => exact .interrupted ha (mem_filter.mp hm).1
            | cons f fs => exact .failed
          | cons t rest => exact .failed

theorem round_of_waveStep (h : g.waveStep cfg env s = st) :
    ∃ o, g.handedTasks cfg env s = o ∧ g.Round s o st :=
  ⟨_, rfl, h ▸ round_waveStep⟩

/-! ## Active tasks -/

theorem mem_collectActive (h : g.collectActive tasks active = .ok result) :
    t ∈ result ↔ t ∈ active ∨ t ∈ tasks ∧ t.nodeID ≠ endNodeID := by
  induction tasks generalizing active with
  | nil =>
    cases h
    simp
  | cons u tasks ih =>
    rw [collectActive] at h
    split at h
    · cases h
    · split at h
      next he =>
        rw [ih h, mem_cons]
        constructor
        · rintro (ha | ⟨ht, hne⟩)
          · exact .inl ha
          · exact .inr ⟨.inr ht, hne⟩
        · rintro (ha | ⟨rfl | ht, hne⟩)
          · exact .inl ha
          · exact absurd he hne
          · exact .inr ⟨ht, hne⟩
      next he =>
        split at h
        · cases h
        · split at h
          · cases h
          · rw [ih h, mem_append, mem_singleton, mem_cons]
            constructor
            · rintro ((ha | rfl) | ⟨ht, hne⟩)
              · exact .inl ha
              · exact .inr ⟨.inl rfl, he⟩
              · exact .inr ⟨.inr ht, hne⟩
            · rintro (ha | ⟨rfl | ht, hne⟩)
              · exact .inl (.inl ha)
              · exact .inl (.inr rfl)
              · exact .inr ⟨ht, hne⟩

theorem mem_activeTasks (h : g.activeTasks tasks = .ok active) :
    t ∈ active ↔ t ∈ tasks ∧ t.nodeID ≠ endNodeID := by
  obtain ⟨collected, hc, hs⟩ := Outcome.of_bind h
  cases hs
  rw [(KeySort.perm_sort activeLess collected).mem_iff, mem_collectActive hc]
  simp

end Graph

end WeaveFlow
