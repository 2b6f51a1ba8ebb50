import WeaveFlow.Graph.Loop

/-!
# The fan-in barrier over whole runs

A run of the loop is a sequence of calls of `scheduleNext` and `resumeSchedule`
(`FanInRun`).  All schedules of such a sequence respect the barrier exactly when no
call releases a join with a dynamic task upstream of it, and no call resumes a join with a
task upstream of it (`barrier_run_iff`).  Whatever the calls are, joins are never left
pending with nothing to run (`no_stranded_join`).
-/

namespace WeaveFlow

open TaskMap List

namespace Graph

variable {g : Graph}

/-- A call that leads to a schedule. -/
inductive Call where
  | next (tasks : List GraphTask)
  | resume (tasks : List GraphTask)

/-- The condition on a call, at the schedule before it. -/
def Call.OK (g : Graph) (s : Schedule) : Call → Prop
  | next tasks => g.NextOK tasks s.pending
  | resume tasks =>
    g.ResumeOK (if tasks = [] then [newStaticGraphTask g.entryPoint 0] else tasks)
      (restorePending s.pending)

/-- The schedules reached by calls from the start of a run: each call with the schedule before
it, and the last schedule. -/
inductive FanInRun (g : Graph) : List (Call × Schedule) → Schedule → Prop where
  | start : FanInRun g [] g.startSchedule
  | next {trace : List (Call × Schedule)} {s : Schedule} {maxFanOut : Nat}
      {tasks : List GraphTask} (run : FanInRun g trace s)
      (accepted : g.validateNextTasks maxFanOut tasks s.pending = .ok ()) :
      FanInRun g (trace ++ [(.next tasks, s)]) (g.scheduleNext tasks s.pending)
  | resume {trace : List (Call × Schedule)} {s : Schedule} (tasks : List GraphTask)
      (run : FanInRun g trace s) :
      FanInRun g (trace ++ [(.resume tasks, s)]) (g.resumedSchedule tasks s.pending)

/-! ## Pending tasks are static -/

theorem static_restorePending (h : pending.Static) : (restorePending pending).Static :=
  taskMapByNodeID_all fun t ht => h _ t (mem_sortedTasksByNodeID.mp ht)

theorem FanInRun.static (h : FanInRun g trace s) : s.pending.Static := by
  induction h with
  | start => exact static_resumeSchedule static_empty
  | next run accepted ih => exact static_scheduleNext ih
  | resume tasks run ih => exact static_resumeSchedule (static_restorePending ih)

/-! ## The barrier -/

theorem barrier_startSchedule : g.Barrier g.startSchedule := by
  have hat : ∀ n, StaticAt [newStaticGraphTask g.entryPoint 0] n → n = g.entryPoint := by
    rintro n ⟨t, ht, -, rfl⟩
    rw [mem_singleton.mp ht]
    rfl
  refine (barrier_resumeSchedule_iff static_empty).mpr ⟨?_, ?_⟩
  · rintro n - - - ⟨t, ht, hd, -⟩
    rw [mem_singleton.mp ht] at hd
    cases hd
  · rintro n - hn ⟨m, hm, hup⟩
    have hmn : m = n := (hat m (hm.resolve_left (not_mem_empty m))).trans (hat n hn).symm
    rw [hmn, isStrictUpstream_irrefl] at hup
    cases hup

/-- All schedules of a run respect the barrier exactly when all its calls meet the
condition. -/
theorem barrier_run_iff {trace : List (Call × Schedule)} {s : Schedule} (h : FanInRun g trace s) :
    ((∀ p ∈ trace, g.Barrier p.2) ∧ g.Barrier s) ↔ ∀ p ∈ trace, p.1.OK g p.2 := by
  have hs : ∀ {trace : List (Call × Schedule)} {c : Call} {s s' : Schedule},
      (((∀ p ∈ trace, g.Barrier p.2) ∧ g.Barrier s) ↔ ∀ p ∈ trace, p.1.OK g p.2) →
      (g.Barrier s' ↔ c.OK g s) →
      (((∀ p ∈ trace ++ [(c, s)], g.Barrier p.2) ∧ g.Barrier s') ↔
        ∀ p ∈ trace ++ [(c, s)], p.1.OK g p.2) := by
    intro trace c s s' ih hc
    simp only [mem_append, mem_singleton, or_imp, forall_and, forall_eq]
    rw [ih, hc]
  induction h with
  | start => simp [barrier_startSchedule]
  | next run accepted ih => exact hs ih (barrier_scheduleNext_iff run.static)
  | resume tasks run ih =>
    exact hs ih (barrier_resumeSchedule_iff (static_restorePending run.static))

/-- The nodes `a`, `b` and `x` lead to the join `J`; `b` may also go to `x`. -/
def sendGraph : Graph where
  nodes := ["J", "a", "b", "entry", "x"]
  entryPoint := "entry"
  finishPoint := ""
  defaultEdges :=
    ⟨[("J", ["END"]), ("a", ["J"]), ("b", ["J"]), ("entry", ["a", "b"]), ("x", ["J"])], by decide⟩
  conditionalEdges := ⟨[("b", ["x"])], by decide⟩
  failureRoutes := SortedMap.empty

/-- The nodes of a wave follow their default edges, except that node `b` returns a command. -/
def commandEnv (command : Command) : WaveEnv where
  outcome task := if task.nodeID = "b" then .success command else .success {}
  condition _ _ := .ok { isMatch := false }
  dynamicTaskID _ _ _ := "send-0"
  sendInputOK _ _ := true

/-- The wave of `a` and `b`. -/
def branchSchedule : Schedule :=
  sendGraph.scheduleNext [newStaticGraphTask "a" 0, newStaticGraphTask "b" 1] TaskMap.empty

theorem branchSchedule_run :
    FanInRun sendGraph [(.next [newStaticGraphTask "a" 0, newStaticGraphTask "b" 1],
      sendGraph.startSchedule)] branchSchedule := by
  have ha : sendGraph.validateNextTasks 10 [newStaticGraphTask "a" 0,
      newStaticGraphTask "b" 1] sendGraph.startSchedule.pending = .ok () := by rfl
  exact FanInRun.start.next ha

/-- The wave of the join, after both branches. -/
def joinSchedule : Schedule :=
  sendGraph.scheduleNext [newStaticGraphTask "J" 0] branchSchedule.pending

theorem barrier_run_branches : joinSchedule.ready.map GraphTask.nodeID = ["J"] ∧
    sendGraph.Barrier joinSchedule := by
  have ha : sendGraph.validateNextTasks 10 [newStaticGraphTask "J" 0] branchSchedule.pending =
      .ok () := by rfl
  refine ⟨rfl, ((barrier_run_iff (branchSchedule_run.next ha)).mpr fun p hp => ?_).2⟩
  -- no task of the two calls is dynamic
  rcases mem_append.mp hp with hp | hp <;> rw [mem_singleton.mp hp] <;>
    rintro n - - - ⟨t, ht, hd, -⟩ <;> simp only [mem_cons, not_mem_nil, or_false] at ht
  · rcases ht with rfl | rfl <;> cases hd
  · subst ht
    cases hd

/-- The task that `b` sends to `x`. -/
def sentTask : GraphTask := { taskID := "send-0", nodeID := "x", order := 1, dynamic := true }

/-- The schedule after `a` has led to `J` and `b` has sent a task to `x`. -/
def sendSchedule : Schedule :=
  sendGraph.scheduleNext [newStaticGraphTask "J" 0, sentTask] TaskMap.empty

theorem reached_sendSchedule : sendGraph.Reached (.running sendSchedule) := by
  have hf : sendGraph.waveStep ⟨10, []⟩ (commandEnv {}) sendGraph.startSchedule =
      .running branchSchedule := by rfl
  have hs : sendGraph.waveStep ⟨10, []⟩ (commandEnv { send := [{ target := "x" }] })
      branchSchedule = .running sendSchedule := by rfl
  have ho := Relation.ReflTransGen.single (LoopStep.wave (g := sendGraph) ⟨10, []⟩
    (commandEnv {}) sendGraph.startSchedule)
  rw [hf] at ho
  have ht := ho.tail (LoopStep.wave ⟨10, []⟩ (commandEnv { send := [{ target := "x" }] }) _)
  rwa [hs] at ht

theorem barrier_broken_by_send :
    sendGraph.Reached (.running sendSchedule) ∧ ¬ sendGraph.Barrier sendSchedule := by
  refine ⟨reached_sendSchedule, fun h => ?_⟩
  have hr : sendSchedule.ready = [newStaticGraphTask "J" 0, sentTask] := by rfl
  have := (h (newStaticGraphTask "J" 0) (by simp [hr]) rfl (by decide +kernel)).1 sentTask
  exact absurd this (by decide +kernel)

/-! ## No stranded join -/

/-- A schedule with pending joins has a task at a node of the graph, and a run does not end by
itself while joins are pending. -/
theorem no_stranded_join (g : Graph) : (∀ tasks pending,
      g.Live (g.scheduleNext tasks pending) ∧ g.Live (g.resumeSchedule tasks pending)) ∧
    ∀ st, g.Reached st → (∀ s, st = .running s → g.Live s) ∧
      ∀ pending, st = .finished false pending → pending.nodeIDs = [] := by
  refine ⟨fun tasks pending => ⟨live_scheduleNext, live_resumeSchedule⟩, fun st h => ?_⟩
  induction h with
  | refl =>
    refine ⟨fun s hs => ?_, nofun⟩
    cases hs
    exact live_resumeSchedule
  | tail _ hst ih =>
    cases hst with
    | resume nextTasks startTasks pending =>
      refine ⟨fun s hs => ?_, nofun⟩
      cases hs
      exact live_resumeSchedule
    | wave cfg env s =>
      generalize hw : g.waveStep cfg env s = st
      obtain ⟨o, -, hr⟩ := round_of_waveStep hw
      cases hr with
      | failed | returned | interrupted | paused => exact ⟨nofun, nofun⟩
      | inactive ha =>
        refine ⟨nofun, fun pending hp => ?_⟩
        cases hp
        by_contra hne
        obtain ⟨t, ht, -, he⟩ := ih.1 s rfl hne
        have hm := (mem_activeTasks ha).mpr ⟨ht, he⟩
        cases hm
      | running =>
        refine ⟨fun s' hs' => ?_, nofun⟩
        cases hs'
        exact live_scheduleNext

/-- One branch goes to the join `J` at once, the other by `c`. -/
def unevenGraph : Graph where
  nodes := ["J", "a", "b", "c", "entry"]
  entryPoint := "entry"
  finishPoint := ""
  defaultEdges :=
    ⟨[("J", ["END"]), ("a", ["J"]), ("b", ["c"]), ("c", ["J"]), ("entry", ["a", "b"])], by decide⟩
  conditionalEdges := SortedMap.empty
  failureRoutes := SortedMap.empty

/-- The schedule after the first two waves. -/
def unevenSchedule : Schedule :=
  unevenGraph.scheduleNext [newStaticGraphTask "J" 0, newStaticGraphTask "c" 1] TaskMap.empty

theorem reached_unevenSchedule : unevenGraph.Reached (.running unevenSchedule) := by
  have hf : unevenGraph.waveStep ⟨10, []⟩ (commandEnv {}) unevenGraph.startSchedule =
      .running (unevenGraph.scheduleNext
        [newStaticGraphTask "a" 0, newStaticGraphTask "b" 1] TaskMap.empty) := by rfl
  have hs : unevenGraph.waveStep ⟨10, []⟩ (commandEnv {}) (unevenGraph.scheduleNext
      [newStaticGraphTask "a" 0, newStaticGraphTask "b" 1] TaskMap.empty) =
      .running unevenSchedule := by rfl
  have ho := Relation.ReflTransGen.single (LoopStep.wave (g := unevenGraph) ⟨10, []⟩
    (commandEnv {}) unevenGraph.startSchedule)
  rw [hf] at ho
  have ht := ho.tail (LoopStep.wave ⟨10, []⟩ (commandEnv {}) _)
  rwa [hs] at ht

theorem no_stranded_join_uneven :
    unevenSchedule.pending.nodeIDs = ["J"] ∧
      ∃ t ∈ unevenSchedule.ready, t.nodeID ∈ unevenGraph.nodes ∧ t.nodeID ≠ endNodeID := by
  have hp : unevenSchedule.pending.nodeIDs = ["J"] := by rfl
  refine ⟨hp, ?_⟩
  exact ((no_stranded_join unevenGraph).2 _ reached_unevenSchedule).1 _ rfl
    (by rw [hp]; exact cons_ne_nil _ _)

end Graph

end WeaveFlow
