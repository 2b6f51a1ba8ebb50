import WeaveFlow.Graph.Ending

/-!
# Interrupt and resume

The interrupt branch of the loop merges the patches of the siblings, which are done, and
returns the interrupted task and the pending joins; the commands of the siblings are not
resolved.  The resumed run executes what is reached from the interrupted task and the pending
joins.  So it makes up for the run without the interrupt exactly when everything downstream of
the siblings is reached from there, or was executed before (`resume_loses_nothing_iff`).
-/

namespace WeaveFlow

open TaskMap List

namespace Graph

variable {g : Graph} {cfg : LoopConfig}

/-- One task of the wave raises an interrupt, the others succeed without a command. -/
structure Interrupts (env : WaveEnv) (task : GraphTask) (tasks : List GraphTask) : Prop where
  mem : task ∈ tasks
  interrupted : env.outcome task = .interrupt
  succeeded : ∀ t ∈ tasks, t ≠ task → env.outcome t = .success {}

/-- The nodes of the other tasks of the wave. -/
def siblings (task : GraphTask) (tasks : List GraphTask) : List String :=
  (tasks.filter fun t => t ≠ task).map GraphTask.nodeID

/-- Runs from the entry point along default edges, with the nodes executed to completion.  A
wave with an interrupt is followed by a resume with what the interrupt returned. -/
inductive DefaultRun (g : Graph) (cfg : LoopConfig) : List String → Schedule → Prop where
  | start : DefaultRun g cfg [] g.startSchedule
  | wave {before : List String} {s s' : Schedule} {tasks : List GraphTask}
      (run : DefaultRun g cfg before s) (hact : g.activeTasks s.ready = .ok tasks)
      (hstep : g.waveStep cfg quietEnv s = .running s') :
      DefaultRun g cfg (before ++ tasks.map GraphTask.nodeID) s'
  | resume {before : List String} {s : Schedule} {tasks nextTasks : List GraphTask}
      {task : GraphTask} {env : WaveEnv} {pending : TaskMap}
      (run : DefaultRun g cfg before s) (hact : g.activeTasks s.ready = .ok tasks)
      (hint : Interrupts env task tasks)
      (hstep : g.waveStep cfg env s = .paused nextTasks pending) :
      DefaultRun g cfg (before ++ siblings task tasks) (g.resumedSchedule nextTasks pending)

/-! ## The wave with the interrupt -/

variable {task : GraphTask} {s : Schedule} {tasks : List GraphTask}

theorem mem_siblings (task : GraphTask) (ht : t ∈ tasks) :
    t = task ∨ t.nodeID ∈ siblings task tasks := by
  rcases Classical.em (t = task) with rfl | hne
  · exact .inl rfl
  · exact .inr (mem_map_of_mem (mem_filter.mpr ⟨ht, decide_eq_true hne⟩))

theorem interruptedTasks_eq (hn : tasks.Nodup) (hi : Interrupts env task tasks) :
    interruptedTasks env tasks = [task] := by
  have hf : interruptedTasks env tasks = tasks.filter (· == task) := by
    refine filter_congr fun t ht => ?_
    rcases Classical.em (t = task) with rfl | hne
    · rw [hi.interrupted, decide_eq_true rfl, beq_self_eq_true]
    · rw [hi.succeeded t ht hne, decide_eq_false nofun, beq_false_of_ne hne]
  rw [hf, filter_beq, count_eq_one_of_mem hn hi.mem]
  rfl

section

variable (hg : g.WellFormed) (hs : PlainSchedule g s)
include hg hs

theorem waveStep_interrupt (ha : g.activeTasks s.ready = .ok tasks)
    (hi : Interrupts env task tasks) :
    g.waveStep cfg env s =
      if tasks.length > cfg.maxFanOut then .failed else .paused [task] s.pending := by
  have hin := interruptedTasks_eq ((nodup_active hg hs ha).of_map _) hi
  have hf : failedTasks env tasks = [] := by
    refine filterMap_eq_nil_iff.mpr fun t ht => ?_
    rcases Classical.em (t = task) with rfl | hne
    · rw [hi.interrupted]
    · rw [hi.succeeded t ht hne]
  rw [waveStep, ha]
  simp only [if_neg (ne_nil_of_mem hi.mem), hin, hf]

/-! ## The resumed run -/

theorem mem_restorePending : n ∈ (restorePending s.pending).nodeIDs ↔ n ∈ s.pending.nodeIDs := by
  have hn : ∀ t ∈ s.pending.sortedTasksByNodeID, t.nodeID ≠ "" := by
    intro t ht
    have hge := mem_sortedTasksByNodeID.mp ht
    exact (hg.trimmed _ (hs.inner _ (mem_nodeIDs.mpr ⟨t, hge⟩)).1).2
  rw [restorePending, mem_nodeIDs_taskMapByNodeID hn, ← map_nodeID_sortedTasks, mem_map]

omit hg hs in
theorem resumedSchedule_single :
    g.resumedSchedule [task] pending = g.resumeSchedule [task] (restorePending pending) := rfl

theorem plainSchedule_resumed (ht : Plain g task) :
    PlainSchedule g (g.resumedSchedule [task] s.pending) := by
  refine plainSchedule_resumeSchedule (taskMapByNodeID_all fun t ht => ?_)
    (fun n hn => hs.inner n ((mem_restorePending hg hs).mp hn)) fun t hm => ?_
  · exact hs.pending _ t (mem_sortedTasksByNodeID.mp ht)
  · rw [mem_singleton.mp hm]
    exact ht

/-- After the resume wait the interrupted task and the pending joins. -/
theorem waits_resumed (ht : Plain g task) (he : task.nodeID ≠ endNodeID) :
    Waits (g.resumedSchedule [task] s.pending) n ↔ n = task.nodeID ∨ n ∈ s.pending.nodeIDs := by
  have hst : ∀ t ∈ [task], t.dynamic = false := by
    intro t hm
    rw [mem_singleton.mp hm]
    exact ht.static
  have hat : StaticAt [task] n ↔ n = task.nodeID := by
    constructor
    · rintro ⟨t, hm, -, rfl⟩
      rw [mem_singleton.mp hm]
    · rintro rfl
      exact ⟨task, mem_singleton_self task, ht.static, rfl⟩
  rw [resumedSchedule_single, waits_resumeSchedule hst, Waiting, mem_restorePending hg hs,
    hat, or_comm]
  refine and_iff_right_of_imp fun hn => ?_
  rcases hn with rfl | hn
  · exact he
  · exact (hs.inner n hn).2

omit hs in
theorem DefaultRun.plain (hd : g.DefaultOnly) {before : List String}
    (h : DefaultRun g cfg before s) : PlainSchedule g s := by
  induction h with
  | start => exact plainSchedule_startSchedule hg
  | wave _ ha hst ih =>
    obtain ⟨-, rfl⟩ := running_quiet hg hd ih ha hst
    exact plainSchedule_quiet hg hd ih
  | @resume before s tasks nextTasks task env pending _ ha hi hst ih =>
    rw [waveStep_interrupt hg ih ha hi] at hst
    split at hst
    · cases hst
    · cases hst
      exact plainSchedule_resumed hg ih (ih.ready task ((mem_activeTasks ha).mp hi.mem).1)

end

/-! ## What the resumed run executes -/

/-- Reached from the interrupted task or a pending join. -/
def Recovered (g : Graph) (s : Schedule) (task : GraphTask) (v : String) : Prop :=
  ∃ n, (n = task.nodeID ∨ n ∈ s.pending.nodeIDs) ∧ Relation.ReflTransGen g.Edge n v

/-- Below a schedule are what the resumed run recovers, the siblings, and what lies downstream
of them. -/
theorem below_iff_recovered (hs : PlainSchedule g s) (ha : g.activeTasks s.ready = .ok tasks)
    (hta : task ∈ tasks) :
    g.Below s v ↔ g.Recovered s task v ∨ v ∈ siblings task tasks ∨
      ∃ u ∈ siblings task tasks, Relation.TransGen g.Edge u v := by
  have hw : ∀ t ∈ tasks, Waits s t.nodeID := fun t ht =>
    have hm := (mem_activeTasks ha).mp ht
    ⟨hm.2, .inl ⟨t, hm.1, rfl⟩⟩
  have hsi : ∀ u ∈ siblings task tasks, Waits s u := by
    intro u hu
    obtain ⟨t, ht, rfl⟩ := mem_map.mp hu
    exact hw t (mem_filter.mp ht).1
  constructor
  · rintro ⟨n, ⟨he, ⟨t, ht, rfl⟩ | hn⟩, hp⟩
    · have hm := (mem_activeTasks ha).mpr ⟨ht, he⟩
      rcases mem_siblings task hm with rfl | hu
      · exact .inl ⟨t.nodeID, .inl rfl, hp⟩
      · rcases Relation.reflTransGen_iff_eq_or_transGen.mp hp with rfl | hp
        · exact .inr (.inl hu)
        · exact .inr (.inr ⟨t.nodeID, hu, hp⟩)
    · exact .inl ⟨n, .inr hn, hp⟩
  · rintro (⟨n, rfl | hn, hp⟩ | hv | ⟨u, hu, hp⟩)
    · exact ⟨task.nodeID, hw task hta, hp⟩
    · exact ⟨n, ⟨(hs.inner n hn).2, .inr hn⟩, hp⟩
    · exact ⟨v, hsi v hv, Relation.ReflTransGen.refl⟩
    · exact ⟨u, hsi u hu, hp.to_reflTransGen⟩

/-- One task of a wave of a run raises an interrupt while its siblings succeed, and the run is
resumed with the tasks and the schedule that the interrupt returns.  When the run would end
without the interrupt and the waves of the resumed run keep the fan-out limit, the resumed run
ends too.  Together they execute the nodes that the run without the interrupt executes if and
only if everything downstream of the siblings was executed before, is a sibling, or is reached
from the interrupted task or a pending join. -/
theorem resume_loses_nothing_iff (hg : g.WellFormed) (hdef : g.DefaultOnly)
    (hcfg : cfg.interruptAfterNodeIDs = []) {before nodes : List String} {s : Schedule}
    (hrun : DefaultRun g cfg before s)
    (hends : Ends g cfg s nodes) {tasks : List GraphTask}
    (hact : g.activeTasks s.ready = .ok tasks) {task : GraphTask} {env : WaveEnv}
    (hint : Interrupts env task tasks)
    (hfan : Fits g cfg (g.resumedSchedule [task] s.pending)) :
    ∃ nextTasks pending resumed, g.waveStep cfg env s = .paused nextTasks pending ∧
      Ends g cfg (g.resumedSchedule nextTasks pending) resumed ∧
      ((∀ v, v ∈ before ++ siblings task tasks ++ resumed ↔ v ∈ before ++ nodes) ↔
        ∀ u ∈ siblings task tasks, ∀ v, Relation.TransGen g.Edge u v →
          v ∈ before ∨ v ∈ siblings task tasks ∨ g.Recovered s task v) := by
  have hs := hrun.plain hg hdef
  obtain ⟨hr, he⟩ := (mem_activeTasks hact).mp hint.mem
  have hp := hs.ready task hr
  have hre := plainSchedule_resumed hg hs hp
  have hb : ∀ v, g.Below (g.resumedSchedule [task] s.pending) v ↔ g.Recovered s task v :=
    fun v => exists_congr fun n => and_congr_left fun _ => waits_resumed hg hs hp he
  have hsu : ∀ v, g.Recovered s task v → g.Below s v := fun v hv =>
    (below_iff_recovered hs hact hint.mem).mpr (.inl hv)
  obtain ⟨resumed, hrs⟩ := exists_ends hg hdef hfan hcfg hre fun v hv =>
    hends.routed_acyclic hg hdef hs (hsu v ((hb v).mp hv))
  have hw : g.waveStep cfg env s = .paused [task] s.pending := by
    rw [waveStep_interrupt hg hs hact hint, if_neg]
    exact Nat.not_lt.mpr (hends.length_le hg hdef hs hact)
  refine ⟨[task], s.pending, resumed, hw, hrs, ?_⟩
  simp only [mem_append, hrs.mem_iff hg hdef hre, hends.mem_iff hg hdef hs, hb,
    below_iff_recovered hs hact hint.mem]
  constructor
  · intro h u hu v hpa
    rcases (h v).mpr (.inr (.inr (.inr ⟨u, hu, hpa⟩))) with (hv | hv) | hv
    · exact .inl hv
    · exact .inr (.inl hv)
    · exact .inr (.inr hv)
  · intro h v
    constructor
    · rintro ((hv | hv) | hv)
      · exact .inl hv
      · exact .inr (.inr (.inl hv))
      · exact .inr (.inl hv)
    · rintro (hv | hv | hv | ⟨u, hu, hpa⟩)
      · exact .inl (.inl hv)
      · exact .inr hv
      · exact .inl (.inr hv)
      · rcases h u hu v hpa with hv | hv | hv
        · exact .inl (.inl hv)
        · exact .inl (.inr hv)
        · exact .inr hv

/-- The task at the node interrupts; the others succeed without a command. -/
def interruptEnv (nodeID : String) : WaveEnv :=
  { quietEnv with outcome := fun t => if t.nodeID = nodeID then .interrupt else .success {} }

theorem unevenBranches_run : DefaultRun unevenGraph ⟨10, []⟩ ["entry"] unevenBranches := by
  have ha : unevenGraph.activeTasks unevenGraph.startSchedule.ready =
      .ok [newStaticGraphTask "entry" 0] := rfl
  exact DefaultRun.start.wave ha rfl

/-- Node `b` interrupts beside `a`: the join is reached from `b`, too. -/
theorem resume_loses_nothing_uneven : ∃ nextTasks pending resumed,
    unevenGraph.waveStep ⟨10, []⟩ (interruptEnv "b") unevenBranches = .paused nextTasks pending ∧
    Ends unevenGraph ⟨10, []⟩ (unevenGraph.resumedSchedule nextTasks pending) resumed ∧
    ∀ v, v ∈ ["entry", "a"] ++ resumed ↔ v ∈ ["entry", "a", "b", "c", "J"] := by
  have hi : Interrupts (interruptEnv "b") (newStaticGraphTask "b" 1)
      [newStaticGraphTask "a" 0, newStaticGraphTask "b" 1] := ⟨by decide, rfl, by decide⟩
  have hg := wellFormed_unevenGraph
  have hdef : unevenGraph.DefaultOnly := fun _ => rfl
  have hs := unevenBranches_run.plain hg hdef
  obtain ⟨nextTasks, pending, resumed, hw, he, hif⟩ :=
    resume_loses_nothing_iff hg hdef rfl unevenBranches_run unevenBranches_ends rfl hi
      (fits_of_nodes hg hdef (by decide) (plainSchedule_resumed hg hs (hs.ready _ (by decide))))
  refine ⟨nextTasks, pending, resumed, hw, he, hif.mpr ?_⟩
  intro u hu v hp
  have hua : u = "a" := mem_singleton.mp hu
  have hv : v ∈ unevenGraph.reachableFrom "a" := by
    subst hua
    have := reaches_iff.mpr ⟨by decide, hp⟩
    rw [reaches, Bool.and_eq_true, decide_eq_true_eq, decide_eq_true_eq] at this
    exact this.2
  have hvJ : v = "J" := mem_singleton.mp hv
  have hb : unevenGraph.reaches "b" "J" = true := by decide +kernel
  subst hvJ
  exact .inr (.inr ⟨"b", .inl rfl, (reaches_iff.mp hb).2.to_reflTransGen⟩)

/-- Two branches that do not meet. -/
def forkGraph : Graph where
  nodes := ["a", "b", "c", "d", "entry"]
  entryPoint := "entry"
  finishPoint := ""
  defaultEdges :=
    ⟨[("a", ["c"]), ("b", ["d"]), ("c", ["END"]), ("d", ["END"]), ("entry", ["a", "b"])],
      by decide⟩
  conditionalEdges := SortedMap.empty
  failureRoutes := SortedMap.empty

/-- The wave of `a` and `b`. -/
def forkBranches : Schedule :=
  forkGraph.scheduleNext [newStaticGraphTask "a" 0, newStaticGraphTask "b" 1] TaskMap.empty

/-- Node `b` interrupts beside `a`, and `c` is never executed. -/
theorem resume_loses_successor :
    DefaultRun forkGraph ⟨10, []⟩ ["entry"] forkBranches ∧
    Ends forkGraph ⟨10, []⟩ forkBranches ["a", "b", "c", "d"] ∧
    forkGraph.activeTasks forkBranches.ready =
      .ok [newStaticGraphTask "a" 0, newStaticGraphTask "b" 1] ∧
    Interrupts (interruptEnv "b") (newStaticGraphTask "b" 1)
      [newStaticGraphTask "a" 0, newStaticGraphTask "b" 1] ∧
    forkGraph.waveStep ⟨10, []⟩ (interruptEnv "b") forkBranches =
      .paused [newStaticGraphTask "b" 1] TaskMap.empty ∧
    Ends forkGraph ⟨10, []⟩
      (forkGraph.resumedSchedule [newStaticGraphTask "b" 1] TaskMap.empty) ["b", "d"] ∧
    "c" ∈ ["entry"] ++ ["a", "b", "c", "d"] ∧ "c" ∉ ["entry"] ++ ["a"] ++ ["b", "d"] := by
  have he : forkGraph.activeTasks forkGraph.startSchedule.ready =
      .ok [newStaticGraphTask "entry" 0] := rfl
  have hab : forkGraph.activeTasks forkBranches.ready =
      .ok [newStaticGraphTask "a" 0, newStaticGraphTask "b" 1] := rfl
  refine ⟨DefaultRun.start.wave he rfl, .wave hab rfl ?_, hab, ⟨by decide, rfl, by decide⟩, rfl,
    ?_, by decide, by decide⟩
  · exact @Ends.wave _ _ _ _ [newStaticGraphTask "c" 0, newStaticGraphTask "d" 1] _ rfl rfl
      (.done rfl)
  · exact @Ends.wave _ _ _ _ [newStaticGraphTask "b" 1] _ rfl rfl
      (@Ends.wave _ _ _ _ [newStaticGraphTask "d" 0] _ rfl rfl (.done rfl))

end Graph

end WeaveFlow
