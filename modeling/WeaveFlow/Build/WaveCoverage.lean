import WeaveFlow.Build.ContractAnalysis
import WeaveFlow.Build.WriteOverlap
import WeaveFlow.Graph.DefaultRun

/-!
# What the wave analysis covers

The scheduler holds joins back, the analysis does not.  Where all routing is by edges, the
tasks that a wave leads to are chosen from the routes that the analysis knows, so the next wave
is within a frontier as long as it has only such tasks.  A join that is held back and then
released without being a target again need not be within one: `late_join_uncovered` runs it
beside a node that no frontier has it with.  `waves_covered` shows that this is the only way.
-/

namespace WeaveFlow

open ContractAnalysisGraph TaskMap Outcome List

namespace Graph

variable {g : Graph}

/-- Nodes and conditions leave routing to the edges. -/
structure RoutesByEdges (env : WaveEnv) : Prop where
  command : ∀ t command, env.outcome t = .success command → command.goto = [] ∧ command.send = []
  decision : ∀ n i d, env.condition n i = .ok d → d.targets = [] ∧ d.send = []

/-- Every pending join is a target of the tasks that are scheduled, or is still held back. -/
def Retargeted (g : Graph) (tasks : List GraphTask) (pending : TaskMap) : Prop :=
  ∀ n ∈ pending.nodeIDs, StaticAt tasks n ∨ g.WaitingUpstream tasks pending n

/-- Runs with routing by edges in which the tasks of every schedule meet a condition, given the
joins that are pending. -/
inductive RoutedRun (g : Graph) (P : List GraphTask → TaskMap → Prop) : LoopState → Prop where
  | start : RoutedRun g P (.running g.startSchedule)
  | wave {s : Schedule} (cfg : LoopConfig) (env : WaveEnv) (run : RoutedRun g P (.running s))
      (henv : RoutesByEdges env)
      (hok : ∀ tasks r, g.activeTasks s.ready = .ok tasks →
        g.resolveCommands env cfg.maxFanOut tasks = .ok r →
        (∀ t ∈ tasks, ∃ command, env.outcome t = .success command) → P r.tasks s.pending) :
      RoutedRun g P (g.waveStep cfg env s)
  | resume {nextTasks : List GraphTask} {pending : TaskMap}
      (run : RoutedRun g P (.paused nextTasks pending))
      (hok : P nextTasks (restorePending pending)) :
      RoutedRun g P (.running (g.resumedSchedule nextTasks pending))

/-! ## Routes are options of the analysis -/

variable {env : WaveEnv} {tasks : List GraphTask} {t : GraphTask} {n : String} {pending : TaskMap}
  {r : Resolved} {maxFanOut : Nat}

theorem isAnalysisEndTarget_iff :
    g.contractAnalysisGraph.isAnalysisEndTarget n = false ↔ n ≠ "" ∧ n ≠ endNodeID := by
  rw [isAnalysisEndTarget]
  split
  next h => exact ⟨nofun, fun hn => absurd h hn.1⟩
  next h => exact ⟨fun hn => ⟨h, of_decide_eq_false hn⟩, fun hn => decide_eq_false hn.2⟩

theorem firstMatch_eq (he : RoutesByEdges env) (source : String) (targets : List String) (i : Nat)
    {found : Option (List GraphTask)} (h : g.firstMatch env parent source targets i = .ok found) :
    (∀ parent', g.firstMatch env parent' source targets i = .ok found) ∧
      ∀ tasks, found = some tasks → ∃ target ∈ targets, tasks = staticRouteTasks [target] := by
  induction targets generalizing i with
  | nil =>
    cases h
    exact ⟨fun _ => rfl, nofun⟩
  | cons target targets ih =>
    rw [firstMatch] at h
    cases hc : env.condition source i with
    | error failure => simp [hc] at h
    | ok decision =>
      rw [hc] at h
      obtain ⟨hta, hs⟩ := he.decision source i decision hc
      simp only [tasksFromRouteDecision, hta, hs] at h
      cases hm : decision.isMatch with
      | true =>
        rw [hm] at h
        cases h
        refine ⟨fun parent' => ?_, fun tasks ht => ?_⟩
        · simp only [firstMatch, hc, hm, tasksFromRouteDecision, hta, hs]
          rfl
        · cases ht
          exact ⟨target, mem_cons_self, rfl⟩
      | false =>
        rw [hm] at h
        obtain ⟨hsa, hf⟩ := ih (i + 1) h
        refine ⟨fun parent' => ?_, fun tasks ht => ?_⟩
        · simp only [firstMatch, hc, hm]
          exact hsa parent'
        · obtain ⟨t, hme, heq⟩ := hf tasks ht
          exact ⟨t, mem_cons_of_mem _ hme, heq⟩

theorem resolveNextTasks_node (hg : g.WellFormed) (ht : t.nodeID ∈ g.nodes) :
    g.resolveNextTasks env t =
      if g.conditionalTargets t.nodeID ≠ [] then do
        match ← g.firstMatch env t t.nodeID (g.conditionalTargets t.nodeID) 0 with
        | some tasks => return tasks
        | none => g.fallbackTasks t.nodeID
      else g.defaultTasks t.nodeID := by
  obtain ⟨htr, hne⟩ := hg.trimmed _ ht
  rw [resolveNextTasks]
  simp only [htr]
  exact (if_neg hne).trans (if_neg fun h => h.2 ht)

/-- A node of the graph that the analysis reaches. -/
def Known (g : Graph) (n : String) : Prop :=
  n ∈ g.nodes ∧ n ∈ g.contractAnalysisGraph.reachableGraphNodes

/-- The tasks are static, and their nodes are within an option of the analysis or the end. -/
def Within (g : Graph) (option : List String) (tasks : List GraphTask) : Prop :=
  ∀ u ∈ tasks, u.dynamic = false ∧ (u.nodeID ≠ endNodeID →
    u.nodeID ∈ option ∧ g.Known u.nodeID)

theorem target_reachable (hg : g.WellFormed) (hn : n ∈ g.contractAnalysisGraph.reachableGraphNodes)
    (hm : m ∈ g.outgoingNodeIDs n) (he : m ≠ endNodeID) :
    g.contractAnalysisGraph.isAnalysisEndTarget m = false ∧ g.Known m := by
  have hen : g.contractAnalysisGraph.entryPoint ≠ "" := (hg.trimmed _ hg.entry).2
  have hno := (hg.edges n m hm).resolve_right he
  have hi := isAnalysisEndTarget_iff (g := g).mpr ⟨(hg.trimmed m hno).2, he⟩
  refine ⟨hi, hno, (reachableGraphNodes_closed hen).2 n hn m ?_⟩
  exact mem_filter.mpr ⟨hm, by rw [hi]; rfl⟩

theorem within_staticRouteTasks (hg : g.WellFormed)
    (hn : n ∈ g.contractAnalysisGraph.reachableGraphNodes) {targets : List String}
    (ht : ∀ m ∈ targets, m = endNodeID ∨ m ∈ g.outgoingNodeIDs n) :
    g.Within (g.contractAnalysisGraph.normalizeAnalysisFrontier targets
      g.contractAnalysisGraph.reachableGraphNodes) (staticRouteTasks targets) := by
  intro u hu
  refine ⟨(mem_staticRouteTasks hu).1, fun he => ?_⟩
  have hm : u.nodeID ∈ targets := by
    rw [← map_nodeID_staticRouteTasks targets]
    exact mem_map_of_mem hu
  obtain ⟨hi, hr⟩ := target_reachable hg hn ((ht _ hm).resolve_left he) he
  exact ⟨mem_normalizeAnalysisFrontier.mpr ⟨hm, hi, hr.2⟩, hr⟩

theorem within_end : g.Within option (staticRouteTasks [endNodeID]) := by
  intro u hu
  have hm : u.nodeID ∈ [endNodeID] := by
    exact mem_map_of_mem hu
  exact ⟨(mem_staticRouteTasks hu).1, fun he => absurd (mem_singleton.mp hm) he⟩

/-- Under given conditions a node routes within one option of the analysis. -/
theorem exists_option (hg : g.WellFormed) (he : RoutesByEdges env) (hno : n ∈ g.nodes)
    (hn : n ∈ g.contractAnalysisGraph.reachableGraphNodes) :
    ∃ option ∈ g.contractAnalysisGraph.analysisNodeNextOptions n
        g.contractAnalysisGraph.reachableGraphNodes,
      ∀ t, t.nodeID = n → ∀ tasks, g.resolveNextTasks env t = .ok tasks →
        g.Within option tasks := by
  have hco : g.contractAnalysisGraph.conditionalOf n = g.conditionalTargets n := rfl
  have hed : g.contractAnalysisGraph.edgesOf n = g.defaultTargets n := rfl
  rw [analysisNodeNextOptions, hco, hed]
  rcases Classical.em (g.conditionalTargets n = []) with hni | hne
  · rw [if_neg (not_not_intro hni)]
    refine ⟨_, mem_singleton_self _, ?_⟩
    rintro t rfl tasks ht
    rw [resolveNextTasks_node hg hno, if_neg (not_not_intro hni), defaultTasks] at ht
    split at ht
    · cases ht
      exact within_staticRouteTasks hg hn fun m hm => .inr (mem_append_left _ hm)
    · split at ht
      · cases ht
        exact within_end
      · cases ht
  · rw [if_pos hne]
    have hw : ∀ m ∈ g.conditionalTargets n ++ g.defaultTargets n,
        g.Within (g.contractAnalysisGraph.normalizeAnalysisFrontier [m]
          g.contractAnalysisGraph.reachableGraphNodes) (staticRouteTasks [m]) := by
      intro m hm
      refine within_staticRouteTasks hg hn fun k hk => .inr ?_
      rw [mem_singleton.mp hk, outgoingNodeIDs, mem_append, or_comm, ← mem_append]
      exact hm
    obtain ⟨c, hc⟩ := exists_mem_of_ne_nil _ hne
    cases hf : g.firstMatch env (newStaticGraphTask n 0) n (g.conditionalTargets n) 0 with
    | error e =>
      -- then the conditions fail for every task at the node
      refine ⟨_, mem_map_of_mem (mem_append_left _ hc), ?_⟩
      rintro t rfl tasks ht
      rw [resolveNextTasks_node hg hno, if_pos hne] at ht
      obtain ⟨found, hfo, -⟩ := of_bind ht
      have := (firstMatch_eq he _ _ _ hfo).1 (newStaticGraphTask t.nodeID 0)
      simp [hf] at this
    | ok found =>
      obtain ⟨hs, hso⟩ := firstMatch_eq he _ _ _ hf
      cases found with
      | some tasks =>
        obtain ⟨target, hta, rfl⟩ := hso tasks rfl
        refine ⟨_, mem_map_of_mem (mem_append_left _ hta), ?_⟩
        rintro t rfl tasks ht
        rw [resolveNextTasks_node hg hno, if_pos hne, hs t] at ht
        cases ht
        exact hw target (mem_append_left _ hta)
      | none =>
        cases hd : g.defaultTargets n with
        | nil =>
          refine ⟨_, mem_map_of_mem (mem_append_left _ hc), ?_⟩
          rintro t rfl tasks ht
          rw [resolveNextTasks_node hg hno, if_pos hne, hs t] at ht
          rw [fallbackTasks, hd] at ht
          simp only at ht
          split at ht
          · cases ht
            exact within_end
          · cases ht
        | cons target rest =>
          have hme : target ∈ g.conditionalTargets n ++ g.defaultTargets n := by
            rw [hd]
            exact mem_append_right _ mem_cons_self
          refine ⟨_, mem_map_of_mem (hd ▸ hme), ?_⟩
          rintro t rfl tasks ht
          rw [resolveNextTasks_node hg hno, if_pos hne, hs t] at ht
          rw [fallbackTasks, hd] at ht
          cases ht
          exact hw target hme

/-- What one task adds to what the wave leads to. -/
theorem resolveCommand_edges (hc : command.goto = [] ∧ command.send = [])
    (h : g.resolveCommand env maxFanOut waveSize r task command = .ok r') :
    (r'.dynamicTasks = r.dynamicTasks ∧ r'.staticTargets = r.staticTargets) ∨
      ∃ tasks, g.resolveNextTasks env task = .ok tasks ∧
        r'.dynamicTasks = r.dynamicTasks ++ tasks.filter GraphTask.dynamic ∧
        r'.staticTargets =
          r.staticTargets ++ (tasks.filter fun t => !t.dynamic).map GraphTask.nodeID := by
  obtain ⟨hg, hs⟩ := hc
  rw [resolveCommand, hg, hs] at h
  split at h
  · cases h
  · split at h
    · split at h
      · cases h
      · cases h
        exact .inl ⟨rfl, rfl⟩
    · split at h
      · split at h
        · cases h
        · obtain ⟨tasks, ht, hr⟩ := of_bind h
          cases hr
          exact .inr ⟨tasks, ht, rfl, rfl⟩
      · rw [if_neg (not_not_intro rfl), if_neg (not_not_intro rfl)] at h
        obtain ⟨tasks, ht, hr⟩ := of_bind h
        cases hr
        exact .inr ⟨tasks, ht, rfl, rfl⟩

/-- What a wave leads to comes from the edges of its tasks. -/
theorem resolveEach_edges {env : WaveEnv} (he : RoutesByEdges env) {maxFanOut waveSize : Nat}
    {tasks : List GraphTask} {option : String → List String}
    (ho : ∀ t ∈ tasks, ∀ next, g.resolveNextTasks env t = .ok next →
      g.Within (option t.nodeID) next) {r r' : Resolved}
    (h : g.resolveEach env maxFanOut waveSize r tasks = .ok r') :
    r'.dynamicTasks = r.dynamicTasks ∧ ∀ n ∈ r'.staticTargets, n ∈ r.staticTargets ∨
      (n ≠ endNodeID → n ∈ tasks.flatMap (fun t => option t.nodeID) ∧ g.Known n) := by
  induction tasks generalizing r with
  | nil =>
    cases h
    exact ⟨rfl, fun n hn => .inl hn⟩
  | cons t tasks ih =>
    have ih := fun r h => ih (r := r) (forall_mem_cons.mp ho).2 h
    have hl : ∀ n, n ∈ tasks.flatMap (fun t => option t.nodeID) →
        n ∈ (t :: tasks).flatMap fun t => option t.nodeID := fun n hn => by
      exact mem_append_right _ hn
    rw [resolveEach] at h
    split at h
    next command hou =>
      obtain ⟨mid, hm, hr⟩ := of_bind h
      obtain ⟨hdy, ha⟩ := ih mid hr
      have hf : mid.dynamicTasks = r.dynamicTasks ∧ ∀ n ∈ mid.staticTargets,
          n ∈ r.staticTargets ∨ (n ≠ endNodeID → n ∈ option t.nodeID ∧ g.Known n) := by
        rcases resolveCommand_edges (he.command t command hou) hm with
          ⟨hd, hs⟩ | ⟨next, hne, hd, hs⟩
        · exact ⟨hd, fun n hn => .inl (hs ▸ hn)⟩
        · have hw := ho t mem_cons_self next hne
          have hno : next.filter GraphTask.dynamic = [] :=
            filter_eq_nil_iff.mpr fun u hu => by rw [(hw u hu).1]; rintro ⟨⟩
          rw [hno, append_nil] at hd
          refine ⟨hd, fun n hn => ?_⟩
          rw [hs, mem_append, mem_map] at hn
          rcases hn with hn | ⟨u, hu, rfl⟩
          · exact .inl hn
          · exact .inr (hw u (mem_filter.mp hu).1).2
      refine ⟨hdy.trans hf.1, fun n hn => ?_⟩
      rcases ha n hn with hn | hn
      · refine (hf.2 n hn).imp_right fun hi hen => ?_
        obtain ⟨hop, hre⟩ := hi hen
        exact ⟨by rw [flatMap_cons]; exact mem_append_left _ hop, hre⟩
      · exact .inr fun hen => ⟨hl n (hn hen).1, (hn hen).2⟩
    · obtain ⟨hdy, ha⟩ := ih r h
      exact ⟨hdy, fun n hn => (ha n hn).imp_right fun hi hen =>
        ⟨hl n (hi hen).1, (hi hen).2⟩⟩

/-! ## The simulation -/

/-- The tasks are static and within a frontier. -/
def Framed (g : Graph) (tasks : List GraphTask) : Prop :=
  (∀ t ∈ tasks, t.dynamic = false) ∧
    ∃ frontier ∈ g.contractAnalysisGraph.frontiers g.contractAnalysisGraph.reachableGraphNodes,
      ∀ t ∈ tasks, t.nodeID ≠ endNodeID → t.nodeID ∈ frontier ∧ g.Known t.nodeID

/-- A schedule has its tasks at the nodes that it is given. -/
theorem ready_scheduleNext (hs : ∀ t ∈ tasks, t.dynamic = false) (hp : pending.Static)
    (hok : g.Retargeted tasks pending) (ht : t ∈ (g.scheduleNext tasks pending).ready) :
    t.dynamic = false ∧ StaticAt tasks t.nodeID := by
  have hm := mapsAll_placeNext (g := g) (mapsAll_empty hp) fun t ht _ => hs t ht
  rcases mem_ready_released.mp ht with hg | ⟨hme, hd⟩
  · refine ⟨(mapsAll_released hm).1 _ t hg, ?_⟩
    have hno := mem_static_released.mp (mem_nodeIDs.mpr ⟨t, hg⟩)
    rw [blocked_placeNext, (mem_foldl_placeNext tasks _ t.nodeID).1,
      (mem_foldl_placeNext tasks _ t.nodeID).2] at hno
    rcases hno with (hn | hn) | ⟨hn | hn, hf⟩
    · exact absurd hn (not_mem_empty _)
    · exact hn.1
    · exact (hok _ hn).resolve_right hf
    · exact hn.1
  · simp [hs t hme] at hd

theorem ready_resumeSchedule (hs : ∀ t ∈ tasks, t.dynamic = false) (hp : pending.Static)
    (hok : g.Retargeted tasks pending) (ht : t ∈ (g.resumeSchedule tasks pending).ready) :
    t.dynamic = false ∧ StaticAt tasks t.nodeID := by
  have hm := mapsAll_placeResumed (mapsAll_empty hp) fun t ht _ => hs t ht
  rcases mem_ready_released.mp ht with hg | ⟨hme, hd⟩
  · refine ⟨(mapsAll_released hm).1 _ t hg, ?_⟩
    have hno := mem_static_released.mp (mem_nodeIDs.mpr ⟨t, hg⟩)
    rw [blocked_placeResumed, (mem_foldl_placeResumed tasks _ t.nodeID).1,
      (mem_foldl_placeResumed tasks _ t.nodeID).2] at hno
    rcases hno with (hn | hn) | ⟨hn, hf⟩
    · exact absurd hn (not_mem_empty _)
    · exact hn
    · exact (hok _ hn.1).resolve_right hf
  · simp [hs t hme] at hd

theorem failureTasks_eq_nil (hf : g.failureRoutes = SortedMap.empty) :
    g.failureTasks task source stage errorClass text = [] := by
  rw [failureTasks, hf]
  rfl

theorem succeeded_of_none (hi : interruptedTasks env tasks = []) (hf : failedTasks env tasks = []) :
    ∀ t ∈ tasks, ∃ command, env.outcome t = .success command := by
  intro t ht
  cases ho : env.outcome t with
  | success command => exact ⟨command, rfl⟩
  | interrupt =>
    have hm : t ∈ interruptedTasks env tasks := mem_filter.mpr ⟨ht, decide_eq_true ho⟩
    simp [hi] at hm
  | error e =>
    have hm : (t, e) ∈ failedTasks env tasks := mem_filterMap.mpr ⟨t, ht, by rw [ho]⟩
    simp [hf] at hm

/-- Without failure routes a round hands on what its tasks resolve to. -/
theorem handedTasks_routed (hf : g.failureRoutes = SortedMap.empty) {cfg : LoopConfig}
    {s : Schedule} (h : g.handedTasks cfg env s = some handed) :
    ∃ tasks r, g.activeTasks s.ready = .ok tasks ∧
      g.resolveCommands env cfg.maxFanOut tasks = .ok r ∧
      (∀ t ∈ tasks, ∃ command, env.outcome t = .success command) ∧ handed = r.tasks := by
  unfold handedTasks at h
  split at h
  · cases h
  next tasks ha =>
    split_ifs at h
    split at h
    next hi hfa =>
      unfold completeWaveTasks at h
      split at h
      · obtain ⟨_, -, h⟩ := Option.bind_eq_some_iff.mp h
        rw [resolveConditionFailure, failureTasks_eq_nil hf, ite_self] at h
        cases h
      · cases h
      next r hr =>
        split_ifs at h
        exact ⟨tasks, r, ha, hr, succeeded_of_none hi hfa, (checkedTasks_eq_some.mp h).2⟩
    · rw [failureWaveTasks, resolveNodeFailure, failureTasks_eq_nil hf, ite_self] at h
      cases h
    · cases h

/-- Where a run stands, in terms of the analysis. -/
def Tracked (g : Graph) : LoopState → Prop
  | .running s => g.Framed s.ready ∧ s.pending.Static
  | .paused nextTasks pending => g.Framed nextTasks ∧ pending.Static
  | _ => True

/-- The nodes of a graph that validation accepts: no node is the end. -/
structure Analyzable (g : Graph) : Prop extends g.WellFormed where
  inner : endNodeID ∉ g.nodes
  zero : ∀ n ∈ g.contractAnalysisGraph.reachableGraphNodes, '\x00' ∉ n.toList
  unrouted : g.failureRoutes = SortedMap.empty

theorem Analyzable.frontiers (hg : g.Analyzable) :
    [g.entryPoint] ∈ g.contractAnalysisGraph.frontiers g.contractAnalysisGraph.reachableGraphNodes ∧
      ∀ frontier ∈ g.contractAnalysisGraph.frontiers g.contractAnalysisGraph.reachableGraphNodes,
        ∀ choice : String → List String,
        (∀ n ∈ frontier, choice n ∈ g.contractAnalysisGraph.analysisNodeNextOptions n
          g.contractAnalysisGraph.reachableGraphNodes) →
        ∃ next ∈ g.contractAnalysisGraph.frontiers g.contractAnalysisGraph.reachableGraphNodes,
          ∀ n ∈ frontier.flatMap choice, g.contractAnalysisGraph.isAnalysisEndTarget n = false →
            n ∈ g.contractAnalysisGraph.reachableGraphNodes → n ∈ next := by
  have hne := (hg.trimmed _ hg.entry).2
  have he : g.entryPoint ≠ endNodeID := fun h => hg.inner (h ▸ hg.entry)
  exact frontiers_closed hg.zero (reachableGraphNodes_closed hne).1
    (isAnalysisEndTarget_iff.mpr ⟨hne, he⟩)

theorem Analyzable.framed_entry (hg : g.Analyzable) :
    g.Framed [newStaticGraphTask g.entryPoint 0] := by
  have hne := (hg.trimmed _ hg.entry).2
  refine ⟨fun t ht => ?_, [g.entryPoint], hg.frontiers.1, fun t ht _ => ?_⟩
  · rw [mem_singleton.mp ht]
    rfl
  · rw [mem_singleton.mp ht]
    exact ⟨mem_singleton_self _, hg.entry, (reachableGraphNodes_closed hne).1⟩

theorem Framed.of_staticAt (h : g.Framed tasks)
    (hr : ∀ t ∈ ready, t.dynamic = false ∧ StaticAt tasks t.nodeID) : g.Framed ready := by
  obtain ⟨-, frontier, hf, hw⟩ := h
  refine ⟨fun t ht => (hr t ht).1, frontier, hf, fun t ht he => ?_⟩
  obtain ⟨u, hu, -, hut⟩ := (hr t ht).2
  rw [← hut] at he ⊢
  exact hw u hu he

theorem options_ne_nil (n : String) : g.contractAnalysisGraph.analysisNodeNextOptions n
      g.contractAnalysisGraph.reachableGraphNodes ≠ [] := by
  rw [analysisNodeNextOptions]
  split
  next h =>
    rw [ne_eq, map_eq_nil_iff, append_eq_nil_iff]
    exact fun hn => h hn.1
  · exact cons_ne_nil _ _

theorem inner_of_option {n m : String} {option : List String}
    (h : option ∈ g.contractAnalysisGraph.analysisNodeNextOptions n
      g.contractAnalysisGraph.reachableGraphNodes) (hm : m ∈ option) :
    g.contractAnalysisGraph.isAnalysisEndTarget m = false := by
  rw [analysisNodeNextOptions] at h
  split at h
  · obtain ⟨target, -, rfl⟩ := mem_map.mp h
    exact (mem_normalizeAnalysisFrontier.mp hm).2.1
  · rw [mem_singleton.mp h] at hm
    exact (mem_normalizeAnalysisFrontier.mp hm).2.1

theorem mem_tasks_of_static (hd : r.dynamicTasks = []) (ht : t ∈ r.tasks) :
    t.dynamic = false ∧ t.nodeID ∈ r.staticTargets := by
  have hta : r.tasks = staticRouteTasks
      (KeySort.sort (fun a b => decide (a < b)) r.staticTargets.dedup) := by
    rw [Resolved.tasks, hd]
    exact append_nil _
  rw [hta] at ht
  refine ⟨(mem_staticRouteTasks ht).1, ?_⟩
  have hm := mem_map_of_mem (f := GraphTask.nodeID) ht
  rw [map_nodeID_staticRouteTasks, (KeySort.perm_sort _ _).mem_iff, mem_dedup] at hm
  exact hm

/-- What the tasks of a framed wave resolve to is framed again. -/
theorem Framed.resolve (hg : g.Analyzable) {env : WaveEnv} (he : RoutesByEdges env)
    {maxFanOut : Nat} {tasks : List GraphTask} {r : Resolved} (h : g.Framed tasks)
    (hen : ∀ t ∈ tasks, t.nodeID ≠ endNodeID)
    (hr : g.resolveCommands env maxFanOut tasks = .ok r) : g.Framed r.tasks := by
  obtain ⟨-, frontier, hf, hw⟩ := h
  have hex : ∀ n, ∃ option ∈ g.contractAnalysisGraph.analysisNodeNextOptions n
      g.contractAnalysisGraph.reachableGraphNodes, g.Known n → ∀ t, t.nodeID = n →
        ∀ next, g.resolveNextTasks env t = .ok next → g.Within option next := by
    intro n
    rcases Classical.em (g.Known n) with hn | hn
    · obtain ⟨option, ho, ha⟩ := exists_option hg.toWellFormed he hn.1 hn.2
      exact ⟨option, ho, fun _ => ha⟩
    · obtain ⟨option, ho⟩ := exists_mem_of_ne_nil _ (options_ne_nil (g := g) n)
      exact ⟨option, ho, fun hk => absurd hk hn⟩
  choose option ho ha using hex
  obtain ⟨next, hne, hc⟩ := hg.frontiers.2 frontier hf option fun n _ => ho n
  obtain ⟨hd, hta⟩ := resolveEach_edges he (fun t ht next hn =>
    ha t.nodeID (hw t ht (hen t ht)).2 t rfl next hn) hr
  refine ⟨fun t ht => (mem_tasks_of_static hd ht).1, next, hne, fun t ht hed => ?_⟩
  obtain ⟨hm, hk⟩ := (hta _ (mem_tasks_of_static hd ht).2).resolve_left not_mem_nil hed
  obtain ⟨u, hu, hm⟩ := mem_flatMap.mp hm
  refine ⟨hc _ ?_ (inner_of_option (ho u.nodeID) hm) hk.2, hk⟩
  exact mem_flatMap.mpr ⟨u.nodeID, (hw u hu (hen u hu)).1, hm⟩

/-- One step of a run. -/
theorem Tracked.resumed (hg : g.Analyzable) (h : g.Tracked (.paused nextTasks pending))
    (hok : g.Retargeted nextTasks (restorePending pending)) :
    g.Tracked (.running (g.resumedSchedule nextTasks pending)) := by
  obtain ⟨hf, hs⟩ := h
  have hr := static_restorePending hs
  have hre : ∀ tasks, g.Framed tasks → g.Retargeted tasks (restorePending pending) →
      g.Tracked (.running (g.resumeSchedule tasks (restorePending pending))) := by
    intro tasks hf hok
    refine ⟨hf.of_staticAt fun t ht => ready_resumeSchedule hf.1 hr hok ht, ?_⟩
    exact static_resumeSchedule hr
  rw [resumedSchedule]
  split
  next hni =>
    refine hre _ hg.framed_entry fun n hn => ?_
    -- the pending joins are held back by each other
    rcases hok n hn with ⟨t, ht, -⟩ | ⟨m, hm, hup⟩
    · simp [hni] at ht
    · refine .inr ⟨m, hm.imp_right fun hat => ?_, hup⟩
      obtain ⟨t, ht, -⟩ := hat
      simp [hni] at ht
  · exact hre _ hf hok

theorem Tracked.wave (hg : g.Analyzable) {cfg : LoopConfig} {env : WaveEnv}
    (he : RoutesByEdges env) {s : Schedule} (h : g.Tracked (.running s))
    (hok : ∀ tasks r, g.activeTasks s.ready = .ok tasks →
      g.resolveCommands env cfg.maxFanOut tasks = .ok r →
      (∀ t ∈ tasks, ∃ command, env.outcome t = .success command) →
      g.Retargeted r.tasks s.pending) :
    g.Tracked (g.waveStep cfg env s) := by
  obtain ⟨hf, hs⟩ := h
  have ha : ∀ tasks, g.activeTasks s.ready = .ok tasks → g.Framed tasks := by
    intro tasks hac
    refine hf.of_staticAt fun t ht => ?_
    have hre := ((mem_activeTasks hac).mp ht).1
    exact ⟨hf.1 t hre, t, hre, hf.1 t hre, rfl⟩
  have hn : ∀ handed, g.handedTasks cfg env s = some handed →
      g.Framed (g.scheduleNext handed s.pending).ready := by
    intro handed hh
    obtain ⟨tasks, r, hac, hr, hal, rfl⟩ := handedTasks_routed hg.unrouted hh
    have hen : ∀ t ∈ tasks, t.nodeID ≠ endNodeID := fun t ht => ((mem_activeTasks hac).mp ht).2
    have hn := (ha tasks hac).resolve hg he hen hr
    exact hn.of_staticAt fun t ht => ready_scheduleNext hn.1 hs (hok tasks r hac hr hal) ht
  generalize hw : g.waveStep cfg env s = st
  obtain ⟨o, hh, hr⟩ := round_of_waveStep hw
  cases hr with
  | failed | inactive | returned => trivial
  | interrupted hac hm =>
    refine ⟨(ha _ hac).of_staticAt fun t ht => ?_, hs⟩
    rw [mem_singleton.mp ht]
    have := (ha _ hac).1 _ hm
    exact ⟨this, _, hm, this, rfl⟩
  | running => exact ⟨hn _ hh, static_scheduleNext hs⟩
  | paused => exact ⟨hn _ hh, static_scheduleNext hs⟩

theorem tracked_of_run (hg : g.Analyzable) (h : RoutedRun g g.Retargeted st) : g.Tracked st := by
  induction h with
  | start =>
    have he : g.Retargeted [newStaticGraphTask g.entryPoint 0] TaskMap.empty :=
      fun n hn => absurd hn (not_mem_empty n)
    refine ⟨hg.framed_entry.of_staticAt fun t ht => ?_, ?_⟩
    · exact ready_resumeSchedule hg.framed_entry.1 static_empty he ht
    · exact static_resumeSchedule static_empty
  | wave cfg env run hen hok ih => exact ih.wave hg hen hok
  | resume run hok ih => exact ih.resumed hg hok

end Graph

namespace ContractAnalysisGraph

/-- The pairs of nodes of a wave, in its order. -/
def wavePairs : List String → List (String × String)
  | [] => []
  | left :: rest => rest.map (fun right => (left, right)) ++ wavePairs rest

/-- A `ContractDiagnostic` of kind `overlapping_write`, an error. -/
structure OverlappingWrite where
  nodeID : String
  otherNodeID : String
  path : String
  message : String
  deriving DecidableEq

/-- The body of the loops of `overlappingWriteDiagnostics`. -/
def overlappingWrite (nodeContracts : SortedMap String Contract) (pair : String × String) :
    Option OverlappingWrite := do
  let left ← nodeContracts.get pair.1
  let right ← nodeContracts.get pair.2
  match overlappingWritePath left right with
  | (path, false, true) => some ⟨pair.1, pair.2, path, "parallel branches " ++ quote pair.1 ++
      " and " ++ quote pair.2 ++ " both write overlapping path " ++ quote path⟩
  | _ => none

def overlappingWriteDiagnostics (input : ContractAnalysisGraph)
    (nodeContracts : SortedMap String Contract) (reachable : List String) :
    List OverlappingWrite :=
  (input.analysisParallelWaves reachable).flatMap fun wave =>
    (wavePairs wave).filterMap (overlappingWrite nodeContracts)

theorem mem_wavePairs (ha : a ∈ wave) (hb : b ∈ wave) (hne : a ≠ b) :
    (a, b) ∈ wavePairs wave ∨ (b, a) ∈ wavePairs wave := by
  induction wave with
  | nil => cases ha
  | cons c wave ih =>
    simp only [wavePairs, mem_append]
    rcases mem_cons.mp ha with rfl | hr
    · have hm := (mem_cons.mp hb).resolve_left fun h => hne h.symm
      exact .inl (.inl (mem_map_of_mem hm))
    · rcases mem_cons.mp hb with rfl | hm
      · exact .inr (.inl (mem_map_of_mem hr))
      · exact (ih hr hm).imp .inr .inr

/-- Both write some paths only, and where these overlap a merge combines the writes. -/
structure WritesAgree (left right : Contract) : Prop where
  leftPaths : left.wildcardWrite = false
  rightPaths : right.wildcardWrite = false
  fields : ∀ l ∈ writeFields left, ∀ r ∈ writeFields right, writesOverlap l r = true →
    writesCompatible l r = true

theorem WritesAgree.symm (h : WritesAgree left right) : WritesAgree right left where
  leftPaths := h.rightPaths
  rightPaths := h.leftPaths
  fields l hl r hr ho := by
    have hc := h.fields r hr l hl (by rwa [writesOverlap, Bool.or_comm])
    simp only [writesCompatible, Bool.and_eq_true, decide_eq_true_eq] at hc ⊢
    exact ⟨hc.1.symm, hc.2.1.symm, hc.2.1 ▸ hc.2.2⟩

/-- The first overlapping pair of write fields is incompatible, or all of them are compatible. -/
def FirstDecides (left right : Contract) : Prop :=
  (∃ pair, (overlappingPairs left right).head? = some pair ∧
      writesCompatible pair.1 pair.2 = false) ∨
    ∀ pair ∈ overlappingPairs left right, writesCompatible pair.1 pair.2 = true

/-- What the absence of an error says, where the first overlapping pair decides. -/
theorem writesAgree_of_no_error (hl : nodeContracts.get a = some left)
    (hr : nodeContracts.get b = some right) (hd : FirstDecides left right)
    (hno : overlappingWrite nodeContracts (a, b) = none) : WritesAgree left right := by
  rw [overlappingWrite, hl, hr] at hno
  have hw : left.wildcardWrite = false ∧ right.wildcardWrite = false := by
    refine not_or.mp (fun h => ?_) |>.imp (Bool.eq_false_iff.mpr ·) (Bool.eq_false_iff.mpr ·)
    simp [overlappingWritePath, h] at hno
  refine ⟨hw.1, hw.2, fun l hlm r hrm ho => ?_⟩
  have hm := mem_overlappingPairs.mpr ⟨⟨hlm, hrm⟩, ho⟩
  rcases hd with ⟨pair, hp, hc⟩ | ha
  · have hv := overlappingWritePath_eq hw.1 hw.2
    rw [hp] at hv
    simp only [hc] at hv
    cases h : overlappingWritePath left right with
    | mk path verdict =>
      rw [h] at hv
      cases hv
      simp [h] at hno
  · exact ha (l, r) hm

end ContractAnalysisGraph

namespace Graph

/-- In a run in which every pending join, whenever tasks are scheduled, is one of their targets
or still held back, every wave with two or more nodes is within a frontier of the analysis.  When
the analysis reports no overlapping writes, the writes of every two nodes of the wave agree, where
the first overlapping pair of write fields decides. -/
theorem waves_covered (hg : g.Analyzable) {s : Schedule}
    (h : RoutedRun g g.Retargeted (.running s)) {tasks : List GraphTask}
    (hact : g.activeTasks s.ready = .ok tasks)
    (hpar : 1 < (tasks.map GraphTask.nodeID).dedup.length) :
    (∃ wave ∈ g.contractAnalysisGraph.analysisParallelWaves
        g.contractAnalysisGraph.reachableGraphNodes, ∀ t ∈ tasks, t.nodeID ∈ wave) ∧
      ∀ nodeContracts : SortedMap String Contract,
        g.contractAnalysisGraph.overlappingWriteDiagnostics nodeContracts
          g.contractAnalysisGraph.reachableGraphNodes = [] →
        ∀ t ∈ tasks, ∀ u ∈ tasks, t.nodeID ≠ u.nodeID → ∀ left right,
          nodeContracts.get t.nodeID = some left → nodeContracts.get u.nodeID = some right →
          FirstDecides left right → FirstDecides right left → WritesAgree left right := by
  obtain ⟨⟨-, frontier, hf, hw⟩, -⟩ := tracked_of_run hg h
  have hs : ∀ t ∈ tasks, t.nodeID ∈ frontier := fun t ht =>
    have hm := (mem_activeTasks hact).mp ht
    (hw t hm.1 hm.2).1
  have hl : 1 < frontier.length := by
    refine hpar.trans_le (subperm_of_subset (nodup_dedup _) fun n hn => ?_).length_le
    obtain ⟨t, ht, rfl⟩ := mem_map.mp (mem_dedup.mp hn)
    exact hs t ht
  have hwa : frontier ∈ g.contractAnalysisGraph.analysisParallelWaves
      g.contractAnalysisGraph.reachableGraphNodes :=
    mem_filter.mpr ⟨hf, decide_eq_true hl⟩
  refine ⟨⟨frontier, hwa, hs⟩, fun contracts hno t ht u hu hne left right hle hri hd hd' => ?_⟩
  have hp := filterMap_eq_nil_iff.mp (flatMap_eq_nil_iff.mp hno frontier hwa)
  rcases mem_wavePairs (hs t ht) (hs u hu) hne with hpa | hpa
  · exact writesAgree_of_no_error hle hri hd (hp _ hpa)
  · exact (writesAgree_of_no_error hri hle hd' (hp _ hpa)).symm

/-- The branch by `b` may go to the join `J` by `x`, or to `c`. -/
def lateGraph : Graph where
  nodes := ["J", "a", "b", "b2", "c", "entry", "x"]
  entryPoint := "entry"
  finishPoint := ""
  defaultEdges :=
    ⟨[("J", ["END"]), ("a", ["J"]), ("b", ["b2"]), ("b2", ["c"]), ("c", ["END"]),
      ("entry", ["a", "b"]), ("x", ["J"])], by decide⟩
  conditionalEdges := ⟨[("b2", ["x"])], by decide⟩
  failureRoutes := SortedMap.empty

theorem analyzable_lateGraph : lateGraph.Analyzable where
  trimmed := by decide
  entry := by decide
  edges := fun n m hm => by
    have ht : ∀ m ∈ lateGraph.targets, m ∈ lateGraph.nodes ∨ m = endNodeID := by decide
    exact ht m (mem_targets hm)
  inner := by decide
  zero := by
    decide
  unrouted := rfl

theorem routesByEdges_quietEnv : RoutesByEdges quietEnv where
  command := by
    rintro t command h
    cases h
    exact ⟨rfl, rfl⟩
  decision := by
    rintro n i d h
    cases h
    exact ⟨rfl, rfl⟩

/-- The wave of `a` and `b`. -/
def lateBranches : Schedule :=
  lateGraph.scheduleNext [newStaticGraphTask "a" 0, newStaticGraphTask "b" 1] TaskMap.empty

/-- The wave of `b2`, with `J` pending. -/
def lateHeld : Schedule :=
  lateGraph.scheduleNext [newStaticGraphTask "J" 0, newStaticGraphTask "b2" 1] TaskMap.empty

/-- The schedule after `b2` went to `c`. -/
def lateReleased : Schedule :=
  lateGraph.scheduleNext [newStaticGraphTask "c" 0] lateHeld.pending

theorem lateBranches_run (hP : ∀ tasks, P tasks TaskMap.empty) :
    RoutedRun lateGraph P (.running lateBranches) := by
  exact RoutedRun.start.wave ⟨10, []⟩ quietEnv routesByEdges_quietEnv fun _ r _ _ _ => hP r.tasks

/-- A contract with one path to replace. -/
def replaces (path : Path) : Contract where
  fields := [⟨path, .write, false, .default, "", []⟩]
  wildcardRead := false
  wildcardWrite := false

def leftPath : Path := ⟨"shared", ["left"], by decide⟩

def rightPath : Path := ⟨"shared", ["right"], by decide⟩

/-- `J` and `c` write one path, `a` and `b` two. -/
def lateContracts : SortedMap String Contract :=
  ⟨[("J", replaces leftPath), ("a", replaces leftPath), ("b", replaces rightPath),
    ("c", replaces leftPath)], by decide⟩

theorem waves_covered_branches : (∃ wave ∈ lateGraph.contractAnalysisGraph.analysisParallelWaves
    lateGraph.contractAnalysisGraph.reachableGraphNodes,
    ∀ t ∈ [newStaticGraphTask "a" 0, newStaticGraphTask "b" 1], t.nodeID ∈ wave) ∧
    WritesAgree (replaces leftPath) (replaces rightPath) := by
  obtain ⟨hc, hw⟩ := waves_covered analyzable_lateGraph
    (lateBranches_run fun _ n hn => absurd hn (not_mem_empty n)) rfl (by decide)
  exact ⟨hc, hw lateContracts (by decide +kernel) _ mem_cons_self _
    (mem_cons_of_mem _ mem_cons_self) (by decide) _ _ rfl rfl (.inr (by decide))
    (.inr (by decide))⟩

/-- The join `J` is held back for `b2`, which goes to `c`: the wave of `J` and `c` is in no
frontier, and that both replace one path is not reported. -/
theorem late_join_uncovered : RoutedRun lateGraph (fun _ _ => True) (.running lateReleased) ∧
    lateGraph.activeTasks lateReleased.ready =
      .ok [newStaticGraphTask "J" 0, newStaticGraphTask "c" 0] ∧
    (∀ wave ∈ lateGraph.contractAnalysisGraph.analysisParallelWaves
      lateGraph.contractAnalysisGraph.reachableGraphNodes, ¬ ("J" ∈ wave ∧ "c" ∈ wave)) ∧
    lateGraph.contractAnalysisGraph.overlappingWriteDiagnostics lateContracts
      lateGraph.contractAnalysisGraph.reachableGraphNodes = [] ∧
    ¬ WritesAgree (replaces leftPath) (replaces leftPath) := by
  have hr := (lateBranches_run fun _ => trivial : RoutedRun lateGraph (fun _ _ => True) _)
  have ht := hr.wave ⟨10, []⟩ quietEnv routesByEdges_quietEnv fun _ _ _ _ _ => trivial
  have hth := ht.wave ⟨10, []⟩ quietEnv routesByEdges_quietEnv fun _ _ _ _ _ => trivial
  refine ⟨hth, rfl, ?_, ?_, fun h => absurd h.fields (by decide)⟩ <;> decide +kernel

end Graph

end WeaveFlow
