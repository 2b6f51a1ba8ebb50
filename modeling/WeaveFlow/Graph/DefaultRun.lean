import WeaveFlow.Graph.Barrier

/-!
# Waves along default edges

In a graph without conditional edges, whose nodes return no commands, the schedule determines
the next wave.  Its schedules are plain: static tasks named after their nodes, at most one for
a node (`PlainSchedule`).  After a wave wait the joins that were pending and the successors of
its nodes (`waits_quiet`).
-/

namespace WeaveFlow

open List

namespace Graph

/-- What building a graph and `Validate` make sure of. -/
structure WellFormed (g : Graph) : Prop where
  trimmed : ∀ n ∈ g.nodes, trimSpace n = n ∧ n ≠ ""
  entry : g.entryPoint ∈ g.nodes
  edges : ∀ n, ∀ m ∈ g.outgoingNodeIDs n, m ∈ g.nodes ∨ m = endNodeID

/-- No conditional edges. -/
def DefaultOnly (g : Graph) : Prop := ∀ n, g.conditionalTargets n = []

/-- All nodes succeed without a command. -/
def quietEnv : WaveEnv where
  outcome _ := .success {}
  condition _ _ := .ok { isMatch := false }
  dynamicTaskID _ _ _ := ""
  sendInputOK _ _ := true

variable {g : Graph}

/-! ## The nodes that wait -/

/-- A task is ready at the node, or pending. -/
def Waits (s : Schedule) (n : String) : Prop :=
  n ≠ endNodeID ∧ ((∃ t ∈ s.ready, t.nodeID = n) ∨ n ∈ s.pending.nodeIDs)

theorem exists_ready_or_pending (hst : ∀ t ∈ tasks, t.dynamic = false) :
    ((∃ t ∈ (g.released tasks maps).ready, t.nodeID = n) ∨
      n ∈ (g.released tasks maps).pending.nodeIDs) ↔
      n ∈ maps.1.nodeIDs ∨ n ∈ maps.2.nodeIDs := by
  have hr : (∃ t ∈ (g.released tasks maps).ready, t.nodeID = n) ↔
      n ∈ maps.1.nodeIDs ∨ n ∈ maps.2.nodeIDs ∧ ¬ g.Blocked maps n := by
    rw [← mem_static_released, TaskMap.mem_nodeIDs]
    constructor
    · rintro ⟨t, ht, rfl⟩
      rcases mem_ready_released.mp ht with ht | ⟨ht, hd⟩
      · exact ⟨t, ht⟩
      · simp [hst t ht] at hd
    · rintro ⟨t, ht⟩
      have hk := (g.releasePendingFanIn maps.1 maps.2).1.keyed n t ht
      subst hk
      exact ⟨t, mem_ready_released.mpr (.inl ht), rfl⟩
  rw [hr, mem_pending_released]
  rcases Classical.em (g.Blocked maps n) with hb | hb
  · simp [hb]
  · simp [hb]

/-! ## Plain schedules -/

/-- A static task named after its node, which is a node of the graph or the end. -/
structure Plain (g : Graph) (t : GraphTask) : Prop where
  static : t.dynamic = false
  named : t.taskID = t.nodeID
  known : t.nodeID ∈ g.nodes ∨ t.nodeID = endNodeID

/-- A schedule of plain tasks, at most one for a node. -/
structure PlainSchedule (g : Graph) (s : Schedule) : Prop where
  ready : ∀ t ∈ s.ready, Plain g t
  pending : ∀ n t, s.pending.get n = some t → Plain g t
  distinct : (s.ready.map GraphTask.nodeID).Nodup
  inner : ∀ n ∈ s.pending.nodeIDs, n ∈ g.nodes ∧ n ≠ endNodeID
  blocked : ∀ n ∈ s.pending.nodeIDs, ∃ m, Waits s m ∧ g.isStrictUpstream m n = true

variable {tasks : List GraphTask} {n : String} {t : GraphTask}

theorem plain_newStaticGraphTask (h : n ∈ g.nodes ∨ n = endNodeID) :
    Plain g (newStaticGraphTask n k) := ⟨rfl, rfl, h⟩

theorem join_inner (hg : g.WellFormed) (h : g.isJoinNode n = true) :
    n ∈ g.nodes ∧ n ≠ endNodeID := by
  rw [isJoinNode, decide_eq_true_eq, compileJoinNodes, mem_filter, mem_dedup, targets,
    mem_flatMap, Bool.and_eq_true, decide_eq_true_eq] at h
  obtain ⟨⟨m, -, hm⟩, he, -⟩ := h
  exact ⟨(hg.edges m n hm).resolve_right he, he⟩

theorem map_nodeID_sortedTasks (m : TaskMap) :
    m.sortedTasksByNodeID.map GraphTask.nodeID = m.nodeIDs := by
  rw [TaskMap.sortedTasksByNodeID, TaskMap.nodeIDs, SortedMap.vals, SortedMap.keys, map_map]
  refine map_congr_left fun p hp => ?_
  exact m.keyed p.1 p.2 ((Assoc.get_eq_some_iff m.tasks.sorted).mpr hp)

theorem plainSchedule_released (hma : MapsAll (Plain g) maps)
    (hi : ∀ n ∈ maps.2.nodeIDs, n ∈ g.nodes ∧ n ≠ endNodeID)
    (hst : ∀ t ∈ tasks, t.dynamic = false) : PlainSchedule g (g.released tasks maps) where
  ready := by
    intro t ht
    rcases mem_ready_released.mp ht with ht | ⟨ht, hd⟩
    · exact (mapsAll_released hma).1 _ t ht
    · simp [hst t ht] at hd
  pending := (mapsAll_released hma).2
  distinct := by
    have hno : tasks.filter GraphTask.dynamic = [] := filter_eq_nil_iff.mpr fun t ht hd => by
        simp [hst t ht] at hd
    show ((g.releasePendingFanIn maps.1 maps.2).1.sortedTasksByNodeID ++
      tasks.filter GraphTask.dynamic).map GraphTask.nodeID |>.Nodup
    rw [hno, append_nil, map_nodeID_sortedTasks]
    exact SortedMap.keys_nodup
  inner := fun n hn => hi n (mem_pending_released.mp hn).1
  blocked := by
    intro n hn
    obtain ⟨-, m, hm, hup⟩ := mem_pending_released.mp hn
    refine ⟨m, ⟨(real_of_isStrictUpstream hup).2, ?_⟩, hup⟩
    exact (exists_ready_or_pending hst).mpr hm

theorem plainSchedule_scheduleNext (hg : g.WellFormed) (hs : PlainSchedule g s)
    (ht : ∀ t ∈ tasks, Plain g t) : PlainSchedule g (g.scheduleNext tasks s.pending) := by
  refine plainSchedule_released (mapsAll_placeNext (mapsAll_empty hs.pending)
    fun t hm _ => ht t hm) (fun n hn => ?_) fun t hm => (ht t hm).static
  rcases (mem_foldl_placeNext tasks _ n).2.mp hn with hn | ⟨-, hj⟩
  · exact hs.inner n hn
  · exact join_inner hg hj

theorem plainSchedule_resumeSchedule (hp : ∀ n t, pending.get n = some t → Plain g t)
    (hi : ∀ n ∈ pending.nodeIDs, n ∈ g.nodes ∧ n ≠ endNodeID) (ht : ∀ t ∈ tasks, Plain g t) :
    PlainSchedule g (g.resumeSchedule tasks pending) :=
  plainSchedule_released (mapsAll_placeResumed (mapsAll_empty hp) fun t hm _ => ht t hm)
    (fun n hn => hi n ((mem_foldl_placeResumed tasks _ n).2.mp hn).1)
    fun t hm => (ht t hm).static

theorem plainSchedule_startSchedule (hg : g.WellFormed) : PlainSchedule g g.startSchedule := by
  refine plainSchedule_resumeSchedule nofun (fun n hn => absurd hn (not_mem_empty n)) ?_
  intro t ht
  rw [mem_singleton.mp ht]
  exact plain_newStaticGraphTask (.inl hg.entry)

theorem waits_scheduleNext (hst : ∀ t ∈ tasks, t.dynamic = false) :
    Waits (g.scheduleNext tasks pending) n ↔ n ≠ endNodeID ∧ Waiting tasks pending n := by
  refine and_congr_right fun _ => ?_
  rw [scheduleNext, exists_ready_or_pending hst, (mem_foldl_placeNext tasks _ n).1,
    (mem_foldl_placeNext tasks _ n).2, Waiting]
  have he := not_mem_empty n
  cases hj : g.isJoinNode n with
  | true => simp [he]
  | false => simp [he, or_comm]

theorem waits_resumeSchedule (hst : ∀ t ∈ tasks, t.dynamic = false) :
    Waits (g.resumeSchedule tasks pending) n ↔ n ≠ endNodeID ∧ Waiting tasks pending n := by
  refine and_congr_right fun _ => ?_
  rw [resumeSchedule, exists_ready_or_pending hst,
    (mem_foldl_placeResumed tasks _ n).1, (mem_foldl_placeResumed tasks _ n).2, Waiting]
  have he := not_mem_empty n
  rcases Classical.em (StaticAt tasks n) with hs | hs
  · simp [hs]
  · simp [hs, he]

/-! ## A quiet wave -/

/-- Where a node leads to by its default edges, or as the finish point. -/
def successors (g : Graph) (n : String) : List String :=
  if g.defaultTargets n ≠ [] then g.defaultTargets n else [endNodeID]

/-- The node has default edges or is the finish point. -/
def Routed (g : Graph) (n : String) : Prop := g.defaultTargets n ≠ [] ∨ n = g.finishPoint

theorem map_nodeID_staticRouteTasks (targets : List String) :
    (staticRouteTasks targets).map GraphTask.nodeID = targets := by
  rw [staticRouteTasks, map_map]
  exact zipIdx_map_fst 0 targets

theorem mem_staticRouteTasks {targets : List String} (h : t ∈ staticRouteTasks targets) :
    t.dynamic = false ∧ t.taskID = t.nodeID := by
  obtain ⟨p, -, rfl⟩ := mem_map.mp h
  exact ⟨rfl, rfl⟩

theorem staticAt_staticRouteTasks {targets : List String} :
    StaticAt (staticRouteTasks targets) n ↔ n ∈ targets := by
  have hm := map_nodeID_staticRouteTasks targets
  constructor
  · rintro ⟨t, ht, -, rfl⟩
    rw [← hm]
    exact mem_map_of_mem ht
  · intro hn
    rw [← hm] at hn
    obtain ⟨t, ht, rfl⟩ := mem_map.mp hn
    exact ⟨t, ht, (mem_staticRouteTasks ht).1, rfl⟩

/-- The task of a node of the graph follows its default edges. -/
theorem resolveNextTasks_default (hg : g.WellFormed) (hdef : g.DefaultOnly)
    (ht : t.nodeID ∈ g.nodes) :
    (g.Routed t.nodeID → g.resolveNextTasks env t = .ok (staticRouteTasks (g.successors t.nodeID))) ∧
      (¬ g.Routed t.nodeID → g.resolveNextTasks env t = .error (.noOutgoingEdge t.nodeID)) := by
  obtain ⟨htr, hne⟩ := hg.trimmed _ ht
  have heq : g.resolveNextTasks env t = g.defaultTasks t.nodeID := by
    rw [resolveNextTasks]
    simp only [htr]
    rw [if_neg hne, if_neg (fun h => h.2 ht), if_neg (fun h => h (hdef _))]
  rw [heq, defaultTasks, successors, Routed]
  split
  next h => exact ⟨fun _ => rfl, fun hn => absurd (.inl h) hn⟩
  next h =>
    split
    next hf => exact ⟨fun _ => rfl, fun hn => absurd (.inr hf) hn⟩
    next hf => exact ⟨fun hr => absurd hr (not_or.mpr ⟨h, hf⟩), fun _ => rfl⟩

/-- What the tasks of a wave lead to when they follow their default edges. -/
def nextResolved (g : Graph) (tasks : List GraphTask) : Resolved :=
  { staticTargets := tasks.flatMap fun t => g.successors t.nodeID }

theorem appendRouteTasks_static (r : Resolved) (targets : List String) :
    r.appendRouteTasks (staticRouteTasks targets) =
      { r with staticTargets := r.staticTargets ++ targets } := by
  have hk : (staticRouteTasks targets).filter (fun t => !t.dynamic) = staticRouteTasks targets :=
    filter_eq_self.mpr fun t ht => by rw [(mem_staticRouteTasks ht).1]; rfl
  have hn : (staticRouteTasks targets).filter GraphTask.dynamic = [] :=
    filter_eq_nil_iff.mpr fun t ht => by rw [(mem_staticRouteTasks ht).1]; exact nofun
  rw [Resolved.appendRouteTasks, hk, hn, map_nodeID_staticRouteTasks, append_nil]

section

variable (hg : g.WellFormed) (hdef : g.DefaultOnly)
include hg hdef

theorem resolveEach_quiet (maxFanOut waveSize : Nat) (ht : ∀ t ∈ tasks, t.nodeID ∈ g.nodes)
    (r : Resolved) :
    ((∀ t ∈ tasks, g.Routed t.nodeID) →
      g.resolveEach quietEnv maxFanOut waveSize r tasks = .ok { r with
        staticTargets := r.staticTargets ++ tasks.flatMap fun t => g.successors t.nodeID }) ∧
    ((¬ ∀ t ∈ tasks, g.Routed t.nodeID) →
      ∃ n, g.resolveEach quietEnv maxFanOut waveSize r tasks = .error (.noOutgoingEdge n)) := by
  induction tasks generalizing r with
  | nil =>
    simp [resolveEach]
  | cons t tasks ih =>
    obtain ⟨hok, he⟩ := resolveNextTasks_default hg hdef (ht t mem_cons_self)
    have hta := (forall_mem_cons.mp ht).2
    have hc : g.resolveCommand quietEnv maxFanOut waveSize r t {} =
        (g.resolveNextTasks quietEnv t >>= fun tasks => pure (r.appendRouteTasks tasks)) := by
      rfl
    have hst : g.resolveEach quietEnv maxFanOut waveSize r (t :: tasks) =
        (g.resolveCommand quietEnv maxFanOut waveSize r t {} >>= fun r =>
          g.resolveEach quietEnv maxFanOut waveSize r tasks) := by
      rfl
    rw [hst, hc]
    rcases Classical.em (g.Routed t.nodeID) with hr | hr
    · rw [hok hr]
      show (_ → g.resolveEach quietEnv maxFanOut waveSize
        (r.appendRouteTasks (staticRouteTasks (g.successors t.nodeID))) tasks = _) ∧
        (_ → ∃ n, g.resolveEach quietEnv maxFanOut waveSize
          (r.appendRouteTasks (staticRouteTasks (g.successors t.nodeID))) tasks = _)
      rw [appendRouteTasks_static]
      obtain ⟨ihok, iherr⟩ := ih hta
        { r with staticTargets := r.staticTargets ++ g.successors t.nodeID }
      refine ⟨fun h => ?_, fun h => ?_⟩
      · rw [ihok (forall_mem_cons.mp h).2, flatMap_cons, append_assoc]
      · refine iherr fun ha => h fun u hu => ?_
        rcases mem_cons.mp hu with rfl | hu
        · exact hr
        · exact ha u hu
    · rw [he hr]
      exact ⟨fun h => absurd (h t mem_cons_self) hr, fun _ => ⟨t.nodeID, rfl⟩⟩

theorem resolveCommands_quiet (maxFanOut : Nat) (ht : ∀ t ∈ tasks, t.nodeID ∈ g.nodes) :
    ((∀ t ∈ tasks, g.Routed t.nodeID) →
      g.resolveCommands quietEnv maxFanOut tasks = .ok (g.nextResolved tasks)) ∧
    ((¬ ∀ t ∈ tasks, g.Routed t.nodeID) →
      ∃ n, g.resolveCommands quietEnv maxFanOut tasks = .error (.noOutgoingEdge n)) := by
  have he := resolveEach_quiet hg hdef maxFanOut tasks.length ht {}
  exact he

omit hg hdef in
/-- Static tasks are accepted up to the fan-out limit. -/
theorem validateNextTasks_static (maxFanOut : Nat) (pending : TaskMap)
    (hst : ∀ t ∈ tasks, t.dynamic = false) :
    g.validateNextTasks maxFanOut tasks pending = .ok () ↔ tasks.length ≤ maxFanOut := by
  have hj : ∀ l : List (GraphTask × Nat), (∀ p ∈ l, p.1.dynamic = false) →
      g.dynamicJoinTasks pending l [] = .ok [] := by
    intro l hl
    induction l with
    | nil => rfl
    | cons p l ih =>
      rw [dynamicJoinTasks, hl p mem_cons_self]
      exact ih (forall_mem_cons.mp hl).2
  have hz := hj tasks.zipIdx fun p hp => hst p.1 (fst_mem_of_mem_zipIdx hp)
  rw [validateNextTasks]
  rcases Nat.lt_or_ge maxFanOut tasks.length with hlt | hge
  · rw [if_pos hlt]
    exact ⟨nofun, fun h => absurd hlt (Nat.not_lt.mpr h)⟩
  · rw [if_neg (Nat.not_lt.mpr hge), hz]
    exact ⟨fun _ => hge, fun _ => rfl⟩

omit hdef in
theorem Plain.ids_ne (ht : Plain g t) : ¬ (t.nodeID = "" ∨ t.taskID = "") := by
  rw [ht.named, or_self]
  rcases ht.known with h | h
  · exact (hg.trimmed _ h).2
  · rw [h]
    decide

omit hdef in
theorem collectActive_plain {active : List GraphTask} (ht : ∀ t ∈ tasks, Plain g t)
    (ha : ∀ t ∈ active, Plain g t) (hd : ((active ++ tasks).map GraphTask.nodeID).Nodup) :
    g.collectActive tasks active = .ok (active ++ tasks.filter fun t => t.nodeID ≠ endNodeID) := by
  induction tasks generalizing active with
  | nil => rw [filter_nil, append_nil, collectActive]
  | cons t tasks ih =>
    have hp := ht t mem_cons_self
    have hta := (forall_mem_cons.mp ht).2
    rw [collectActive, if_neg (hp.ids_ne hg)]
    split
    next he =>
      rw [filter_cons_of_neg (by simpa using he)]
      refine ih hta ha (hd.sublist (List.Sublist.map _ ?_))
      exact (sublist_cons_self t tasks).append_left active
    next he =>
      have hn := hp.known.resolve_right he
      obtain ⟨htr, hne⟩ := hg.trimmed _ hn
      have hr : (g.resolveNodeID t.nodeID).isNone = false := by
        rw [resolveNodeID, htr, if_pos ⟨hne, hn⟩]
        rfl
      have hf : (active.any fun a => a.taskID = t.taskID) = false := by
        rw [any_eq_false]
        intro a hm heq
        rw [decide_eq_true_eq, (ha a hm).named, hp.named] at heq
        rw [map_append, nodup_append] at hd
        exact hd.2.2 _ (mem_map_of_mem hm) _ mem_cons_self heq
      have hac : ∀ u ∈ active ++ [t], Plain g u := by
        intro u hu
        rcases mem_append.mp hu with hu | hu
        · exact ha u hu
        · rw [mem_singleton.mp hu]
          exact hp
      rw [hr, hf, filter_cons_of_pos (by simpa using he)]
      rw [append_cons] at hd
      have hre := ih hta hac hd
      rw [append_assoc] at hre
      exact hre

section

variable (hs : PlainSchedule g s) (hact : g.activeTasks s.ready = .ok tasks)
include hs hact

omit hact in
omit hdef in
/-- The ready tasks of a plain schedule can run. -/
theorem activeTasks_plain : g.activeTasks s.ready =
      .ok (KeySort.sort activeLess (s.ready.filter fun t => t.nodeID ≠ endNodeID)) := by
  have hn : ∀ t ∈ ([] : List GraphTask), Plain g t := nofun
  exact Outcome.bind_eq_ok.mpr ⟨_, collectActive_plain hg hs.ready hn hs.distinct, rfl⟩

omit hdef in
theorem nodup_active : (tasks.map GraphTask.nodeID).Nodup := by
  rw [activeTasks_plain hg hs] at hact
  cases hact
  rw [((KeySort.perm_sort activeLess _).map GraphTask.nodeID).nodup_iff]
  exact hs.distinct.sublist (filter_sublist.map GraphTask.nodeID)

omit hg hdef in
theorem active_mem_nodes (ht : t ∈ tasks) : t.nodeID ∈ g.nodes := by
  obtain ⟨hr, he⟩ := (mem_activeTasks hact).mp ht
  exact (hs.ready t hr).known.resolve_right he

omit hs hact in
omit hg hdef in
theorem tasks_nextResolved :
    (g.nextResolved tasks).tasks = staticRouteTasks (KeySort.sort (fun a b => decide (a < b))
      (tasks.flatMap fun t => g.successors t.nodeID).dedup) := append_nil _

omit hs hact in
omit hg hdef in
theorem static_nextResolved (tasks : List GraphTask) :
    ∀ t ∈ (g.nextResolved tasks).tasks, t.dynamic = false := by
  intro t ht
  rw [tasks_nextResolved] at ht
  exact (mem_staticRouteTasks ht).1

/-- A round in which all tasks succeed without a command. -/
theorem waveStep_quiet (hne : tasks ≠ []) : g.waveStep cfg quietEnv s = .running s' ↔
      tasks.length ≤ cfg.maxFanOut ∧ (∀ t ∈ tasks, g.Routed t.nodeID) ∧
        (g.nextResolved tasks).tasks.length ≤ cfg.maxFanOut ∧
        (∀ t ∈ tasks, t.nodeID ∉ cfg.interruptAfterNodeIDs) ∧
        s' = g.scheduleNext (g.nextResolved tasks).tasks s.pending := by
  obtain ⟨hok, he⟩ := resolveCommands_quiet hg hdef cfg.maxFanOut
    fun t ht => active_mem_nodes hs hact ht
  have hw : g.waveStep cfg quietEnv s =
      if tasks.length > cfg.maxFanOut then .failed
      else g.completeWave cfg quietEnv s.pending tasks := by
    have hi : interruptedTasks quietEnv tasks = [] := filter_eq_nil_iff.mpr (by rintro _ - ⟨⟩)
    have hf : failedTasks quietEnv tasks = [] := filterMap_eq_nil_iff.mpr fun _ _ => rfl
    rw [waveStep, hact]
    simp only [if_neg hne, hi, hf]
  rw [hw]
  split
  next hlt => exact ⟨by rintro ⟨⟩, fun h => absurd h.1 (Nat.not_le.mpr hlt)⟩
  next hge =>
    rw [completeWave]
    rcases Classical.em (∀ t ∈ tasks, g.Routed t.nodeID) with hr | hr
    · have hva := validateNextTasks_static (g := g) cfg.maxFanOut s.pending
        (static_nextResolved (g := g) tasks)
      have ha : (tasks.any fun t => decide (t.nodeID ∈ cfg.interruptAfterNodeIDs)) = false ↔
          ∀ t ∈ tasks, t.nodeID ∉ cfg.interruptAfterNodeIDs := by
        simp
      rw [hok hr]
      show g.scheduleWave cfg (g.nextResolved tasks).tasks s.pending
        (afterWave cfg tasks none) = .running s' ↔ _
      rw [scheduleWave]
      cases hv : g.validateNextTasks cfg.maxFanOut (g.nextResolved tasks).tasks s.pending with
      | error e =>
        rw [hv] at hva
        exact ⟨by rintro ⟨⟩, fun h => absurd (hva.mpr h.2.2.1) (by rintro ⟨⟩)⟩
      | ok u =>
        rw [hv] at hva
        rw [← ha]
        cases hst : tasks.any fun t => decide (t.nodeID ∈ cfg.interruptAfterNodeIDs) with
        | true => simp [afterWave, hst]
        | false =>
          simp only [afterWave, Option.isSome_none, hst, Bool.false_or, Bool.false_eq_true,
            if_false, LoopState.running.injEq]
          exact ⟨fun h => ⟨Nat.not_lt.mp hge, hr, hva.mp rfl, trivial, h.symm⟩,
            fun h => h.2.2.2.2.symm⟩
    · obtain ⟨n, hn⟩ := he hr
      rw [hn]
      exact ⟨by rintro ⟨⟩, fun h => absurd h.2.1 hr⟩

end

omit hg in
theorem edge_default_iff {a b : String} : g.Edge a b ↔ b ∈ g.successors a ∧ b ≠ endNodeID := by
  rw [edge_iff, outgoingNodeIDs, hdef, append_nil, successors]
  refine and_congr_left fun hb => ?_
  split
  · exact Iff.rfl
  next h =>
    rw [Classical.not_not.mp h, mem_singleton]
    exact ⟨by rintro ⟨⟩, fun h => absurd h hb⟩

omit hg hdef in
theorem staticAt_nextResolved :
    StaticAt (g.nextResolved tasks).tasks n ↔ ∃ t ∈ tasks, n ∈ g.successors t.nodeID := by
  rw [tasks_nextResolved, staticAt_staticRouteTasks, (KeySort.perm_sort _ _).mem_iff,
    mem_dedup, mem_flatMap]

omit hg in
/-- After a quiet wave wait the joins that were pending and the successors of the wave. -/
theorem waits_quiet (hp : endNodeID ∉ pending.nodeIDs) :
    Waits (g.scheduleNext (g.nextResolved tasks).tasks pending) n ↔
      n ∈ pending.nodeIDs ∨ ∃ t ∈ tasks, g.Edge t.nodeID n := by
  simp only [waits_scheduleNext (static_nextResolved tasks), Waiting, staticAt_nextResolved,
    edge_default_iff hdef]
  constructor
  · rintro ⟨hne, hn | ⟨t, ht, hn⟩⟩
    · exact .inl hn
    · exact .inr ⟨t, ht, hn, hne⟩
  · rintro (hn | ⟨t, ht, hn, hne⟩)
    · refine ⟨fun h => hp ?_, .inl hn⟩
      rw [← h]
      exact hn
    · exact ⟨hne, .inr ⟨t, ht, hn⟩⟩

theorem plainSchedule_quiet (hs : PlainSchedule g s) :
    PlainSchedule g (g.scheduleNext (g.nextResolved tasks).tasks s.pending) := by
  refine plainSchedule_scheduleNext hg hs fun t ht => ?_
  have hst : StaticAt (g.nextResolved tasks).tasks t.nodeID :=
    ⟨t, ht, static_nextResolved tasks t ht, rfl⟩
  obtain ⟨u, -, hu⟩ := staticAt_nextResolved.mp hst
  rw [tasks_nextResolved] at ht
  obtain ⟨hd, hn⟩ := mem_staticRouteTasks ht
  refine ⟨hd, hn, ?_⟩
  rcases Classical.em (t.nodeID = endNodeID) with he | he
  · exact .inr he
  · have hed := (edge_default_iff hdef).mpr ⟨hu, he⟩
    exact hg.edges _ _ (edge_iff.mp hed).1

end

end Graph

end WeaveFlow
