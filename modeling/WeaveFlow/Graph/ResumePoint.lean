import WeaveFlow.Graph.FailureRouting

/-!
# The schedule between two waves

After a wave the scheduler holds the tasks of the next wave and the joins that wait.  This
module says two things about such a schedule.  A run that is resumed with exactly these tasks
and joins has the same schedule (`resumeSchedule_scheduleNext`): placing them once more
releases no other join.  And in a graph that was built and validated, all its tasks have
trimmed ids and stand at nodes of the graph or at the end (`ScheduleReached.named`).
-/

namespace WeaveFlow

open TaskMap GraphTask Outcome List

namespace TaskMap

@[ext] theorem ext {m m' : TaskMap} (h : ∀ n, m.get n = m'.get n) : m = m' := by
  obtain ⟨tasks, keyed⟩ := m
  obtain ⟨tasks', keyed'⟩ := m'
  have ht : tasks = tasks' := SortedMap.ext h
  subst ht
  rfl

theorem get_storePreferredTask_new {m : TaskMap} {t : GraphTask} (h : m.get t.nodeID = none) :
    (m.storePreferredTask t).get n = if n = t.nodeID then some t else m.get n := by
  rw [storePreferredTask, h]
  exact get_put m t n

/-- Tasks of different nodes that are all new. -/
theorem get_foldl_storePreferredTask {tasks : List GraphTask}
    (hno : (tasks.map GraphTask.nodeID).Nodup) {m : TaskMap}
    (hne : ∀ t ∈ tasks, m.get t.nodeID = none) :
    (tasks.foldl storePreferredTask m).get n =
      (tasks.find? fun t => t.nodeID = n).or (m.get n) := by
  induction tasks generalizing m with
  | nil => rfl
  | cons t tasks ih =>
    obtain ⟨hf, hno⟩ := nodup_cons.mp hno
    have ht := hne t mem_cons_self
    have hnw : ∀ u ∈ tasks, (m.storePreferredTask t).get u.nodeID = none := by
      intro u hu
      rw [get_storePreferredTask_new ht, if_neg]
      · exact hne u (mem_cons_of_mem _ hu)
      · exact fun heq => hf (heq ▸ mem_map_of_mem hu)
    rw [foldl_cons, ih hno hnw, get_storePreferredTask_new ht, List.find?_cons]
    by_cases hn : t.nodeID = n
    · have hr : (tasks.find? fun u => u.nodeID = n) = none := by
        refine List.find?_eq_none.mpr fun u hu heq => hf ?_
        rw [hn, ← of_decide_eq_true heq]
        exact mem_map_of_mem hu
      simp [hn, hr]
    · simp [hn, Ne.symm hn]

theorem find_sortedTasksByNodeID (m : TaskMap) (n : String) :
    (m.sortedTasksByNodeID.find? fun t => t.nodeID = n) = m.get n := by
  cases hge : m.get n with
  | none =>
    refine List.find?_eq_none.mpr fun t ht heq => ?_
    have hm := mem_sortedTasksByNodeID.mp ht
    simp [of_decide_eq_true heq, hge] at hm
  | some task =>
    have hk := m.keyed n task hge
    have hm : task ∈ m.sortedTasksByNodeID := mem_sortedTasksByNodeID.mpr (hk ▸ hge)
    cases hf : m.sortedTasksByNodeID.find? fun t => t.nodeID = n with
    | none =>
      have hn := List.find?_eq_none.mp hf task hm
      exact absurd (decide_eq_true hk) hn
    | some other =>
      have ho : other.nodeID = n := of_decide_eq_true
        (List.find?_some (p := fun t : GraphTask => decide (t.nodeID = n)) hf)
      have hgt := mem_sortedTasksByNodeID.mp (mem_of_find?_eq_some hf)
      rw [ho, hge] at hgt
      exact hgt.symm

theorem nodup_sortedTasksByNodeID (m : TaskMap) :
    (m.sortedTasksByNodeID.map GraphTask.nodeID).Nodup := by
  rw [Graph.map_nodeID_sortedTasks]
  exact SortedMap.keys_nodup

/-- The tasks of a map, stored again. -/
theorem foldl_sortedTasksByNodeID (m : TaskMap) :
    m.sortedTasksByNodeID.foldl storePreferredTask empty = m := by
  ext n : 1
  rw [get_foldl_storePreferredTask m.nodup_sortedTasksByNodeID (fun _ _ => rfl),
    find_sortedTasksByNodeID, get_empty, Option.or_none]

/-- A map is read back from its tasks, if none of them is at the empty node. -/
theorem taskMapByNodeID_sorted {m : TaskMap} (h : m.get "" = none) :
    taskMapByNodeID m.sortedTasksByNodeID = m := by
  have hf : taskMapByNodeID m.sortedTasksByNodeID =
      m.sortedTasksByNodeID.foldl storePreferredTask empty := by
    refine foldl_ext _ _ _ fun acc t ht => ?_
    rw [if_neg]
    intro he
    have hge := mem_sortedTasksByNodeID.mp ht
    simp [he, h] at hge
  rw [hf, foldl_sortedTasksByNodeID]

end TaskMap

namespace Graph

variable {g : Graph}

/-! ## Releasing once more -/

/-- A release changes nothing about who waits. -/
theorem hasUpstreamBlocker_released : g.hasUpstreamBlocker n (g.releasePendingFanIn ready pending).1
        (g.releasePendingFanIn ready pending).2 = g.hasUpstreamBlocker n ready pending := by
  have hw : ∀ m, (m ∈ (g.releasePendingFanIn ready pending).1.nodeIDs ∨
      m ∈ (g.releasePendingFanIn ready pending).2.nodeIDs) ↔
      m ∈ ready.nodeIDs ∨ m ∈ pending.nodeIDs := by
    intro m
    simp only [mem_nodeIDs, get_releasePendingFanIn]
    split
    · rfl
    · cases hg : pending.get m with
      | none => simp
      | some t => simp
  rw [Bool.eq_iff_iff, hasUpstreamBlocker_iff, hasUpstreamBlocker_iff]
  simp only [hw]

theorem releasePendingFanIn_idem : g.releasePendingFanIn (g.releasePendingFanIn ready pending).1
      (g.releasePendingFanIn ready pending).2 = g.releasePendingFanIn ready pending := by
  refine Prod.ext (TaskMap.ext fun n => ?_) (TaskMap.ext fun n => ?_)
  · rw [(get_releasePendingFanIn _ _ n).1, hasUpstreamBlocker_released,
      (get_releasePendingFanIn ready pending n).1, (get_releasePendingFanIn ready pending n).2]
    split
    · rfl
    · rfl
  · rw [(get_releasePendingFanIn _ _ n).2, hasUpstreamBlocker_released,
      (get_releasePendingFanIn ready pending n).2]
    split
    · rfl
    · rfl

variable {tasks : List GraphTask} {pending : TaskMap} {s : Schedule}

/-- Placing static tasks of different nodes that do not wait, and dynamic ones. -/
theorem foldl_placeResumed_new (ready : TaskMap)
    (h : ∀ t ∈ tasks, t.dynamic = false → pending.get t.nodeID = none) :
    tasks.foldl placeResumed (ready, pending) =
      ((tasks.filter fun t => !t.dynamic).foldl storePreferredTask ready, pending) := by
  induction tasks generalizing ready with
  | nil => rfl
  | cons t tasks ih =>
    have hr := (forall_mem_cons.mp h).2
    rw [foldl_cons, placeResumed]
    cases hd : t.dynamic with
    | true =>
      rw [if_pos rfl, ih ready hr, filter_cons_of_neg (by simp [hd])]
    | false =>
      have hn := h t mem_cons_self hd
      simp only [Bool.false_eq_true, if_false, hn]
      rw [ih _ hr, filter_cons_of_pos (by simp [hd]), foldl_cons]

def OnlyJoins (g : Graph) (pending : TaskMap) : Prop :=
  ∀ n ∈ pending.nodeIDs, g.isJoinNode n = true

/-- The maps of `scheduleNext` before the release. -/
theorem placeNext_disjoint (hj : g.OnlyJoins pending) :
    g.OnlyJoins (tasks.foldl g.placeNext (TaskMap.empty, pending)).2 ∧
      ∀ n ∈ (tasks.foldl g.placeNext (TaskMap.empty, pending)).1.nodeIDs,
        g.isJoinNode n = false := by
  constructor
  · intro n hn
    rcases (mem_foldl_placeNext tasks _ n).2.mp hn with hn | ⟨-, hn⟩
    · exact hj n hn
    · exact hn
  · intro n hn
    rcases (mem_foldl_placeNext tasks _ n).1.mp hn with hn | ⟨-, hn⟩
    · exact absurd hn (not_mem_empty n)
    · exact hn

theorem onlyJoins_released (h : g.OnlyJoins maps.2) : g.OnlyJoins (g.released tasks maps).pending :=
  fun n hn => h n (mem_pending_released.mp hn).1

theorem onlyJoins_scheduleNext (h : g.OnlyJoins pending) :
    g.OnlyJoins (g.scheduleNext tasks pending).pending :=
  onlyJoins_released (placeNext_disjoint h).1

theorem onlyJoins_resumeSchedule (h : g.OnlyJoins pending) :
    g.OnlyJoins (g.resumeSchedule tasks pending).pending :=
  onlyJoins_released fun n hn => h n ((mem_foldl_placeResumed tasks _ n).2.mp hn).1

/-- A node that is ready after a release does not wait. -/
theorem released_disjoint {tasks : List GraphTask} {pending : TaskMap}
    (hj : g.OnlyJoins pending) {n : String}
    (hr : n ∈ (g.releasePendingFanIn (tasks.foldl g.placeNext (TaskMap.empty, pending)).1
      (tasks.foldl g.placeNext (TaskMap.empty, pending)).2).1.nodeIDs) :
    (g.scheduleNext tasks pending).pending.get n = none := by
  obtain ⟨hp, hpl⟩ := placeNext_disjoint hj
  cases hge : (g.scheduleNext tasks pending).pending.get n with
  | none => rfl
  | some t =>
    obtain ⟨hm, hb⟩ := mem_pending_released.mp (mem_nodeIDs.mpr ⟨t, hge⟩)
    rcases mem_static_released.mp hr with hn | ⟨-, hn⟩
    · have hjo := hp n hm
      simp [hpl n hn] at hjo
    · exact absurd hb hn

/-- Resuming with the tasks and the joins of a schedule gives that schedule. -/
theorem resumeSchedule_scheduleNext (tasks : List GraphTask) (hj : g.OnlyJoins pending)
    (hs : pending.Static) :
    g.resumeSchedule (g.scheduleNext tasks pending).ready
        (g.scheduleNext tasks pending).pending = g.scheduleNext tasks pending := by
  generalize hm : tasks.foldl g.placeNext (TaskMap.empty, pending) = maps
  have ha : MapsAll (fun t => t.dynamic = false) (g.releasePendingFanIn maps.1 maps.2) := by
    rw [← hm]
    exact mapsAll_released (mapsAll_placeNext (mapsAll_empty hs) fun t _ ht => ht)
  have hn : ∀ t ∈ (g.scheduleNext tasks pending).ready, t.dynamic = false →
      (g.scheduleNext tasks pending).pending.get t.nodeID = none := by
    intro t ht hd
    refine released_disjoint hj ?_
    rcases mem_ready_released.mp ht with hge | ⟨-, hdy⟩
    · exact mem_nodeIDs.mpr ⟨t, hge⟩
    · simp [hd] at hdy
  have hr : (g.scheduleNext tasks pending).ready =
      (g.releasePendingFanIn maps.1 maps.2).1.sortedTasksByNodeID ++ tasks.filter dynamic := by
    rw [← hm]
    rfl
  have hp : (g.scheduleNext tasks pending).pending = (g.releasePendingFanIn maps.1 maps.2).2 := by
    rw [← hm]
    rfl
  have hst : ∀ t ∈ (g.releasePendingFanIn maps.1 maps.2).1.sortedTasksByNodeID,
      t.dynamic = false := fun t ht => ha.1 _ t (mem_sortedTasksByNodeID.mp ht)
  have hf : (g.scheduleNext tasks pending).ready.filter (fun t => !t.dynamic) =
      (g.releasePendingFanIn maps.1 maps.2).1.sortedTasksByNodeID := by
    rw [hr, filter_append, filter_filter]
    have hl : (g.releasePendingFanIn maps.1 maps.2).1.sortedTasksByNodeID.filter
        (fun t => !t.dynamic) = (g.releasePendingFanIn maps.1 maps.2).1.sortedTasksByNodeID := by
      refine filter_eq_self.mpr fun t ht => ?_
      rw [hst t ht]
      rfl
    rw [hl]
    simp
  have hdn : (g.scheduleNext tasks pending).ready.filter dynamic = tasks.filter dynamic := by
    have hl : (g.releasePendingFanIn maps.1 maps.2).1.sortedTasksByNodeID.filter dynamic = [] := by
      refine filter_eq_nil_iff.mpr fun t ht => ?_
      rw [hst t ht]
      exact Bool.false_ne_true
    rw [hr, filter_append, hl, filter_filter]
    simp
  have hpl := foldl_placeResumed_new TaskMap.empty hn
  rw [hf, foldl_sortedTasksByNodeID, hp] at hpl
  rw [resumeSchedule, hp, hpl, released, hdn, releasePendingFanIn_idem, scheduleNext, released, hm]

/-! ## The ids of tasks -/

def Trimmed (text : String) : Prop := trimSpace text = text ∧ text ≠ ""

/-- A task with a trimmed id, at a node or at the end. -/
structure Named (g : Graph) (t : GraphTask) : Prop where
  taskID : Trimmed t.taskID
  nodeID : t.nodeID ∈ g.nodes ∨ t.nodeID = endNodeID

/-- `dynamicTaskID` returns `send-` and a digest, which has no blanks. -/
def NamesSends (env : WaveEnv) : Prop := ∀ parent send i, Trimmed (env.dynamicTaskID parent send i)

/-- Edges and routes lead to nodes or to the end, and node ids are trimmed. -/
structure Closed (g : Graph) : Prop where
  trimmed : ∀ n ∈ g.nodes, Trimmed n
  entry : g.entryPoint ∈ g.nodes
  edges : ∀ n, ∀ target ∈ g.outgoingNodeIDs n, target ∈ g.nodes ∨ target = endNodeID
  routes : ∀ n, ∀ route ∈ g.routes n, route.target ∈ g.nodes ∨ route.target = endNodeID

theorem validateFailureRoutes_eq_ok (h : g.validateFailureRoutes = .ok u) (n : String) :
    ∀ route ∈ g.routes n, route.target ∈ g.nodes ∨ route.target = endNodeID := by
  intro route hm
  have hs := forM_eq_ok.mp h n (mem_keys_of_mem_getD hm)
  obtain ⟨-, -, hr⟩ := of_bind hs
  obtain ⟨-, -, ht⟩ := of_bind (forM_eq_ok.mp hr route hm)
  exact isTarget_iff.mp (requireText_eq_ok.mp ht)

theorem closed_of_validate (hb : Built g) (h : g.validate checks = .ok u) : Closed g := by
  have hv := validated_of_validate h
  obtain ⟨-, -, h⟩ := of_bind h
  simp only [bind_eq_ok] at h
  obtain ⟨-, -, -, -, -, -, _, hr, -⟩ := h
  exact ⟨hb.trimmed, hv.entry, hv.edges, validateFailureRoutes_eq_ok hr⟩

section Closed

variable (hg : Closed g)

include hg

theorem Closed.trimmed_target (h : n ∈ g.nodes ∨ n = endNodeID) : Trimmed n := by
  rcases h with h | rfl
  · exact hg.trimmed n h
  · exact ⟨by decide, by decide⟩

theorem Closed.named_static (h : n ∈ g.nodes ∨ n = endNodeID) (order : Int) :
    g.Named (newStaticGraphTask n order) :=
  ⟨hg.trimmed_target h, h⟩

theorem Closed.named_staticRouteTasks {targets : List String}
    (h : ∀ n ∈ targets, n ∈ g.nodes ∨ n = endNodeID) :
    ∀ t ∈ staticRouteTasks targets, g.Named t := by
  intro t ht
  obtain ⟨⟨n, i⟩, hm, rfl⟩ := mem_map.mp ht
  exact hg.named_static (h n (fst_mem_of_mem_zipIdx hm)) i

end Closed

theorem named_numberDynamic (h : ∀ t ∈ tasks, g.Named t) :
    ∀ t ∈ numberDynamic first tasks, g.Named t := by
  intro t ht
  obtain ⟨⟨u, i⟩, hm, rfl⟩ := mem_map.mp ht
  have hu := (KeySort.perm_sort _ _).mem_iff.mp (fst_mem_of_mem_zipIdx hm)
  exact ⟨(h u hu).taskID, (h u hu).nodeID⟩

section Env

variable {env : WaveEnv} (henv : NamesSends env)

include henv

variable {r : Resolved}

theorem named_sent {sends : List Send} (h : g.Sent env parent sends tasks) :
    ∀ t ∈ tasks, g.Named t := by
  intro t ht
  obtain ⟨send, i, n, hn, rfl⟩ := h.each t ht
  exact ⟨henv parent send i, .inl hn⟩

variable (hg : Closed g)

include hg

theorem named_resolveNextTasks (h : g.resolveNextTasks env parent = .ok tasks) :
    ∀ t ∈ tasks, g.Named t := by
  cases finds_resolveNextTasks h with
  | static _ hk =>
    exact hg.named_staticRouteTasks fun n hn => (hk n hn).elim id (hg.edges _ n)
  | sent _ hs => exact named_numberDynamic (named_sent henv hs)

/-- What the tasks of a wave lead to so far has names. -/
def NamedResolved (g : Graph) (r : Resolved) : Prop :=
  (∀ n ∈ r.staticTargets, n ∈ g.nodes ∨ n = endNodeID) ∧ ∀ t ∈ r.dynamicTasks, g.Named t

omit henv hg in
theorem NamedResolved.appendRouteTasks (hr : g.NamedResolved r) (h : ∀ t ∈ tasks, g.Named t) :
    g.NamedResolved (r.appendRouteTasks tasks) := by
  constructor
  · intro n hn
    rcases mem_append.mp hn with hn | hn
    · exact hr.1 n hn
    · obtain ⟨t, ht, rfl⟩ := mem_map.mp hn
      exact (h t (mem_filter.mp ht).1).nodeID
  · intro t ht
    rcases mem_append.mp ht with ht | ht
    · exact hr.2 t ht
    · exact h t (mem_filter.mp ht).1

theorem namedResolved_resolveCommand (hr : g.NamedResolved r)
    (h : g.resolveCommand env maxFanOut waveSize r task command = .ok r') : g.NamedResolved r' := by
  unfold resolveCommand at h
  split at h
  · cases h
  split at h
  · split at h
    · cases h
    · cases h
      exact hr
  split at h
  · split at h
    · cases h
    · obtain ⟨tasks, ht, h⟩ := of_bind h
      cases h
      exact NamedResolved.appendRouteTasks hr (named_resolveNextTasks henv hg ht)
  split at h
  · obtain ⟨targets, hta, h⟩ := of_bind h
    cases h
    exact ⟨forall_mem_append.mpr ⟨hr.1, (resolveTargets_eq_ok hta).2⟩, hr.2⟩
  split at h
  · split at h
    · cases h
    · obtain ⟨tasks, ht, h⟩ := of_bind h
      cases h
      exact ⟨hr.1, forall_mem_append.mpr ⟨hr.2, named_sent henv (sent_resolveCommandSends ht)⟩⟩
  · obtain ⟨tasks, ht, h⟩ := of_bind h
    cases h
    exact NamedResolved.appendRouteTasks hr (named_resolveNextTasks henv hg ht)

theorem namedResolved_resolveEach {waveSize : Nat} (hr : g.NamedResolved r)
    (h : g.resolveEach env maxFanOut waveSize r tasks = .ok r') : g.NamedResolved r' := by
  induction tasks generalizing r with
  | nil =>
    cases h
    exact hr
  | cons task rest ih =>
    unfold resolveEach at h
    split at h
    · obtain ⟨next, hn, h⟩ := of_bind h
      exact ih (namedResolved_resolveCommand henv hg hr hn) h
    · exact ih hr h

theorem named_resolveCommands (h : g.resolveCommands env maxFanOut tasks = .ok r) :
    ∀ t ∈ r.tasks, g.Named t := by
  obtain ⟨hs, hd⟩ := namedResolved_resolveEach henv hg (r := {}) ⟨nofun, nofun⟩ h
  intro t ht
  rcases mem_append.mp ht with ht | ht
  · refine hg.named_staticRouteTasks (fun n hn => hs n ?_) t ht
    exact mem_dedup.mp ((KeySort.perm_sort _ _).mem_iff.mp hn)
  · exact named_numberDynamic hd t ht

end Env

/-! ## Runs -/

/-- The schedules that a run has before a wave.  A run that pauses goes on with the tasks it
paused with. -/
inductive ScheduleReached (g : Graph) : Schedule → Prop where
  | start : ScheduleReached g g.startSchedule
  | wave (cfg : LoopConfig) (env : WaveEnv) {s next : Schedule} (names : NamesSends env)
      (before : ScheduleReached g s) (runs : g.waveStep cfg env s = .running next) :
      ScheduleReached g next
  | resume (cfg : LoopConfig) (env : WaveEnv) {s : Schedule} {nextTasks : List GraphTask}
      {pending : TaskMap} (names : NamesSends env) (before : ScheduleReached g s)
      (pauses : g.waveStep cfg env s = .paused nextTasks pending) (some_ : nextTasks ≠ []) :
      ScheduleReached g (g.resumedSchedule nextTasks pending)

section

variable (hg : Closed g) (henv : NamesSends env)
include hg henv

omit henv in
theorem named_failureTasks (ht : Trimmed task.taskID) :
    ∀ t ∈ g.failureTasks task source stage errorClass text, g.Named t := by
  unfold failureTasks
  split
  · exact nofun
  next route hr =>
    refine forall_mem_singleton.mpr ⟨?_, ?_⟩
    · refine ⟨trimSpace_append (by decide) (by decide) ht.1 ht.2, ?_⟩
      intro he
      have hl := congrArg String.length he
      simp [String.length_append] at hl
    · exact hg.routes source route (mem_of_find?_eq_some hr)

omit henv in
theorem named_resolveNodeFailure (ht : Trimmed task.taskID) :
    ∀ t ∈ g.resolveNodeFailure task e, g.Named t := by
  unfold resolveNodeFailure
  split
  · exact named_failureTasks hg ht
  · exact nofun

omit henv in
theorem named_resolveConditionFailure (ht : Trimmed task.taskID) {failure : ConditionFailure} :
    ∀ t ∈ g.resolveConditionFailure task source failure, g.Named t := by
  unfold resolveConditionFailure
  split
  · exact nofun
  · exact named_failureTasks hg ht

theorem named_failureWaveTasks (ht : Trimmed task.taskID)
    (h : g.failureWaveTasks cfg env pending tasks task e = some handed) :
    ∀ t ∈ handed, g.Named t := by
  have hf := named_resolveNodeFailure hg ht (e := e)
  unfold failureWaveTasks at h
  split at h
  · cases h
  next failureTask more hro =>
    obtain ⟨_, -, h⟩ := Option.bind_eq_some_iff.mp h
    split at h
    · cases h
    next r hr =>
      split at h
      · cases h
      · obtain ⟨checked, hc, h⟩ := Option.bind_eq_some_iff.mp h
        obtain ⟨-, rfl⟩ := checkedTasks_eq_some.mp hc
        obtain ⟨-, rfl⟩ := checkedTasks_eq_some.mp h
        rw [hro] at hf
        exact forall_mem_append.mpr ⟨named_resolveCommands henv hg hr, hf⟩

theorem named_completeWaveTasks (ht : ∀ t ∈ tasks, Trimmed t.taskID)
    (h : g.completeWaveTasks cfg env pending tasks = some handed) : ∀ t ∈ handed, g.Named t := by
  unfold completeWaveTasks at h
  split at h
  next source target failure _ =>
    obtain ⟨task, hta, h⟩ := Option.bind_eq_some_iff.mp h
    have hm : task ∈ tasks := by
      rcases Option.or_eq_some_iff.mp hta with hf | ⟨-, hh⟩
      · exact mem_of_find?_eq_some hf
      · exact mem_of_mem_head? hh
    have hfa : ∀ t ∈ g.resolveConditionFailure task source failure, g.Named t :=
      named_resolveConditionFailure hg (ht task hm)
    split at h
    · cases h
    next hro =>
      obtain ⟨-, rfl⟩ := checkedTasks_eq_some.mp h
      rw [hro] at hfa
      exact hfa
  · cases h
  next r hr =>
    split at h
    · cases h
    · obtain ⟨-, rfl⟩ := checkedTasks_eq_some.mp h
      exact named_resolveCommands henv hg hr

/-- The tasks that a wave hands on have names, if its own tasks have. -/
theorem named_handedTasks (hs : ∀ t ∈ s.ready, g.Named t)
    (h : g.handedTasks cfg env s = some handed) : ∀ t ∈ handed, g.Named t := by
  unfold handedTasks at h
  split at h
  · cases h
  next tasks hac =>
    have hta : ∀ t ∈ tasks, Trimmed t.taskID := fun t ht =>
      (hs t ((mem_activeTasks hac).mp ht).1).taskID
    split at h
    · cases h
    split at h
    · cases h
    split at h
    · exact named_completeWaveTasks hg henv hta h
    next task e _ hf =>
      refine named_failureWaveTasks hg henv (hta task ?_) h
      have hm : (task, e) ∈ failedTasks env tasks := by
        rw [hf]
        exact mem_singleton_self _
      obtain ⟨t, ht, ho⟩ := mem_filterMap.mp hm
      split at ho
      · cases ho; exact ht
      · cases ho
    · cases h

end

/-- The invariant of the schedules of a run. -/
structure NamedSchedule (g : Graph) (s : Schedule) : Prop where
  ready : ∀ t ∈ s.ready, g.Named t
  pending : ∀ n t, s.pending.get n = some t → g.Named t
  joins : g.OnlyJoins s.pending
  static : s.pending.Static

theorem named_released (hta : ∀ t ∈ tasks, g.Named t) (hm : MapsAll (Named g) maps) :
    (∀ t ∈ (g.released tasks maps).ready, g.Named t) ∧
      ∀ n t, (g.released tasks maps).pending.get n = some t → g.Named t := by
  have hr := mapsAll_released (g := g) hm
  refine ⟨fun t ht => ?_, hr.2⟩
  rcases mem_ready_released.mp ht with hge | ⟨hme, -⟩
  · exact hr.1 _ t hge
  · exact hta t hme

theorem namedSchedule_scheduleNext (hs : g.NamedSchedule s) (hta : ∀ t ∈ tasks, g.Named t) :
    g.NamedSchedule (g.scheduleNext tasks s.pending) := by
  obtain ⟨hr, hp⟩ := named_released hta
    (mapsAll_placeNext (mapsAll_empty hs.pending) fun t ht _ => hta t ht)
  exact ⟨hr, hp, onlyJoins_scheduleNext hs.joins, static_scheduleNext hs.static⟩

theorem namedSchedule_resumeSchedule (hta : ∀ t ∈ tasks, g.Named t)
    (hp : ∀ n t, pending.get n = some t → g.Named t) (hj : g.OnlyJoins pending)
    (hs : pending.Static) : g.NamedSchedule (g.resumeSchedule tasks pending) := by
  obtain ⟨hr, hpe⟩ := named_released hta
    (mapsAll_placeResumed (mapsAll_empty hp) fun t ht _ => hta t ht)
  exact ⟨hr, hpe, onlyJoins_resumeSchedule hj, static_resumeSchedule hs⟩

/-- The stored joins are read back as they were. -/
theorem restorePending_eq (hg : Closed g) (h : ∀ n t, pending.get n = some t → g.Named t) :
    restorePending pending = pending := by
  refine taskMapByNodeID_sorted ?_
  cases hge : pending.get "" with
  | none => rfl
  | some t =>
    have hn := (hg.trimmed_target (h "" t hge).nodeID).2
    exact absurd (pending.keyed "" t hge) hn

/-- In every run of a validated graph all tasks have names and only joins wait. -/
theorem ScheduleReached.named (hg : Closed g) (h : g.ScheduleReached s) : g.NamedSchedule s := by
  induction h with
  | start =>
    refine namedSchedule_resumeSchedule ?_ nofun nofun static_empty
    exact forall_mem_singleton.mpr (hg.named_static (.inl hg.entry) 0)
  | wave cfg env hn _ hr ih =>
    obtain ⟨o, hh, hw⟩ := round_of_waveStep hr
    cases hw with
    | running => exact namedSchedule_scheduleNext ih (named_handedTasks hg hn ih.ready hh)
  | resume cfg env hn _ hp hne ih =>
    rw [resumedSchedule, if_neg hne]
    obtain ⟨o, hh, hw⟩ := round_of_waveStep hp
    cases hw with
    | interrupted ha hm =>
      rw [restorePending_eq hg ih.pending]
      refine namedSchedule_resumeSchedule ?_ ih.pending ih.joins ih.static
      exact forall_mem_singleton.mpr (ih.ready _ ((mem_activeTasks ha).mp hm).1)
    | paused =>
      have hnx := namedSchedule_scheduleNext ih (named_handedTasks hg hn ih.ready hh)
      rw [restorePending_eq hg hnx.pending]
      exact namedSchedule_resumeSchedule hnx.ready hnx.pending hnx.joins hnx.static

end Graph

end WeaveFlow
