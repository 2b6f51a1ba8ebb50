import WeaveFlow.Graph.Scheduler

/-!
# What scheduling does to the waiting nodes

`scheduleNext` and `resumeSchedule` say which nodes wait; the release loop then splits them
into ready and pending ones.  From that follow the exact condition under which a schedule
respects the fan-in barrier (`barrier_scheduleNext_iff`, `barrier_resumeSchedule_iff`), and
that a schedule with pending joins has a ready task at a node of the graph (`live_released`).
-/

namespace WeaveFlow

open TaskMap List

def StaticAt (tasks : List GraphTask) (n : String) : Prop :=
  ∃ t ∈ tasks, t.dynamic = false ∧ t.nodeID = n

def TaskMap.Static (m : TaskMap) : Prop := ∀ n t, m.get n = some t → t.dynamic = false

theorem TaskMap.static_empty : TaskMap.empty.Static := fun _ _ h => by cases h

namespace Graph

variable {g : Graph}

/-! ## Placing tasks -/

/-- Where `scheduleNext` puts static tasks: joins wait, the others are ready. -/
theorem mem_foldl_placeNext (tasks : List GraphTask) (maps : TaskMap × TaskMap) (n : String) :
    (n ∈ (tasks.foldl g.placeNext maps).1.nodeIDs ↔
      n ∈ maps.1.nodeIDs ∨ StaticAt tasks n ∧ g.isJoinNode n = false) ∧
    (n ∈ (tasks.foldl g.placeNext maps).2.nodeIDs ↔
      n ∈ maps.2.nodeIDs ∨ StaticAt tasks n ∧ g.isJoinNode n = true) := by
  induction tasks generalizing maps with
  | nil => simp [StaticAt]
  | cons t tasks ih =>
    rw [foldl_cons, (ih _).1, (ih _).2, placeNext]
    have hc : StaticAt (t :: tasks) n ↔ (t.dynamic = false ∧ t.nodeID = n) ∨ StaticAt tasks n := by
      simp only [StaticAt, mem_cons, exists_eq_or_imp]
    rw [hc]
    cases hd : t.dynamic with
    | true => simp
    | false =>
      simp only [Bool.false_eq_true, if_false, true_and]
      cases hj : g.isJoinNode t.nodeID with
      | true =>
        simp only [if_true, mem_nodeIDs_storePreferredTask]
        rcases eq_or_ne t.nodeID n with rfl | hne
        · simp [hj]
        · simp [hne, hne.symm]
      | false =>
        simp only [Bool.false_eq_true, if_false, mem_nodeIDs_storePreferredTask]
        rcases eq_or_ne t.nodeID n with rfl | hne
        · simp [hj]
        · simp [hne, hne.symm]

/-- Where `resumeSchedule` puts static tasks: all are ready, and no longer wait. -/
theorem mem_foldl_placeResumed (tasks : List GraphTask) (maps : TaskMap × TaskMap) (n : String) :
    (n ∈ (tasks.foldl placeResumed maps).1.nodeIDs ↔ n ∈ maps.1.nodeIDs ∨ StaticAt tasks n) ∧
    (n ∈ (tasks.foldl placeResumed maps).2.nodeIDs ↔ n ∈ maps.2.nodeIDs ∧ ¬ StaticAt tasks n) := by
  induction tasks generalizing maps with
  | nil => simp [StaticAt]
  | cons t tasks ih =>
    have hc : StaticAt (t :: tasks) n ↔ (t.dynamic = false ∧ t.nodeID = n) ∨ StaticAt tasks n := by
      simp only [StaticAt, mem_cons, exists_eq_or_imp]
    rw [foldl_cons, (ih _).1, (ih _).2, hc, placeResumed]
    cases hd : t.dynamic with
    | true => simp
    | false =>
      simp only [Bool.false_eq_true, if_false, true_and]
      cases hp : maps.2.get t.nodeID with
      | none =>
        simp only [mem_nodeIDs_storePreferredTask]
        have hno : t.nodeID ∉ maps.2.nodeIDs := by
          rw [mem_nodeIDs, hp]
          rintro ⟨u, hu⟩
          cases hu
        rcases eq_or_ne t.nodeID n with rfl | hne
        · simp [hno]
        · simp [hne, hne.symm]
      | some p =>
        have hk : p.nodeID = t.nodeID := maps.2.keyed _ _ hp
        have hde : n ∈ (maps.2.del t.nodeID).nodeIDs ↔ n ≠ t.nodeID ∧ n ∈ maps.2.nodeIDs := by
          simp only [mem_nodeIDs, get_del]
          rcases eq_or_ne n t.nodeID with rfl | hne
          · simp
          · simp [hne]
        simp only [mem_nodeIDs_storePreferredTask, hk, hde]
        rcases eq_or_ne t.nodeID n with rfl | hne
        · simp
        · simp [hne, hne.symm]

/-- What holds of all tasks of two maps. -/
def MapsAll (P : GraphTask → Prop) (maps : TaskMap × TaskMap) : Prop :=
  (∀ n t, maps.1.get n = some t → P t) ∧ ∀ n t, maps.2.get n = some t → P t

variable {tasks : List GraphTask} {pending : TaskMap} {maps : TaskMap × TaskMap} {n : String}

theorem mapsAll_empty (hp : ∀ n t, pending.get n = some t → P t) :
    MapsAll P (TaskMap.empty, pending) :=
  ⟨nofun, hp⟩

theorem mapsAll_placeNext (hm : MapsAll P maps) (ht : ∀ t ∈ tasks, t.dynamic = false → P t) :
    MapsAll P (tasks.foldl g.placeNext maps) := by
  induction tasks generalizing maps with
  | nil => exact hm
  | cons t tasks ih =>
    refine ih ?_ (forall_mem_cons.mp ht).2
    rw [placeNext]
    cases hd : t.dynamic with
    | true => exact hm
    | false =>
      have hp := ht t mem_cons_self hd
      simp only [Bool.false_eq_true, if_false]
      split
      · exact ⟨hm.1, storePreferredTask_all hm.2 hp⟩
      · exact ⟨storePreferredTask_all hm.1 hp, hm.2⟩

theorem mapsAll_placeResumed (hm : MapsAll P maps) (ht : ∀ t ∈ tasks, t.dynamic = false → P t) :
    MapsAll P (tasks.foldl placeResumed maps) := by
  induction tasks generalizing maps with
  | nil => exact hm
  | cons t tasks ih =>
    refine ih ?_ (forall_mem_cons.mp ht).2
    rw [placeResumed]
    cases hd : t.dynamic with
    | true => exact hm
    | false =>
      have hp := ht t mem_cons_self hd
      simp only [Bool.false_eq_true, if_false]
      cases hg : maps.2.get t.nodeID with
      | none => exact ⟨storePreferredTask_all hm.1 hp, hm.2⟩
      | some u =>
        refine ⟨storePreferredTask_all
          (storePreferredTask_all hm.1 (hm.2 _ u hg)) hp, fun n v hv => ?_⟩
        rw [get_del] at hv
        split at hv
        · cases hv
        · exact hm.2 n v hv

/-! ## Ready and pending -/

/-- A waiting node is strictly upstream of the node. -/
def Blocked (g : Graph) (maps : TaskMap × TaskMap) (n : String) : Prop :=
  ∃ m, (m ∈ maps.1.nodeIDs ∨ m ∈ maps.2.nodeIDs) ∧ g.isStrictUpstream m n = true

theorem mem_pending_released :
    n ∈ (g.released tasks maps).pending.nodeIDs ↔ n ∈ maps.2.nodeIDs ∧ g.Blocked maps n := by
  rw [Blocked, ← hasUpstreamBlocker_iff]
  show n ∈ (g.releasePendingFanIn maps.1 maps.2).2.nodeIDs ↔ _
  rw [mem_nodeIDs, mem_nodeIDs, (get_releasePendingFanIn maps.1 maps.2 n).2]
  split
  next h => simp [h]
  next h => simp [h]

/-- The static part of the ready list. -/
theorem mem_static_released : n ∈ (g.releasePendingFanIn maps.1 maps.2).1.nodeIDs ↔
      n ∈ maps.1.nodeIDs ∨ n ∈ maps.2.nodeIDs ∧ ¬ g.Blocked maps n := by
  rw [Blocked, ← hasUpstreamBlocker_iff, mem_nodeIDs, mem_nodeIDs,
    mem_nodeIDs, (get_releasePendingFanIn maps.1 maps.2 n).1]
  split
  next h => simp [h]
  next h =>
    cases hp : maps.2.get n with
    | none => simp
    | some t => simp [h]

theorem mem_ready_released : t ∈ (g.released tasks maps).ready ↔
      (g.releasePendingFanIn maps.1 maps.2).1.get t.nodeID = some t ∨
        t ∈ tasks ∧ t.dynamic = true := by
  show t ∈ (g.releasePendingFanIn maps.1 maps.2).1.sortedTasksByNodeID ++
    tasks.filter GraphTask.dynamic ↔ _
  rw [mem_append, mem_sortedTasksByNodeID, mem_filter]

theorem mapsAll_released (h : MapsAll P maps) :
    MapsAll P (g.releasePendingFanIn maps.1 maps.2) := by
  refine ⟨fun n t ht => ?_, fun n t ht => ?_⟩
  · rw [(get_releasePendingFanIn maps.1 maps.2 n).1] at ht
    split at ht
    · exact h.1 n t ht
    · rw [Option.or_eq_some_iff] at ht
      rcases ht with ht | ⟨-, ht⟩
      · exact h.2 n t ht
      · exact h.1 n t ht
  · rw [(get_releasePendingFanIn maps.1 maps.2 n).2] at ht
    split at ht
    · exact h.2 n t ht
    · cases ht

/-! ## The barrier -/

/-- No task of the schedule is strictly upstream of a join whose static task is ready. -/
def Barrier (g : Graph) (s : Schedule) : Prop :=
  ∀ t ∈ s.ready, t.dynamic = false → g.isJoinNode t.nodeID = true →
    (∀ u ∈ s.ready, g.isStrictUpstream u.nodeID t.nodeID = false) ∧
      ∀ n ∈ s.pending.nodeIDs, g.isStrictUpstream n t.nodeID = false

/-- A dynamic task is strictly upstream of the node. -/
def DynamicUpstream (g : Graph) (tasks : List GraphTask) (n : String) : Prop :=
  ∃ t ∈ tasks, t.dynamic = true ∧ g.isStrictUpstream t.nodeID n = true

theorem barrier_released_iff (hs : MapsAll (fun t => t.dynamic = false) maps) :
    g.Barrier (g.released tasks maps) ↔ ∀ n, g.isJoinNode n = true →
        n ∈ maps.1.nodeIDs ∨ n ∈ maps.2.nodeIDs ∧ ¬ g.Blocked maps n →
        ¬ g.Blocked maps n ∧ ¬ g.DynamicUpstream tasks n := by
  have hre : ∀ n, (∃ t ∈ (g.released tasks maps).ready, t.dynamic = false ∧ t.nodeID = n) ↔
      n ∈ maps.1.nodeIDs ∨ n ∈ maps.2.nodeIDs ∧ ¬ g.Blocked maps n := by
    intro n
    rw [← mem_static_released, mem_nodeIDs]
    constructor
    · rintro ⟨t, ht, hd, rfl⟩
      rcases mem_ready_released.mp ht with ht | ⟨-, hdy⟩
      · exact ⟨t, ht⟩
      · simp [hd] at hdy
    · rintro ⟨t, ht⟩
      have hk := (g.releasePendingFanIn maps.1 maps.2).1.keyed n t ht
      subst hk
      exact ⟨t, mem_ready_released.mpr (.inl ht), (mapsAll_released hs).1 _ t ht, rfl⟩
  -- the waiting nodes are those at which a static task is ready or pending
  have hus : ∀ n, ((∀ u ∈ (g.released tasks maps).ready, g.isStrictUpstream u.nodeID n = false) ∧
      ∀ m ∈ (g.released tasks maps).pending.nodeIDs, g.isStrictUpstream m n = false) ↔
      ¬ g.Blocked maps n ∧ ¬ g.DynamicUpstream tasks n := by
    intro n
    constructor
    · rintro ⟨hr, hp⟩
      refine ⟨?_, ?_⟩
      · rintro ⟨m, hm, hup⟩
        have hc : (m ∈ maps.1.nodeIDs ∨ m ∈ maps.2.nodeIDs ∧ ¬ g.Blocked maps m) ∨
            m ∈ (g.released tasks maps).pending.nodeIDs := by
          rw [mem_pending_released]
          rcases hm with hm | hm
          · exact .inl (.inl hm)
          · rcases Classical.em (g.Blocked maps m) with hb | hb
            · exact .inr ⟨hm, hb⟩
            · exact .inl (.inr ⟨hm, hb⟩)
        rcases hc with hc | hc
        · obtain ⟨u, hu, -, rfl⟩ := (hre m).mpr hc
          simp [hr u hu] at hup
        · simp [hp m hc] at hup
      · rintro ⟨d, hd, hdy, hup⟩
        simp [hr d (mem_ready_released.mpr (.inr ⟨hd, hdy⟩))] at hup
    · rintro ⟨hb, hdy⟩
      refine ⟨fun u hu => ?_, fun m hm => ?_⟩
      · rw [← Bool.not_eq_true]
        intro hup
        rcases mem_ready_released.mp hu with hma | hd
        · have hme := mem_static_released.mp (mem_nodeIDs.mpr ⟨u, hma⟩)
          exact hb ⟨u.nodeID, hme.imp_right And.left, hup⟩
        · exact hdy ⟨u, hd.1, hd.2, hup⟩
      · rw [← Bool.not_eq_true]
        intro hup
        exact hb ⟨m, .inr (mem_pending_released.mp hm).1, hup⟩
  constructor
  · intro h n hj hn
    obtain ⟨t, ht, hd, rfl⟩ := (hre n).mpr hn
    exact (hus t.nodeID).mp (h t ht hd hj)
  · intro h t ht hd hj
    exact (hus t.nodeID).mpr (h t.nodeID hj ((hre t.nodeID).mp ⟨t, ht, hd, rfl⟩))

/-! ## In terms of the tasks -/

/-- The nodes that wait when tasks are scheduled beside pending joins. -/
def Waiting (tasks : List GraphTask) (pending : TaskMap) (n : String) : Prop :=
  n ∈ pending.nodeIDs ∨ StaticAt tasks n

/-- One of them is strictly upstream of the node. -/
def WaitingUpstream (g : Graph) (tasks : List GraphTask) (pending : TaskMap) (n : String) : Prop :=
  ∃ m, Waiting tasks pending m ∧ g.isStrictUpstream m n = true

theorem not_mem_empty (n : String) : n ∉ TaskMap.empty.nodeIDs := not_mem_nil

theorem blocked_placeNext : g.Blocked (tasks.foldl g.placeNext (TaskMap.empty, pending)) n ↔
      g.WaitingUpstream tasks pending n := by
  refine exists_congr fun m => and_congr_left fun _ => ?_
  rw [(mem_foldl_placeNext tasks _ m).1, (mem_foldl_placeNext tasks _ m).2, Waiting]
  have he := not_mem_empty m
  cases hj : g.isJoinNode m with
  | true => simp [he]
  | false => simp [he, or_comm]

theorem blocked_placeResumed : g.Blocked (tasks.foldl placeResumed (TaskMap.empty, pending)) n ↔
      g.WaitingUpstream tasks pending n := by
  refine exists_congr fun m => and_congr_left fun _ => ?_
  rw [(mem_foldl_placeResumed tasks _ m).1, (mem_foldl_placeResumed tasks _ m).2, Waiting]
  have he := not_mem_empty m
  constructor
  · rintro ((h | h) | h)
    · exact absurd h he
    · exact .inr h
    · exact .inl h.1
  · intro h
    rcases Classical.em (StaticAt tasks m) with hs | hs
    · exact .inl (.inr hs)
    · exact .inr ⟨h.resolve_right hs, hs⟩

/-- No join that is about to be released has a dynamic task upstream of it. -/
def NextOK (g : Graph) (nextTasks : List GraphTask) (pending : TaskMap) : Prop :=
  ∀ n, g.isJoinNode n = true → Waiting nextTasks pending n →
    ¬ g.WaitingUpstream nextTasks pending n → ¬ g.DynamicUpstream nextTasks n

/-- No join that a run is resumed with, or that is about to be released, has a task upstream
of it. -/
def ResumeOK (g : Graph) (startTasks : List GraphTask) (pending : TaskMap) : Prop :=
  g.NextOK startTasks pending ∧
    ∀ n, g.isJoinNode n = true → StaticAt startTasks n → ¬ g.WaitingUpstream startTasks pending n

/-- The barrier holds after `scheduleNext` exactly when no dynamic task is upstream of a join
that it releases. -/
theorem barrier_scheduleNext_iff (hp : pending.Static) :
    g.Barrier (g.scheduleNext nextTasks pending) ↔ g.NextOK nextTasks pending := by
  rw [scheduleNext, barrier_released_iff (mapsAll_placeNext (mapsAll_empty hp) fun _ _ hd => hd)]
  refine forall_congr' fun n => forall_congr' fun hj => ?_
  rw [(mem_foldl_placeNext nextTasks _ n).1, (mem_foldl_placeNext nextTasks _ n).2,
    blocked_placeNext, Waiting]
  have he := not_mem_empty n
  simp only [hj, he, Bool.true_eq_false, and_false, or_false, false_or, and_true]
  constructor
  · intro h hw hu
    exact (h ⟨hw, hu⟩).2
  · rintro h ⟨hw, hu⟩
    exact ⟨hu, h hw hu⟩

/-- The barrier holds after `resumeSchedule` exactly when moreover the joins among the start
tasks have nothing upstream. -/
theorem barrier_resumeSchedule_iff (hp : pending.Static) :
    g.Barrier (g.resumeSchedule startTasks pending) ↔ g.ResumeOK startTasks pending := by
  rw [resumeSchedule, barrier_released_iff
    (mapsAll_placeResumed (mapsAll_empty hp) fun _ _ hd => hd)]
  have hi : ∀ n, (n ∈ (startTasks.foldl placeResumed (TaskMap.empty, pending)).1.nodeIDs ∨
      n ∈ (startTasks.foldl placeResumed (TaskMap.empty, pending)).2.nodeIDs ∧
        ¬ g.WaitingUpstream startTasks pending n) ↔
      StaticAt startTasks n ∨
        Waiting startTasks pending n ∧ ¬ g.WaitingUpstream startTasks pending n := by
    intro n
    rw [(mem_foldl_placeResumed startTasks _ n).1, (mem_foldl_placeResumed startTasks _ n).2,
      Waiting]
    have he := not_mem_empty n
    rcases Classical.em (StaticAt startTasks n) with hs | hs
    · simp [hs]
    · simp [hs, he]
  simp only [blocked_placeResumed, hi]
  constructor
  · intro h
    exact ⟨fun n hj hw hu => (h n hj (.inr ⟨hw, hu⟩)).2, fun n hj hs => (h n hj (.inl hs)).1⟩
  · rintro ⟨hn, hst⟩ n hj (hs | ⟨hw, hu⟩)
    · exact ⟨hst n hj hs, hn n hj (.inr hs) (hst n hj hs)⟩
    · exact ⟨hu, hn n hj hw hu⟩

theorem static_scheduleNext (hp : pending.Static) :
    (g.scheduleNext nextTasks pending).pending.Static :=
  (mapsAll_released (mapsAll_placeNext (mapsAll_empty hp) fun _ _ hd => hd)).2

theorem static_resumeSchedule (hp : pending.Static) :
    (g.resumeSchedule startTasks pending).pending.Static :=
  (mapsAll_released (mapsAll_placeResumed (mapsAll_empty hp) fun _ _ hd => hd)).2

/-! ## Progress -/

/-- A nonempty list has a member with no other member strictly upstream of it. -/
theorem exists_most_upstream {nodes : List String} (h : nodes ≠ []) :
    ∃ n ∈ nodes, ∀ m ∈ nodes, g.isStrictUpstream m n = false := by
  induction nodes with
  | nil => exact absurd rfl h
  | cons a nodes ih =>
    cases hr : nodes with
    | nil =>
      refine ⟨a, mem_singleton_self a, fun m hm => ?_⟩
      rw [mem_singleton.mp hm]
      exact isStrictUpstream_irrefl
    | cons b rest =>
      obtain ⟨n, hn, hmi⟩ := ih (by rw [hr]; exact cons_ne_nil _ _)
      rw [← hr]
      cases han : g.isStrictUpstream a n with
      | false =>
        refine ⟨n, mem_cons_of_mem _ hn, fun m hm => ?_⟩
        rcases mem_cons.mp hm with rfl | hm
        · exact han
        · exact hmi m hm
      | true =>
        -- what is upstream of `a` would be upstream of `n`
        refine ⟨a, mem_cons_self, fun m hm => ?_⟩
        rcases mem_cons.mp hm with rfl | hm
        · exact isStrictUpstream_irrefl
        · rw [← Bool.not_eq_true]
          intro hma
          have := hmi m hm
          simp [isStrictUpstream_trans hma han] at this

/-- With joins pending, a task is ready at a node of the graph. -/
def Live (g : Graph) (s : Schedule) : Prop :=
  s.pending.nodeIDs ≠ [] → ∃ t ∈ s.ready, t.nodeID ∈ g.nodes ∧ t.nodeID ≠ endNodeID

theorem live_released : g.Live (g.released tasks maps) := by
  intro hne
  obtain ⟨n, hn, hmi⟩ := exists_most_upstream hne
  obtain ⟨-, m, hm, hup⟩ := mem_pending_released.mp hn
  -- the blocker of a most upstream join is not pending, hence ready
  have hr : m ∈ (g.releasePendingFanIn maps.1 maps.2).1.nodeIDs := by
    refine mem_static_released.mpr (hm.imp_right fun hm => ⟨hm, fun hb => ?_⟩)
    have := hmi m (mem_pending_released.mpr ⟨hm, hb⟩)
    rw [hup] at this
    cases this
  obtain ⟨t, ht⟩ := mem_nodeIDs.mp hr
  have hk := (g.releasePendingFanIn maps.1 maps.2).1.keyed m t ht
  subst hk
  exact ⟨t, mem_ready_released.mpr (.inl ht), real_of_isStrictUpstream hup⟩

theorem live_scheduleNext : g.Live (g.scheduleNext nextTasks pending) := live_released

theorem live_resumeSchedule : g.Live (g.resumeSchedule startTasks pending) := live_released

end Graph

end WeaveFlow
