import WeaveFlow.Graph.DefaultRun

/-!
# Runs that end

A run along default edges that ends has executed exactly what is reached from the nodes that
waited (`Ends.mem_iff`); all of that can be routed and has no cycles (`Ends.routed_acyclic`).
Conversely, when what waits reaches no cycle and can be routed, the run ends (`exists_ends`): in
every wave a most upstream node disappears for good.
-/

namespace WeaveFlow

open List

namespace Graph

variable {g : Graph} {cfg : LoopConfig}

/-- What is executed from here on: the nodes that wait and what they reach. -/
def Below (g : Graph) (s : Schedule) (v : String) : Prop :=
  ∃ n, Waits s n ∧ Relation.ReflTransGen g.Edge n v

/-- From the schedule on, all nodes succeed without a command and the run ends; the list has the
nodes executed, wave by wave. -/
inductive Ends (g : Graph) (cfg : LoopConfig) : Schedule → List String → Prop where
  | done {s : Schedule} (h : g.waveStep cfg quietEnv s = .finished false s.pending) :
      Ends g cfg s []
  | wave {s s' : Schedule} {tasks : List GraphTask} {nodes : List String}
      (hact : g.activeTasks s.ready = .ok tasks)
      (hstep : g.waveStep cfg quietEnv s = .running s') (hrest : Ends g cfg s' nodes) :
      Ends g cfg s (tasks.map GraphTask.nodeID ++ nodes)

/-- The schedule after a wave that succeeds without commands. -/
def NextQuiet (g : Graph) (s s' : Schedule) : Prop :=
  ∃ tasks, g.activeTasks s.ready = .ok tasks ∧
    s' = g.scheduleNext (g.nextResolved tasks).tasks s.pending

/-- From here on, no wave and no list of next tasks exceeds the fan-out limit. -/
def Fits (g : Graph) (cfg : LoopConfig) (s : Schedule) : Prop :=
  ∀ s' tasks, Relation.ReflTransGen g.NextQuiet s s' → g.activeTasks s'.ready = .ok tasks →
    tasks.length ≤ cfg.maxFanOut ∧ (g.nextResolved tasks).tasks.length ≤ cfg.maxFanOut

/-- Some waiting node is ready, is not pending and has no waiting node strictly upstream. -/
theorem exists_ready_most_upstream (hs : PlainSchedule g s) (hn : Waits s n) :
    ∃ t ∈ s.ready, t.nodeID ≠ endNodeID ∧ t.nodeID ∉ s.pending.nodeIDs ∧
      ∀ m, Waits s m → g.isStrictUpstream m t.nodeID = false := by
  let waiting := (s.ready.map GraphTask.nodeID ++ s.pending.nodeIDs).filter (· ≠ endNodeID)
  have hme : ∀ m, m ∈ waiting ↔ Waits s m := by
    intro m
    rw [mem_filter, mem_append, mem_map, decide_eq_true_eq, and_comm]
    exact Iff.rfl
  obtain ⟨m, hm, hmi⟩ := exists_most_upstream (g := g) (ne_nil_of_mem ((hme n).mpr hn))
  have hmn : ∀ k, Waits s k → g.isStrictUpstream k m = false := fun k hk =>
    hmi k ((hme k).mpr hk)
  have hpe : m ∉ s.pending.nodeIDs := by
    intro hp
    obtain ⟨k, hk, hup⟩ := hs.blocked m hp
    simp [hmn k hk] at hup
  obtain ⟨he, hr⟩ := (hme m).mp hm
  obtain ⟨t, ht, rfl⟩ := hr.resolve_right hpe
  exact ⟨t, ht, he, hpe, hmn⟩

/-- Without active tasks nothing waits. -/
theorem not_waits_of_inactive (hs : PlainSchedule g s) (ha : g.activeTasks s.ready = .ok []) :
    ¬ Waits s n := by
  intro hn
  obtain ⟨t, ht, he, -⟩ := exists_ready_most_upstream hs hn
  cases (mem_activeTasks ha).mpr ⟨ht, he⟩

theorem activeTasks_of_finished (h : g.waveStep cfg quietEnv s = .finished false s.pending) :
    g.activeTasks s.ready = .ok [] := by
  obtain ⟨o, -, hr⟩ := round_of_waveStep h
  cases hr with
  | inactive ha => exact ha

section

variable (hg : g.WellFormed) (hdef : g.DefaultOnly)
include hg hdef

omit hg in
/-- What a quiet wave does to what is below: its own nodes are done. -/
theorem below_quiet (hs : PlainSchedule g s) (ha : g.activeTasks s.ready = .ok tasks) :
    g.Below s v ↔ v ∈ tasks.map GraphTask.nodeID ∨
      g.Below (g.scheduleNext (g.nextResolved tasks).tasks s.pending) v := by
  have he : endNodeID ∉ s.pending.nodeIDs := fun h => (hs.inner _ h).2 rfl
  have hw : ∀ n, Waits (g.scheduleNext (g.nextResolved tasks).tasks s.pending) n ↔
      n ∈ s.pending.nodeIDs ∨ ∃ t ∈ tasks, g.Edge t.nodeID n := fun n => waits_quiet hdef he
  constructor
  · rintro ⟨n, ⟨hne, ⟨t, ht, rfl⟩ | hn⟩, hr⟩
    · have hta := (mem_activeTasks ha).mpr ⟨ht, hne⟩
      rcases hr.cases_head with rfl | ⟨m, hm, hr⟩
      · exact .inl (mem_map_of_mem hta)
      · exact .inr ⟨m, (hw m).mpr (.inr ⟨t, hta, hm⟩), hr⟩
    · exact .inr ⟨n, (hw n).mpr (.inl hn), hr⟩
  · rintro (hv | ⟨n, hn, hr⟩)
    · obtain ⟨t, ht, rfl⟩ := mem_map.mp hv
      obtain ⟨hre, hne⟩ := (mem_activeTasks ha).mp ht
      exact ⟨t.nodeID, ⟨hne, .inl ⟨t, hre, rfl⟩⟩, Relation.ReflTransGen.refl⟩
    · rcases (hw n).mp hn with hn | ⟨t, ht, hed⟩
      · exact ⟨n, ⟨fun h => he (h ▸ hn), .inr hn⟩, hr⟩
      · obtain ⟨hre, hne⟩ := (mem_activeTasks ha).mp ht
        exact ⟨t.nodeID, ⟨hne, .inl ⟨t, hre, rfl⟩⟩, hr.head hed⟩

theorem running_quiet (hs : PlainSchedule g s) (ha : g.activeTasks s.ready = .ok tasks)
    (hst : g.waveStep cfg quietEnv s = .running s') :
    (∀ t ∈ tasks, g.Routed t.nodeID) ∧
      s' = g.scheduleNext (g.nextResolved tasks).tasks s.pending := by
  have hne : tasks ≠ [] := by
    rintro rfl
    simp [waveStep, ha] at hst
  obtain ⟨-, hr, -, -, hs'⟩ := (waveStep_quiet hg hdef hs ha hne).mp hst
  exact ⟨hr, hs'⟩

/-- A run that ends executes what is below. -/
theorem Ends.mem_iff {nodes : List String} (h : Ends g cfg s nodes) (hs : PlainSchedule g s) :
    v ∈ nodes ↔ g.Below s v := by
  induction h with
  | done h =>
    refine ⟨nofun, ?_⟩
    rintro ⟨n, hn, -⟩
    exact absurd hn (not_waits_of_inactive hs (activeTasks_of_finished h))
  | wave ha hst _ ih =>
    obtain ⟨-, rfl⟩ := running_quiet hg hdef hs ha hst
    rw [mem_append, ih (plainSchedule_quiet hg hdef hs), below_quiet hdef hs ha]

/-- A run that ends can route what is below, which has no cycles. -/
theorem Ends.routed_acyclic {nodes : List String} (h : Ends g cfg s nodes) (hs : PlainSchedule g s)
    (hv : g.Below s v) : g.Routed v ∧ ¬ Relation.TransGen g.Edge v v := by
  induction h with
  | done h =>
    obtain ⟨n, hn, -⟩ := hv
    exact absurd hn (not_waits_of_inactive hs (activeTasks_of_finished h))
  | @wave s s' tasks nodes ha hst _ ih =>
    obtain ⟨hr, rfl⟩ := running_quiet hg hdef hs ha hst
    have hre := ih (plainSchedule_quiet hg hdef hs)
    rcases (below_quiet hdef hs ha).mp hv with hv | hv
    · obtain ⟨t, ht, rfl⟩ := mem_map.mp hv
      refine ⟨hr t ht, fun hc => ?_⟩
      -- the first step of the cycle waits after the wave, and the node is below it again
      obtain ⟨m, hm, hb⟩ := Relation.TransGen.head'_iff.mp hc
      have he : endNodeID ∉ s.pending.nodeIDs := fun h => (hs.inner _ h).2 rfl
      have hw := (waits_quiet hdef he).mpr (.inr ⟨t, ht, hm⟩)
      exact (hre ⟨m, hw, hb⟩).2 hc
    · exact hre hv

/-- A wave of a run that ends keeps the fan-out limit. -/
theorem Ends.length_le {nodes : List String} (h : Ends g cfg s nodes)
    (hs : PlainSchedule g s) (ha : g.activeTasks s.ready = .ok tasks) :
    tasks.length ≤ cfg.maxFanOut := by
  rcases Classical.em (tasks = []) with rfl | hne
  · exact Nat.zero_le _
  cases h with
  | done hd =>
    have hn := ha.symm.trans (activeTasks_of_finished hd)
    exact absurd (Except.ok.inj hn) hne
  | wave _ hst _ => exact ((waveStep_quiet hg hdef hs ha hne).mp hst).1

omit hg hdef in
/-- Distinct names among the nodes and the end fit the fan-out limit. -/
theorem length_le_fanOut (hf : g.nodes.length + 1 ≤ cfg.maxFanOut) {names : List String}
    (hno : names.Nodup) (hs : ∀ n ∈ names, n ∈ g.nodes ∨ n = endNodeID) :
    names.length ≤ cfg.maxFanOut := by
  have hsu : names ⊆ endNodeID :: g.nodes := fun n hn =>
    mem_cons.mpr (hs n hn).symm
  exact (subperm_of_subset hno hsu).length_le.trans hf

/-- With room for all nodes in a wave, every wave of the run fits. -/
theorem fits_of_nodes (hf : g.nodes.length + 1 ≤ cfg.maxFanOut) (hs : PlainSchedule g s) :
    Fits g cfg s := by
  intro s' tasks hr ha
  have hs : PlainSchedule g s' := by
    clear ha
    induction hr with
    | refl => exact hs
    | tail _ hn ih =>
      obtain ⟨tasks, -, rfl⟩ := hn
      exact plainSchedule_quiet hg hdef ih
  constructor
  · rw [← length_map GraphTask.nodeID]
    refine length_le_fanOut hf (nodup_active hg hs ha) fun n hn => ?_
    obtain ⟨t, ht, rfl⟩ := mem_map.mp hn
    exact .inl (active_mem_nodes hs ha ht)
  · rw [tasks_nextResolved, ← length_map GraphTask.nodeID, map_nodeID_staticRouteTasks,
      (KeySort.perm_sort _ _).length_eq]
    refine length_le_fanOut hf (nodup_dedup _) fun n hn => ?_
    obtain ⟨t, -, hn⟩ := mem_flatMap.mp (mem_dedup.mp hn)
    rcases Classical.em (n = endNodeID) with he | he
    · exact .inr he
    · have hed := (edge_default_iff hdef).mpr ⟨hn, he⟩
      exact hg.edges _ _ (edge_iff.mp hed).1

/-- Without cycles below, a most upstream node is not below the next schedule. -/
theorem exists_left_behind (hs : PlainSchedule g s) (ha : g.activeTasks s.ready = .ok tasks)
    (hne : tasks ≠ []) (hac : ∀ v, g.Below s v → ¬ Relation.TransGen g.Edge v v) :
    ∃ v ∈ g.nodes, g.Below s v ∧
      ¬ g.Below (g.scheduleNext (g.nextResolved tasks).tasks s.pending) v := by
  obtain ⟨u, hu⟩ := exists_mem_of_ne_nil tasks hne
  have hwa : ∀ t ∈ tasks, Waits s t.nodeID := fun t ht =>
    have hme := (mem_activeTasks ha).mp ht
    ⟨hme.2, .inl ⟨t, hme.1, rfl⟩⟩
  obtain ⟨t, ht, he, hp, hmi⟩ := exists_ready_most_upstream hs (hwa u hu)
  have hta : t ∈ tasks := (mem_activeTasks ha).mpr ⟨ht, he⟩
  have hnd := active_mem_nodes hs ha hta
  have hb : g.Below s t.nodeID := ⟨_, hwa t hta, Relation.ReflTransGen.refl⟩
  have hno := hac _ hb
  -- a waiting node that reached it would be strictly upstream of it
  have hr : ∀ m, Waits s m → m ∈ g.nodes → ¬ Relation.TransGen g.Edge m t.nodeID := by
    intro m hm hme hpa
    have hup : g.isStrictUpstream m t.nodeID = true := by
      refine isStrictUpstream_iff.mpr ⟨(hg.trimmed m hme).2, hm.1, ?_,
        reaches_iff.mpr ⟨hme, hpa⟩, ?_⟩
      · rintro rfl
        exact hno hpa
      · rw [← Bool.not_eq_true]
        intro hba
        exact hno ((reaches_iff.mp hba).2.trans hpa)
    simp [hmi m hm] at hup
  have hen : endNodeID ∉ s.pending.nodeIDs := fun h => (hs.inner _ h).2 rfl
  refine ⟨t.nodeID, hnd, hb, ?_⟩
  rintro ⟨n, hn, hpa⟩
  rcases (waits_quiet hdef hen).mp hn with hn | ⟨w, hw, hed⟩
  · have hwi : Waits s n := ⟨(hs.inner n hn).2, .inr hn⟩
    rcases Relation.reflTransGen_iff_eq_or_transGen.mp hpa with rfl | hpa
    · exact hp hn
    · exact hr n hwi (hs.inner n hn).1 hpa
  · exact hr w.nodeID (hwa w hw) (active_mem_nodes hs ha hw) (Relation.TransGen.head' hed hpa)

open Classical in
/-- A run ends when what is below its schedule has no cycles and can be routed. -/
theorem exists_ends (hf : Fits g cfg s) (hc : cfg.interruptAfterNodeIDs = [])
    (hs : PlainSchedule g s)
    (hb : ∀ v, g.Below s v → g.Routed v ∧ ¬ Relation.TransGen g.Edge v v) :
    ∃ nodes, Ends g cfg s nodes := by
  -- by the number of nodes below the schedule
  induction hk : (g.nodes.toFinset.filter (g.Below s)).card using Nat.strong_induction_on
    generalizing s with
  | _ k ih =>
    obtain ⟨tasks, ha⟩ : ∃ tasks, g.activeTasks s.ready = .ok tasks := ⟨_, activeTasks_plain hg hs⟩
    rcases Classical.em (tasks = []) with rfl | hne
    · refine ⟨[], Ends.done ?_⟩
      rw [waveStep, ha]
      rfl
    · have hr : ∀ t ∈ tasks, g.Routed t.nodeID := fun t ht =>
        (hb _ ((below_quiet hdef hs ha).mpr (.inl (mem_map_of_mem ht)))).1
      have hsu : ∀ v, g.Below (g.scheduleNext (g.nextResolved tasks).tasks s.pending) v →
          g.Below s v := fun v hv => (below_quiet hdef hs ha).mpr (.inr hv)
      obtain ⟨v, hv, hin, ho⟩ := exists_left_behind hg hdef hs ha hne fun v hv => (hb v hv).2
      have hlt : (g.nodes.toFinset.filter
          (g.Below (g.scheduleNext (g.nextResolved tasks).tasks s.pending))).card < k := by
        rw [← hk]
        refine Finset.card_lt_card (Finset.ssubset_iff_of_subset ?_ |>.mpr ?_)
        · exact Finset.monotone_filter_right _ fun v _ => hsu v
        · refine ⟨v, Finset.mem_filter.mpr ⟨mem_toFinset.mpr hv, hin⟩, fun h => ?_⟩
          exact ho (Finset.mem_filter.mp h).2
      obtain ⟨nodes, he⟩ := ih _ hlt (fun s' tasks hr => hf s' tasks (.head ⟨_, ha, rfl⟩ hr))
        (plainSchedule_quiet hg hdef hs) (fun v hv => hb v (hsu v hv)) rfl
      obtain ⟨hle, hnx⟩ := hf s tasks .refl ha
      have hc : ∀ t ∈ tasks, t.nodeID ∉ cfg.interruptAfterNodeIDs := fun t _ =>
        hc ▸ not_mem_nil
      exact ⟨_, Ends.wave ha ((waveStep_quiet hg hdef hs ha hne).mpr ⟨hle, hr, hnx, hc, rfl⟩) he⟩

end

/-- The wave of `a` and `b` in the graph with one join. -/
def unevenBranches : Schedule :=
  unevenGraph.scheduleNext [newStaticGraphTask "a" 0, newStaticGraphTask "b" 1] TaskMap.empty

theorem wellFormed_unevenGraph : unevenGraph.WellFormed where
  trimmed := by decide
  entry := by decide
  edges := fun n m hm => by
    have ht : ∀ m ∈ unevenGraph.targets, m ∈ unevenGraph.nodes ∨ m = endNodeID := by decide
    exact ht m (mem_targets hm)

theorem unevenBranches_ends :
    Ends unevenGraph ⟨10, []⟩ unevenBranches ["a", "b", "c", "J"] :=
  @Ends.wave _ _ _ _ [newStaticGraphTask "a" 0, newStaticGraphTask "b" 1] _ rfl rfl
    (@Ends.wave _ _ _ _ [newStaticGraphTask "c" 1] _ rfl rfl
      (@Ends.wave _ _ _ _ [newStaticGraphTask "J" 0] _ rfl rfl (.done rfl)))

/-- A run whose tasks all succeed ends if and only if every node that the entry point leads to
can be routed and is on no cycle.  It then executes exactly these nodes. -/
theorem run_ends_iff (hg : g.WellFormed) (hdef : g.DefaultOnly) (he : g.entryPoint ≠ endNodeID)
    (hf : g.nodes.length + 1 ≤ cfg.maxFanOut) (hc : cfg.interruptAfterNodeIDs = []) :
    ((∃ nodes, Ends g cfg g.startSchedule nodes) ↔
      ∀ v, Relation.ReflTransGen g.Edge g.entryPoint v →
        g.Routed v ∧ ¬ Relation.TransGen g.Edge v v) ∧
    ∀ nodes, Ends g cfg g.startSchedule nodes →
      ∀ v, v ∈ nodes ↔ Relation.ReflTransGen g.Edge g.entryPoint v := by
  have hs := plainSchedule_startSchedule hg
  have hw : ∀ n, Waits g.startSchedule n ↔ g.entryPoint = n := by
    intro n
    rw [startSchedule, waits_resumeSchedule (forall_mem_singleton.mpr rfl)]
    simp only [Waiting, StaticAt, not_mem_empty, false_or, mem_singleton, exists_eq_left]
    exact ⟨fun h => h.2.2, fun h => ⟨h ▸ he, rfl, h⟩⟩
  have hb : ∀ v, g.Below g.startSchedule v ↔ Relation.ReflTransGen g.Edge g.entryPoint v := by
    simp [Below, hw]
  constructor
  · constructor
    · rintro ⟨nodes, h⟩ v hv
      exact h.routed_acyclic hg hdef hs ((hb v).mpr hv)
    · intro h
      exact exists_ends hg hdef (fits_of_nodes hg hdef hf hs) hc hs fun v hv => h v ((hb v).mp hv)
  · exact fun nodes h v => (h.mem_iff hg hdef hs).trans (hb v)

theorem uneven_run_ends : Relation.ReflTransGen unevenGraph.Edge "entry" "J" :=
  have h := @Ends.wave _ _ _ _ [newStaticGraphTask "entry" 0] _ rfl rfl unevenBranches_ends
  ((run_ends_iff wellFormed_unevenGraph (fun _ => rfl) (by decide) (by decide) rfl).2 _ h "J").mp
    (by decide)

end Graph

end WeaveFlow
