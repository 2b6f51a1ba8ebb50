import WeaveFlow.Graph.Validate

/-!
# Failure routes beside successful tasks

What a round hands to `scheduleNext` when one of its tasks fails and the failure is routed.
If a node body fails, the successors of the other tasks are resolved and the failure task
is added to them.  If a condition fails, it fails within `resolveCommands`, which then
returns no tasks at all, and `scheduleNext` receives the failure task alone.  So the
successors of the other tasks are lost exactly in the second case, in every wave with more
than one task (`failure_keeps_siblings_iff`).
-/

namespace WeaveFlow

open Option Outcome KeySort List

namespace Graph

variable (g : Graph) (cfg : LoopConfig) (env : WaveEnv)

variable {g cfg env}

variable {handed : List GraphTask} {task failureTask : GraphTask} {waveSize : Nat} {source : String}

/-! ## Successors, task by task -/

namespace Resolved

/-- What two groups of tasks lead to together. -/
def append (r r' : Resolved) : Resolved where
  staticTargets := r.staticTargets ++ r'.staticTargets
  dynamicTasks := r.dynamicTasks ++ r'.dynamicTasks
  suspend := r'.suspend.or r.suspend
  returns := r.returns || r'.returns

/-- All static targets and dynamic tasks that several tasks lead to. -/
def joined (rs : List Resolved) : Resolved where
  staticTargets := rs.flatMap staticTargets
  dynamicTasks := rs.flatMap dynamicTasks

theorem tasks_foldl_append (r : Resolved) :
    (rs.foldl append r).tasks = (r.append (joined rs)).tasks := by
  induction rs generalizing r with
  | nil => simp [joined, append, tasks]
  | cons r' rs ih =>
    rw [foldl_cons, ih]
    simp [joined, append, tasks]

theorem tasks_joined : (rs.foldl append {}).tasks = (joined rs).tasks := by
  rw [tasks_foldl_append]
  rfl

/-- Nothing returns or suspends. -/
def Plain (r : Resolved) : Prop := r.returns = false ∧ r.suspend = none

theorem Plain.foldl_append {rs : List Resolved} {r : Resolved} (hr : r.Plain)
    (h : ∀ r' ∈ rs, r'.Plain) : (rs.foldl append r).Plain := by
  induction rs generalizing r with
  | nil => exact hr
  | cons r' rs ih =>
    obtain ⟨hre, hs⟩ := h r' mem_cons_self
    refine ih ⟨?_, ?_⟩ fun r'' hr'' => h r'' (mem_cons_of_mem _ hr'')
    · rw [append, hr.1, hre]
      rfl
    · rw [append, hr.2, hs]
      rfl

/-- Tasks without successors lead to nothing. -/
theorem tasks_ne_nil {r : Resolved} (h : r.staticTargets ≠ [] ∨ r.dynamicTasks ≠ []) :
    r.tasks ≠ [] := by
  intro hn
  obtain ⟨hs, hd⟩ := append_eq_nil_iff.mp hn
  rcases h with h | h
  · rw [staticRouteTasks, map_eq_nil_iff, zipIdx_eq_nil_iff] at hs
    have hp := (perm_sort (fun a b => decide (a < b)) r.staticTargets.dedup)
    rw [hs] at hp
    exact h ((dedup_eq_nil _).mp hp.symm.eq_nil)
  · rw [numberDynamic, map_eq_nil_iff, zipIdx_eq_nil_iff] at hd
    have hp := perm_sort dynamicLess r.dynamicTasks
    rw [hd] at hp
    exact h hp.symm.eq_nil

end Resolved

variable (g cfg env)

/-- What a task of a wave leads to on its own. -/
def successorsOf (waveSize : Nat) (task : GraphTask) : Except RouteError Resolved :=
  match env.outcome task with
  | .success command => g.resolveCommand env cfg.maxFanOut waveSize {} task command
  | _ => .ok {}

/-- A task that succeeds without a return or suspend command. -/
def Succeeds (env : WaveEnv) (task : GraphTask) : Prop :=
  ∃ command, env.outcome task = .success command ∧ command.returns = false ∧
    command.suspend = false

variable {g cfg env}

/-- What a command adds does not depend on what was there before. -/
theorem resolveCommand_append : g.resolveCommand env maxFanOut waveSize r task command =
      (g.resolveCommand env maxFanOut waveSize {} task command).map r.append := by
  unfold resolveCommand
  split
  · rfl
  split
  · split
    · rfl
    · simp [Except.map, Resolved.append]
  split
  · split
    · rfl
    · cases g.resolveNextTasks env task with
      | error e => rfl
      | ok tasks => simp [bind, Except.bind, pure, Except.pure, Except.map,
          Resolved.appendRouteTasks, Resolved.append]
  split
  · cases g.resolveTargets command.goto with
    | error e => rfl
    | ok targets => simp [bind, Except.bind, pure, Except.pure, Except.map, Resolved.append]
  split
  · split
    · rfl
    · cases g.resolveCommandSends env task command.send 0 with
      | error e => rfl
      | ok tasks => simp [bind, Except.bind, pure, Except.pure, Except.map, Resolved.append]
  · cases g.resolveNextTasks env task with
    | error e => rfl
    | ok tasks => simp [bind, Except.bind, pure, Except.pure, Except.map,
        Resolved.appendRouteTasks, Resolved.append]

/-- The loop of `resolveCommands` over tasks that resolve. -/
theorem resolveEach_append (rest : List GraphTask) (hs : ∀ t ∈ tasks, Succeeds env t)
    (h : tasks.mapM (g.successorsOf cfg env waveSize) = .ok rs) (r : Resolved) :
    g.resolveEach env cfg.maxFanOut waveSize r (tasks ++ rest) =
      g.resolveEach env cfg.maxFanOut waveSize (rs.foldl Resolved.append r) rest := by
  induction tasks generalizing rs r with
  | nil => cases h; rfl
  | cons task tasks ih =>
    rw [mapM_cons] at h
    obtain ⟨first, hf, h⟩ := of_bind h
    obtain ⟨others, ho, h⟩ := of_bind h
    cases h
    obtain ⟨command, hc, -, -⟩ := hs task mem_cons_self
    rw [successorsOf, hc] at hf
    dsimp only at hf
    rw [cons_append, resolveEach, hc, foldl_cons]
    dsimp only
    rw [resolveCommand_append, hf]
    exact ih (forall_mem_cons.mp hs).2 ho _

theorem length_staticRouteTasks (targets : List String) :
    (staticRouteTasks targets).length = targets.length := by
  simp [staticRouteTasks]

theorem length_numberDynamic : (numberDynamic first tasks).length = tasks.length := by
  rw [numberDynamic, length_map, length_zipIdx, (perm_sort _ _).length_eq]

/-- Routing that succeeds finds a task. -/
theorem resolveNextTasks_ne_nil (h : g.resolveNextTasks env parent = .ok tasks) : tasks ≠ [] := by
  rw [← length_pos_iff]
  cases finds_resolveNextTasks h with
  | static hf =>
    rw [length_staticRouteTasks]
    exact length_pos_iff.mpr hf
  | sent hf hs =>
    rw [length_numberDynamic, hs.length]
    exact length_pos_iff.mpr hf

theorem appendRouteTasks_ne_nil (h : tasks ≠ []) :
    (Resolved.appendRouteTasks {} tasks).staticTargets ≠ [] ∨
      (Resolved.appendRouteTasks {} tasks).dynamicTasks ≠ [] := by
  obtain ⟨task, ht⟩ := exists_mem_of_ne_nil _ h
  cases hd : task.dynamic with
  | true =>
    exact .inr (ne_nil_of_mem (mem_filter.mpr ⟨ht, hd⟩))
  | false =>
    left
    intro hn
    have hm : task ∈ tasks.filter fun t => !t.dynamic := mem_filter.mpr ⟨ht, by rw [hd]; rfl⟩
    simp [map_eq_nil_iff.mp hn] at hm

/-- A task that succeeds without a return or suspend command leads somewhere. -/
theorem successorsOf_spec (hs : Succeeds env task)
    (h : g.successorsOf cfg env waveSize task = .ok r) :
    r.Plain ∧ (r.staticTargets ≠ [] ∨ r.dynamicTasks ≠ []) := by
  obtain ⟨command, hc, hr, hsu⟩ := hs
  rw [successorsOf, hc] at h
  dsimp only at h
  unfold resolveCommand at h
  split at h
  · cases h
  rw [if_neg (by rw [hr]; exact Bool.false_ne_true),
    if_neg (by rw [hsu]; exact Bool.false_ne_true)] at h
  split at h
  next hg =>
    obtain ⟨targets, ht, h⟩ := of_bind h
    cases h
    refine ⟨⟨rfl, rfl⟩, .inl ?_⟩
    rw [nil_append, ← length_pos_iff, (resolveTargets_eq_ok ht).1]
    exact length_pos_iff.mpr hg
  split at h
  next hse =>
    split at h
    · cases h
    · obtain ⟨tasks, hta, h⟩ := of_bind h
      cases h
      refine ⟨⟨rfl, rfl⟩, .inr ?_⟩
      rw [nil_append, ← length_pos_iff, (sent_resolveCommandSends hta).length]
      exact length_pos_iff.mpr hse
  · obtain ⟨tasks, hta, h⟩ := of_bind h
    cases h
    exact ⟨⟨rfl, rfl⟩, appendRouteTasks_ne_nil (resolveNextTasks_ne_nil hta)⟩

theorem mapM_successorsOf_spec {rs : List Resolved} (hs : ∀ t ∈ tasks, Succeeds env t)
    (h : tasks.mapM (g.successorsOf cfg env waveSize) = .ok rs) :
    (∀ r ∈ rs, r.Plain) ∧ (tasks ≠ [] → (Resolved.joined rs).tasks ≠ []) := by
  induction tasks generalizing rs with
  | nil =>
    cases h
    exact ⟨(fun r hr => by cases hr), fun hne => absurd rfl hne⟩
  | cons task tasks ih =>
    rw [mapM_cons] at h
    obtain ⟨first, hf, h⟩ := of_bind h
    obtain ⟨others, ho, h⟩ := of_bind h
    cases h
    obtain ⟨hp, hso⟩ := successorsOf_spec (hs task mem_cons_self) hf
    obtain ⟨hre, -⟩ := ih (forall_mem_cons.mp hs).2 ho
    refine ⟨?_, fun _ => Resolved.tasks_ne_nil ?_⟩
    · intro r hr
      rcases mem_cons.mp hr with rfl | hr
      · exact hp
      · exact hre r hr
    · rcases hso with hso | hso
      · exact .inl fun hn => hso (append_eq_nil_iff.mp hn).1
      · exact .inr fun hn => hso (append_eq_nil_iff.mp hn).1

/-! ## The checks of fewer tasks -/

theorem dynamicJoinTasks_append (h : g.dynamicJoinTasks pending (left ++ right) found = .ok joins) :
    ∃ first, g.dynamicJoinTasks pending left found = .ok first ∧
      g.dynamicJoinTasks pending right first = .ok joins := by
  induction left generalizing found with
  | nil => exact ⟨found, rfl, h⟩
  | cons entry left ih =>
    rw [cons_append, dynamicJoinTasks] at h
    rw [dynamicJoinTasks]
    split at h
    next hs =>
      rw [if_pos hs]
      exact ih h
    next hs =>
      split at h
      · cases h
      next ha =>
        split at h
        · cases h
        next hp =>
          rw [if_neg hs, if_neg ha, if_neg hp]
          exact ih h

theorem dynamicJoinTasks_subset {tasks found joins : List (GraphTask × Nat)}
    (h : g.dynamicJoinTasks pending tasks found = .ok joins) : found ⊆ joins := by
  induction tasks generalizing found with
  | nil => cases h; exact List.Subset.refl _
  | cons entry tasks ih =>
    rw [dynamicJoinTasks] at h
    split at h
    · exact ih h
    · split at h
      · cases h
      · split at h
        · cases h
        · exact List.Subset.trans (subset_append_left _ _) (ih h)

theorem checkOtherTasks_append (h : g.checkOtherTasks task i (left ++ right) = .ok u) :
    g.checkOtherTasks task i left = .ok () := by
  induction left with
  | nil => rfl
  | cons entry left ih =>
    rw [cons_append, checkOtherTasks] at h
    rw [checkOtherTasks]
    split at h
    next hs =>
      rw [if_pos hs]
      exact ih h
    next hs =>
      split at h
      · cases h
      next hn =>
        split at h
        · cases h
        next hup =>
          rw [if_neg hs, if_neg hn, if_neg hup]
          exact ih h

theorem validateNextTasks_eq_ok : g.validateNextTasks maxFanOut tasks pending = .ok u ↔
      tasks.length ≤ maxFanOut ∧ ∃ joins, g.dynamicJoinTasks pending tasks.zipIdx [] = .ok joins ∧
        ∀ join ∈ joins, g.checkOtherTasks join.1 join.2 tasks.zipIdx = .ok () := by
  unfold validateNextTasks
  split
  next hl =>
    constructor
    · intro h; cases h
    · rintro ⟨hle, -⟩
      exact absurd hle (Nat.not_le.mpr hl)
  next hl =>
    rw [bind_eq_ok]
    constructor
    · rintro ⟨joins, hj, hc⟩
      exact ⟨Nat.not_lt.mp hl, joins, hj, forM_eq_ok.mp hc⟩
    · rintro ⟨-, joins, hj, hc⟩
      exact ⟨joins, hj, forM_eq_ok.mpr hc⟩

/-- The first tasks of a list that passes the checks pass them. -/
theorem validateNextTasks_append {left right : List GraphTask}
    (h : g.validateNextTasks maxFanOut (left ++ right) pending = .ok ()) :
    g.validateNextTasks maxFanOut left pending = .ok () := by
  obtain ⟨hl, joins, hj, hc⟩ := validateNextTasks_eq_ok.mp h
  rw [zipIdx_append] at hj hc
  obtain ⟨first, hf, hr⟩ := dynamicJoinTasks_append hj
  refine validateNextTasks_eq_ok.mpr ⟨?_, first, hf, fun join hjo => ?_⟩
  · rw [length_append] at hl
    omega
  · exact checkOtherTasks_append (hc join (dynamicJoinTasks_subset hr hjo))

/-! ## One failure in a wave -/

/-- A task of a wave fails, in its node body or in a condition, and its failure is routed. -/
inductive FailsWith (g : Graph) (cfg : LoopConfig) (env : WaveEnv) (waveSize : Nat)
    (task : GraphTask) : FailureStage → GraphTask → Prop where
  | node {e : NodeError} {failureTask : GraphTask} (outcome : env.outcome task = .error e)
      (routed : g.resolveNodeFailure task e = [failureTask]) :
      FailsWith g cfg env waveSize task .node failureTask
  | condition {command : Command} {source target : String} {failure : ConditionFailure}
      {failureTask : GraphTask} (outcome : env.outcome task = .success command)
      (resolves : g.resolveCommand env cfg.maxFanOut waveSize {} task command =
        .error (.condition source target failure))
      (routed : g.resolveConditionFailure task source failure = [failureTask]) :
      FailsWith g cfg env waveSize task .condition failureTask

theorem failureTasks_eq_cons
    (h : g.failureTasks task source stage errorClass text = failureTask :: more) :
    failureTask.dynamic = false ∧ ∀ other : GraphTask,
      g.failureTasks other source stage errorClass text = [{ failureTask with
        taskID := "failure-" ++ other.taskID, order := other.order }] := by
  unfold failureTasks at h ⊢
  split at h
  · cases h
  next route hr =>
    cases h
    exact ⟨rfl, fun other => rfl⟩

theorem resolveConditionFailure_eq_cons {failure : ConditionFailure}
    (h : g.resolveConditionFailure task source failure = failureTask :: more) :
    ∀ other : GraphTask, ∃ failureTask', g.resolveConditionFailure other source failure =
      [failureTask'] := by
  intro other
  unfold resolveConditionFailure at h ⊢
  split at h
  · cases h
  next hr =>
    rw [if_neg hr]
    exact ⟨_, (failureTasks_eq_cons h).2 other⟩

theorem resolveNodeFailure_static (h : g.resolveNodeFailure task e = failureTask :: more) :
    failureTask.dynamic = false := by
  unfold resolveNodeFailure at h
  split at h
  · exact (failureTasks_eq_cons h).1
  · cases h

theorem interruptedTasks_of_success (h : ∀ t ∈ tasks, Succeeds env t) :
    interruptedTasks env tasks = [] := by
  refine filter_eq_nil_iff.mpr fun t ht => ?_
  obtain ⟨command, hc, -, -⟩ := h t ht
  rw [hc]
  exact of_decide_eq_false rfl

theorem failedTasks_of_success (h : ∀ t ∈ tasks, Succeeds env t) : failedTasks env tasks = [] := by
  refine filterMap_eq_nil_iff.mpr fun t ht => ?_
  obtain ⟨command, hc, -, -⟩ := h t ht
  rw [hc]

section OneFailure

variable {s : Schedule} {before after : List GraphTask} {task failureTask : GraphTask}
  {rs : List Resolved}

/-- A wave that runs hands on what its branch hands on. -/
theorem handedTasks_of_active (ha : g.activeTasks s.ready = .ok tasks) (hne : tasks ≠ [])
    (hf : tasks.length ≤ cfg.maxFanOut) (hi : interruptedTasks env tasks = []) :
    (failedTasks env tasks = [] →
      g.handedTasks cfg env s = g.completeWaveTasks cfg env s.pending tasks) ∧
    ∀ t e, failedTasks env tasks = [(t, e)] →
      g.handedTasks cfg env s = g.failureWaveTasks cfg env s.pending tasks t e := by
  have hfa : ¬ tasks.length > cfg.maxFanOut := Nat.not_lt.mpr hf
  constructor
  · intro hfi
    simp only [handedTasks, ha, if_neg hne, if_neg hfa, hi, hfi]
  · intro t e hfi
    simp only [handedTasks, ha, if_neg hne, if_neg hfa, hi, hfi]

variable (ha : g.activeTasks s.ready = .ok (before ++ task :: after))
  (hf : (before ++ task :: after).length ≤ cfg.maxFanOut)
  (hot : ∀ t ∈ before ++ after, Succeeds env t)
  (hrs : (before ++ after).mapM (g.successorsOf cfg env (before ++ task :: after).length) = .ok rs)

include hot hrs in
/-- The successors of the other tasks of a wave in which a node body failed. -/
theorem resolveCommands_of_node_failure {e : NodeError} (ho : env.outcome task = .error e) :
    g.resolveCommands env cfg.maxFanOut (before ++ task :: after) =
      .ok (rs.foldl Resolved.append {}) := by
  rw [mapM_append] at hrs
  obtain ⟨rsBefore, hb, hrs⟩ := of_bind hrs
  obtain ⟨rsAfter, ha, hrs⟩ := of_bind hrs
  cases hrs
  rw [resolveCommands, resolveEach_append _ (fun t ht => hot t (mem_append_left _ ht)) hb,
    resolveEach, ho]
  have hr := resolveEach_append [] (fun t ht => hot t (mem_append_right _ ht)) ha
  rw [append_nil] at hr
  rw [hr, foldl_append]
  rfl

include hot hrs in
/-- In a wave with a failed condition, no successor is resolved. -/
theorem resolveCommands_of_condition_failure {command : Command} {routeError : RouteError}
    (ho : env.outcome task = .success command)
    (hr : g.resolveCommand env cfg.maxFanOut (before ++ task :: after).length {} task command =
      .error routeError) :
    g.resolveCommands env cfg.maxFanOut (before ++ task :: after) = .error routeError := by
  rw [mapM_append] at hrs
  obtain ⟨rsBefore, hb, hrs⟩ := of_bind hrs
  rw [resolveCommands, resolveEach_append _ (fun t ht => hot t (mem_append_left _ ht)) hb,
    resolveEach, ho]
  dsimp only
  rw [resolveCommand_append, hr]
  rfl

include ha hf hot hrs in
theorem handedTasks_of_node_failure {e : NodeError} (ho : env.outcome task = .error e)
    (hr : g.resolveNodeFailure task e = [failureTask]) :
    g.handedTasks cfg env s =
      g.checkedTasks cfg ((Resolved.joined rs).tasks ++ [failureTask]) s.pending := by
  have hi : interruptedTasks env (before ++ task :: after) = [] := by
    rw [interruptedTasks, filter_append, filter_cons_of_neg (by rw [ho]; exact nofun),
      ← filter_append]
    exact interruptedTasks_of_success hot
  have hfa : failedTasks env (before ++ task :: after) = [(task, e)] := by
    rw [failedTasks, filterMap_append, filterMap_cons_some (by rw [ho])]
    have hn := failedTasks_of_success hot
    rw [failedTasks, filterMap_append, append_eq_nil_iff] at hn
    rw [hn.1, hn.2]
    rfl
  rw [(handedTasks_of_active ha (append_ne_nil_of_right_ne_nil _ (cons_ne_nil _ _))
    hf hi).2 task e hfa]
  have hp := Resolved.Plain.foldl_append (r := {}) ⟨rfl, rfl⟩ (mapM_successorsOf_spec hot hrs).1
  unfold failureWaveTasks
  rw [hr]
  rw [resolveCommands_of_node_failure hot hrs ho]
  dsimp only
  rw [hp.1, hp.2, Resolved.tasks_joined]
  -- the parts pass the checks whenever the whole list does
  cases hw : g.checkedTasks cfg ((Resolved.joined rs).tasks ++ [failureTask]) s.pending with
  | none =>
    cases hfi : g.checkedTasks cfg [failureTask] s.pending with
    | none => rfl
    | some first =>
      cases hs : g.checkedTasks cfg (Resolved.joined rs).tasks s.pending with
      | none => rfl
      | some second =>
        obtain ⟨-, rfl⟩ := checkedTasks_eq_some.mp hs
        exact hw
  | some handed =>
    obtain ⟨hv, rfl⟩ := checkedTasks_eq_some.mp hw
    have hfi : g.validateNextTasks cfg.maxFanOut [failureTask] s.pending = .ok () := by
      have hl := (validateNextTasks_eq_ok.mp hv).1
      rw [length_append] at hl
      refine (validateNextTasks_static _ _ ?_).mpr ((Nat.le_add_left _ _).trans hl)
      intro t ht
      rw [mem_singleton.mp ht]
      exact resolveNodeFailure_static hr
    rw [checkedTasks_eq_some.mpr ⟨hfi, rfl⟩,
      checkedTasks_eq_some.mpr ⟨validateNextTasks_append hv, rfl⟩]
    exact hw

include ha hf hot hrs in
theorem handedTasks_of_condition_failure {command : Command} {source target : String}
    {failure : ConditionFailure} (ho : env.outcome task = .success command)
    (hr : g.resolveCommand env cfg.maxFanOut (before ++ task :: after).length {} task command =
      .error (.condition source target failure))
    (hro : g.resolveConditionFailure task source failure = [failureTask]) :
    ∃ failureTask', g.handedTasks cfg env s = g.checkedTasks cfg [failureTask'] s.pending ∧
      (before ++ after = [] → failureTask' = failureTask) := by
  have hi : interruptedTasks env (before ++ task :: after) = [] := by
    rw [interruptedTasks, filter_append,
      filter_cons_of_neg (by rw [ho]; exact Bool.false_ne_true), ← filter_append]
    exact interruptedTasks_of_success hot
  have hfa : failedTasks env (before ++ task :: after) = [] := by
    rw [failedTasks, filterMap_append, filterMap_cons_none (by rw [ho]), ← filterMap_append]
    exact failedTasks_of_success hot
  rw [(handedTasks_of_active ha (append_ne_nil_of_right_ne_nil _ (cons_ne_nil _ _)) hf hi).1 hfa]
  obtain ⟨picked, hp, hal⟩ : ∃ picked,
      ((before ++ task :: after).find? fun t => t.nodeID = source).or
        (before ++ task :: after).head? = some picked ∧ (before ++ after = [] → picked = task) := by
    cases hfi : (before ++ task :: after).find? fun t => t.nodeID = source with
    | some found =>
      refine ⟨found, rfl, fun hn => ?_⟩
      obtain ⟨rfl, rfl⟩ := append_eq_nil_iff.mp hn
      exact mem_singleton.mp (mem_of_find?_eq_some hfi)
    | none =>
      cases before with
      | nil => exact ⟨task, rfl, fun _ => rfl⟩
      | cons first rest => exact ⟨first, rfl, fun hn => by cases hn⟩
  obtain ⟨failureTask', hru⟩ := resolveConditionFailure_eq_cons hro picked
  refine ⟨failureTask', ?_, ?_⟩
  · unfold completeWaveTasks
    rw [resolveCommands_of_condition_failure hot hrs ho hr]
    dsimp only
    rw [hp]
    dsimp only [bind_eq_bind, bind_some]
    rw [hru]
  · intro hn
    rw [hal hn, hro] at hru
    exact (List.cons.inj hru).1.symm

/-- A wave in which one task fails and its failure is routed, while all other tasks succeed
without a return or suspend command and resolve their successors.  `scheduleNext` receives
exactly the successors of the successful tasks and the failure task if and only if a node body
failed or no other task is in the wave (and the tasks pass the checks of `validateNextTasks`,
without which `scheduleNext` is not called).  In these cases it never receives anything else. -/
theorem failure_keeps_siblings_iff {stage : FailureStage}
    (hactive : g.activeTasks s.ready = .ok (before ++ task :: after))
    (hfanOut : (before ++ task :: after).length ≤ cfg.maxFanOut)
    (hfails : g.FailsWith cfg env (before ++ task :: after).length task stage failureTask)
    (hothers : ∀ t ∈ before ++ after, Succeeds env t)
    (hrs : (before ++ after).mapM (g.successorsOf cfg env (before ++ task :: after).length) =
      .ok rs) :
    (g.handedTasks cfg env s = some ((Resolved.joined rs).tasks ++ [failureTask]) ↔
      (stage = .node ∨ before ++ after = []) ∧ g.validateNextTasks cfg.maxFanOut
        ((Resolved.joined rs).tasks ++ [failureTask]) s.pending = .ok ()) ∧
    (stage = .node ∨ before ++ after = [] → ∀ handed, g.handedTasks cfg env s = some handed →
      handed = (Resolved.joined rs).tasks ++ [failureTask]) := by
  cases hfails with
  | node ho hr =>
    rw [handedTasks_of_node_failure hactive hfanOut hothers hrs ho hr]
    refine ⟨?_, fun _ handed h => (checkedTasks_eq_some.mp h).2⟩
    rw [checkedTasks_eq_some]
    exact ⟨fun h => ⟨.inl rfl, h.1⟩, fun h => ⟨h.2, rfl⟩⟩
  | condition ho hre hr =>
    obtain ⟨failureTask', hh, ha⟩ :=
      handedTasks_of_condition_failure hactive hfanOut hothers hrs ho hre hr
    rw [hh]
    by_cases hn : before ++ after = []
    · have hno : (Resolved.joined rs).tasks = [] := by
        rw [hn] at hrs
        cases hrs
        rfl
      rw [ha hn, hno, nil_append]
      refine ⟨?_, fun _ handed h => (checkedTasks_eq_some.mp h).2⟩
      rw [checkedTasks_eq_some]
      exact ⟨fun h => ⟨.inr hn, h.1⟩, fun h => ⟨h.2, rfl⟩⟩
    · have hs := (mapM_successorsOf_spec hothers hrs).2 hn
      have hst : ¬ (FailureStage.condition = .node ∨ before ++ after = []) := by
        rintro (h | h)
        · cases h
        · exact hn h
      refine ⟨?_, fun h => absurd h hst⟩
      constructor
      · intro h
        have hon := congrArg List.length (checkedTasks_eq_some.mp h).2
        rw [length_append] at hon
        exact absurd (length_eq_zero_iff.mp (Nat.succ.inj hon)) hs
      · intro h
        exact absurd h.1 hst

end OneFailure

/-! ## A graph with a failure route -/

/-- `start` leads to `a` and `b`; `a` has a condition and a failure route to `h`, and `b` leads
to `c`. -/
def routedGraph : Graph where
  nodes := ["start", "a", "b", "c", "h"]
  entryPoint := "start"
  finishPoint := ""
  defaultEdges := ((((SortedMap.empty.put "start" ["a", "b"]).put "a" [endNodeID]).put "b"
    ["c"]).put "c" [endNodeID]).put "h" [endNodeID]
  conditionalEdges := SortedMap.empty.put "a" [endNodeID]
  failureRoutes := SortedMap.empty.put "a"
    [{ target := "h", stages := [], errorClasses := [], catchAll := true }]

theorem routedGraph_valid : Built routedGraph ∧
    routedGraph.validate ⟨.ok (), fun _ _ => .ok (), .ok ()⟩ = .ok () := by
  refine ⟨?_, rfl⟩
  have hn := ((((Built.new.addNode "start" rfl).addNode "a" rfl).addNode "b" rfl).addNode "c"
    rfl).addNode "h" rfl
  have he := hn.setEntryPoint "start" rfl
  have hf := (he.addEdge "start" "a" rfl).addEdge "start" "b" rfl
  have hed := (((hf.addEdge "a" endNodeRef rfl).addEdge "b" "c" rfl).addEdge "c" endNodeRef
    rfl).addEdge "h" endNodeRef rfl
  exact (hed.addConditionalEdge "a" endNodeRef rfl).addFailureRoute "a" "h"
    { target := "", stages := [], errorClasses := [], catchAll := true } rfl

/-- All bodies succeed without a command, except the body of `a` if it fails; the condition of
`a` fails. -/
def routedEnv (bodyFails : Bool) : WaveEnv where
  outcome t := if bodyFails && t.nodeID = "a" then .error ⟨"boom", true, "transient"⟩ else .success {}
  condition _ _ := .error ⟨"no field", false, false⟩
  dynamicTaskID _ _ _ := "send"
  sendInputOK _ _ := true

/-- The wave `a`, `b`. -/
def routedWave : Schedule := routedGraph.scheduleNext (staticRouteTasks ["a", "b"]) .empty

/-- The body of `a` fails: the successor of `b` is handed on with the failure task. -/
theorem body_failure_keeps_successor :
    ∃ failureTask : GraphTask, failureTask.nodeID = "h" ∧
      routedGraph.handedTasks ⟨10, []⟩ (routedEnv true) routedWave =
        some [newStaticGraphTask "c" 0, failureTask] := by
  have ha : routedGraph.activeTasks routedWave.ready =
      .ok ([] ++ newStaticGraphTask "a" 0 :: [newStaticGraphTask "b" 1]) := rfl
  have hs : ∀ t ∈ [] ++ [newStaticGraphTask "b" 1], Succeeds (routedEnv true) t := by
    intro t ht
    rw [mem_singleton.mp ht]
    exact ⟨{}, rfl, rfl, rfl⟩
  have hrs : ([] ++ [newStaticGraphTask "b" 1]).mapM
      (routedGraph.successorsOf ⟨10, []⟩ (routedEnv true) 2) =
        .ok [{ staticTargets := ["c"] }] := rfl
  have h := failure_keeps_siblings_iff ha (by decide) (.node rfl rfl) hs hrs
  exact ⟨_, rfl, h.1.mpr ⟨.inl rfl, rfl⟩⟩

/-- The condition of `a` fails: only the failure task is handed on, and the successor `c` of
`b` is lost. -/
theorem condition_failure_loses_successor : ∃ (s : Schedule) (failureTask : GraphTask),
      (Built routedGraph ∧ routedGraph.validate ⟨.ok (), fun _ _ => .ok (), .ok ()⟩ = .ok ()) ∧
      routedGraph.Reached (.running s) ∧
      routedGraph.activeTasks s.ready = .ok [newStaticGraphTask "a" 0, newStaticGraphTask "b" 1] ∧
      routedGraph.FailsWith ⟨10, []⟩ (routedEnv false) 2 (newStaticGraphTask "a" 0) .condition
        failureTask ∧
      Succeeds (routedEnv false) (newStaticGraphTask "b" 1) ∧
      routedGraph.successorsOf ⟨10, []⟩ (routedEnv false) 2 (newStaticGraphTask "b" 1) =
        .ok { staticTargets := ["c"] } ∧
      routedGraph.handedTasks ⟨10, []⟩ (routedEnv false) s = some [failureTask] ∧
      failureTask.nodeID = "h" := by
  have hr : routedGraph.Reached
      (routedGraph.waveStep ⟨10, []⟩ (routedEnv false) routedGraph.startSchedule) :=
    Relation.ReflTransGen.single (.wave _ _ _)
  exact ⟨_, _, routedGraph_valid, hr, rfl, .condition rfl rfl rfl, ⟨{}, rfl, rfl, rfl⟩, rfl,
    rfl, rfl⟩

end Graph

end WeaveFlow
