import WeaveFlow.Graph.Collector
import WeaveFlow.State.MergeOrder

/-!
# The order in which the tasks of a wave finish

The patches of a wave are recorded as its tasks finish.  The merged state does not depend on
that order exactly when the order table settles the keys of all branches beforehand
(`mergeCompiledResults_independent_iff`): at most one node of the wave is missing from the
table, and no two tasks have the same order at the same node.
-/

namespace WeaveFlow

open SortedMap State CompilePatchCollector List

/-- The tasks of a wave record their patches in the order in which they finish. -/
def recordAll (c : CompilePatchCollector) (base : Nat) (patchOf : GraphTask → Patch)
    (finished : List GraphTask) : CompilePatchCollector :=
  finished.foldl (fun c task => c.record base task (patchOf task)) c

/-- The state after a wave whose tasks have all succeeded. -/
def waveResult (engine : SchemaEngine) (ranges : RangeOrders) (options : ParallelMergeOptions)
    (c : CompilePatchCollector) (base : Nat) (current : State) (patchOf : GraphTask → Patch)
    (finished : List GraphTask) : Except MergeResultsError State :=
  mergeCompiledResults engine ranges options (recordAll c base patchOf finished) base current
    finished.length

/-- The state after the wave does not depend on the order in which its tasks finish. -/
def CompletionIndependent (c : CompilePatchCollector) (base : Nat) (tasks : List GraphTask) :
    Prop :=
  ∀ engine ranges options current patchOf (finished finished' : List GraphTask),
    finished.Perm tasks → finished'.Perm tasks →
    ∀ merged, waveResult engine ranges options c base current patchOf finished = .ok merged →
      ∃ merged', waveResult engine ranges options c base current patchOf finished' = .ok merged' ∧
        merged'.JSONEq merged

/-! ## What the collector holds after a wave -/

/-- The branches of tasks that finish one after the other. -/
def recordedBranches (patchOf : GraphTask → Patch) :
    SortedMap String Int → List GraphTask → List BranchPatch
  | _, [] => []
  | orders, task :: rest =>
    ⟨task.taskID, task.nodeID, (orderFor orders task).1, patchOf task⟩ ::
      recordedBranches patchOf (orderFor orders task).2 rest

theorem storeBranch_new (h : ∀ b ∈ branches, b.taskID ≠ branch.taskID) :
    storeBranch branch branches = branches ++ [branch] := by
  induction branches with
  | nil => rfl
  | cons b rest ih =>
    rw [storeBranch, if_neg (h b mem_cons_self),
      ih (forall_mem_cons.mp h).2, cons_append]

theorem branchesOf_store (c : CompilePatchCollector) (base : Nat) (task : GraphTask)
    (patch : Patch) :
    (c.store base task patch).branchesOf base =
      storeBranch ⟨task.taskID, task.nodeID, (orderFor c.orders task).1, patch⟩
        (c.branchesOf base) := by
  rw [branchesOf, store, get_put, if_pos rfl, Option.getD_some]

variable {ranges : RangeOrders} {tasks : List GraphTask} {c : CompilePatchCollector}
  {orders : SortedMap String Int} {base : Nat} {u t : GraphTask}

theorem branchesOf_recordAll (patchOf : GraphTask → Patch) (base : Nat)
    (hi : finished.Pairwise fun t u => t.taskID ≠ u.taskID)
    (hn : ∀ t ∈ finished, ∀ b ∈ c.branchesOf base, b.taskID ≠ t.taskID)
    (ha : ∀ t ∈ finished, t.taskID ∉ c.abandonedOf base) :
    (recordAll c base patchOf finished).branchesOf base =
      c.branchesOf base ++ recordedBranches patchOf c.orders finished := by
  induction finished generalizing c with
  | nil => simp [recordAll, recordedBranches]
  | cons t rest ih =>
    obtain ⟨hh, hr⟩ := pairwise_cons.mp hi
    have hrec : c.record base t (patchOf t) = c.store base t (patchOf t) := by
      rw [record, if_neg (ha t mem_cons_self)]
    have hbr := branchesOf_store c base t (patchOf t)
    rw [storeBranch_new (hn t mem_cons_self)] at hbr
    show (recordAll (c.record base t (patchOf t)) base patchOf rest).branchesOf base = _
    have hru : (recordAll (c.store base t (patchOf t)) base patchOf rest).branchesOf base = _ :=
      ih hr ?_ (forall_mem_cons.mp ha).2
    · rw [hrec, hru, hbr, append_assoc]
      rfl
    · intro u hu b hb
      rw [hbr, mem_append, mem_singleton] at hb
      rcases hb with hb | rfl
      · exact hn u (mem_cons_of_mem _ hu) b hb
      · exact hh u hu

/-- Before the wave nothing is recorded for its base, and none of its tasks is given up. -/
structure Fresh (c : CompilePatchCollector) (base : Nat) (tasks : List GraphTask) : Prop where
  ids : tasks.Pairwise fun t u => t.taskID ≠ u.taskID
  empty : c.branchesOf base = []
  alive : ∀ t ∈ tasks, t.taskID ∉ c.abandonedOf base

theorem Fresh.perm (h : Fresh c base tasks) (hp : finished.Perm tasks) : Fresh c base finished :=
  ⟨(hp.pairwise_iff fun hne => Ne.symm hne).mpr h.ids, h.empty,
    fun t ht => h.alive t (hp.mem_iff.mp ht)⟩

theorem length_recordedBranches (patchOf : GraphTask → Patch) (orders : SortedMap String Int)
    (finished : List GraphTask) :
    (recordedBranches patchOf orders finished).length = finished.length := by
  induction finished generalizing orders with
  | nil => rfl
  | cons t rest ih => rw [recordedBranches, length_cons, ih, length_cons]

theorem waveResult_eq_ok (h : Fresh c base finished) :
    waveResult engine ranges options c base current patchOf finished = .ok merged ↔
      mergeParallelPatches engine ranges current (recordedBranches patchOf c.orders finished)
        options = .ok merged := by
  have hbr : (recordAll c base patchOf finished).branchesOf base =
      recordedBranches patchOf c.orders finished := by
    rw [branchesOf_recordAll patchOf base h.ids _ h.alive, h.empty, nil_append]
    intro t _ b hb
    simp [h.empty] at hb
  have hl := length_recordedBranches patchOf c.orders finished
  rw [waveResult, mergeCompiledResults, consume, hbr]
  cases finished with
  | nil =>
    simp only [length_nil, if_true, recordedBranches, mergeParallelPatches, isEmpty_nil, clone_eq]
    exact ⟨fun he => by cases he; rfl, fun he => by cases he; rfl⟩
  | cons t rest =>
    simp only [length_cons, Nat.add_eq_zero_iff, Nat.one_ne_zero, and_false, if_false,
      hl, ne_eq, not_true_eq_false]
    cases mergeParallelPatches engine ranges current
        (recordedBranches patchOf c.orders (t :: rest)) options with
    | error e => simp
    | ok s => simp

/-! ## Settled orders -/

/-- The order of a task when at most one node is missing from the table. -/
def branchOrder (orders : SortedMap String Int) (task : GraphTask) : Int :=
  if task.dynamic then task.order else (orders.get task.nodeID).getD orders.keys.length

/-- The node of a static task that the table does not know. -/
def Missing (orders : SortedMap String Int) (task : GraphTask) : Prop :=
  task.dynamic = false ∧ orders.get task.nodeID = none

instance (orders : SortedMap String Int) (task : GraphTask) : Decidable (Missing orders task) :=
  inferInstanceAs (Decidable (_ ∧ _))

/-- The static tasks at missing nodes are all at one node. -/
def OneMissing (orders : SortedMap String Int) (tasks : List GraphTask) : Prop :=
  ∀ t ∈ tasks, ∀ u ∈ tasks, Missing orders t → Missing orders u → t.nodeID = u.nodeID

instance (orders : SortedMap String Int) (tasks : List GraphTask) :
    Decidable (OneMissing orders tasks) := inferInstanceAs (Decidable (∀ t ∈ tasks, _))

/-- The order table settles the keys of all branches of the wave. -/
def SettledOrders (orders : SortedMap String Int) (tasks : List GraphTask) : Prop :=
  OneMissing orders tasks ∧
    tasks.Pairwise fun t u =>
      branchOrder orders t ≠ branchOrder orders u ∨ t.nodeID ≠ u.nodeID

instance (orders : SortedMap String Int) (tasks : List GraphTask) :
    Decidable (SettledOrders orders tasks) := inferInstanceAs (Decidable (_ ∧ _))

/-- The branch of a task under a table that settles its order. -/
def branchOf (orders : SortedMap String Int) (patchOf : GraphTask → Patch) (task : GraphTask) :
    BranchPatch :=
  ⟨task.taskID, task.nodeID, branchOrder orders task, patchOf task⟩

theorem orderFor_eq (orders : SortedMap String Int) (task : GraphTask) :
    orderFor orders task = (branchOrder orders task,
      if Missing orders task then orders.put task.nodeID orders.keys.length else orders) := by
  rw [orderFor, branchOrder]
  cases hd : task.dynamic with
  | true => simp [Missing, hd]
  | false =>
    cases ho : orders.get task.nodeID with
    | some order => simp [Missing, ho]
    | none => simp [Missing, hd, ho]

/-- Entering the missing node does not change the order of another task. -/
theorem branchOrder_put (h : Missing orders u → t.nodeID = u.nodeID) (ht : Missing orders t) :
    branchOrder (orders.put t.nodeID orders.keys.length) u = branchOrder orders u := by
  rw [branchOrder, branchOrder]
  cases hd : u.dynamic with
  | true => rfl
  | false =>
    simp only [Bool.false_eq_true, if_false, get_put]
    split
    next he => rw [he, ht.2]; rfl
    next hne =>
      cases ho : orders.get u.nodeID with
      | some order => rfl
      | none => exact absurd (h ⟨hd, ho⟩).symm hne

theorem recordedBranches_eq_map (h : OneMissing orders finished) :
    recordedBranches patchOf orders finished = finished.map (branchOf orders patchOf) := by
  induction finished generalizing orders with
  | nil => rfl
  | cons t rest ih =>
    rw [recordedBranches, orderFor_eq, map_cons]
    refine congrArg₂ List.cons rfl ?_
    split
    next ht =>
      have hs : ∀ u ∈ rest, Missing orders u → t.nodeID = u.nodeID := fun u hu =>
        h t mem_cons_self u (mem_cons_of_mem _ hu) ht
      -- once the missing node is entered, no task of the rest is at a missing node
      have hn : ∀ u ∈ rest, ¬ Missing (orders.put t.nodeID orders.keys.length) u := by
        rintro u hu ⟨hd, ho⟩
        rw [get_put] at ho
        split at ho
        · cases ho
        next hne => exact hne (hs u hu ⟨hd, ho⟩).symm
      rw [ih fun u hu v _ hmu _ => absurd hmu (hn u hu)]
      refine map_congr_left fun u hu => ?_
      rw [branchOf, branchOf, branchOrder_put (hs u hu) ht]
    · exact ih fun u hu v hv => h u (mem_cons_of_mem _ hu) v (mem_cons_of_mem _ hv)

theorem OneMissing.perm (h : OneMissing orders tasks) (hp : finished.Perm tasks) :
    OneMissing orders finished :=
  fun t ht u hu => h t (hp.mem_iff.mp ht) u (hp.mem_iff.mp hu)

theorem independent_of_settled (hf : Fresh c base tasks) (h : SettledOrders c.orders tasks) :
    CompletionIndependent c base tasks := by
  intro engine ranges options current patchOf finished finished' hp hp' merged hm
  rw [waveResult_eq_ok (hf.perm hp), recordedBranches_eq_map (h.1.perm hp)] at hm
  refine ⟨merged, ?_, rfl⟩
  rw [waveResult_eq_ok (hf.perm hp'), recordedBranches_eq_map (h.1.perm hp')]
  refine (mergeParallelPatches_perm ((hp.trans hp'.symm).map _) ?_).mp hm
  have hk : DistinctKeys (tasks.map (branchOf c.orders patchOf)) := pairwise_map.mpr h.2
  exact hk.perm (hp.symm.map _)

/-! ## Unsettled orders -/

/-- One task appends `"first"`, another one `"second"`, the others write nothing. -/
def twoWriters (t u : GraphTask) (task : GraphTask) : Patch :=
  if task.taskID = t.taskID then ⟨[appendLog "first"]⟩
  else if task.taskID = u.taskID then ⟨[appendLog "second"]⟩ else ⟨[]⟩

theorem logState_not_jsonEq : ¬ (logState "second" "first").JSONEq (logState "first" "second") := by
  decide +kernel

theorem exists_perm_pair (ht : t ∈ tasks) (hu : u ∈ tasks) (hne : t ≠ u) :
    ∃ rest, (t :: u :: rest).Perm tasks := by
  refine ⟨(tasks.erase t).erase u, ?_⟩
  have hu' : u ∈ tasks.erase t := (mem_erase_of_ne hne.symm).mpr hu
  exact ((perm_cons_erase hu').symm.cons t).trans (perm_cons_erase ht).symm

/-- If whichever of two tasks finishes first gets the smaller key, the outcome depends on the
order in which they finish. -/
theorem not_independent_of_race {c : CompilePatchCollector} {base : Nat} {tasks rest : List GraphTask}
    {t u : GraphTask} (hf : Fresh c base tasks) (hp : (t :: u :: rest).Perm tasks)
    (htu : ∀ patchOf, ∃ b d bs, recordedBranches patchOf c.orders (t :: u :: rest) = b :: d :: bs ∧
      branchKey (b, 0) < branchKey (d, 1))
    (hut : ∀ patchOf, ∃ b d bs, recordedBranches patchOf c.orders (u :: t :: rest) = b :: d :: bs ∧
      branchKey (b, 0) < branchKey (d, 1)) : ¬ CompletionIndependent c base tasks := by
  have hpe : (u :: t :: rest).Perm tasks := (List.Perm.swap t u rest).trans hp
  have hi := (hf.perm hp).ids
  simp only [pairwise_cons, mem_cons, forall_eq_or_imp] at hi
  obtain ⟨⟨hne, ht⟩, hu, -⟩ := hi
  -- the patches of the recorded branches are those of the tasks
  have hpa : ∀ (x y : GraphTask) (orders : SortedMap String Int) (patchOf : GraphTask → Patch),
      (recordedBranches patchOf orders (x :: y :: rest)).map BranchPatch.patch =
        (x :: y :: rest).map patchOf := by
    intro x y orders patchOf
    generalize x :: y :: rest = l
    induction l generalizing orders with
    | nil => rfl
    | cons z l ih => rw [recordedBranches, map_cons, map_cons, ih]
  have hs : ∀ r ∈ rest, twoWriters t u r = ⟨[]⟩ := fun r hr => by
    rw [twoWriters, if_neg (ht r hr).symm, if_neg (hu r hr).symm]
  have hwt : twoWriters t u t = ⟨[appendLog "first"]⟩ := if_pos rfl
  have hwu : twoWriters t u u = ⟨[appendLog "second"]⟩ := by
    rw [twoWriters, if_neg hne.symm, if_pos rfl]
  have hm : ∀ (x y : GraphTask) (first second : String),
      (∃ b d bs, recordedBranches (twoWriters t u) c.orders (x :: y :: rest) = b :: d :: bs ∧
        branchKey (b, 0) < branchKey (d, 1)) →
      twoWriters t u x = ⟨[appendLog first]⟩ → twoWriters t u y = ⟨[appendLog second]⟩ →
      mergeParallelPatches .accepting .ascending newState
        (recordedBranches (twoWriters t u) c.orders (x :: y :: rest)) noOptions =
          .ok (logState first second) := by
    rintro x y first second ⟨b, d, bs, hrec, hlt⟩ hx hy
    have hma := hpa x y c.orders (twoWriters t u)
    rw [hrec] at hma ⊢
    simp only [map_cons, List.cons.injEq, hx, hy] at hma
    refine mergeParallelPatches_twoAppends (by rw [hma.1]) (by rw [hma.2.1]) ?_ hlt
    intro r hr
    have hme := mem_map_of_mem (f := BranchPatch.patch) hr
    rw [hma.2.2] at hme
    obtain ⟨z, hz, hzr⟩ := mem_map.mp hme
    rw [← hzr, hs z hz]
  intro hin
  obtain ⟨merged', hmr, heq⟩ := hin .accepting .ascending noOptions newState
    (twoWriters t u) _ _ hp hpe (logState "first" "second")
    ((waveResult_eq_ok (hf.perm hp)).mpr
      (hm t u "first" "second" (htu _) hwt hwu))
  rw [waveResult_eq_ok (hf.perm hpe),
    hm u t "second" "first" (hut _) hwu hwt] at hmr
  cases hmr
  exact logState_not_jsonEq heq

/-- Of two tasks at different missing nodes, the one that finishes first comes first. -/
theorem race_of_missing (ht : Missing orders t) (hu : Missing orders u) (hne : t.nodeID ≠ u.nodeID)
    (rest : List GraphTask) (patchOf : GraphTask → Patch) :
    ∃ b d bs, recordedBranches patchOf orders (t :: u :: rest) = b :: d :: bs ∧
      branchKey (b, 0) < branchKey (d, 1) := by
  refine ⟨_, _, _, rfl, ?_⟩
  have hl := length_keys_put (orders.keys.length : Int) ht.2
  have hu' : Missing (orders.put t.nodeID orders.keys.length) u := by
    refine ⟨hu.1, ?_⟩
    rw [get_put, if_neg hne.symm]
    exact hu.2
  simp only [orderFor_eq, ht, if_true, branchOrder, hu'.1, hu'.2, ht.1, ht.2, hl, branchKey,
    Prod.Lex.lt_iff, ofLex_toLex, Bool.false_eq_true, if_false, Option.getD_none]
  omega

/-- Of two tasks with one key, the one that finishes first comes first. -/
theorem race_of_tie (h : OneMissing orders (t :: u :: rest))
    (ho : branchOrder orders t = branchOrder orders u) (hn : t.nodeID = u.nodeID)
    (patchOf : GraphTask → Patch) :
    ∃ b d bs, recordedBranches patchOf orders (t :: u :: rest) = b :: d :: bs ∧
      branchKey (b, 0) < branchKey (d, 1) := by
  refine ⟨_, _, _, recordedBranches_eq_map h, ?_⟩
  simp only [branchKey, branchOf, ho, hn, Prod.Lex.lt_iff, ofLex_toLex]
  exact .inr ⟨trivial, .inr ⟨trivial, Nat.zero_lt_one⟩⟩

theorem settled_of_independent (hf : Fresh c base tasks)
    (h : CompletionIndependent c base tasks) : SettledOrders c.orders tasks := by
  have ho : OneMissing c.orders tasks := by
    intro t ht u hu hmt hmu
    by_contra hne
    obtain ⟨rest, hp⟩ := exists_perm_pair ht hu fun he => hne (congrArg GraphTask.nodeID he)
    exact not_independent_of_race hf hp (race_of_missing hmt hmu hne rest)
      (race_of_missing hmu hmt (Ne.symm hne) rest) h
  refine ⟨ho, pairwise_iff_forall_sublist.mpr fun {t u} hs => ?_⟩
  by_contra hk
  rw [not_or, not_not, not_not] at hk
  obtain ⟨rest, hp⟩ := hs.exists_perm_append
  have hp : (t :: u :: rest).Perm tasks := hp.symm
  have hsw : (u :: t :: rest).Perm tasks := (List.Perm.swap t u rest).trans hp
  exact not_independent_of_race hf hp (race_of_tie (ho.perm hp) hk.1 hk.2)
    (race_of_tie (ho.perm hsw) hk.1.symm hk.2.symm) h

/-- The merged state is independent of the order in which the tasks finish exactly when the
order table settles the keys of their branches. -/
theorem mergeCompiledResults_independent_iff {c : CompilePatchCollector} {base : Nat}
    {tasks : List GraphTask} (hfresh : Fresh c base tasks) :
    CompletionIndependent c base tasks ↔ SettledOrders c.orders tasks :=
  ⟨settled_of_independent hfresh, independent_of_settled hfresh⟩

/-- `entry` goes to `a` and `b`, which go to the end. -/
def defaultBranches : List EdgeSpec :=
  [⟨"a", false⟩, ⟨"b", false⟩, ⟨"__end__", false⟩]

theorem mergeCompiledResults_independent_defaultBranches :
    CompletionIndependent (newCompilePatchCollector (compileBranchOrders defaultBranches)) 0
      [newStaticGraphTask "a" 0, newStaticGraphTask "b" 1] :=
  (mergeCompiledResults_independent_iff ⟨by decide, rfl, by decide⟩).mpr (by decide +kernel)

/-- `entry` goes to `x` and `y` by conditional edges and has the end as its fallback; `x` and
`y` go to the end. -/
def conditionalBranches : List EdgeSpec :=
  [⟨"x", true⟩, ⟨"y", true⟩, ⟨"__end__", false⟩, ⟨"__end__", false⟩, ⟨"__end__", false⟩]

def conditionalCollector : CompilePatchCollector :=
  newCompilePatchCollector (compileBranchOrders conditionalBranches)

/-- Task `x` logs `"first"` and task `y` logs `"second"`. -/
def logPatches : GraphTask → Patch := twoWriters (newStaticGraphTask "x" 0) (newStaticGraphTask "y" 1)

theorem mergeCompiledResults_dependent_conditionalBranches :
    waveResult .accepting .ascending noOptions conditionalCollector 0 newState logPatches
        [newStaticGraphTask "x" 0, newStaticGraphTask "y" 1] = .ok (logState "first" "second") ∧
      waveResult .accepting .ascending noOptions conditionalCollector 0 newState logPatches
        [newStaticGraphTask "y" 1, newStaticGraphTask "x" 0] = .ok (logState "second" "first") ∧
      ¬ (logState "second" "first").JSONEq (logState "first" "second") :=
  ⟨rfl, rfl, logState_not_jsonEq⟩

end WeaveFlow
