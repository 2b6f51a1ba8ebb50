import WeaveFlow.Graph.Topology
import WeaveFlow.Lib.KeySort
import WeaveFlow.State.Path

/-!
# The fan-in scheduler

Static tasks at join nodes wait in a pending map until nothing that is waiting is strictly
upstream of them; dynamic tasks travel beside the static ones.  `scheduleNext` places the
tasks a wave leads to, `resumeSchedule` those a run is resumed with.  What the release loop
does is said once, in `get_releasePendingFanIn`: the nodes that wait are the same all
along, so that a join is released exactly when none of them is strictly upstream of it.
-/

namespace WeaveFlow

open TaskMap List

/-- The tasks of the next wave and the join tasks that wait. -/
structure Schedule where
  ready : List GraphTask
  pending : TaskMap

/-- Why tasks were not scheduled. -/
inductive ScheduleError where
  | fanOutExceeded (limit actual : Nat)
  | multipleDynamicTasks (nodeID : String)
  | targetsPendingJoin (taskID nodeID : String)
  | sameJoinTargeted (taskID nodeID otherTaskID : String)
  | upstreamScheduled (taskID nodeID otherTaskID : String)
  | missingID
  | unknownNode (taskID : String)
  | duplicateTask (taskID : String)
  deriving DecidableEq, Repr

namespace Graph

variable (g : Graph)

/-! ## Checks -/

/-- The first loop of `validateNextTasks`: the dynamic tasks at join nodes, with positions. -/
def dynamicJoinTasks (pending : TaskMap) :
    List (GraphTask × Nat) → List (GraphTask × Nat) → Except ScheduleError (List (GraphTask × Nat))
  | [], found => .ok found
  | (task, i) :: rest, found =>
    if !task.dynamic || !g.isJoinNode task.nodeID then dynamicJoinTasks pending rest found
    else if found.any fun f => f.1.nodeID = task.nodeID then
      .error (.multipleDynamicTasks task.nodeID)
    else if (pending.get task.nodeID).isSome then
      .error (.targetsPendingJoin task.taskID task.nodeID)
    else dynamicJoinTasks pending rest (found ++ [(task, i)])

/-- The inner loop of `validateNextTasks`, for one dynamic task at a join node. -/
def checkOtherTasks (task : GraphTask) (i : Nat) : List (GraphTask × Nat) → Except ScheduleError Unit
  | [] => .ok ()
  | (other, j) :: rest =>
    if j = i then checkOtherTasks task i rest
    else if other.nodeID = task.nodeID then
      .error (.sameJoinTargeted task.taskID task.nodeID other.taskID)
    else if g.isStrictUpstream other.nodeID task.nodeID then
      .error (.upstreamScheduled task.taskID task.nodeID other.taskID)
    else checkOtherTasks task i rest

def validateNextTasks (maxFanOut : Nat) (tasks : List GraphTask) (pending : TaskMap) :
    Except ScheduleError Unit := do
  if tasks.length > maxFanOut then .error (.fanOutExceeded maxFanOut tasks.length)
  let joins ← g.dynamicJoinTasks pending tasks.zipIdx []
  joins.forM fun join => g.checkOtherTasks join.1 join.2 tasks.zipIdx

def resolveNodeID (ref : String) : Option String :=
  let trimmed := trimSpace ref
  if trimmed ≠ "" ∧ trimmed ∈ g.nodes then some trimmed else none

/-- The loop of `activeTasks`. -/
def collectActive : List GraphTask → List GraphTask → Except ScheduleError (List GraphTask)
  | [], active => .ok active
  | task :: rest, active =>
    if task.nodeID = "" ∨ task.taskID = "" then .error .missingID
    else if task.nodeID = endNodeID then collectActive rest active
    else if (g.resolveNodeID task.nodeID).isNone then .error (.unknownNode task.taskID)
    else if active.any fun a => a.taskID = task.taskID then .error (.duplicateTask task.taskID)
    else collectActive rest (active ++ [task])

/-- The comparison of `activeTasks`. -/
def activeLess (left right : GraphTask) : Bool :=
  if left.order ≠ right.order then left.order < right.order else left.taskID < right.taskID

def activeTasks (tasks : List GraphTask) : Except ScheduleError (List GraphTask) := do
  let active ← g.collectActive tasks []
  return KeySort.sort activeLess active

/-! ## Fan-in -/

def hasUpstreamBlocker (fanInNodeID : String) (ready pending : TaskMap) : Bool :=
  (ready.nodeIDs.any fun nodeID => g.isStrictUpstream nodeID fanInNodeID) ||
    pending.nodeIDs.any fun nodeID =>
      decide (nodeID ≠ fanInNodeID) && g.isStrictUpstream nodeID fanInNodeID

/-- One pass of `releasePendingFanIn` over the waiting nodes, and whether it released any. -/
def releasePass : List String → TaskMap → TaskMap → Bool → TaskMap × TaskMap × Bool
  | [], ready, pending, released => (ready, pending, released)
  | fanInNodeID :: rest, ready, pending, released =>
    if g.hasUpstreamBlocker fanInNodeID ready pending then
      releasePass rest ready pending released
    else
      match pending.get fanInNodeID with
      | none => releasePass rest ready pending released
      | some task => releasePass rest (ready.put task) (pending.del fanInNodeID) true

/-- The outer loop of `releasePendingFanIn`. -/
def releaseLoop : Nat → TaskMap → TaskMap → TaskMap × TaskMap
  | 0, ready, pending => (ready, pending)
  | fuel + 1, ready, pending =>
    let (ready, pending, released) := g.releasePass pending.nodeIDs ready pending false
    if released then releaseLoop fuel ready pending else (ready, pending)

/-- `releasePendingFanIn`.  Every pass but the last one releases a task. -/
def releasePendingFanIn (ready pending : TaskMap) : TaskMap × TaskMap :=
  g.releaseLoop (pending.nodeIDs.length + 1) ready pending

/-- The task loop of `scheduleNext`. -/
def placeNext (maps : TaskMap × TaskMap) (task : GraphTask) : TaskMap × TaskMap :=
  if task.dynamic then maps
  else if g.isJoinNode task.nodeID then (maps.1, maps.2.storePreferredTask task)
  else (maps.1.storePreferredTask task, maps.2)

/-- The task loop of `resumeSchedule`. -/
def placeResumed (maps : TaskMap × TaskMap) (task : GraphTask) : TaskMap × TaskMap :=
  if task.dynamic then maps
  else
    match maps.2.get task.nodeID with
    | some pendingTask =>
      ((maps.1.storePreferredTask pendingTask).storePreferredTask task, maps.2.del task.nodeID)
    | none => (maps.1.storePreferredTask task, maps.2)

/-- The end of `scheduleNext` and `resumeSchedule`. -/
def released (tasks : List GraphTask) (maps : TaskMap × TaskMap) : Schedule :=
  let (readyStatic, pendingFanIn) := g.releasePendingFanIn maps.1 maps.2
  ⟨readyStatic.sortedTasksByNodeID ++ tasks.filter GraphTask.dynamic, pendingFanIn⟩

def scheduleNext (nextTasks : List GraphTask) (pendingFanIn : TaskMap) : Schedule :=
  g.released nextTasks (nextTasks.foldl g.placeNext (TaskMap.empty, pendingFanIn))

def resumeSchedule (startTasks : List GraphTask) (pendingFanIn : TaskMap) : Schedule :=
  g.released startTasks (startTasks.foldl placeResumed (TaskMap.empty, pendingFanIn))

end Graph

/-! ## Task maps -/

namespace TaskMap

variable {m : TaskMap} {n : String} {t : GraphTask}

theorem mem_nodeIDs : n ∈ m.nodeIDs ↔ ∃ t, m.get n = some t := SortedMap.mem_keys

theorem mem_sortedTasksByNodeID : t ∈ m.sortedTasksByNodeID ↔ m.get t.nodeID = some t := by
  rw [sortedTasksByNodeID, SortedMap.mem_vals]
  constructor
  · rintro ⟨n, hn⟩
    have := m.keyed n t hn
    subst this
    exact hn
  · exact fun h => ⟨_, h⟩

theorem get_put (m : TaskMap) (t : GraphTask) (n : String) :
    (m.put t).get n = if n = t.nodeID then some t else m.get n := SortedMap.get_put ..

theorem get_del (m : TaskMap) (k n : String) :
    (m.del k).get n = if n = k then none else m.get n := SortedMap.get_del ..

theorem get_empty (n : String) : empty.get n = none := rfl

theorem get_storePreferredTask : (m.storePreferredTask t).get n = m.get n ∨
      n = t.nodeID ∧ (m.storePreferredTask t).get n = some t := by
  rw [storePreferredTask]
  have hp : (m.put t).get n = m.get n ∨ n = t.nodeID ∧ (m.put t).get n = some t := by
    rw [get_put]
    split
    next h => exact .inr ⟨h, rfl⟩
    · exact .inl rfl
  split
  · exact hp
  · split
    · exact hp
    · exact .inl rfl

theorem mem_nodeIDs_storePreferredTask :
    n ∈ (m.storePreferredTask t).nodeIDs ↔ n = t.nodeID ∨ n ∈ m.nodeIDs := by
  have hp : n ∈ (m.put t).nodeIDs ↔ n = t.nodeID ∨ n ∈ m.nodeIDs := by
    rw [mem_nodeIDs, mem_nodeIDs, get_put]
    split
    next h => exact ⟨fun _ => .inl h, fun _ => ⟨t, rfl⟩⟩
    next h => exact ⟨.inr, fun hn => hn.resolve_left h⟩
  rw [storePreferredTask]
  split
  · exact hp
  next current hc =>
    split
    · exact hp
    · refine ⟨.inr, fun hn => ?_⟩
      rcases hn with rfl | hn
      · exact mem_nodeIDs.mpr ⟨current, hc⟩
      · exact hn

/-- What holds of all tasks still holds after storing one more. -/
theorem storePreferredTask_all {P : GraphTask → Prop} (hm : ∀ n u, m.get n = some u → P u)
    (ht : P t) : ∀ n u, (m.storePreferredTask t).get n = some u → P u := by
  intro n u hu
  rcases get_storePreferredTask with h | ⟨-, h⟩
  · exact hm n u (h ▸ hu)
  · rw [h] at hu
    cases hu
    exact ht

/-- What holds of all tasks holds of the map read back from them. -/
theorem taskMapByNodeID_all {P : GraphTask → Prop} {tasks : List GraphTask}
    (h : ∀ t ∈ tasks, P t) : ∀ n u, (taskMapByNodeID tasks).get n = some u → P u := by
  suffices hf : ∀ m : TaskMap, (∀ n u, m.get n = some u → P u) →
      ∀ n u, (tasks.foldl (fun m task => if task.nodeID = "" then m
        else m.storePreferredTask task) m).get n = some u → P u from hf empty nofun
  induction tasks with
  | nil => exact fun m hm => hm
  | cons t tasks ih =>
    intro m hm
    refine ih (forall_mem_cons.mp h).2
      (if t.nodeID = "" then m else m.storePreferredTask t) ?_
    split
    · exact hm
    · exact storePreferredTask_all hm (h t mem_cons_self)

theorem mem_nodeIDs_taskMapByNodeID {tasks : List GraphTask} (h : ∀ t ∈ tasks, t.nodeID ≠ "") :
    n ∈ (taskMapByNodeID tasks).nodeIDs ↔ ∃ t ∈ tasks, t.nodeID = n := by
  suffices hf : ∀ m : TaskMap, n ∈ (tasks.foldl (fun m task => if task.nodeID = "" then m
      else m.storePreferredTask task) m).nodeIDs ↔ n ∈ m.nodeIDs ∨ ∃ t ∈ tasks, t.nodeID = n by
    rw [taskMapByNodeID, hf]
    exact or_iff_right not_mem_nil
  induction tasks with
  | nil => exact fun m => ⟨.inl, fun hn => hn.resolve_right nofun⟩
  | cons t tasks ih =>
    intro m
    rw [foldl_cons, ih (forall_mem_cons.mp h).2,
      if_neg (h t mem_cons_self), mem_nodeIDs_storePreferredTask,
      exists_mem_cons_iff, ← or_assoc, or_comm (b := n ∈ m.nodeIDs), eq_comm]

end TaskMap

/-! ## The release loop -/

namespace Graph

variable {g : Graph}

variable {ready pending : TaskMap}

/-- A join is blocked by the nodes that wait, whether ready or pending. -/
theorem hasUpstreamBlocker_iff : g.hasUpstreamBlocker n ready pending = true ↔
      ∃ m, (m ∈ ready.nodeIDs ∨ m ∈ pending.nodeIDs) ∧ g.isStrictUpstream m n = true := by
  rw [hasUpstreamBlocker, Bool.or_eq_true, any_eq_true, any_eq_true]
  constructor
  · rintro (⟨m, hm, hup⟩ | ⟨m, hm, hup⟩)
    · exact ⟨m, .inl hm, hup⟩
    · rw [Bool.and_eq_true] at hup
      exact ⟨m, .inr hm, hup.2⟩
  · rintro ⟨m, hm | hm, hup⟩
    · exact .inl ⟨m, hm, hup⟩
    · refine .inr ⟨m, hm, ?_⟩
      rw [Bool.and_eq_true, decide_eq_true_eq]
      exact ⟨(isStrictUpstream_iff.mp hup).2.2.1, hup⟩

/-- Releasing a task moves its node and changes nothing about who waits. -/
theorem mem_nodeIDs_move (h : pending.get k = some task) :
    (n ∈ (ready.put task).nodeIDs ∨ n ∈ (pending.del k).nodeIDs) ↔
      n ∈ ready.nodeIDs ∨ n ∈ pending.nodeIDs := by
  have hk : task.nodeID = k := pending.keyed k task h
  simp only [mem_nodeIDs, get_put, get_del, hk]
  split
  next hn =>
    subst hn
    exact ⟨fun _ => .inr ⟨task, h⟩, fun _ => .inl ⟨task, rfl⟩⟩
  · rfl

theorem hasUpstreamBlocker_move (h : pending.get k = some task) :
    g.hasUpstreamBlocker n (ready.put task) (pending.del k) =
      g.hasUpstreamBlocker n ready pending := by
  rw [Bool.eq_iff_iff, hasUpstreamBlocker_iff, hasUpstreamBlocker_iff]
  simp only [mem_nodeIDs_move h]

/-- What one pass does, for the blocked nodes `blocked`. -/
theorem get_releasePass {blocked : String → Bool} (ids : List String) (ready pending : TaskMap)
    (flag : Bool) (hb : ∀ n, g.hasUpstreamBlocker n ready pending = blocked n) :
    (∀ n, (g.releasePass ids ready pending flag).1.get n =
      if n ∈ ids ∧ blocked n = false then (pending.get n).or (ready.get n) else ready.get n) ∧
    (∀ n, (g.releasePass ids ready pending flag).2.1.get n =
      if n ∈ ids ∧ blocked n = false then none else pending.get n) ∧
    (g.releasePass ids ready pending flag).2.2 =
      (flag || ids.any fun n => !blocked n && (pending.get n).isSome) := by
  induction ids generalizing ready pending flag with
  | nil => simp [releasePass]
  | cons k ids ih =>
    rw [releasePass, hb k]
    cases hk : blocked k with
    | true =>
      simp only [if_true]
      obtain ⟨hr, hp, hf⟩ := ih ready pending flag hb
      refine ⟨fun n => ?_, fun n => ?_, by simp [hf, hk]⟩
      · rcases eq_or_ne n k with rfl | hne <;> simp [*]
      · rcases eq_or_ne n k with rfl | hne <;> simp [*]
    | false =>
      simp only [Bool.false_eq_true, if_false]
      cases ht : pending.get k with
      | none =>
        obtain ⟨hr, hp, hf⟩ := ih ready pending flag hb
        refine ⟨fun n => ?_, fun n => ?_, by simp [hf, ht]⟩
        · rcases eq_or_ne n k with rfl | hne <;> simp [*]
        · rcases eq_or_ne n k with rfl | hne <;> simp [*]
      | some task =>
        have hke : task.nodeID = k := pending.keyed k task ht
        obtain ⟨hr, hp, hf⟩ := ih (ready.put task) (pending.del k) true
          fun n => (hasUpstreamBlocker_move ht).trans (hb n)
        refine ⟨fun n => ?_, fun n => ?_, by simp [hf, hk, ht]⟩
        · rw [hr, get_put, get_del, hke]
          rcases eq_or_ne n k with rfl | hne <;> simp [*]
        · rw [hp, get_del]
          rcases eq_or_ne n k with rfl | hne <;> simp [*]

/-- A pass over all waiting nodes. -/
theorem get_releasePass_all (ready pending : TaskMap) (n : String) :
    ((g.releasePass pending.nodeIDs ready pending false).1.get n =
      if g.hasUpstreamBlocker n ready pending then ready.get n
      else (pending.get n).or (ready.get n)) ∧
    (g.releasePass pending.nodeIDs ready pending false).2.1.get n =
      if g.hasUpstreamBlocker n ready pending then pending.get n else none := by
  obtain ⟨hr, hp, -⟩ := get_releasePass (g := g) pending.nodeIDs ready pending false fun n => rfl
  simp only [hr, hp]
  cases hb : g.hasUpstreamBlocker n ready pending with
  | true => simp
  | false =>
    cases hg : pending.get n with
    | none => simp
    | some t =>
      have hm : n ∈ pending.nodeIDs := mem_nodeIDs.mpr ⟨t, hg⟩
      simp [hm]

/-- The waiting nodes after a pass. -/
theorem hasUpstreamBlocker_releasePass (ready pending : TaskMap) (n : String) :
    g.hasUpstreamBlocker n (g.releasePass pending.nodeIDs ready pending false).1
        (g.releasePass pending.nodeIDs ready pending false).2.1 =
      g.hasUpstreamBlocker n ready pending := by
  rw [Bool.eq_iff_iff, hasUpstreamBlocker_iff, hasUpstreamBlocker_iff]
  have hw : ∀ m, (m ∈ (g.releasePass pending.nodeIDs ready pending false).1.nodeIDs ∨
      m ∈ (g.releasePass pending.nodeIDs ready pending false).2.1.nodeIDs) ↔
      m ∈ ready.nodeIDs ∨ m ∈ pending.nodeIDs := by
    intro m
    simp only [mem_nodeIDs, get_releasePass_all]
    split
    · rfl
    · cases hg : pending.get m with
      | none => simp
      | some t => simp
  simp only [hw]

/-- The release loop: the blocked joins stay, the others are ready. -/
theorem get_releasePendingFanIn (ready pending : TaskMap) (n : String) :
    ((g.releasePendingFanIn ready pending).1.get n =
      if g.hasUpstreamBlocker n ready pending then ready.get n
      else (pending.get n).or (ready.get n)) ∧
    (g.releasePendingFanIn ready pending).2.get n =
      if g.hasUpstreamBlocker n ready pending then pending.get n else none := by
  have hfi := get_releasePass_all (g := g) ready pending
  have hb := hasUpstreamBlocker_releasePass (g := g) ready pending
  have hfl := (get_releasePass (g := g) pending.nodeIDs ready pending false fun n => rfl).2.2
  rw [releasePendingFanIn, releaseLoop]
  cases hp : g.releasePass pending.nodeIDs ready pending false with
  | mk ready₁ rest =>
    obtain ⟨pending₁, flag₁⟩ := rest
    rw [hp] at hfi hb hfl
    cases hf : flag₁ with
    | false => exact hfi n
    | true =>
      -- something was released, so there is fuel for a second pass, which releases nothing
      obtain ⟨fuel, hfu⟩ : ∃ fuel, pending.nodeIDs.length = fuel + 1 := by
        cases hi : pending.nodeIDs with
        | nil => simp [hf, hi] at hfl
        | cons k ids => exact ⟨ids.length, rfl⟩
      have hg : ∀ m, g.hasUpstreamBlocker m ready pending = false → pending₁.get m = none := by
        intro m hm
        rw [(hfi m).2, hm]
        rfl
      have hflag₂ : (g.releasePass pending₁.nodeIDs ready₁ pending₁ false).2.2 = false := by
        rw [(get_releasePass (g := g) pending₁.nodeIDs ready₁ pending₁ false hb).2.2,
          Bool.false_or, any_eq_false]
        intro m _
        cases hm : g.hasUpstreamBlocker m ready pending with
        | true => simp
        | false => simp [hg m hm]
      obtain ⟨hready₂, hpending₂⟩ := get_releasePass_all (g := g) ready₁ pending₁ n
      simp only [if_true, hfu, releaseLoop, hflag₂, Bool.false_eq_true, if_false]
      rw [hready₂, hpending₂, hb, (hfi n).1, (hfi n).2]
      cases hn : g.hasUpstreamBlocker n ready pending with
      | true | false => exact ⟨rfl, rfl⟩

end Graph

end WeaveFlow
