import WeaveFlow.Graph.Scheduler
import WeaveFlow.Lib.Outcome

/-!
# Routing

What the tasks of a wave lead to: the control command a node returns, or else the edges of its
node, where a matched condition may name other targets or send dynamic tasks.  Node bodies,
conditions and task ids of sends are given from outside, wave by wave (`WaveEnv`).
-/

namespace WeaveFlow

open Outcome List

/-- A request for a dynamic task. -/
structure Send where
  target : String
  correlationKey : String := ""
  orderKey : String := ""
  deriving DecidableEq, Repr

/-- The control part of a node's result. -/
structure Command where
  goto : List String := []
  send : List Send := []
  suspend : Bool := false
  returns : Bool := false
  deriving DecidableEq, Repr

/-- What a condition decides. -/
structure RouteDecision where
  isMatch : Bool
  targets : List String := []
  send : List Send := []
  deriving DecidableEq, Repr

structure ConditionFailure where
  text : String
  canceled : Bool
  exhausted : Bool
  deriving DecidableEq, Repr

/-- The failure of a node body; only classified errors can be routed. -/
structure NodeError where
  text : String
  classified : Bool
  errorClass : String
  deriving DecidableEq, Repr

/-- How the execution of a task ends. -/
inductive NodeOutcome where
  | success (command : Command)
  | interrupt
  | error (e : NodeError)
  deriving DecidableEq, Repr

/-- What is decided outside the scheduler during one wave. -/
structure WaveEnv where
  outcome : GraphTask → NodeOutcome
  condition : String → Nat → Except ConditionFailure RouteDecision
  dynamicTaskID : GraphTask → Send → Nat → String
  sendInputOK : String → Send → Bool

/-- Why the next tasks of a wave could not be resolved. -/
inductive RouteError where
  | condition (source target : String) (failure : ConditionFailure)
  | emptyNodeID
  | nodeNotFound (nodeID : String)
  | noMatchingEdge (nodeID : String)
  | noOutgoingEdge (nodeID : String)
  | unknownTarget (ref : String)
  | invalidSendInput (taskID : String) (index : Nat)
  | conflictingCommands (taskID : String)
  | returnsInParallelWave (taskID : String)
  | suspendsInParallelWave (taskID : String)
  | fanOutExceeded (limit actual : Nat)
  deriving DecidableEq, Repr

def staticRouteTasks (targets : List String) : List GraphTask :=
  targets.zipIdx.map fun (nodeID, i) => newStaticGraphTask nodeID i

def dynamicLess (left right : GraphTask) : Bool :=
  if left.orderKey ≠ right.orderKey then left.orderKey < right.orderKey
  else if left.correlationKey ≠ right.correlationKey then
    left.correlationKey < right.correlationKey
  else left.taskID < right.taskID

/-- Sorted dynamic tasks, numbered from `first` on. -/
def numberDynamic (first : Nat) (tasks : List GraphTask) : List GraphTask :=
  ((KeySort.sort dynamicLess tasks).zipIdx first).map fun (task, i) => { task with order := i }

namespace Graph

variable (g : Graph) (env : WaveEnv)

def resolveEdgeTarget (ref : String) : Option String :=
  if trimSpace ref = endNodeRef then some endNodeID else g.resolveNodeID ref

def sendTask (parent : GraphTask) (send : Send) (i : Nat) (nodeID : String) : GraphTask :=
  { taskID := env.dynamicTaskID parent send i
    nodeID := nodeID
    correlationKey := trimSpace send.correlationKey
    orderKey := trimSpace send.orderKey
    order := i
    dynamic := true }

def resolveTargets : List String → Except RouteError (List String)
  | [] => .ok []
  | ref :: rest =>
    match g.resolveEdgeTarget ref with
    | none => .error (.unknownTarget ref)
    | some nodeID => do
        let nodeIDs ← resolveTargets rest
        return nodeID :: nodeIDs

def resolveDecisionSends (parent : GraphTask) :
    List Send → Nat → Except RouteError (List GraphTask)
  | [], _ => .ok []
  | send :: rest, i =>
    match g.resolveNodeID send.target with
    | none => .error (.unknownTarget send.target)
    | some nodeID => do
        let tasks ← resolveDecisionSends parent rest (i + 1)
        return sendTask env parent send i nodeID :: tasks

def tasksFromRouteDecision (parent : GraphTask) (edgeTarget : String) (decision : RouteDecision) :
    Except RouteError (List GraphTask) :=
  if decision.send ≠ [] then do
    let tasks ← g.resolveDecisionSends env parent decision.send 0
    return numberDynamic 0 tasks
  else if decision.targets = [] then .ok (staticRouteTasks [edgeTarget])
  else do
    let targets ← g.resolveTargets decision.targets
    return staticRouteTasks targets

/-- The conditional edges of a node in their order, up to the first match. -/
def firstMatch (parent : GraphTask) (source : String) :
    List String → Nat → Except RouteError (Option (List GraphTask))
  | [], _ => .ok none
  | target :: rest, i =>
    match env.condition source i with
    | .error failure => .error (.condition source target failure)
    | .ok decision =>
      if decision.isMatch then do
        let tasks ← g.tasksFromRouteDecision env parent target decision
        return some tasks
      else firstMatch parent source rest (i + 1)

/-- The default edges of a node with conditional edges, when none of those matches. -/
def fallbackTasks (source : String) : Except RouteError (List GraphTask) :=
  match g.defaultTargets source with
  | target :: _ => .ok (staticRouteTasks [target])
  | [] =>
    if source = g.finishPoint then .ok (staticRouteTasks [endNodeID])
    else .error (.noMatchingEdge source)

/-- The default edges of a node without conditional edges. -/
def defaultTasks (source : String) : Except RouteError (List GraphTask) :=
  if g.defaultTargets source ≠ [] then .ok (staticRouteTasks (g.defaultTargets source))
  else if source = g.finishPoint then .ok (staticRouteTasks [endNodeID])
  else .error (.noOutgoingEdge source)

/-- `resolveNextTasksObserved`. -/
def resolveNextTasks (parent : GraphTask) : Except RouteError (List GraphTask) :=
  let source := trimSpace parent.nodeID
  if source = "" then .error .emptyNodeID
  else if source ≠ endNodeID ∧ source ∉ g.nodes then .error (.nodeNotFound source)
  else if g.conditionalTargets source ≠ [] then do
    match ← g.firstMatch env parent source (g.conditionalTargets source) 0 with
    | some tasks => return tasks
    | none => g.fallbackTasks source
  else g.defaultTasks source

/-! ## Commands -/

/-- What the tasks of a wave lead to so far. -/
structure Resolved where
  staticTargets : List String := []
  dynamicTasks : List GraphTask := []
  suspend : Option GraphTask := none
  returns : Bool := false
  deriving DecidableEq, Repr

/-- `appendResolvedRouteTasks`. -/
def Resolved.appendRouteTasks (r : Resolved) (tasks : List GraphTask) : Resolved :=
  { r with
    staticTargets := r.staticTargets ++
      (tasks.filter fun t => !t.dynamic).map GraphTask.nodeID
    dynamicTasks := r.dynamicTasks ++ tasks.filter GraphTask.dynamic }

def resolveCommandSends (task : GraphTask) : List Send → Nat → Except RouteError (List GraphTask)
  | [], _ => .ok []
  | send :: rest, i =>
    match g.resolveNodeID send.target with
    | none => .error (.unknownTarget send.target)
    | some nodeID =>
      if env.sendInputOK nodeID send then do
        let tasks ← resolveCommandSends task rest (i + 1)
        return sendTask env task send i nodeID :: tasks
      else .error (.invalidSendInput task.taskID i)

def controlCount (command : Command) : Nat :=
  (if command.goto ≠ [] then 1 else 0) + (if command.send ≠ [] then 1 else 0) +
    (if command.suspend then 1 else 0) + if command.returns then 1 else 0

/-- One successful task of the loop of `resolveCommands`, in a wave of a given size. -/
def resolveCommand (maxFanOut waveSize : Nat) (r : Resolved) (task : GraphTask)
    (command : Command) : Except RouteError Resolved :=
  if controlCount command > 1 then .error (.conflictingCommands task.taskID)
  else if command.returns then
    if waveSize ≠ 1 then .error (.returnsInParallelWave task.taskID)
    else .ok { r with returns := true }
  else if command.suspend then
    if waveSize ≠ 1 then .error (.suspendsInParallelWave task.taskID)
    else do
      let tasks ← g.resolveNextTasks env task
      return { r with suspend := some task }.appendRouteTasks tasks
  else if command.goto ≠ [] then do
    let targets ← g.resolveTargets command.goto
    return { r with staticTargets := r.staticTargets ++ targets }
  else if command.send ≠ [] then
    if command.send.length > maxFanOut then
      .error (.fanOutExceeded maxFanOut command.send.length)
    else do
      let tasks ← g.resolveCommandSends env task command.send 0
      return { r with dynamicTasks := r.dynamicTasks ++ tasks }
  else do
    let tasks ← g.resolveNextTasks env task
    return r.appendRouteTasks tasks

/-- The loop of `resolveCommands`; tasks that failed are skipped. -/
def resolveEach (maxFanOut waveSize : Nat) : Resolved → List GraphTask → Except RouteError Resolved
  | r, [] => .ok r
  | r, task :: rest =>
    match env.outcome task with
    | .success command => do
        let r ← g.resolveCommand env maxFanOut waveSize r task command
        resolveEach maxFanOut waveSize r rest
    | _ => resolveEach maxFanOut waveSize r rest

/-- The tasks that `resolveCommands` returns. -/
def Resolved.tasks (r : Resolved) : List GraphTask :=
  let staticNodeIDs := KeySort.sort (fun a b => decide (a < b)) r.staticTargets.dedup
  staticRouteTasks staticNodeIDs ++ numberDynamic staticNodeIDs.length r.dynamicTasks

def resolveCommands (maxFanOut : Nat) (completedTasks : List GraphTask) :
    Except RouteError Resolved :=
  g.resolveEach env maxFanOut completedTasks.length {} completedTasks

/-! ## Failure routes -/

def failureRouteMatches (route : FailureRoute) (stage : FailureStage) (errorClass : String) : Bool :=
  (route.catchAll || !route.stages.isEmpty || !route.errorClasses.isEmpty) &&
    (route.stages.isEmpty || route.stages.contains stage) &&
    (route.errorClasses.isEmpty || route.errorClasses.any fun c => trimSpace c = errorClass)

/-- The first matching failure route of a node, as a task. -/
def failureTasks (task : GraphTask) (sourceNodeID : String) (stage : FailureStage)
    (errorClass text : String) : List GraphTask :=
  match ((g.failureRoutes.get sourceNodeID).getD []).find? fun route =>
      failureRouteMatches route stage errorClass with
  | none => []
  | some route =>
    [{ taskID := "failure-" ++ task.taskID
       nodeID := route.target
       order := task.order
       failure := some ⟨stage, errorClass, text, sourceNodeID⟩ }]

/-- `resolveFailure` for the failure of a node body. -/
def resolveNodeFailure (task : GraphTask) (e : NodeError) : List GraphTask :=
  if e.classified ∧ e.errorClass ≠ "canceled" ∧ e.errorClass ≠ "resource_exhausted" then
    g.failureTasks task task.nodeID .node e.errorClass e.text
  else []

/-- `resolveFailure` for the failure of a condition. -/
def resolveConditionFailure (task : GraphTask) (source : String) (failure : ConditionFailure) :
    List GraphTask :=
  if failure.canceled ∨ failure.exhausted then []
  else g.failureTasks task source .condition "non_retryable" failure.text

/-! ## Resolved references -/

variable {g}

theorem mem_of_resolveNodeID (h : g.resolveNodeID ref = some n) : n ∈ g.nodes := by
  unfold resolveNodeID at h
  dsimp only at h
  split at h
  next hm =>
    cases h
    exact hm.2
  · cases h

theorem mem_of_resolveEdgeTarget (h : g.resolveEdgeTarget ref = some n) :
    n ∈ g.nodes ∨ n = endNodeID := by
  unfold resolveEdgeTarget at h
  split at h
  · cases h
    exact .inr rfl
  · exact .inl (mem_of_resolveNodeID h)

theorem resolveTargets_eq_ok {refs targets : List String}
    (h : g.resolveTargets refs = .ok targets) :
    targets.length = refs.length ∧ ∀ n ∈ targets, n ∈ g.nodes ∨ n = endNodeID := by
  induction refs generalizing targets with
  | nil =>
    cases h
    exact ⟨rfl, nofun⟩
  | cons ref refs ih =>
    unfold resolveTargets at h
    split at h
    · cases h
    next n hn =>
      obtain ⟨rest, hr, h⟩ := of_bind h
      cases h
      obtain ⟨hl, hm⟩ := ih hr
      exact ⟨congrArg Nat.succ hl, forall_mem_cons.mpr ⟨mem_of_resolveEdgeTarget hn, hm⟩⟩

/-! ## What a route finds -/

variable {env} {parent : GraphTask} {tasks : List GraphTask} {sends : List Send} {i : Nat}

/-- The tasks of sends, each at a node. -/
structure Sent (g : Graph) (env : WaveEnv) (parent : GraphTask) (sends : List Send)
    (tasks : List GraphTask) : Prop where
  length : tasks.length = sends.length
  each : ∀ t ∈ tasks, ∃ send i, ∃ n ∈ g.nodes, t = sendTask env parent send i n

theorem Sent.cons (hn : n ∈ g.nodes) (h : g.Sent env parent sends tasks) :
    g.Sent env parent (send :: sends) (sendTask env parent send i n :: tasks) :=
  ⟨congrArg Nat.succ h.length, forall_mem_cons.mpr ⟨⟨send, i, n, hn, rfl⟩, h.each⟩⟩

theorem sent_resolveDecisionSends (h : g.resolveDecisionSends env parent sends i = .ok tasks) :
    g.Sent env parent sends tasks := by
  induction sends generalizing tasks i with
  | nil =>
    cases h
    exact ⟨rfl, nofun⟩
  | cons send sends ih =>
    unfold resolveDecisionSends at h
    split at h
    · cases h
    next n hn =>
      obtain ⟨rest, hr, h⟩ := of_bind h
      cases h
      exact .cons (mem_of_resolveNodeID hn) (ih hr)

theorem sent_resolveCommandSends (h : g.resolveCommandSends env parent sends i = .ok tasks) :
    g.Sent env parent sends tasks := by
  induction sends generalizing tasks i with
  | nil =>
    cases h
    exact ⟨rfl, nofun⟩
  | cons send sends ih =>
    unfold resolveCommandSends at h
    split at h
    · cases h
    next n hn =>
      split at h
      · obtain ⟨rest, hr, h⟩ := of_bind h
        cases h
        exact .cons (mem_of_resolveNodeID hn) (ih hr)
      · cases h

/-- A route finds the static tasks of some targets, which are known or at the ends of the node's
edges, or the tasks of some sends, sorted and numbered. -/
inductive Finds (g : Graph) (env : WaveEnv) (parent : GraphTask) : List GraphTask → Prop where
  | static {targets : List String} (found : targets ≠ [])
      (known : ∀ n ∈ targets, (n ∈ g.nodes ∨ n = endNodeID) ∨
        n ∈ g.outgoingNodeIDs (trimSpace parent.nodeID)) :
      Finds g env parent (staticRouteTasks targets)
  | sent {sends : List Send} {tasks : List GraphTask} (found : sends ≠ [])
      (sent : g.Sent env parent sends tasks) : Finds g env parent (numberDynamic 0 tasks)

theorem Finds.single
    (h : (n ∈ g.nodes ∨ n = endNodeID) ∨ n ∈ g.outgoingNodeIDs (trimSpace parent.nodeID)) :
    g.Finds env parent (staticRouteTasks [n]) :=
  .static (cons_ne_nil _ _) (forall_mem_singleton.mpr h)

theorem finds_tasksFromRouteDecision {target : String} {decision : RouteDecision}
    (ht : target ∈ g.outgoingNodeIDs (trimSpace parent.nodeID))
    (h : g.tasksFromRouteDecision env parent target decision = .ok tasks) :
    g.Finds env parent tasks := by
  unfold tasksFromRouteDecision at h
  split at h
  next hs =>
    obtain ⟨sent, hse, h⟩ := of_bind h
    cases h
    exact .sent hs (sent_resolveDecisionSends hse)
  · split at h
    · cases h
      exact .single (.inr ht)
    next hso =>
      obtain ⟨targets, hta, h⟩ := of_bind h
      cases h
      obtain ⟨hl, hm⟩ := resolveTargets_eq_ok hta
      refine .static ?_ fun n hn => .inl (hm n hn)
      rwa [← length_pos_iff, hl, length_pos_iff]

theorem finds_firstMatch {source : String} {targets : List String}
    (ht : targets ⊆ g.outgoingNodeIDs (trimSpace parent.nodeID))
    (h : g.firstMatch env parent source targets i = .ok (some tasks)) :
    g.Finds env parent tasks := by
  induction targets generalizing i with
  | nil => cases h
  | cons target rest ih =>
    obtain ⟨hta, hr⟩ := cons_subset.mp ht
    unfold firstMatch at h
    split at h
    · cases h
    · split at h
      · obtain ⟨found, hf, h⟩ := of_bind h
        cases h
        exact finds_tasksFromRouteDecision hta hf
      · exact ih hr h

theorem finds_resolveNextTasks (h : g.resolveNextTasks env parent = .ok tasks) :
    g.Finds env parent tasks := by
  have hd : g.defaultTargets (trimSpace parent.nodeID) ⊆
      g.outgoingNodeIDs (trimSpace parent.nodeID) := subset_append_left _ _
  unfold resolveNextTasks at h
  simp only at h
  split_ifs at h with he hf hc
  · obtain ⟨found, hm, h⟩ := of_bind h
    cases found with
    | some found =>
      cases h
      exact finds_firstMatch (subset_append_right _ _) hm
    | none =>
      dsimp only at h
      unfold fallbackTasks at h
      split at h
      next target rest ht =>
        cases h
        exact .single (.inr (hd (ht ▸ mem_cons_self)))
      · split_ifs at h
        cases h
        exact .single (.inl (.inr rfl))
  · unfold defaultTasks at h
    split_ifs at h with hs hfi
    · cases h
      exact .static hs fun n hn => .inr (hd hn)
    · cases h
      exact .single (.inl (.inr rfl))

end Graph

end WeaveFlow
