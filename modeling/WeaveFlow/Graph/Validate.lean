import WeaveFlow.Graph.DefaultRun
import WeaveFlow.Runtime.Records

/-!
# Validated graphs

How a graph is built, and what `Validate` checks of it.  Building keeps node ids trimmed.
`Validate` checks that edges and routes lead to nodes or to the end, that a node with
conditional edges has one default edge to fall back to, and two searches over the whole
graph: every node is reached from the entry point, and the end is reached from every node,
along default edges, conditional edges and failure routes.

The checks of policies, conditions and contracts read data that the topology does not hold;
they are given with the call (`DeclarationChecks`), and each of them can only refuse a graph.

A graph that `Validate` accepts never gets stuck (`validated_graph_never_stuck`): routing
always finds a next task, and the end can be reached from every node.
-/

namespace WeaveFlow

open Worklist Outcome List

/-- `FailureRouteSpec.Validate`; the stages of a route are valid by their type. -/
def FailureRoute.validate (route : FailureRoute) : Except String Unit :=
  requireText (!route.stages.isEmpty || !route.errorClasses.isEmpty || route.catchAll)
    "failure route must declare a stage, error class, or catch_all"

/-- The checks of `Validate` on declarations that the topology does not hold: the execution
policies, the conditional edges by source and position, and the contract analysis. -/
structure DeclarationChecks where
  policies : Except String Unit
  condition : String → Nat → Except String Unit
  contracts : Except String Unit

namespace Graph

/-! ## Building a graph -/

/-- `NewGraph`. -/
def new : Graph where
  nodes := []
  entryPoint := ""
  finishPoint := ""
  defaultEdges := .empty
  conditionalEdges := .empty
  failureRoutes := .empty

variable (g : Graph)

def routes (nodeID : String) : List FailureRoute := (g.failureRoutes.get nodeID).getD []

/-- `AddNode`, for a node that has an id or is given one. -/
def addNode (nodeID : String) : Except String Graph := do
  let id := trimSpace nodeID
  requireText (id ≠ "") "node id is empty and node does not support automatic id assignment"
  requireText (id ∉ g.nodes) ("node id " ++ quoted id ++ " already exists")
  return { g with nodes := g.nodes ++ [id] }

/-- A reference that must resolve. -/
def requireResolved (ref : String) : Option String → Except String String
  | none => .error ("node id " ++ quoted (trimSpace ref) ++ " not found")
  | some nodeID => .ok nodeID

def setEntryPoint (ref : String) : Except String Graph := do
  let nodeID ← requireResolved ref (g.resolveNodeID ref)
  return { g with entryPoint := nodeID }

def setFinishPoint (ref : String) : Except String Graph := do
  let nodeID ← requireResolved ref (g.resolveNodeID ref)
  return { g with finishPoint := nodeID }

def serializeNodeRef (nodeID : String) : String :=
  if nodeID = endNodeID then endNodeRef else nodeID

def addEdge (source target : String) : Except String Graph := do
  let fromID ← requireResolved source (g.resolveNodeID source)
  let toID ← requireResolved target (g.resolveEdgeTarget target)
  requireText (toID ∉ g.defaultTargets fromID)
    ("default edge " ++ quoted fromID ++ " -> " ++ quoted (serializeNodeRef toID) ++
      " already exists")
  return { g with defaultEdges := g.defaultEdges.put fromID (g.defaultTargets fromID ++ [toID]) }

/-- `AddConditionalEdge`, for a condition and a contract that pass their checks. -/
def addConditionalEdge (source target : String) : Except String Graph := do
  let fromID ← requireResolved source (g.resolveNodeID source)
  let toID ← requireResolved target (g.resolveEdgeTarget target)
  let targets := g.conditionalTargets fromID ++ [toID]
  return { g with conditionalEdges := g.conditionalEdges.put fromID targets }

def addFailureRoute (source target : String) (route : FailureRoute) : Except String Graph := do
  route.validate
  let fromID ← requireResolved source (g.resolveNodeID source)
  let toID ← requireResolved target (g.resolveEdgeTarget target)
  let route := { route with
    target := toID
    errorClasses := route.errorClasses.map trimSpace }
  return { g with failureRoutes := g.failureRoutes.put fromID (g.routes fromID ++ [route]) }

/-- The graphs that the building operations make. -/
inductive Built : Graph → Prop where
  | new : Built new
  | addNode {g g' : Graph} (nodeID : String) : Built g → g.addNode nodeID = .ok g' → Built g'
  | setEntryPoint {g g' : Graph} (ref : String) : Built g → g.setEntryPoint ref = .ok g' → Built g'
  | setFinishPoint {g g' : Graph} (ref : String) :
      Built g → g.setFinishPoint ref = .ok g' → Built g'
  | addEdge {g g' : Graph} (source target : String) :
      Built g → g.addEdge source target = .ok g' → Built g'
  | addConditionalEdge {g g' : Graph} (source target : String) :
      Built g → g.addConditionalEdge source target = .ok g' → Built g'
  | addFailureRoute {g g' : Graph} (source target : String) (route : FailureRoute) :
      Built g → g.addFailureRoute source target route = .ok g' → Built g'

/-! ## Validate -/

/-- The target of an edge or route is a node or the end. -/
def isTarget (nodeID : String) : Bool := nodeID = endNodeID || nodeID ∈ g.nodes

/-- The default edges of a node: no target twice, and every target is there. -/
def validateDefaultTargets (source : String) : List String → List String → Except String Unit
  | _, [] => .ok ()
  | seen, target :: rest => do
      requireText (target ∉ seen)
        ("default edge " ++ quoted source ++ " -> " ++ quoted (serializeNodeRef target) ++
          " is duplicated")
      requireText (g.isTarget target) ("edge target " ++ quoted target ++ " not found")
      validateDefaultTargets source (target :: seen) rest

/-- The loop over `defaultEdges`. -/
def validateDefaultEdges : Except String Unit :=
  g.defaultEdges.keys.forM fun source => do
    requireText (source ∈ g.nodes) ("edge source " ++ quoted source ++ " not found")
    g.validateDefaultTargets source [] (g.defaultTargets source)

/-- The first loop over `conditionalEdges`: the fallback of a node with conditions. -/
def validateFallbacks : Except String Unit :=
  g.conditionalEdges.keys.forM fun source => do
    requireText ((g.defaultTargets source).length ≤ 1)
      ("node " ++ quoted source ++
        " cannot combine conditional edges with multiple default fallback edges")
    requireText (!(g.defaultTargets source).isEmpty || source = g.finishPoint)
      ("node " ++ quoted source ++ " has conditional edges but no default fallback edge")

/-- The loop over `failureRoutes`. -/
def validateFailureRoutes : Except String Unit :=
  g.failureRoutes.keys.forM fun source => do
    requireText (source ∈ g.nodes) ("failure route source " ++ quoted source ++ " not found")
    (g.routes source).forM fun route => do
      route.validate.mapError fun message =>
        "failure route from " ++ quoted source ++ ": " ++ message
      requireText (g.isTarget route.target)
        ("failure route target " ++ quoted route.target ++ " not found")

/-- The second loop over `conditionalEdges`. -/
def validateConditionalEdges (checks : DeclarationChecks) : Except String Unit :=
  g.conditionalEdges.keys.forM fun source => do
    requireText (source ∈ g.nodes) ("conditional edge source " ++ quoted source ++ " not found")
    (g.conditionalTargets source).zipIdx.forM fun (target, i) => do
      (checks.condition source i).mapError fun message =>
        "conditional edge from " ++ quoted source ++ " to " ++ quoted target ++ ": " ++ message
      requireText (g.isTarget target) ("conditional edge target " ++ quoted target ++ " not found")

/-- All targets of a node: default edges, conditional edges and failure routes. -/
def allTargets (nodeID : String) : List String :=
  g.defaultTargets nodeID ++ g.conditionalTargets nodeID ++
    (g.routes nodeID).map FailureRoute.target

/-- The targets that the search of `reachableNodes` follows. -/
def forwardTargets (nodeID : String) : List String :=
  (g.allTargets nodeID).filter fun target => target ≠ endNodeID && target ∈ g.nodes

def reachableNodes : List String :=
  if g.entryPoint = "" then []
  else g.entryPoint :: reached g.forwardTargets g.nodes g.entryPoint

/-- The nodes with an edge or route of any kind. -/
def allSources : List String :=
  (g.defaultEdges.keys ++ g.conditionalEdges.keys ++ g.failureRoutes.keys).dedup

/-- `addTerminal` admits a node. -/
def isTerminal (nodeID : String) : Bool :=
  nodeID ≠ "" && nodeID ≠ endNodeID && nodeID ∈ g.nodes &&
    (nodeID = g.finishPoint || (nodeID ∈ g.allSources && endNodeID ∈ g.allTargets nodeID))

/-- The nodes that the search of `terminalReachableNodes` starts with. -/
def terminals : List String := (g.finishPoint :: g.allSources).filter g.isTerminal

/-- The steps of `terminalReachableNodes`: from the end to the nodes it starts with, and
from a node against the edges and routes into it. -/
def backwardTargets (nodeID : String) : List String :=
  if nodeID = endNodeID then g.terminals
  else g.allSources.filter fun source => nodeID ∈ g.allTargets source

def terminalReachableNodes : List String :=
  reached g.backwardTargets (g.finishPoint :: g.allSources) endNodeID

def sortedNodeIDs : List String := KeySort.sort (fun a b => decide (a < b)) g.nodes

/-- A finish point has no outgoing edges. -/
def validateFinishPoint : Except String Unit :=
  requireText
    (g.finishPoint = "" || ((g.defaultTargets g.finishPoint).isEmpty &&
      (g.conditionalTargets g.finishPoint).isEmpty))
    ("finish point " ++ quoted g.finishPoint ++ " cannot have outgoing edges")

def validateTopology : Except String Unit := do
  g.sortedNodeIDs.forM fun nodeID =>
    requireText (nodeID ∈ g.reachableNodes)
      ("node " ++ quoted nodeID ++ " is unreachable from entry point " ++ quoted g.entryPoint)
  g.validateFinishPoint
  g.sortedNodeIDs.forM fun nodeID =>
    requireText (nodeID ∉ g.reachableNodes || nodeID = g.finishPoint ||
        !(g.defaultTargets nodeID).isEmpty || !(g.conditionalTargets nodeID).isEmpty)
      ("node " ++ quoted nodeID ++ " has no outgoing edge")
  g.sortedNodeIDs.forM fun nodeID =>
    requireText (nodeID ∉ g.reachableNodes || nodeID ∈ g.terminalReachableNodes)
      ("node " ++ quoted nodeID ++ " cannot reach graph end")

/-- The entry and the finish point of `Validate`. -/
def validateEndpoints : Except String Unit := do
  requireText (!g.nodes.isEmpty) "graph has no nodes"
  requireText (g.entryPoint ≠ "") "entry point is not set"
  requireText (g.entryPoint ∈ g.nodes) ("entry point " ++ quoted g.entryPoint ++ " not found")
  requireText (g.finishPoint = "" || g.finishPoint ∈ g.nodes)
    ("finish point " ++ quoted g.finishPoint ++ " not found")

def validate (checks : DeclarationChecks) : Except String Unit := do
  checks.policies
  g.validateEndpoints
  g.validateDefaultEdges
  g.validateFallbacks
  g.validateFailureRoutes
  g.validateConditionalEdges checks
  g.validateTopology
  checks.contracts

/-! ## What building keeps -/

variable {g}

theorem requireResolved_eq_ok (h : requireResolved ref o = .ok nodeID) : o = some nodeID := by
  cases o with
  | none => cases h
  | some id => cases h; rfl

/-- Node ids are trimmed and not empty. -/
theorem Built.trimmed (h : Built g) : ∀ n ∈ g.nodes, trimSpace n = n ∧ n ≠ "" := by
  induction h with
  | new => intro n hn; cases hn
  | @addNode g g' nodeID _ ha ih =>
    obtain ⟨_, hne, ha⟩ := of_bind ha
    obtain ⟨-, -, ha⟩ := of_bind ha
    cases ha
    intro n hn
    rcases mem_append.mp hn with hn | hn
    · exact ih n hn
    · rw [mem_singleton.mp hn]
      exact ⟨trimSpace_idem, of_decide_eq_true (requireText_eq_ok.mp hne)⟩
  -- The other operations leave the nodes as they are.
  | setEntryPoint _ _ hs ih | setFinishPoint _ _ hs ih =>
    obtain ⟨_, -, hs⟩ := of_bind hs
    cases hs
    exact ih
  | addConditionalEdge _ _ _ ha ih =>
    obtain ⟨_, -, ha⟩ := of_bind ha
    obtain ⟨_, -, ha⟩ := of_bind ha
    cases ha
    exact ih
  | addEdge _ _ _ ha ih | addFailureRoute _ _ _ _ ha ih =>
    obtain ⟨_, -, ha⟩ := of_bind ha
    obtain ⟨_, -, ha⟩ := of_bind ha
    obtain ⟨_, -, ha⟩ := of_bind ha
    cases ha
    exact ih

/-! ## What validation makes sure of -/

/-- A step along a default edge, a conditional edge or a failure route, or from the finish
point to the end. -/
def RouteStep (g : Graph) (source target : String) : Prop :=
  target ∈ g.allTargets source ∨ source = g.finishPoint ∧ target = endNodeID

/-- The topology of a graph that `Validate` accepts. -/
structure Validated (g : Graph) : Prop where
  entry : g.entryPoint ∈ g.nodes
  finish : g.finishPoint = "" ∨ g.finishPoint ∈ g.nodes
  reached : ∀ n ∈ g.nodes, n ∈ g.reachableNodes
  edges : ∀ n, ∀ target ∈ g.outgoingNodeIDs n, target ∈ g.nodes ∨ target = endNodeID
  fallback : ∀ n, g.conditionalTargets n ≠ [] → n ≠ g.finishPoint → g.defaultTargets n ≠ []
  outgoing : ∀ n ∈ g.nodes, n ≠ g.finishPoint →
    g.defaultTargets n ≠ [] ∨ g.conditionalTargets n ≠ []
  ending : ∀ n ∈ g.nodes, n ∈ g.terminalReachableNodes

variable {n : String} {u : Unit} {targets : List String}

theorem mem_keys_of_mem_getD {β : Type} {m : SortedMap String (List β)} {b : β}
    (h : b ∈ (m.get n).getD []) : n ∈ m.keys := by
  cases hg : m.get n with
  | none => simp [hg] at h
  | some list => exact SortedMap.mem_keys.mpr ⟨list, hg⟩

theorem isTarget_iff : g.isTarget nodeID = true ↔ nodeID ∈ g.nodes ∨ nodeID = endNodeID := by
  simp [isTarget, or_comm]

theorem validateDefaultTargets_eq_ok {source : String} {seen : List String}
    (h : g.validateDefaultTargets source seen targets = .ok u) :
    ∀ target ∈ targets, target ∈ g.nodes ∨ target = endNodeID := by
  induction targets generalizing seen with
  | nil => intro target hm; cases hm
  | cons first rest ih =>
    obtain ⟨-, -, h⟩ := of_bind h
    obtain ⟨_, ht, h⟩ := of_bind h
    intro target hm
    rcases mem_cons.mp hm with rfl | hm
    · exact isTarget_iff.mp (requireText_eq_ok.mp ht)
    · exact ih h target hm

theorem validateDefaultEdges_eq_ok (h : g.validateDefaultEdges = .ok u) (n : String) :
    ∀ target ∈ g.defaultTargets n, target ∈ g.nodes ∨ target = endNodeID := by
  intro target hm
  have hs := forM_eq_ok.mp h n (mem_keys_of_mem_getD hm)
  obtain ⟨-, -, ht⟩ := of_bind hs
  exact validateDefaultTargets_eq_ok ht target hm

theorem validateConditionalEdges_eq_ok {checks : DeclarationChecks}
    (h : g.validateConditionalEdges checks = .ok u) (n : String) :
    ∀ target ∈ g.conditionalTargets n, target ∈ g.nodes ∨ target = endNodeID := by
  intro target hm
  have hs := forM_eq_ok.mp h n (mem_keys_of_mem_getD hm)
  obtain ⟨-, -, ht⟩ := of_bind hs
  obtain ⟨i, hi, rfl⟩ := getElem_of_mem hm
  have hp := mk_mem_zipIdx_iff_getElem?.mpr (List.getElem?_eq_getElem hi)
  obtain ⟨-, -, hta⟩ := of_bind (forM_eq_ok.mp ht _ hp)
  exact isTarget_iff.mp (requireText_eq_ok.mp hta)

theorem validateFallbacks_eq_ok (h : g.validateFallbacks = .ok u)
    (hc : g.conditionalTargets n ≠ []) (hf : n ≠ g.finishPoint) :
    g.defaultTargets n ≠ [] := by
  obtain ⟨target, hm⟩ := exists_mem_of_ne_nil _ hc
  have hs := forM_eq_ok.mp h n (mem_keys_of_mem_getD hm)
  obtain ⟨-, -, hfa⟩ := of_bind hs
  simpa [hf] using hfa

theorem mem_sortedNodeIDs : n ∈ g.sortedNodeIDs ↔ n ∈ g.nodes := (KeySort.perm_sort _ _).mem_iff

theorem validated_of_validate (h : g.validate checks = .ok u) : Validated g := by
  obtain ⟨-, -, h⟩ := of_bind h
  simp only [bind_eq_ok] at h
  obtain ⟨_, he, _, hd, _, hf, -, -, _, hc, _, ht, -⟩ := h
  obtain ⟨-, -, he⟩ := of_bind he
  obtain ⟨-, -, he⟩ := of_bind he
  obtain ⟨_, hen, hfi⟩ := of_bind he
  obtain ⟨_, hr, ht⟩ := of_bind ht
  obtain ⟨-, -, ht⟩ := of_bind ht
  obtain ⟨_, ho, hed⟩ := of_bind ht
  have hre : ∀ n ∈ g.nodes, n ∈ g.reachableNodes := by
    intro n hn
    exact of_decide_eq_true (requireText_eq_ok.mp (forM_eq_ok.mp hr n (mem_sortedNodeIDs.mpr hn)))
  refine ⟨of_decide_eq_true (requireText_eq_ok.mp hen), ?_, hre, ?_, ?_, ?_, ?_⟩
  · have hs := requireText_eq_ok.mp hfi
    simpa using hs
  · intro n target hm
    rcases mem_append.mp hm with hm | hm
    · exact validateDefaultEdges_eq_ok hd n target hm
    · exact validateConditionalEdges_eq_ok hc n target hm
  · intro n hco hne
    exact validateFallbacks_eq_ok hf hco hne
  · intro n hn hne
    have hso := requireText_eq_ok.mp (forM_eq_ok.mp ho n (mem_sortedNodeIDs.mpr hn))
    simpa [hre n hn, hne] using hso
  · intro n hn
    have hte := requireText_eq_ok.mp (forM_eq_ok.mp hed n (mem_sortedNodeIDs.mpr hn))
    simpa [hre n hn] using hte

/-- A node with the name of the end is reached as the entry point only. -/
theorem Validated.end_unless_entry (h : Validated g) (he : endNodeID ∈ g.nodes) :
    g.entryPoint = endNodeID := by
  have hr := h.reached _ he
  rw [reachableNodes] at hr
  split at hr
  · cases hr
  · rcases mem_cons.mp hr with heq | hm
    · exact heq.symm
    · have hn : ∀ n, g.forwardTargets n ⊆ g.nodes := fun n target ht =>
        have hb := (mem_filter.mp ht).2
        of_decide_eq_true (Bool.and_eq_true_iff.mp hb).2
      obtain ⟨n, -, hl⟩ := Relation.TransGen.tail'_iff.mp ((mem_reached hn).mp hm)
      have hb := (mem_filter.mp hl).2
      simp at hb

/-! ## The end is reached -/

theorem backwardTargets_subset (n : String) :
    g.backwardTargets n ⊆ g.finishPoint :: g.allSources := by
  intro source hm
  unfold backwardTargets at hm
  split at hm
  · exact (mem_filter.mp hm).1
  · exact mem_cons_of_mem _ (mem_filter.mp hm).1

/-- A step of the backward search is a route step the other way. -/
theorem routeStep_of_backward (h : Worklist.Step g.backwardTargets a b) : g.RouteStep b a := by
  unfold Worklist.Step backwardTargets at h
  split at h
  next he =>
    have ht := (mem_filter.mp h).2
    simp only [isTerminal, Bool.and_eq_true, Bool.or_eq_true, decide_eq_true_eq] at ht
    rcases ht.2 with hf | ⟨-, hta⟩
    · exact .inr ⟨hf, he⟩
    · rw [he]
      exact .inl hta
  · exact .inl (of_decide_eq_true (mem_filter.mp h).2)

theorem reaches_end (h : Validated g) (hn : n ∈ g.nodes) :
    Relation.TransGen g.RouteStep n endNodeID := by
  have hr := (mem_reached backwardTargets_subset).mp (h.ending n hn)
  rw [← Relation.transGen_swap]
  exact Relation.TransGen.mono (fun a b hs => routeStep_of_backward hs) _ _ hr

/-! ## Routing finds a task -/

/-- The conditions of a node raise no error and name neither targets nor sends. -/
def PlainConditions (g : Graph) (env : WaveEnv) (source : String) : Prop :=
  ∀ i < (g.conditionalTargets source).length, ∃ decision, env.condition source i = .ok decision ∧
    decision.targets = [] ∧ decision.send = []

/-- The first condition that matches leads to the target of its edge. -/
theorem firstMatch_plain {env : WaveEnv} {source : String} {targets : List String} {i : Nat}
    (hp : ∀ j < targets.length, ∃ decision, env.condition source (i + j) = .ok decision ∧
      decision.targets = [] ∧ decision.send = []) :
    g.firstMatch env parent source targets i = .ok none ∨ ∃ target ∈ targets,
        g.firstMatch env parent source targets i = .ok (some (staticRouteTasks [target])) := by
  induction targets generalizing i with
  | nil => exact .inl rfl
  | cons target rest ih =>
    obtain ⟨decision, hd, ht, hs⟩ := hp 0 (Nat.succ_pos _)
    rw [Nat.add_zero] at hd
    unfold firstMatch
    rw [hd]
    dsimp only
    split
    · refine .inr ⟨target, mem_cons_self, ?_⟩
      unfold tasksFromRouteDecision
      rw [hs, ht]
      rfl
    · have hr : ∀ j < rest.length, ∃ decision, env.condition source (i + 1 + j) = .ok decision ∧
          decision.targets = [] ∧ decision.send = [] := by
        intro j hj
        have := hp (j + 1) (Nat.succ_lt_succ hj)
        rwa [show i + 1 + j = i + (j + 1) by omega]
      rcases ih hr with hn | ⟨other, hm, hso⟩
      · exact .inl hn
      · exact .inr ⟨other, mem_cons_of_mem _ hm, hso⟩

/-- The tasks that a routing function may return. -/
def GoodTasks (g : Graph) (tasks : List GraphTask) : Prop :=
  tasks ≠ [] ∧ ∀ task ∈ tasks, task.nodeID ∈ g.nodes ∨ task.nodeID = endNodeID

theorem goodTasks_static (hne : targets ≠ [])
    (h : ∀ target ∈ targets, target ∈ g.nodes ∨ target = endNodeID) :
    g.GoodTasks (staticRouteTasks targets) := by
  have hm := map_nodeID_staticRouteTasks targets
  constructor
  · intro hn
    rw [hn] at hm
    exact hne hm.symm
  · intro task ht
    exact h _ (hm ▸ mem_map_of_mem ht)

/-- Without a matching condition, a node has its default edge or is the finish point. -/
theorem fallbackTasks_good (h : Validated g) (hc : g.conditionalTargets n ≠ []) :
    ∃ tasks, g.fallbackTasks n = .ok tasks ∧ g.GoodTasks tasks := by
  unfold fallbackTasks
  split
  next target rest ht =>
    refine ⟨_, rfl, goodTasks_static (cons_ne_nil _ _) ?_⟩
    intro other hm
    rw [mem_singleton.mp hm]
    exact h.edges n target (mem_append_left _ (by rw [ht]; exact mem_cons_self))
  next hn =>
    rw [if_pos (by_contra fun hne => h.fallback n hc hne hn)]
    exact ⟨_, rfl, goodTasks_static (cons_ne_nil _ _) fun other hm =>
      .inr (mem_singleton.mp hm)⟩

theorem defaultTasks_good (h : Validated g) (hn : n ∈ g.nodes) (hc : g.conditionalTargets n = []) :
    ∃ tasks, g.defaultTasks n = .ok tasks ∧ g.GoodTasks tasks := by
  unfold defaultTasks
  split
  next hne =>
    exact ⟨_, rfl, goodTasks_static hne fun target hm =>
      h.edges n target (mem_append_left _ hm)⟩
  next hno =>
    rw [not_not] at hno
    have hf : n = g.finishPoint := by
      by_contra hne
      rcases h.outgoing n hn hne with hd | hco
      · exact hd hno
      · exact hco hc
    rw [if_pos hf]
    exact ⟨_, rfl, goodTasks_static (cons_ne_nil _ _) fun other hm =>
      .inr (mem_singleton.mp hm)⟩

/-- Routing from a node of a validated graph finds at least one task, and its targets are
there. -/
theorem resolveNextTasks_good (hb : Built g) (h : Validated g) (hn : parent.nodeID ∈ g.nodes)
    (hp : g.PlainConditions env parent.nodeID) :
    ∃ tasks, g.resolveNextTasks env parent = .ok tasks ∧ g.GoodTasks tasks := by
  obtain ⟨ht, hne⟩ := hb.trimmed parent.nodeID hn
  unfold resolveNextTasks
  rw [ht]
  rw [if_neg hne, if_neg (fun hba => hba.2 hn)]
  split
  next hc =>
    have hco : ∀ j < (g.conditionalTargets parent.nodeID).length, ∃ decision,
        env.condition parent.nodeID (0 + j) = .ok decision ∧ decision.targets = [] ∧
          decision.send = [] := by
      intro j hj
      rw [Nat.zero_add]
      exact hp j hj
    rcases firstMatch_plain hco with hno | ⟨target, hm, hs⟩
    · rw [hno]
      exact fallbackTasks_good h hc
    · rw [hs]
      refine ⟨_, rfl, goodTasks_static (cons_ne_nil _ _) ?_⟩
      intro other ho
      rw [mem_singleton.mp ho]
      exact h.edges parent.nodeID target (mem_append_right _ hm)
  next hc => exact defaultTasks_good h hn (not_not.mp hc)

/-- A graph that was built and that `Validate` accepts never gets stuck: at every node, for
all conditions that raise no error and name neither targets nor sends, routing returns at
least one task, for nodes of the graph or the end; and from every node the end is reached
by steps along default edges, conditional edges and failure routes. -/
theorem validated_graph_never_stuck (checks : DeclarationChecks) (hbuilt : Built g)
    (hvalid : g.validate checks = .ok ()) :
    (∀ (env : WaveEnv) (parent : GraphTask), parent.nodeID ∈ g.nodes →
      g.PlainConditions env parent.nodeID →
      ∃ tasks, g.resolveNextTasks env parent = .ok tasks ∧ tasks ≠ [] ∧
        ∀ task ∈ tasks, task.nodeID ∈ g.nodes ∨ task.nodeID = endNodeID) ∧
    ∀ n ∈ g.nodes, Relation.TransGen g.RouteStep n endNodeID := by
  have h := validated_of_validate hvalid
  refine ⟨?_, fun n hn => reaches_end h hn⟩
  intro env parent hn hp
  obtain ⟨tasks, ht, hg⟩ := resolveNextTasks_good hbuilt h hn hp
  exact ⟨tasks, ht, hg⟩

/-- A graph with a loop: `check` goes back to `work` if a condition matches, and on to the
finish point otherwise. -/
theorem looping_graph_never_stuck :
    ∃ g : Graph, g.nodes = ["work", "check", "done"] ∧ g.conditionalTargets "check" = ["work"] ∧
      (∀ env parent, parent.nodeID ∈ g.nodes → g.PlainConditions env parent.nodeID →
        ∃ tasks, g.resolveNextTasks env parent = .ok tasks ∧ tasks ≠ [] ∧
          ∀ task ∈ tasks, task.nodeID ∈ g.nodes ∨ task.nodeID = endNodeID) ∧
      ∀ n ∈ g.nodes, Relation.TransGen g.RouteStep n endNodeID := by
  have hn := ((Built.new.addNode "work" rfl).addNode "check" rfl).addNode "done" rfl
  have he := (hn.setEntryPoint "work" rfl).setFinishPoint "done" rfl
  have hed := (he.addEdge "work" "check" rfl).addEdge "check" "done" rfl
  have hb := hed.addConditionalEdge "check" "work" rfl
  exact ⟨_, rfl, rfl, validated_graph_never_stuck ⟨.ok (), fun _ _ => .ok (), .ok ()⟩ hb rfl⟩

end Graph

end WeaveFlow
