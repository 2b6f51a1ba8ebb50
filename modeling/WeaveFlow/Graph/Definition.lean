import WeaveFlow.Dsl.RoundTrip
import WeaveFlow.Graph.Validate

/-!
# Graphs and their definitions

A graph keeps its default edges, conditional edges and failure routes in three maps by source,
and beside them one list of edge specs in the order in which they were added.  `definition`
makes a graph definition of the list.

The maps and the list say the same (`Described`), so that a definition that passes its checks and
is read back has the edges of the graph in their order.  The checks, however, know one edge for
each pair of nodes, while a graph may have two conditional edges between the same nodes, or a
default edge and a failure route; and a node with the name of the end, which a graph can begin
with, is written as a reference to the end.
-/

namespace WeaveFlow

open WeaveFlow.Graph Outcome List

/-- What a node declares about itself: `ID`, `Name`, `Description`, and its `GraphNodeSpec` if it
provides one. -/
structure NodeDeclaration where
  id : String
  name : String := ""
  description : String := ""
  spec : Option GraphNodeSpec

/-- The spec that `AddNode` keeps. -/
def NodeDeclaration.nodeSpec (node : NodeDeclaration) : GraphNodeSpec :=
  let id := trimSpace node.id
  let name := if trimSpace node.name = "" then id else trimSpace node.name
  match node.spec with
  | some spec =>
    { spec with
      id
      name := if spec.name = "" then name else spec.name
      description := if spec.description = "" then node.description else spec.description }
  | none => { id, name, type := "", description := node.description }

/-- A graph with what it is saved from.  The condition of a conditional edge is given by its
spec. -/
structure DefinedGraph where
  topology : Graph
  nodeSpecs : SortedMap String GraphNodeSpec
  conditionalEdges : SortedMap String (List (String × GraphConditionSpec))
  edgeSpecs : List GraphEdgeSpec
  stateModules : List StateModuleRef

namespace DefinedGraph

/-- A graph without nodes; the one of `NewGraph` has the module of the protocols. -/
def new (stateModules : List StateModuleRef := [⟨"weaveflow.protocols", "1"⟩]) : DefinedGraph where
  topology := .new
  nodeSpecs := .empty
  conditionalEdges := .empty
  edgeSpecs := []
  stateModules

variable (g : DefinedGraph)

/-- The conditional edges of a node. -/
def conditionsOf (nodeID : String) : List (String × GraphConditionSpec) :=
  (g.conditionalEdges.get nodeID).getD []

def specID (nodeID : String) : String := ((g.nodeSpecs.get nodeID).map GraphNodeSpec.id).getD ""

/-- `AddNode`, for a node whose contract can be attached. -/
def addNode (node : NodeDeclaration) : Except String DefinedGraph := do
  let topology ← g.topology.addNode node.id
  return { g with topology, nodeSpecs := g.nodeSpecs.put (trimSpace node.id) node.nodeSpec }

def setEntryPoint (ref : String) : Except String DefinedGraph := do
  let topology ← g.topology.setEntryPoint ref
  return { g with topology }

def setFinishPoint (ref : String) : Except String DefinedGraph := do
  let topology ← g.topology.setFinishPoint ref
  return { g with topology }

def resolveEnds (source target : String) : Except String (String × String) := do
  let fromID ← requireResolved source (g.topology.resolveNodeID source)
  let toID ← requireResolved target (g.topology.resolveEdgeTarget target)
  return (fromID, toID)

def addEdge (source target : String) : Except String DefinedGraph := do
  let (fromID, toID) ← g.resolveEnds source target
  let topology ← g.topology.addEdge source target
  let edge := { source := g.specID fromID, target := serializeNodeRef toID }
  return { g with topology, edgeSpecs := g.edgeSpecs ++ [edge] }

/-- `AddConditionalEdge`, for a condition with an evaluator and a contract that passes. -/
def addConditionalEdge (source target : String) (condition : GraphConditionSpec) :
    Except String DefinedGraph := do
  requireText ((normalizeGraphConditionSpec condition).type ≠ "") "condition spec type is required"
  let (fromID, toID) ← g.resolveEnds source target
  let topology ← g.topology.addConditionalEdge source target
  let edge :=
    { source := g.specID fromID, target := serializeNodeRef toID
      condition := some (normalizeGraphConditionSpec condition) }
  let conditions := g.conditionsOf fromID ++ [(toID, condition)]
  return { g with
    topology
    conditionalEdges := g.conditionalEdges.put fromID conditions
    edgeSpecs := g.edgeSpecs ++ [edge] }

def addFailureRoute (source target : String) (route : FailureRouteSpec) :
    Except String DefinedGraph := do
  route.validate
  let (fromID, toID) ← g.resolveEnds source target
  let topology ← g.topology.addFailureRoute source target
    ⟨target, route.stages, route.errorClasses, route.catchAll⟩
  let edge :=
    { source := g.specID fromID, target := serializeNodeRef toID
      failure := some { route with errorClasses := route.errorClasses.map trimSpace } }
  return { g with topology, edgeSpecs := g.edgeSpecs ++ [edge] }

/-- The graphs that the building operations make, with state modules that a definition may
name. -/
inductive Built : DefinedGraph → Prop where
  | new {modules : List StateModuleRef} : modules ≠ [] →
      validateModules (modules.map StateModuleRef.normalize) = .ok () → Built (new modules)
  | addNode {g g' : DefinedGraph} (node : NodeDeclaration) :
      Built g → g.addNode node = .ok g' → Built g'
  | setEntryPoint {g g' : DefinedGraph} (ref : String) :
      Built g → g.setEntryPoint ref = .ok g' → Built g'
  | setFinishPoint {g g' : DefinedGraph} (ref : String) :
      Built g → g.setFinishPoint ref = .ok g' → Built g'
  | addEdge {g g' : DefinedGraph} (source target : String) :
      Built g → g.addEdge source target = .ok g' → Built g'
  | addConditionalEdge {g g' : DefinedGraph} (source target : String)
      (condition : GraphConditionSpec) :
      Built g → g.addConditionalEdge source target condition = .ok g' → Built g'
  | addFailureRoute {g g' : DefinedGraph} (source target : String) (route : FailureRouteSpec) :
      Built g → g.addFailureRoute source target route = .ok g' → Built g'

/-- The spec of a node of the graph, in a definition. -/
def serializableSpec (nodeID : String) : Except String GraphNodeSpec :=
  match g.nodeSpecs.get nodeID with
  | none => .error ("node " ++ quote nodeID ++ " is not serializable: missing registered type")
  | some spec =>
    if spec.type = "" then
      .error ("node " ++ quote nodeID ++ " is not serializable: missing registered type")
    else .ok spec

def definitionOf (nodes : List GraphNodeSpec) : GraphDefinition where
  version := graphDefinitionVersion
  stateModules := g.stateModules
  entryPoint := serializeNodeRef g.topology.entryPoint
  finishPoint := serializeNodeRef g.topology.finishPoint
  nodes
  edges := g.edgeSpecs

/-- `Definition`; the id in a spec is the id of its node, so that the nodes are sorted by it. -/
def definition (checks : DeclarationChecks) : Except String GraphDefinition := do
  g.topology.validate checks
  let nodes ← g.topology.sortedNodeIDs.mapM g.serializableSpec
  return g.definitionOf nodes

end DefinedGraph

/-! ## The edges of a node in a definition -/

namespace GraphDefinition

def defaultTargets (edges : List GraphEdgeSpec) (nodeID : String) : List String :=
  edges.filterMap fun edge =>
    if edge.source = nodeID && edge.condition.isNone && edge.failure.isNone then some edge.target
    else none

/-- The conditional edges of a node. -/
def conditionalEdges (edges : List GraphEdgeSpec) (nodeID : String) :
    List (String × GraphConditionSpec) :=
  edges.filterMap fun edge =>
    if edge.source = nodeID then edge.condition.map fun condition => (edge.target, condition)
    else none

def failureRoutes (edges : List GraphEdgeSpec) (nodeID : String) :
    List (String × FailureRouteSpec) :=
  edges.filterMap fun edge =>
    if edge.source = nodeID then edge.failure.map fun route => (edge.target, route) else none

end GraphDefinition

def FailureRoute.spec (route : FailureRoute) : FailureRouteSpec :=
  ⟨route.stages, route.errorClasses, route.catchAll⟩

/-- A definition that was read has the nodes and the edges of the graph, in their order; texts
are trimmed and configurations are as JSON decodes them. -/
structure SameGraph (g : DefinedGraph) (d : GraphDefinition) : Prop where
  entryPoint : d.entryPoint = g.topology.entryPoint
  finishPoint : d.finishPoint = g.topology.finishPoint
  nodes : d.nodes.map GraphNodeSpec.id = g.topology.sortedNodeIDs ∧
    ∀ nodeID spec, nodeID ∈ g.topology.nodes → g.nodeSpecs.get nodeID = some spec →
      spec.normalize.normal ∈ d.nodes
  defaultEdges : ∀ nodeID ∈ g.topology.nodes, GraphDefinition.defaultTargets d.edges nodeID =
    (g.topology.defaultTargets nodeID).map serializeNodeRef
  conditionalEdges : ∀ nodeID ∈ g.topology.nodes,
    GraphDefinition.conditionalEdges d.edges nodeID = (g.conditionsOf nodeID).map fun edge =>
      (serializeNodeRef edge.1, (normalizeGraphConditionSpec edge.2).normal)
  failureRoutes : ∀ nodeID ∈ g.topology.nodes, GraphDefinition.failureRoutes d.edges nodeID =
    (g.topology.routes nodeID).map fun route =>
      (serializeNodeRef route.target, route.spec)

/-! ## What building keeps -/

/-- An edge spec of a graph with these nodes. -/
structure GraphEdgeSpec.Of (nodes : List String) (edge : GraphEdgeSpec) : Prop where
  source : edge.source ∈ nodes
  target : edge.target = endNodeRef ∨ edge.target ∈ nodes
  condition : ∀ condition, edge.condition = some condition →
    normalizeGraphConditionSpec condition = condition ∧ condition.type ≠ ""
  kind : edge.condition = none ∨ edge.failure = none
  failure : ∀ route, edge.failure = some route → route.validate = .ok ()

/-- Every node has its spec, and the list of edge specs says what the maps say. -/
structure Described (g : DefinedGraph) : Prop where
  topology : Graph.Built g.topology
  nodup : g.topology.nodes.Nodup
  modules : g.stateModules ≠ [] ∧
    validateModules (g.stateModules.map StateModuleRef.normalize) = .ok ()
  specs : ∀ nodeID ∈ g.topology.nodes, ∃ spec, g.nodeSpecs.get nodeID = some spec ∧ spec.id = nodeID
  edges : ∀ edge ∈ g.edgeSpecs, edge.Of g.topology.nodes
  defaultEdges : ∀ nodeID, GraphDefinition.defaultTargets g.edgeSpecs nodeID =
    (g.topology.defaultTargets nodeID).map serializeNodeRef
  conditionalEdges : ∀ nodeID, GraphDefinition.conditionalEdges g.edgeSpecs nodeID =
    (g.conditionsOf nodeID).map fun edge =>
      (serializeNodeRef edge.1, normalizeGraphConditionSpec edge.2)
  failureRoutes : ∀ nodeID, GraphDefinition.failureRoutes g.edgeSpecs nodeID =
    (g.topology.routes nodeID).map fun route => (serializeNodeRef route.target, route.spec)

namespace DefinedGraph

variable {g : DefinedGraph}

variable {specs : List GraphNodeSpec}

theorem resolveEnds_eq_ok (h : g.resolveEnds source target = .ok (fromID, toID)) :
    g.topology.resolveNodeID source = some fromID ∧
      g.topology.resolveEdgeTarget target = some toID := by
  obtain ⟨_, hf, h⟩ := of_bind h
  obtain ⟨_, hto, h⟩ := of_bind h
  cases h
  exact ⟨requireResolved_eq_ok hf, requireResolved_eq_ok hto⟩

theorem serializeNodeRef_target {nodes : List String} {toID : String}
    (h : toID ∈ nodes ∨ toID = endNodeID) :
    serializeNodeRef toID = endNodeRef ∨ serializeNodeRef toID ∈ nodes := by
  rw [serializeNodeRef]
  split
  · exact .inl rfl
  next hne => exact .inr (h.resolve_right hne)

theorem specID_of_described (h : Described g) (hm : nodeID ∈ g.topology.nodes) :
    g.specID nodeID = nodeID := by
  obtain ⟨spec, hs, hid⟩ := h.specs nodeID hm
  rw [specID, hs, Option.map_some, Option.getD_some, hid]

/-- The lists of a graph with one more entry for a node. -/
theorem getD_put {β : Type} (m : SortedMap String (List β)) (nodeID other : String) (b : β) :
    ((m.put nodeID ((m.get nodeID).getD [] ++ [b])).get other).getD [] =
      (m.get other).getD [] ++ if nodeID = other then [b] else [] := by
  rw [SortedMap.get_put]
  by_cases h : other = nodeID
  · rw [if_pos h, if_pos h.symm, h, Option.getD_some]
  · rw [if_neg h, if_neg (Ne.symm h), append_nil]

/-- One more edge at the end of a list. -/
theorem filterMap_added {β : Type} (f : GraphEdgeSpec → Option β) (edges : List GraphEdgeSpec)
    (edge : GraphEdgeSpec) :
    (edges ++ [edge]).filterMap f = edges.filterMap f ++ (f edge).toList := by
  cases h : f edge <;> simp [h]

theorem described_addNode (h : Described g) (ha : g.addNode node = .ok g') : Described g' := by
  obtain ⟨topology, ht, ha⟩ := of_bind ha
  cases ha
  have hb := Graph.Built.addNode node.id h.topology ht
  obtain ⟨-, -, ht⟩ := of_bind ht
  obtain ⟨_, hne, ht⟩ := of_bind ht
  cases ht
  have hne : trimSpace node.id ∉ g.topology.nodes := of_decide_eq_true (requireText_eq_ok.mp hne)
  refine ⟨hb, ?_, h.modules, ?_, ?_, h.defaultEdges, h.conditionalEdges, h.failureRoutes⟩
  · exact nodup_append.mpr ⟨h.nodup, nodup_singleton _, fun n hn m hm => by
      rw [mem_singleton.mp hm]
      exact fun heq => hne (heq ▸ hn)⟩
  · intro nodeID hme
    rw [SortedMap.get_put]
    by_cases heq : nodeID = trimSpace node.id
    · rw [if_pos heq, heq]
      refine ⟨node.nodeSpec, rfl, ?_⟩
      rw [NodeDeclaration.nodeSpec]
      split <;> rfl
    · rw [if_neg heq]
      rcases mem_append.mp hme with hme | hme
      · exact h.specs nodeID hme
      · exact absurd (mem_singleton.mp hme) heq
  · intro edge he
    have hof := h.edges edge he
    exact ⟨mem_append_left _ hof.source, hof.target.imp_right (mem_append_left _),
      hof.condition, hof.kind, hof.failure⟩

/-- A graph with another entry or finish point. -/
theorem described_point (h : Described g) {topology : Graph} (hb : Graph.Built topology)
    (hn : topology.nodes = g.topology.nodes)
    (hd : topology.defaultEdges = g.topology.defaultEdges)
    (hr : topology.failureRoutes = g.topology.failureRoutes) :
    Described { g with topology } := by
  obtain ⟨nodes, entry, finish, defaults, conditionals, routes⟩ := topology
  cases hn; cases hd; cases hr
  exact ⟨hb, h.nodup, h.modules, h.specs, h.edges, h.defaultEdges, h.conditionalEdges,
    h.failureRoutes⟩

theorem described_addEdge (h : Described g) (ha : g.addEdge source target = .ok g') :
    Described g' := by
  obtain ⟨⟨fromID, toID⟩, he, ha⟩ := of_bind ha
  obtain ⟨topology, ht, ha⟩ := of_bind ha
  cases ha
  have hb := Graph.Built.addEdge source target h.topology ht
  obtain ⟨hf, hto⟩ := resolveEnds_eq_ok he
  rw [Graph.addEdge, hf, hto] at ht
  simp only [bind_eq_ok] at ht
  obtain ⟨_, ⟨⟩, _, ⟨⟩, -, -, ⟨⟩⟩ := ht
  have hm := mem_of_resolveNodeID hf
  rw [specID_of_described h hm]
  refine ⟨hb, h.nodup, h.modules, h.specs, ?_, fun nodeID => ?_, fun nodeID => ?_, fun nodeID => ?_⟩
  · rw [forall_mem_append, forall_mem_singleton]
    exact ⟨h.edges, hm, serializeNodeRef_target (mem_of_resolveEdgeTarget hto),
      fun _ => nofun, .inl rfl, fun _ => nofun⟩
  · rw [GraphDefinition.defaultTargets, filterMap_added, ← GraphDefinition.defaultTargets,
      h.defaultEdges]
    have hp := getD_put g.topology.defaultEdges fromID nodeID toID
    refine Eq.trans ?_ (congrArg (List.map serializeNodeRef) hp.symm)
    by_cases heq : fromID = nodeID <;> simp [heq, defaultTargets]
  · simpa [GraphDefinition.conditionalEdges, conditionsOf] using h.conditionalEdges nodeID
  · simpa [GraphDefinition.failureRoutes, Graph.routes] using h.failureRoutes nodeID

theorem described_addConditionalEdge (h : Described g) {condition : GraphConditionSpec}
    (ha : g.addConditionalEdge source target condition = .ok g') : Described g' := by
  obtain ⟨_, ht, ha⟩ := of_bind ha
  obtain ⟨⟨fromID, toID⟩, he, ha⟩ := of_bind ha
  obtain ⟨topology, htp, ha⟩ := of_bind ha
  cases ha
  have hb := Graph.Built.addConditionalEdge source target h.topology htp
  obtain ⟨hf, hto⟩ := resolveEnds_eq_ok he
  rw [Graph.addConditionalEdge, hf, hto] at htp
  obtain ⟨_, ⟨⟩, ⟨⟩⟩ := of_bind htp
  have hm := mem_of_resolveNodeID hf
  rw [specID_of_described h hm]
  refine ⟨hb, h.nodup, h.modules, h.specs, ?_, fun nodeID => ?_, fun nodeID => ?_, fun nodeID => ?_⟩
  · rw [forall_mem_append, forall_mem_singleton]
    refine ⟨h.edges, hm, serializeNodeRef_target (mem_of_resolveEdgeTarget hto), ?_,
      .inr rfl, fun _ => nofun⟩
    rintro _ ⟨⟩
    exact ⟨normalizeGraphConditionSpec_idem _, of_decide_eq_true (requireText_eq_ok.mp ht)⟩
  · simpa [GraphDefinition.defaultTargets, defaultTargets] using h.defaultEdges nodeID
  · rw [GraphDefinition.conditionalEdges, filterMap_added, ← GraphDefinition.conditionalEdges,
      h.conditionalEdges]
    have hp := getD_put g.conditionalEdges fromID nodeID (toID, condition)
    refine Eq.trans ?_ (congrArg (List.map _) hp.symm)
    by_cases heq : fromID = nodeID <;> simp [heq, conditionsOf]
  · simpa [GraphDefinition.failureRoutes, Graph.routes] using h.failureRoutes nodeID

theorem described_addFailureRoute (h : Described g) {route : FailureRouteSpec}
    (ha : g.addFailureRoute source target route = .ok g') : Described g' := by
  obtain ⟨_, hr, ha⟩ := of_bind ha
  obtain ⟨⟨fromID, toID⟩, he, ha⟩ := of_bind ha
  obtain ⟨topology, ht, ha⟩ := of_bind ha
  cases ha
  have hb := Graph.Built.addFailureRoute source target _ h.topology ht
  obtain ⟨hf, hto⟩ := resolveEnds_eq_ok he
  rw [Graph.addFailureRoute, hf, hto] at ht
  simp only [bind_eq_ok] at ht
  obtain ⟨-, -, _, ⟨⟩, _, ⟨⟩, ⟨⟩⟩ := ht
  have hm := mem_of_resolveNodeID hf
  rw [specID_of_described h hm]
  refine ⟨hb, h.nodup, h.modules, h.specs, ?_, fun nodeID => ?_, fun nodeID => ?_, fun nodeID => ?_⟩
  · rw [forall_mem_append, forall_mem_singleton]
    refine ⟨h.edges, hm, serializeNodeRef_target (mem_of_resolveEdgeTarget hto),
      fun _ => nofun, .inl rfl, ?_⟩
    rintro _ ⟨⟩
    rw [FailureRouteSpec.validate, isEmpty_map]
    exact hr
  · simpa [GraphDefinition.defaultTargets, defaultTargets] using h.defaultEdges nodeID
  · simpa [GraphDefinition.conditionalEdges, conditionsOf] using h.conditionalEdges nodeID
  · rw [GraphDefinition.failureRoutes, filterMap_added, ← GraphDefinition.failureRoutes,
      h.failureRoutes]
    have hp := getD_put g.topology.failureRoutes fromID nodeID
      ⟨toID, route.stages, route.errorClasses.map trimSpace, route.catchAll⟩
    refine Eq.trans ?_ (congrArg (List.map _) hp.symm)
    by_cases heq : fromID = nodeID <;> simp [heq, Graph.routes, FailureRoute.spec]

/-- Every graph that was built is described by its edge specs. -/
theorem Built.described (h : Built g) : Described g := by
  induction h with
  | new hm hv =>
    exact ⟨.new, nodup_nil, ⟨hm, hv⟩, nofun, nofun, fun _ => rfl, fun _ => rfl, fun _ => rfl⟩
  | addNode node _ ha ih => exact described_addNode ih ha
  | setEntryPoint ref _ hs ih =>
    obtain ⟨topology, ht, ⟨⟩⟩ := of_bind hs
    obtain ⟨_, -, heq⟩ := of_bind ht
    have hb := Graph.Built.setEntryPoint ref ih.topology ht
    cases heq
    exact described_point ih hb rfl rfl rfl
  | setFinishPoint ref _ hs ih =>
    obtain ⟨topology, ht, ⟨⟩⟩ := of_bind hs
    obtain ⟨_, -, heq⟩ := of_bind ht
    have hb := Graph.Built.setFinishPoint ref ih.topology ht
    cases heq
    exact described_point ih hb rfl rfl rfl
  | addEdge source target _ ha ih => exact described_addEdge ih ha
  | addConditionalEdge source target condition _ ha ih =>
    exact described_addConditionalEdge ih ha
  | addFailureRoute source target route _ ha ih => exact described_addFailureRoute ih ha

/-! ## Saving and reloading -/

def Typed (g : DefinedGraph) : Prop :=
  ∀ nodeID ∈ g.topology.nodes, (g.nodeSpecs.get nodeID).any fun spec => trimSpace spec.type ≠ ""

instance (g : DefinedGraph) : Decidable g.Typed :=
  inferInstanceAs (Decidable (∀ nodeID ∈ g.topology.nodes, _))

/-- The specs of nodes, as `definition` collects them. -/
theorem exists_specs (h : Described g) (ht : g.Typed) {nodeIDs : List String}
    (hno : ∀ nodeID ∈ nodeIDs, nodeID ∈ g.topology.nodes) :
    ∃ specs, nodeIDs.mapM g.serializableSpec = .ok specs ∧
      specs.map GraphNodeSpec.id = nodeIDs ∧ (∀ spec ∈ specs, trimSpace spec.type ≠ "") ∧
      ∀ nodeID ∈ nodeIDs, ∀ spec, g.nodeSpecs.get nodeID = some spec → spec ∈ specs := by
  induction nodeIDs with
  | nil => exact ⟨[], rfl, rfl, nofun, nofun⟩
  | cons nodeID nodeIDs ih =>
    obtain ⟨hnd, hno⟩ := forall_mem_cons.mp hno
    obtain ⟨spec, hs, hid⟩ := h.specs nodeID hnd
    obtain ⟨specs, hm, hi, hty, hme⟩ := ih hno
    have htp : trimSpace spec.type ≠ "" := by
      have ha := ht nodeID hnd
      rw [hs, Option.any_some] at ha
      exact of_decide_eq_true ha
    have hne : spec.type ≠ "" := fun he => htp (by rw [he]; rfl)
    refine ⟨spec :: specs, ?_, ?_, forall_mem_cons.mpr ⟨htp, hty⟩, ?_⟩
    · rw [mapM_cons, hm, serializableSpec, hs]
      dsimp only
      rw [if_neg hne]
      rfl
    · rw [map_cons, hid, hi]
    · refine forall_mem_cons.mpr ⟨fun other ho => ?_, fun n hn other ho => ?_⟩
      · rw [Option.some.inj (ho.symm.trans hs)]
        exact mem_cons_self
      · exact mem_cons_of_mem _ (hme n hn other ho)

/-- The edges of a graph are normal. -/
theorem normalize_edgeSpecs (h : Described g) :
    g.edgeSpecs.map GraphEdgeSpec.normalize = g.edgeSpecs := by
  refine (map_congr_left fun edge he => ?_).trans (map_id _)
  have hof := h.edges edge he
  have hs := (h.topology.trimmed _ hof.source).1
  have ht : trimSpace edge.target = edge.target :=
    hof.target.elim (fun hen => by rw [hen]; rfl) fun hn => (h.topology.trimmed _ hn).1
  obtain ⟨source, target, condition, failure⟩ := edge
  rw [GraphEdgeSpec.normalize, hs, ht]
  cases condition with
  | none => rfl
  | some condition => rw [Option.map_some, (hof.condition condition rfl).1]; rfl

theorem defaultTargets_normal :
    GraphDefinition.defaultTargets (edges.map GraphEdgeSpec.normal) nodeID =
      GraphDefinition.defaultTargets edges nodeID := by
  simp only [GraphDefinition.defaultTargets, filterMap_map, Function.comp_def,
    GraphEdgeSpec.normal, Option.isNone_map]
  rfl

theorem conditionalEdges_normal :
    GraphDefinition.conditionalEdges (edges.map GraphEdgeSpec.normal) nodeID =
      (GraphDefinition.conditionalEdges edges nodeID).map fun e => (e.1, e.2.normal) := by
  simp only [GraphDefinition.conditionalEdges, filterMap_map, map_filterMap,
    Function.comp_def, GraphEdgeSpec.normal, apply_ite (Option.map _), Option.map_map,
    Option.map_none]

theorem failureRoutes_normal :
    GraphDefinition.failureRoutes (edges.map GraphEdgeSpec.normal) nodeID =
      GraphDefinition.failureRoutes edges nodeID := by
  rw [GraphDefinition.failureRoutes, filterMap_map]
  rfl

theorem serializeNodeRef_eq_self : serializeNodeRef nodeID = nodeID ↔ nodeID ≠ endNodeID := by
  rw [serializeNodeRef]
  split
  next h => simp [h, endNodeID, endNodeRef]
  next h => simp [h]

theorem trimSpace_graphDefinitionVersion :
    trimSpace graphDefinitionVersion = graphDefinitionVersion := by decide

theorem map_id_normalize (h : Described g)
    (hi : specs.map GraphNodeSpec.id = g.topology.sortedNodeIDs) :
    (specs.map GraphNodeSpec.normalize).map GraphNodeSpec.id = g.topology.sortedNodeIDs := by
  rw [map_map, ← hi]
  refine map_congr_left fun spec hs => (h.topology.trimmed _ ?_).1
  exact mem_sortedNodeIDs.mp (hi ▸ mem_map_of_mem hs)

/-- The definition of a validated graph passes the checks, if the ends of its edges are
distinct. -/
theorem validate_definitionOf (h : Described g) (hv : g.topology.Validated)
    (hi : specs.map GraphNodeSpec.id = g.topology.sortedNodeIDs)
    (ht : ∀ spec ∈ specs, trimSpace spec.type ≠ "") (he : g.topology.entryPoint ≠ endNodeID)
    (hf : g.topology.finishPoint ≠ endNodeID)
    (hp : (g.edgeSpecs.map GraphEdgeSpec.pairKey).Nodup) :
    (g.definitionOf specs).validate = .ok () := by
  have hn := map_id_normalize h hi
  have hno : ∀ nodeID, nodeID ∈ (specs.map GraphNodeSpec.normalize).map GraphNodeSpec.id ↔
      nodeID ∈ g.topology.nodes := fun nodeID => by rw [hn, mem_sortedNodeIDs]
  rw [GraphDefinition.validate, GraphDefinition.check_eq_ok, normalizeGraphDefinition, definitionOf,
    normalize_edgeSpecs h, serializeNodeRef_eq_self.mpr he, serializeNodeRef_eq_self.mpr hf]
  refine ⟨trimSpace_graphDefinitionVersion, ⟨?_, validateModules_eq_ok.mp h.modules.2⟩, ⟨?_, ?_, ?_⟩,
    .inr ((hno _).mpr hv.entry), hv.finish.imp_right (hno _).mpr, ?_, hp⟩
  · exact fun hni => h.modules.1 (map_eq_nil_iff.mp hni)
  · intro hni
    have hnn := (hno _).mpr hv.entry
    rw [show specs = [] from map_eq_nil_iff.mp hni] at hnn
    cases hnn
  · intro node hnd
    obtain ⟨spec, hs, rfl⟩ := mem_map.mp hnd
    exact ⟨(h.topology.trimmed _ ((hno _).mp (mem_map_of_mem hnd))).2, ht spec hs⟩
  · rw [hn]
    exact (KeySort.perm_sort _ _).nodup_iff.mpr h.nodup
  · intro edge hed
    have hof := h.edges edge hed
    have hta : edge.target ≠ "" := hof.target.elim (fun hen => by rw [hen]; decide)
      fun hnd => (h.topology.trimmed _ hnd).2
    exact ⟨⟨(h.topology.trimmed _ hof.source).2, hta⟩, (hno _).mpr hof.source,
      hof.target.imp_right (hno _).mpr, fun condition hso => (hof.condition condition hso).2,
      hof.kind, hof.failure⟩

theorem sameGraph_definitionOf (h : Described g) {specs : List GraphNodeSpec}
    (hi : specs.map GraphNodeSpec.id = g.topology.sortedNodeIDs)
    (hm : ∀ nodeID ∈ g.topology.sortedNodeIDs, ∀ spec, g.nodeSpecs.get nodeID = some spec →
      spec ∈ specs)
    (he : g.topology.entryPoint ≠ endNodeID) (hf : g.topology.finishPoint ≠ endNodeID) :
    SameGraph g (normalizeGraphDefinition (g.definitionOf specs)).normal := by
  refine ⟨serializeNodeRef_eq_self.mpr he, serializeNodeRef_eq_self.mpr hf, ⟨?_, ?_⟩,
    fun nodeID _ => ?_, fun nodeID _ => ?_, fun nodeID _ => ?_⟩
  · rw [← map_id_normalize h hi, GraphDefinition.normal, map_map]
    rfl
  · intro nodeID spec hn hs
    exact mem_map_of_mem (mem_map_of_mem (hm nodeID (mem_sortedNodeIDs.mpr hn) spec hs))
  · rw [GraphDefinition.normal, normalizeGraphDefinition, definitionOf, normalize_edgeSpecs h,
      defaultTargets_normal, h.defaultEdges]
  · rw [GraphDefinition.normal, normalizeGraphDefinition, definitionOf, normalize_edgeSpecs h,
      conditionalEdges_normal, h.conditionalEdges, map_map]
    rfl
  · rw [GraphDefinition.normal, normalizeGraphDefinition, definitionOf, normalize_edgeSpecs h,
      failureRoutes_normal, h.failureRoutes]

/-- A graph that was built over nodes with types and that `Validate` accepts has a definition
that passes its checks and is read back as the same graph, if and only if no two of its edge
specs have the same source and target and its entry point is not a node with the name of the
end. -/
theorem graph_reloaded_iff (hbuilt : g.Built) (htyped : g.Typed) (checks : DeclarationChecks)
    (hvalid : g.topology.validate checks = .ok ()) :
    (∃ d document read, g.definition checks = .ok d ∧ d.validate = .ok () ∧
      d.serialize = .ok document ∧ deserializeGraphDefinition document = .ok read ∧
      SameGraph g read) ↔
    (g.edgeSpecs.map GraphEdgeSpec.pairKey).Nodup ∧ g.topology.entryPoint ≠ endNodeID := by
  have h := hbuilt.described
  have hv := validated_of_validate hvalid
  obtain ⟨specs, hs, hi, ht, hm⟩ := exists_specs h htyped fun nodeID hn => mem_sortedNodeIDs.mp hn
  have hd : g.definition checks = .ok (g.definitionOf specs) :=
    bind_eq_ok.mpr ⟨(), hvalid, bind_eq_ok.mpr ⟨specs, hs, rfl⟩⟩
  constructor
  · rintro ⟨_, document, read, hd', hc, hw, hr, hg⟩
    cases hd.symm.trans hd'
    obtain ⟨_, hwr, hre⟩ := deserialize_serialize hc
    cases hw.symm.trans hwr
    cases hr.symm.trans hre
    rw [GraphDefinition.validate, GraphDefinition.check_eq_ok] at hc
    have hp := hc.edges.2
    rw [normalizeGraphDefinition, definitionOf, normalize_edgeSpecs h] at hp
    exact ⟨hp, serializeNodeRef_eq_self.mp hg.entryPoint⟩
  · rintro ⟨hp, he⟩
    have hf : g.topology.finishPoint ≠ endNodeID := by
      intro hen
      refine he (hv.end_unless_entry (hen ▸ hv.finish.resolve_left ?_))
      rw [hen]
      decide
    have hc := validate_definitionOf h hv hi ht he hf hp
    obtain ⟨document, hw, hr⟩ := deserialize_serialize hc
    exact ⟨_, document, _, hd, hc, hw, hr, sameGraph_definitionOf h hi hm he hf⟩

/-- Two nodes in a row. -/
theorem built_row : ∃ g : DefinedGraph, g.Built ∧ g.topology.nodes = ["a", "b"] ∧ g.Typed ∧
    g.edgeSpecs = [⟨"a", "b", none, none⟩] ∧ g.topology.entryPoint = "a" ∧
    g.topology.validate ⟨.ok (), fun _ _ => .ok (), .ok ()⟩ = .ok () := by
  have hn : Built new := .new (cons_ne_nil _ _) (by decide)
  have hno := (hn.addNode ⟨"a", "", "", some { id := "a", type := "task" }⟩ rfl).addNode
    ⟨"b", "", "", some { id := "b", type := "task" }⟩ rfl
  have he := (hno.setEntryPoint "a" rfl).setFinishPoint "b" rfl
  exact ⟨_, he.addEdge "a" "b" rfl, rfl, by decide, rfl, rfl, rfl⟩

theorem two_nodes_reloaded :
    ∃ g : DefinedGraph, g.topology.nodes = ["a", "b"] ∧
      ∃ d document read, g.definition ⟨.ok (), fun _ _ => .ok (), .ok ()⟩ = .ok d ∧
        d.validate = .ok () ∧ d.serialize = .ok document ∧
        deserializeGraphDefinition document = .ok read ∧ SameGraph g read := by
  obtain ⟨g, hb, hn, ht, he, hen, hv⟩ := built_row
  refine ⟨g, hn, (graph_reloaded_iff hb ht _ hv).mpr ?_⟩
  rw [he, hen]
  decide

/-- A node with an edge and a failure route to the same node: the graph is valid, its definition
is refused. -/
theorem edge_and_route_refused : ∃ g : DefinedGraph, g.Built ∧ g.Typed ∧
      g.topology.validate ⟨.ok (), fun _ _ => .ok (), .ok ()⟩ = .ok () ∧
      ∃ d, g.definition ⟨.ok (), fun _ _ => .ok (), .ok ()⟩ = .ok d ∧
        d.validate = .error "graph edge \"a\" -> \"b\" is duplicated" := by
  have hn : Built new := .new (cons_ne_nil _ _) (by decide)
  have hno := (hn.addNode ⟨"a", "", "", some { id := "a", type := "task" }⟩ rfl).addNode
    ⟨"b", "", "", some { id := "b", type := "task" }⟩ rfl
  have he := (hno.setEntryPoint "a" rfl).setFinishPoint "b" rfl
  have hb := (he.addEdge "a" "b" rfl).addFailureRoute "a" "b" ⟨[], [], true⟩ rfl
  exact ⟨_, hb, by decide, rfl, _, rfl, by decide⟩

end DefinedGraph

end WeaveFlow
