import WeaveFlow.Graph.Task
import WeaveFlow.State.Record

/-!
# Graph definitions

A graph definition is what a graph is saved as: its nodes, one list of edges of all kinds, and
the state modules it uses.  `normalizeGraphDefinition` trims the texts, `GraphDefinition.validate`
checks a definition (the nodes by their ids, the edges by a key made of both ends), `serialize`
writes a definition that passes, and `deserializeGraphDefinition` reads one and checks it again.

A document is given by the values of its tokens.  `deserialize_serialize` says that a definition
that passes comes back as it was, with texts trimmed and configurations in the normal form of
JSON.  Execution policies and metadata are not checked and not read here; they are left out.
-/

namespace WeaveFlow

open Assoc Outcome

def graphDefinitionVersion : String := "1.0"

/-! ## Data -/

structure StateModuleRef where
  name : String
  version : String
  deriving DecidableEq, Repr

structure StateBinding where
  path : String
  reducer : String := ""
  deriving DecidableEq, Repr

/-- Bindings by the name of their port. -/
abbrev StateBindings := SortedMap String StateBinding

/-- `GraphConditionSpec`; a nil map has no entries. -/
structure GraphConditionSpec where
  id : String := ""
  type : String
  config : ValidObject := .empty
  state : StateBindings := .empty

structure FailureRouteSpec where
  stages : List FailureStage := []
  errorClasses : List String := []
  catchAll : Bool := false
  deriving DecidableEq, Repr

structure GraphEdgeSpec where
  source : String
  target : String
  condition : Option GraphConditionSpec := none
  failure : Option FailureRouteSpec := none

structure GraphNodeSpec where
  id : String
  name : String := ""
  type : String
  description : String := ""
  config : ValidObject := .empty
  state : StateBindings := .empty

structure GraphDefinition where
  version : String
  name : String := ""
  description : String := ""
  stateModules : List StateModuleRef
  entryPoint : String
  finishPoint : String
  nodes : List GraphNodeSpec
  edges : List GraphEdgeSpec

/-! ## Normalize -/

def StateBindings.map (f : StateBinding → StateBinding) (bindings : StateBindings) :
    StateBindings :=
  ⟨mapVals f bindings.entries, bindings.sorted.mapVals f⟩

/-- The texts of a binding are trimmed. -/
def StateBinding.normalize (binding : StateBinding) : StateBinding :=
  ⟨trimSpace binding.path, trimSpace binding.reducer⟩

def normalizeGraphConditionSpec (spec : GraphConditionSpec) : GraphConditionSpec :=
  { spec with
    id := trimSpace spec.id
    type := trimSpace spec.type
    state := spec.state.map StateBinding.normalize }

/-- The part of `NormalizeGraphDefinition` for a node. -/
def GraphNodeSpec.normalize (spec : GraphNodeSpec) : GraphNodeSpec :=
  { spec with
    id := trimSpace spec.id
    name := if trimSpace spec.name = "" then trimSpace spec.id else trimSpace spec.name
    type := trimSpace spec.type
    state := spec.state.map StateBinding.normalize }

/-- The part of `NormalizeGraphDefinition` for an edge. -/
def GraphEdgeSpec.normalize (spec : GraphEdgeSpec) : GraphEdgeSpec :=
  { spec with
    source := trimSpace spec.source
    target := trimSpace spec.target
    condition := spec.condition.map normalizeGraphConditionSpec }

/-- The part of `NormalizeGraphDefinition` for a state module. -/
def StateModuleRef.normalize (ref : StateModuleRef) : StateModuleRef :=
  ⟨trimSpace ref.name, trimSpace ref.version⟩

def normalizeGraphDefinition (d : GraphDefinition) : GraphDefinition :=
  { d with
    version := trimSpace d.version
    stateModules := d.stateModules.map StateModuleRef.normalize
    nodes := d.nodes.map GraphNodeSpec.normalize
    edges := d.edges.map GraphEdgeSpec.normalize }

/-! ## Validate -/

/-- `FailureRouteSpec.Validate`; the stages of a route are valid by their type. -/
def FailureRouteSpec.validate (route : FailureRouteSpec) : Except String Unit :=
  requireText (!route.stages.isEmpty || !route.errorClasses.isEmpty || route.catchAll)
    "failure route must declare a stage, error class, or catch_all"

/-- The key of a state module in `moduleRefs`. -/
def StateModuleRef.key (ref : StateModuleRef) : String := ref.name ++ "\x00" ++ ref.version

/-- The key of an edge in `edgePairs`. -/
def GraphEdgeSpec.pairKey (edge : GraphEdgeSpec) : String := edge.source ++ "\x00" ++ edge.target

/-- The loop over the state modules. -/
def validateModules : List StateModuleRef → Except String Unit :=
  checkDistinct StateModuleRef.key
    (fun ref => requireText (ref.name ≠ "" && ref.version ≠ "")
      "graph state module name and version are required")
    (fun ref => "graph state module " ++ quote ref.name ++ " version " ++ quote ref.version ++
      " is duplicated")
    (fun _ => .ok ()) []

/-- The loop over the nodes. -/
def validateNodes : List GraphNodeSpec → Except String Unit :=
  checkDistinct GraphNodeSpec.id
    (fun node => do
      requireText (node.id ≠ "") "graph node id is required"
      requireText (node.type ≠ "") ("graph node " ++ quote node.id ++ " type is required"))
    (fun node => "graph node id " ++ quote node.id ++ " is duplicated")
    (fun _ => .ok ()) []

/-- The checks of one edge that do not depend on the others. -/
def GraphEdgeSpec.validate (nodeIDs : List String) (edge : GraphEdgeSpec) : Except String Unit := do
  requireText (edge.source ∈ nodeIDs) ("graph edge source " ++ quote edge.source ++ " not found")
  requireText (edge.target = endNodeRef || edge.target ∈ nodeIDs)
    ("graph edge target " ++ quote edge.target ++ " not found")
  requireText (edge.condition.all fun condition => condition.type ≠ "")
    "graph edge condition type is required"
  requireText (!(edge.condition.isSome && edge.failure.isSome))
    ("graph edge " ++ quote edge.source ++ " -> " ++ quote edge.target ++
      " cannot declare both condition and failure")
  match edge.failure with
  | none => .ok ()
  | some route => route.validate.mapError fun message =>
    "graph edge " ++ quote edge.source ++ " -> " ++ quote edge.target ++ " failure route: " ++
      message

/-- The loop over the edges. -/
def validateEdges (nodeIDs : List String) : List GraphEdgeSpec → Except String Unit :=
  checkDistinct GraphEdgeSpec.pairKey
    (fun edge => requireText (edge.source ≠ "" && edge.target ≠ "")
      "graph edge requires from and to")
    (fun edge => "graph edge " ++ quote edge.source ++ " -> " ++ quote edge.target ++
      " is duplicated")
    (GraphEdgeSpec.validate nodeIDs) []

/-- The checks of `GraphDefinition.Validate` on a normal definition. -/
def GraphDefinition.check (d : GraphDefinition) : Except String Unit := do
  requireText (d.version = graphDefinitionVersion)
    ("graph definition version must be " ++ quote graphDefinitionVersion ++ ", got " ++
      quote d.version)
  requireText (!d.stateModules.isEmpty) "graph definition must include at least one state module"
  validateModules d.stateModules
  requireText (!d.nodes.isEmpty) "graph definition must include at least one nodes"
  validateNodes d.nodes
  requireText (d.entryPoint = "" || d.entryPoint ∈ d.nodes.map GraphNodeSpec.id)
    ("graph entry point " ++ quote d.entryPoint ++ " not found")
  requireText (d.finishPoint = "" || d.finishPoint ∈ d.nodes.map GraphNodeSpec.id)
    ("graph finish point " ++ quote d.finishPoint ++ " not found")
  validateEdges (d.nodes.map GraphNodeSpec.id) d.edges

def GraphDefinition.validate (d : GraphDefinition) : Except String Unit :=
  (normalizeGraphDefinition d).check

/-! ## JSON -/

/-- A list with `omitempty`. -/
def listEntry (items : List Raw) : Option Raw :=
  if items.isEmpty then none else some (Raw.slice .any items)

/-- A map with `omitempty`. -/
def objectEntry (kids : Object) : Option Raw := if kids.isEmpty then none else some (.node kids)

def StateModuleRef.entries (ref : StateModuleRef) : List (String × Option Raw) :=
  [("name", some (Raw.string ref.name)), ("version", some (Raw.string ref.version))]

def StateBinding.entries (binding : StateBinding) : List (String × Option Raw) :=
  [("path", some (Raw.string binding.path)), ("reducer", textEntry binding.reducer)]

def StateBindings.kids (bindings : StateBindings) : Object :=
  mapVals (fun binding => .node (present binding.entries)) bindings.entries

def GraphConditionSpec.entries (spec : GraphConditionSpec) : List (String × Option Raw) :=
  [("config", objectEntry spec.config.1), ("id", textEntry spec.id),
    ("state", objectEntry spec.state.kids), ("type", some (Raw.string spec.type))]

def FailureRouteSpec.entries (route : FailureRouteSpec) : List (String × Option Raw) :=
  [("catch_all", if route.catchAll then some (.leaf (.bool true)) else none),
    ("error_classes", listEntry (route.errorClasses.map Raw.string)),
    ("stages", listEntry (route.stages.map fun stage => Raw.string stage.text))]

def GraphEdgeSpec.entries (edge : GraphEdgeSpec) : List (String × Option Raw) :=
  [("condition", edge.condition.map fun spec => .node (present spec.entries)),
    ("failure", edge.failure.map fun route => .node (present route.entries)),
    ("from", some (Raw.string edge.source)), ("to", some (Raw.string edge.target))]

def GraphNodeSpec.entries (node : GraphNodeSpec) : List (String × Option Raw) :=
  [("config", objectEntry node.config.1), ("description", textEntry node.description),
    ("id", some (Raw.string node.id)), ("name", some (Raw.string node.name)),
    ("state", some (.node node.state.kids)), ("type", some (Raw.string node.type))]

def GraphDefinition.entries (d : GraphDefinition) : List (String × Option Raw) :=
  [("description", textEntry d.description),
    ("edges", listEntry (d.edges.map fun edge => .node (present edge.entries))),
    ("entry_point", textEntry d.entryPoint), ("finish_point", textEntry d.finishPoint),
    ("name", textEntry d.name),
    ("nodes", some (Raw.slice .any (d.nodes.map fun node => .node (present node.entries)))),
    ("state_modules",
      some (Raw.slice .any (d.stateModules.map fun ref => .node (present ref.entries)))),
    ("version", some (Raw.string d.version))]

/-- The value that is marshalled. -/
def GraphDefinition.json (d : GraphDefinition) : Raw := .node (present d.entries)

def listField {α : Type} (decode : Raw → Option α) : Option Raw → Option (List α)
  | none => some []
  | some (.leaf .null) => some []
  | some (.leaf (.slice _ items)) => items.mapM decode
  | some _ => none

/-- A field of type `map[string]any`. -/
def objectField : Option Raw → Option ValidObject
  | none => some .empty
  | some (.leaf .null) => some .empty
  | some (.node kids) => if h : Raw.Valid (.node kids) then some ⟨kids, h⟩ else none
  | some _ => none

def recordFields (names : List String) : Raw → Option Object
  | .node kids => if knownFields names kids then some kids else none
  | .leaf _ => none

def decodeText : Raw → Option String
  | .leaf (.string s) => some s
  | .leaf .null => some ""
  | _ => none

def decodeModule (v : Raw) : Option StateModuleRef := do
  let kids ← recordFields ["name", "version"] v
  let name ← textField (Assoc.get "name" kids)
  let version ← textField (Assoc.get "version" kids)
  return ⟨name, version⟩

def decodeBinding (v : Raw) : Option StateBinding := do
  let kids ← recordFields ["path", "reducer"] v
  let path ← textField (Assoc.get "path" kids)
  let reducer ← textField (Assoc.get "reducer" kids)
  return ⟨path, reducer⟩

def decodeEntries {α : Type} (decode : Raw → Option α) : Object → Option (List (String × α))
  | [] => some []
  | (name, v) :: rest => do
      let value ← decode v
      let rest ← decodeEntries decode rest
      return (name, value) :: rest

/-- Bindings are decoded; the keys of a decoded object ascend. -/
def bindingsField : Option Raw → Option StateBindings
  | none => some .empty
  | some (.leaf .null) => some .empty
  | some (.node kids) => do
      let entries ← decodeEntries decodeBinding kids
      if h : Assoc.Sorted entries then some ⟨entries, h⟩ else none
  | some _ => none

def decodeCondition (v : Raw) : Option GraphConditionSpec := do
  let kids ← recordFields ["id", "type", "config", "state"] v
  let id ← textField (Assoc.get "id" kids)
  let type ← textField (Assoc.get "type" kids)
  let config ← objectField (Assoc.get "config" kids)
  let state ← bindingsField (Assoc.get "state" kids)
  return ⟨id, type, config, state⟩

/-- A failure route is decoded; an unknown stage, which the check refuses, is refused here. -/
def decodeFailureRoute (v : Raw) : Option FailureRouteSpec := do
  let kids ← recordFields ["stages", "error_classes", "catch_all"] v
  let stages ← listField decodeText (Assoc.get "stages" kids)
  let stages ← stages.mapM FailureStage.ofText
  let errorClasses ← listField decodeText (Assoc.get "error_classes" kids)
  let catchAll ← boolField (Assoc.get "catch_all" kids)
  return ⟨stages, errorClasses, catchAll⟩

def pointerField {α : Type} (decode : Raw → Option α) : Option Raw → Option (Option α)
  | none => some none
  | some (.leaf .null) => some none
  | some v => (decode v).map some

def decodeEdge (v : Raw) : Option GraphEdgeSpec := do
  let kids ← recordFields ["from", "to", "condition", "failure"] v
  let source ← textField (Assoc.get "from" kids)
  let target ← textField (Assoc.get "to" kids)
  let condition ← pointerField decodeCondition (Assoc.get "condition" kids)
  let failure ← pointerField decodeFailureRoute (Assoc.get "failure" kids)
  return ⟨source, target, condition, failure⟩

def decodeNode (v : Raw) : Option GraphNodeSpec := do
  let kids ← recordFields ["id", "name", "type", "description", "config", "state"] v
  let id ← textField (Assoc.get "id" kids)
  let name ← textField (Assoc.get "name" kids)
  let type ← textField (Assoc.get "type" kids)
  let description ← textField (Assoc.get "description" kids)
  let config ← objectField (Assoc.get "config" kids)
  let state ← bindingsField (Assoc.get "state" kids)
  return ⟨id, name, type, description, config, state⟩

def decodeDefinition (v : Raw) : Option GraphDefinition := do
  let kids ← recordFields ["version", "name", "description", "state_modules", "entry_point",
    "finish_point", "nodes", "edges"] v
  let version ← textField (Assoc.get "version" kids)
  let name ← textField (Assoc.get "name" kids)
  let description ← textField (Assoc.get "description" kids)
  let stateModules ← listField decodeModule (Assoc.get "state_modules" kids)
  let entryPoint ← textField (Assoc.get "entry_point" kids)
  let finishPoint ← textField (Assoc.get "finish_point" kids)
  let nodes ← listField decodeNode (Assoc.get "nodes" kids)
  let edges ← listField decodeEdge (Assoc.get "edges" kids)
  return { version, name, description, stateModules, entryPoint, finishPoint, nodes, edges }

/-- `GraphDefinition.Serialize`: the values of the tokens. -/
def GraphDefinition.serialize (d : GraphDefinition) : Except String Raw := do
  let nd := normalizeGraphDefinition d
  nd.validate
  return nd.json.jsonNormal

def deserializeGraphDefinition (document : Raw) : Except String GraphDefinition := do
  match decodeDefinition document with
  | none => .error "json: cannot decode graph definition"
  | some d =>
    let d := normalizeGraphDefinition d
    d.validate
    return d

/-! ## What is accepted -/

/-- An edge that passes by itself. -/
structure GraphEdgeSpec.Accepted (nodeIDs : List String) (edge : GraphEdgeSpec) : Prop where
  ends : edge.source ≠ "" ∧ edge.target ≠ ""
  source : edge.source ∈ nodeIDs
  target : edge.target = endNodeRef ∨ edge.target ∈ nodeIDs
  condition : ∀ condition, edge.condition = some condition → condition.type ≠ ""
  kind : edge.condition = none ∨ edge.failure = none
  failure : ∀ route, edge.failure = some route → route.validate = .ok ()

/-- A normal definition that passes. -/
structure GraphDefinition.Accepted (d : GraphDefinition) : Prop where
  version : d.version = graphDefinitionVersion
  modules : d.stateModules ≠ [] ∧ (∀ ref ∈ d.stateModules, ref.name ≠ "" ∧ ref.version ≠ "") ∧
    (d.stateModules.map StateModuleRef.key).Nodup
  nodes : d.nodes ≠ [] ∧ (∀ node ∈ d.nodes, node.id ≠ "" ∧ node.type ≠ "") ∧
    (d.nodes.map GraphNodeSpec.id).Nodup
  entryPoint : d.entryPoint = "" ∨ d.entryPoint ∈ d.nodes.map GraphNodeSpec.id
  finishPoint : d.finishPoint = "" ∨ d.finishPoint ∈ d.nodes.map GraphNodeSpec.id
  edges : (∀ edge ∈ d.edges, edge.Accepted (d.nodes.map GraphNodeSpec.id)) ∧
    (d.edges.map GraphEdgeSpec.pairKey).Nodup

theorem validateModules_eq_ok : validateModules refs = .ok u ↔
      (∀ ref ∈ refs, ref.name ≠ "" ∧ ref.version ≠ "") ∧ (refs.map StateModuleRef.key).Nodup := by
  rw [validateModules, checkDistinct_eq_ok]
  simp [requireText_eq_ok]

theorem validateNodes_eq_ok : validateNodes nodes = .ok u ↔
      (∀ node ∈ nodes, node.id ≠ "" ∧ node.type ≠ "") ∧ (nodes.map GraphNodeSpec.id).Nodup := by
  rw [validateNodes, checkDistinct_eq_ok]
  simp [bind_eq_ok, requireText_eq_ok]

theorem GraphEdgeSpec.validate_eq_ok {nodeIDs : List String} {edge : GraphEdgeSpec} :
    (requireText (edge.source ≠ "" && edge.target ≠ "") "graph edge requires from and to" =
        .ok () ∧ edge.validate nodeIDs = .ok ()) ↔ edge.Accepted nodeIDs := by
  obtain ⟨source, target, condition, failure⟩ := edge
  rw [GraphEdgeSpec.validate]
  simp only [bind_eq_ok, requireText_eq_ok]
  constructor
  · rintro ⟨he, _, hs, _, ht, _, hc, _, hk, hf⟩
    refine ⟨by simpa using he, by simpa using hs, by simpa using ht, ?_, ?_, ?_⟩
    · rintro spec rfl
      simpa using hc
    · cases condition with
      | none => exact .inl rfl
      | some spec => exact .inr (by simpa using hk)
    · rintro route rfl
      exact mapError_eq_ok.mp hf
  · rintro ⟨he, hs, ht, hc, hk, hf⟩
    refine ⟨by simpa using he, (), by simpa using hs, (), by simpa using ht, (), ?_, (), ?_, ?_⟩
    · cases condition with
      | none => rfl
      | some spec => simpa using hc spec rfl
    · rcases hk with hk | hk <;> cases hk <;> simp
    · cases failure with
      | none => rfl
      | some route => exact mapError_eq_ok.mpr (hf route rfl)

theorem validateEdges_eq_ok {edges : List GraphEdgeSpec} {u : Unit} :
    validateEdges nodeIDs edges = .ok u ↔
      (∀ edge ∈ edges, edge.Accepted nodeIDs) ∧ (edges.map GraphEdgeSpec.pairKey).Nodup := by
  rw [validateEdges, checkDistinct_eq_ok]
  simp only [GraphEdgeSpec.validate_eq_ok, List.not_mem_nil, not_false_eq_true, implies_true,
    and_true]

theorem GraphDefinition.check_eq_ok {d : GraphDefinition} : d.check = .ok () ↔ d.Accepted := by
  rw [GraphDefinition.check]
  simp only [bind_eq_ok, requireText_eq_ok, validateModules_eq_ok, validateNodes_eq_ok,
    validateEdges_eq_ok, exists_const]
  constructor
  · rintro ⟨hv, hm, hr, hn, hs, he, hf, hed⟩
    exact ⟨of_decide_eq_true hv, ⟨by simpa using hm, hr⟩,
      ⟨by simpa using hn, hs⟩, by simpa using he, by simpa using hf, hed⟩
  · rintro ⟨hv, ⟨hm, hr⟩, ⟨hn, hs⟩, he, hf, hed⟩
    exact ⟨decide_eq_true hv, by simpa using hm, hr, by simpa using hn, hs,
      by simpa using he, by simpa using hf, hed⟩

end WeaveFlow
