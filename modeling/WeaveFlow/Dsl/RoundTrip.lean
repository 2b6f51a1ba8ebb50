import WeaveFlow.Dsl.Definition

/-!
# Saving and reading a definition

What `serialize` writes is read back by `deserializeGraphDefinition` (`deserialize_serialize`).
Every record is read back field by field; a configuration comes back as JSON decodes it
(`normalSection`), everything else as it was written.  The checks do not look at configurations,
so that a definition passes them after it was read if it passed them before.
-/

namespace WeaveFlow

open Assoc Raw Outcome List

/-! ## Fields -/

section Fields

variable {α : Type} {decode : Raw → Option α} {encode : α → Raw} {normal : α → α} {items : List α}

section

variable (h : ∀ item ∈ items, decode (encode item).jsonNormal = some (normal item))
include h

theorem mapM_decode :
    (items.map fun item => (encode item).jsonNormal).mapM decode = some (items.map normal) := by
  induction items with
  | nil => rfl
  | cons item items ih =>
    obtain ⟨hi, hit⟩ := forall_mem_cons.mp h
    rw [map_cons, mapM_cons, hi, ih hit]
    rfl

omit h in
theorem jsonNormal_anySlice (items : List Raw) :
    (Raw.slice .any items).jsonNormal = Raw.slice .any (items.map jsonNormal) := by
  rw [jsonNormal_slice (by decide), jsonItems_eq]

theorem listField_slice :
    listField decode ((some (Raw.slice .any (items.map encode))).map jsonNormal) =
      some (items.map normal) := by
  rw [Option.map_some, jsonNormal_anySlice, map_map]
  exact mapM_decode h

theorem listField_listEntry : listField decode ((listEntry (items.map encode)).map jsonNormal) =
      some (items.map normal) := by
  rw [listEntry]
  split
  next he =>
    rw [List.isEmpty_iff, List.map_eq_nil_iff] at he
    rw [he]
    rfl
  · exact listField_slice h

end

theorem objectField_objectEntry :
    objectField ((objectEntry kids.1).map jsonNormal) = some (normalSection kids) := by
  rw [objectEntry]
  split
  next he =>
    have hn : kids = ValidObject.empty := Subtype.ext (isEmpty_iff.mp he)
    rw [hn]
    rfl
  · rw [Option.map_some, jsonNormal_node]
    exact dif_pos (normalSection kids).2

theorem pointerField_node {kids : α → Object}
    (h : ∀ item, decode (jsonNormal (.node (kids item))) = some (normal item))
    (item : Option α) :
    pointerField decode ((item.map fun item => .node (kids item)).map jsonNormal) =
      some (item.map normal) := by
  cases item with
  | none => rfl
  | some item =>
    have hi := h item
    rw [jsonNormal_node] at hi
    rw [Option.map_some, Option.map_some, jsonNormal_node]
    exact congrArg (Option.map some) hi

/-- An object of which all fields are known is read. -/
theorem recordFields_present {entries : List (String × Option Raw)} {names : List String}
    (h : ∀ e ∈ entries, e.1 ∈ names) :
    recordFields names (jsonNormal (.node (present entries))) =
      some (present (mapVals (Option.map jsonNormal) entries)) := by
  rw [jsonNormal_present]
  exact if_pos (knownFields_present h)

end Fields

/-! ## Records -/

theorem decodeModule_json (ref : StateModuleRef) :
    decodeModule (jsonNormal (.node (present ref.entries))) = some ref := by
  rfl

theorem decodeBinding_json :
    decodeBinding (jsonNormal (.node (present binding.entries))) = some binding := by
  have hs : Assoc.Sorted binding.entries := sorted_of_keys ["path", "reducer"] rfl (by decide)
  rw [decodeBinding, recordFields_present (by simp [StateBinding.entries])]
  simp only [Option.bind_eq_bind, Option.bind_some, get_normal_present hs]
  simp only [StateBinding.entries, Assoc.get_cons, String.reduceEq, reduceIte, Option.join_some,
    textField_some, textField_textEntry]
  rfl

theorem decodeEntries_kids : decodeEntries decodeBinding (mapVals jsonNormal
      (mapVals (fun binding => .node (present binding.entries)) entries)) =
      some entries := by
  induction entries with
  | nil => rfl
  | cons e entries ih =>
    rw [mapVals, mapVals, decodeEntries, decodeBinding_json, ih]
    rfl

theorem bindingsField_node :
    bindingsField ((some (.node bindings.kids)).map jsonNormal) = some bindings := by
  rw [Option.map_some, jsonNormal_node, bindingsField, StateBindings.kids, decodeEntries_kids]
  exact dif_pos bindings.sorted

theorem bindingsField_objectEntry :
    bindingsField ((objectEntry bindings.kids).map jsonNormal) = some bindings := by
  rw [objectEntry]
  split
  next he =>
    obtain ⟨entries, hs⟩ := bindings
    cases entries with
    | nil => rfl
    | cons e entries => cases he
  · exact bindingsField_node

def GraphConditionSpec.normal (spec : GraphConditionSpec) : GraphConditionSpec :=
  { spec with config := normalSection spec.config }

theorem decodeCondition_json (spec : GraphConditionSpec) :
    decodeCondition (jsonNormal (.node (present spec.entries))) = some spec.normal := by
  have hs : Assoc.Sorted spec.entries :=
    sorted_of_keys ["config", "id", "state", "type"] rfl (by decide)
  rw [decodeCondition, recordFields_present (by simp [GraphConditionSpec.entries])]
  simp only [Option.bind_eq_bind, Option.bind_some, get_normal_present hs]
  simp only [GraphConditionSpec.entries, Assoc.get_cons, String.reduceEq, reduceIte,
    Option.join_some, textField_some, textField_textEntry, objectField_objectEntry,
    bindingsField_objectEntry]
  rfl

theorem decodeFailureRoute_json (route : FailureRouteSpec) :
    decodeFailureRoute (jsonNormal (.node (present route.entries))) = some route := by
  have hs : Assoc.Sorted route.entries :=
    sorted_of_keys ["catch_all", "error_classes", "stages"] rfl (by decide)
  have hst : Assoc.get "stages" route.entries =
      some (listEntry ((route.stages.map FailureStage.text).map Raw.string)) := by
    rw [map_map]
    rfl
  have hc : Assoc.get "error_classes" route.entries =
      some (listEntry (route.errorClasses.map Raw.string)) := rfl
  have hca : Assoc.get "catch_all" route.entries =
      some (if route.catchAll then some (.leaf (.bool true)) else none) := rfl
  have ht : ∀ texts : List String,
      listField decodeText ((listEntry (texts.map Raw.string)).map jsonNormal) = some texts := by
    intro texts
    rw [@listField_listEntry String decodeText Raw.string id texts fun _ _ => rfl, map_id]
  have hb : boolField (Option.map jsonNormal
      (if route.catchAll then some (.leaf (.bool true)) else none)) = some route.catchAll := by
    cases route.catchAll <;> rfl
  have hr : (route.stages.map FailureStage.text).mapM FailureStage.ofText = some route.stages := by
    induction route.stages with
    | nil => rfl
    | cons stage stages ih =>
      rw [map_cons, mapM_cons, FailureStage.ofText_text, ih]
      rfl
  rw [decodeFailureRoute, recordFields_present (by simp [FailureRouteSpec.entries])]
  simp only [Option.bind_eq_bind, Option.bind_some, get_normal_present hs, hst, hc,
    hca, Option.join_some, ht, hr, hb]
  rfl

def GraphEdgeSpec.normal (edge : GraphEdgeSpec) : GraphEdgeSpec :=
  { edge with condition := edge.condition.map GraphConditionSpec.normal }

theorem decodeEdge_json (edge : GraphEdgeSpec) :
    decodeEdge (jsonNormal (.node (present edge.entries))) = some edge.normal := by
  have hs : Assoc.Sorted edge.entries :=
    sorted_of_keys ["condition", "failure", "from", "to"] rfl (by decide)
  have hr := @pointerField_node _ decodeFailureRoute id _ decodeFailureRoute_json edge.failure
  rw [Option.map_id] at hr
  rw [decodeEdge, recordFields_present (by simp [GraphEdgeSpec.entries])]
  simp only [Option.bind_eq_bind, Option.bind_some, get_normal_present hs]
  simp only [GraphEdgeSpec.entries, Assoc.get_cons, String.reduceEq, reduceIte, Option.join_some,
    textField_some, pointerField_node decodeCondition_json, hr]
  rfl

def GraphNodeSpec.normal (node : GraphNodeSpec) : GraphNodeSpec :=
  { node with config := normalSection node.config }

theorem decodeNode_json (node : GraphNodeSpec) :
    decodeNode (jsonNormal (.node (present node.entries))) = some node.normal := by
  have hs : Assoc.Sorted node.entries :=
    sorted_of_keys ["config", "description", "id", "name", "state", "type"] rfl (by decide)
  rw [decodeNode, recordFields_present (by simp [GraphNodeSpec.entries])]
  simp only [Option.bind_eq_bind, Option.bind_some, get_normal_present hs]
  simp only [GraphNodeSpec.entries, Assoc.get_cons, String.reduceEq, reduceIte, Option.join_some,
    textField_some, textField_textEntry, objectField_objectEntry, bindingsField_node]
  rfl

def GraphDefinition.normal (d : GraphDefinition) : GraphDefinition :=
  { d with
    nodes := d.nodes.map GraphNodeSpec.normal
    edges := d.edges.map GraphEdgeSpec.normal }

theorem decodeDefinition_json (d : GraphDefinition) :
    decodeDefinition d.json.jsonNormal = some d.normal := by
  have hs : Assoc.Sorted d.entries :=
    sorted_of_keys ["description", "edges", "entry_point", "finish_point", "name", "nodes",
      "state_modules", "version"] rfl (by decide)
  have hr := @listField_slice _ decodeModule _ id d.stateModules fun ref _ => decodeModule_json ref
  rw [map_id] at hr
  rw [decodeDefinition, GraphDefinition.json,
    recordFields_present (by simp [GraphDefinition.entries])]
  simp only [Option.bind_eq_bind, Option.bind_some, get_normal_present hs]
  simp only [GraphDefinition.entries, Assoc.get_cons, String.reduceEq, reduceIte, Option.join_some,
    textField_some, textField_textEntry, hr,
    listField_slice fun node (_ : node ∈ d.nodes) => decodeNode_json node,
    listField_listEntry fun edge (_ : edge ∈ d.edges) => decodeEdge_json edge]
  rfl

/-! ## Normal definitions -/

theorem StateBinding.normalize_idem (binding : StateBinding) :
    binding.normalize.normalize = binding.normalize := by
  simp only [StateBinding.normalize, trimSpace_idem]

theorem StateBindings.normalize_idem (bindings : StateBindings) :
    (bindings.map StateBinding.normalize).map StateBinding.normalize =
      bindings.map StateBinding.normalize := by
  obtain ⟨entries, hs⟩ := bindings
  have he : mapVals StateBinding.normalize (mapVals StateBinding.normalize entries) =
        mapVals StateBinding.normalize entries := by
    clear hs
    induction entries with
    | nil => rfl
    | cons e entries ih =>
      rw [mapVals, mapVals, ih, StateBinding.normalize_idem]
  simp only [StateBindings.map, he]

theorem normalizeGraphConditionSpec_idem (spec : GraphConditionSpec) :
    normalizeGraphConditionSpec (normalizeGraphConditionSpec spec) =
      normalizeGraphConditionSpec spec := by
  simp only [normalizeGraphConditionSpec, trimSpace_idem, StateBindings.normalize_idem]

theorem GraphNodeSpec.normalize_idem (node : GraphNodeSpec) :
    node.normalize.normalize = node.normalize := by
  by_cases hn : trimSpace node.name = ""
  · simp only [GraphNodeSpec.normalize, trimSpace_idem, StateBindings.normalize_idem, hn, if_true,
      ite_self]
  · simp only [GraphNodeSpec.normalize, trimSpace_idem, StateBindings.normalize_idem, hn, if_false]

theorem GraphEdgeSpec.normalize_idem (edge : GraphEdgeSpec) :
    edge.normalize.normalize = edge.normalize := by
  obtain ⟨source, target, condition, failure⟩ := edge
  cases condition with
  | none => simp only [GraphEdgeSpec.normalize, trimSpace_idem, Option.map_none]
  | some spec =>
    simp only [GraphEdgeSpec.normalize, trimSpace_idem, Option.map_some,
      normalizeGraphConditionSpec_idem]

theorem StateModuleRef.normalize_idem (ref : StateModuleRef) :
    ref.normalize.normalize = ref.normalize := by
  simp only [StateModuleRef.normalize, trimSpace_idem]

theorem normalizeGraphDefinition_idem :
    normalizeGraphDefinition (normalizeGraphDefinition d) = normalizeGraphDefinition d := by
  have hm : StateModuleRef.normalize ∘ StateModuleRef.normalize =
      StateModuleRef.normalize := funext StateModuleRef.normalize_idem
  have hn : GraphNodeSpec.normalize ∘ GraphNodeSpec.normalize = GraphNodeSpec.normalize :=
    funext GraphNodeSpec.normalize_idem
  have he : GraphEdgeSpec.normalize ∘ GraphEdgeSpec.normalize = GraphEdgeSpec.normalize :=
    funext GraphEdgeSpec.normalize_idem
  simp only [normalizeGraphDefinition, trimSpace_idem, map_map, hm, hn, he]

theorem normalizeGraphDefinition_normal :
    normalizeGraphDefinition d.normal = (normalizeGraphDefinition d).normal := by
  have hn : GraphNodeSpec.normalize ∘ GraphNodeSpec.normal =
      GraphNodeSpec.normal ∘ GraphNodeSpec.normalize := rfl
  have he : GraphEdgeSpec.normalize ∘ GraphEdgeSpec.normal =
      GraphEdgeSpec.normal ∘ GraphEdgeSpec.normalize := by
    funext edge
    obtain ⟨source, target, condition, failure⟩ := edge
    cases condition with
    | none => rfl
    | some spec => rfl
  simp only [normalizeGraphDefinition, GraphDefinition.normal, map_map, hn, he]

/-- The checks do not look at configurations. -/
theorem check_normal (d : GraphDefinition) : d.normal.check = d.check := by
  have hi : d.normal.nodes.map GraphNodeSpec.id = d.nodes.map GraphNodeSpec.id := by
    rw [GraphDefinition.normal, map_map]
    rfl
  have hn : validateNodes d.normal.nodes = validateNodes d.nodes :=
    checkDistinct_map (fun _ => rfl) (fun _ => rfl) (fun _ => rfl) fun _ => rfl
  have he : ∀ nodeIDs (edge : GraphEdgeSpec),
      edge.normal.validate nodeIDs = edge.validate nodeIDs := by
    intro nodeIDs edge
    obtain ⟨source, target, condition, failure⟩ := edge
    cases condition with
    | none => rfl
    | some spec => rfl
  have hed : ∀ nodeIDs, validateEdges nodeIDs d.normal.edges = validateEdges nodeIDs d.edges :=
    fun nodeIDs => checkDistinct_map (fun _ => rfl) (fun _ => rfl) (fun _ => rfl) (he nodeIDs)
  have hem : d.normal.nodes.isEmpty = d.nodes.isEmpty := isEmpty_map
  rw [GraphDefinition.check, GraphDefinition.check, hn, hi, hed, hem]
  rfl

/-- A definition that passes is written, and read back with its texts trimmed and its
configurations in normal form. -/
theorem deserialize_serialize (h : d.validate = .ok ()) : ∃ document, d.serialize = .ok document ∧
      deserializeGraphDefinition document = .ok (normalizeGraphDefinition d).normal := by
  have hv : (normalizeGraphDefinition d).validate = .ok () := by
    rw [GraphDefinition.validate, normalizeGraphDefinition_idem]
    exact h
  have hr : normalizeGraphDefinition (normalizeGraphDefinition d).normal =
      (normalizeGraphDefinition d).normal := by
    rw [normalizeGraphDefinition_normal, normalizeGraphDefinition_idem]
  refine ⟨_, bind_eq_ok.mpr ⟨(), hv, rfl⟩, ?_⟩
  rw [deserializeGraphDefinition, decodeDefinition_json]
  refine bind_eq_ok.mpr ⟨(), ?_, ?_⟩
  · rw [GraphDefinition.validate, hr, hr, check_normal]
    exact h
  · rw [hr]
    rfl

end WeaveFlow
