import WeaveFlow.Graph.NodeExecution
import WeaveFlow.Runtime.Validation
import WeaveFlow.State.Record

/-!
# Tasks as JSON

The schedule of a run is kept in the internal section of its state, as lists of tasks.  A
checkpoint marshals them with the rest of the state, and `graphScheduleTasks` decodes them
again: unknown fields are refused, a field that is left out has its zero value, and the input
patch of a task is checked when it is decoded.

The scheduler hands tasks around and never looks at what they carry for the node: the input
patch, the operation id and the details of a failure.  They are given beside the task
(`TaskData`).

`decodeTask_json` says what comes back: the task as it was, and its data in normal form, which
has the same JSON (`TaskData.normal_jsonEq`).  Numbers in failure details come back as
`float64`; a number is given by its value here.
-/

namespace WeaveFlow

open Raw Assoc List

/-- What a task carries and the scheduler does not read. -/
structure TaskData where
  operationID : String := ""
  input : Patch := ⟨[]⟩
  parallelWaveSize : Int := 0
  details : Option ValidObject := none

/-! ## Encoding -/

/-- The fields of a patch operation. -/
def PatchOp.entries (op : PatchOp) : List (String × Option Raw) :=
  [("kind", some (Raw.string op.kind.text)), ("path", some (Raw.string op.path.string)),
    ("reducer", textEntry op.reducer), ("value", valueEntry op.value)]

def PatchOp.json (op : PatchOp) : Raw := .node (present op.entries)

/-- `Patch.MarshalJSON`; the operations of an empty patch are a nil slice. -/
def Patch.json (patch : Patch) : Raw :=
  match patch.ops with
  | [] => Raw.null
  | ops => Raw.slice .any (ops.map PatchOp.json)

/-- The details of a failure; a nil map is `null`. -/
def detailsJSON : Option ValidObject → Raw
  | none => Raw.null
  | some kids => .node kids.1

/-- The fields of a failure; they have the names of the struct. -/
def FailureContext.entries (failure : FailureContext) (details : Option ValidObject) :
    List (String × Option Raw) :=
  [("Details", some (detailsJSON details)), ("Error", some (Raw.string failure.error)),
    ("ErrorClass", some (Raw.string failure.errorClass)),
    ("SourceNodeID", some (Raw.string failure.sourceNodeID)),
    ("Stage", some (Raw.string failure.stage.text))]

def FailureContext.json (failure : FailureContext) (details : Option ValidObject) : Raw :=
  .node (present (failure.entries details))

def GraphTask.entries (task : GraphTask) (data : TaskData) : List (String × Option Raw) :=
  [("correlation_key", textEntry task.correlationKey),
    ("dynamic", if task.dynamic then some (.leaf (.bool true)) else none),
    ("failure", task.failure.map fun failure => failure.json data.details),
    ("input", some data.input.json),
    ("node_id", some (Raw.string task.nodeID)),
    ("operation_id", textEntry data.operationID),
    ("order", some (Raw.int task.order)),
    ("order_key", textEntry task.orderKey),
    ("parallel_wave_size",
      if data.parallelWaveSize = 0 then none else some (Raw.int data.parallelWaveSize)),
    ("task_id", some (Raw.string task.taskID))]

def GraphTask.json (task : GraphTask) (data : TaskData) : Raw :=
  .node (present (task.entries data))

/-! ## Decoding -/

def PatchOpKind.ofText (text : String) : PatchOpKind :=
  if text = "set" then .set
  else if text = "delete" then .delete
  else if text = "merge" then .merge
  else if text = "append" then .append
  else if text = "reduce" then .reduce
  else .other text

/-- A patch operation is decoded; its fields may come with others. -/
def decodeOp : Raw → Option PatchOp
  | .node kids => do
      let kind ← textField (Assoc.get "kind" kids)
      let path ← textField (Assoc.get "path" kids)
      let path ← (parsePath path).toOption
      let reducer ← textField (Assoc.get "reducer" kids)
      let value : Raw := (Assoc.get "value" kids).getD Raw.null
      if h : Raw.Valid value then some ⟨.ofText kind, path, value, reducer, h⟩ else none
  | .leaf _ => none

/-- `Patch.UnmarshalJSON`. -/
def decodePatch : Raw → Option Patch
  | .leaf .null => some ⟨[]⟩
  | .leaf (.slice _ items) => do
      let ops ← items.mapM decodeOp
      if validatePatch ⟨ops⟩ = [] then some ⟨ops⟩ else none
  | _ => none

def decodeDetails : Option Raw → Option (Option ValidObject)
  | none => some none
  | some (.leaf .null) => some none
  | some (.node kids) => if h : Raw.Valid (.node kids) then some (some ⟨kids, h⟩) else none
  | some _ => none

def failureFields : List String := ["Details", "Error", "ErrorClass", "SourceNodeID", "Stage"]

def decodeFailure : Option Raw → Option (Option (FailureContext × Option ValidObject))
  | none => some none
  | some (.leaf .null) => some none
  | some (.node kids) =>
    if knownFields failureFields kids then do
      let stage ← textField (Assoc.get "Stage" kids)
      let stage ← FailureStage.ofText stage
      let errorClass ← textField (Assoc.get "ErrorClass" kids)
      let error ← textField (Assoc.get "Error" kids)
      let sourceNodeID ← textField (Assoc.get "SourceNodeID" kids)
      let details ← decodeDetails (Assoc.get "Details" kids)
      return some (⟨stage, errorClass, error, sourceNodeID⟩, details)
    else none
  | some _ => none

def inputField : Option Raw → Option Patch
  | none => some ⟨[]⟩
  | some v => decodePatch v

def taskFields : List String :=
  ["task_id", "operation_id", "node_id", "input", "correlation_key", "order_key", "order",
    "dynamic", "parallel_wave_size", "failure"]

def decodeTask : Raw → Option (GraphTask × TaskData)
  | .node kids =>
    if knownFields taskFields kids then do
      let taskID ← textField (Assoc.get "task_id" kids)
      let operationID ← textField (Assoc.get "operation_id" kids)
      let nodeID ← textField (Assoc.get "node_id" kids)
      let input ← inputField (Assoc.get "input" kids)
      let correlationKey ← textField (Assoc.get "correlation_key" kids)
      let orderKey ← textField (Assoc.get "order_key" kids)
      let order ← intField (Assoc.get "order" kids)
      let dynamic ← boolField (Assoc.get "dynamic" kids)
      let parallelWaveSize ← intField (Assoc.get "parallel_wave_size" kids)
      let failure ← decodeFailure (Assoc.get "failure" kids)
      return ({ taskID, nodeID, correlationKey, orderKey, order, dynamic
                failure := failure.map Prod.fst },
        { operationID, input, parallelWaveSize, details := failure.bind Prod.snd })
    else none
  | .leaf _ => none

/-! ## Normal forms -/

/-- An operation with its value in normal form. -/
def PatchOp.normal (op : PatchOp) : PatchOp :=
  ⟨.ofText op.kind.text, op.path, op.value.jsonNormal, op.reducer, valid_jsonNormal op.valid⟩

/-- A patch with its values in normal form. -/
def Patch.normal (patch : Patch) : Patch := ⟨patch.ops.map PatchOp.normal⟩

/-- The data of a task in normal form.  Details without a failure are not written. -/
def TaskData.normal (data : TaskData) (task : GraphTask) : TaskData :=
  { data with
    input := data.input.normal
    details := if task.failure.isSome then data.details.map normalSection else none }

/-- The operations are the same, with values of the same JSON. -/
structure PatchOp.JSONEq (a b : PatchOp) : Prop where
  kind : a.kind.text = b.kind.text
  path : a.path = b.path
  reducer : a.reducer = b.reducer
  value : a.value.JSONEq b.value

/-- The data of the task are the same up to JSON. -/
structure TaskData.JSONEq (task : GraphTask) (a b : TaskData) : Prop where
  operationID : a.operationID = b.operationID
  parallelWaveSize : a.parallelWaveSize = b.parallelWaveSize
  input : List.Forall₂ PatchOp.JSONEq a.input.ops b.input.ops
  details : task.failure.isSome → (detailsJSON a.details).JSONEq (detailsJSON b.details)

theorem PatchOpKind.text_ofText (text : String) : (ofText text).text = text := by
  unfold ofText
  split_ifs with h h h h h
  all_goals first | exact h.symm | rfl

theorem PatchOp.normal_jsonEq (op : PatchOp) : op.normal.JSONEq op where
  kind := PatchOpKind.text_ofText op.kind.text
  path := rfl
  reducer := rfl
  value := jsonNormal_idem op.value

theorem Patch.normal_jsonEq (patch : Patch) :
    List.Forall₂ PatchOp.JSONEq patch.normal.ops patch.ops := by
  rw [Patch.normal, forall₂_map_left_iff, forall₂_same]
  exact fun op _ => op.normal_jsonEq

theorem detailsJSON_normal :
    (detailsJSON (details.map normalSection)).JSONEq (detailsJSON details) := by
  cases details with
  | none => rfl
  | some kids =>
    rw [Raw.JSONEq, Option.map_some, detailsJSON, detailsJSON, jsonNormal_node, jsonNormal_node]
    exact congrArg (fun m : ValidObject => MapTree.node m.1) normalSection_idem

/-- The normal form has the same JSON. -/
theorem TaskData.normal_jsonEq (data : TaskData) (task : GraphTask) :
    TaskData.JSONEq task (data.normal task) data where
  operationID := rfl
  parallelWaveSize := rfl
  input := data.input.normal_jsonEq
  details hf := by
    rw [normal, if_pos hf]
    exact detailsJSON_normal

/-! ## Patches -/

theorem PatchOp.sorted_entries (op : PatchOp) : Assoc.Sorted op.entries :=
  sorted_of_keys ["kind", "path", "reducer", "value"] rfl (by decide)

/-- An operation comes back in normal form, unless it has no path. -/
theorem decodeOp_json (op : PatchOp) :
    decodeOp op.json.jsonNormal = if op.path.empty then none else some op.normal := by
  have hg := get_normal_present op.sorted_entries
  rw [PatchOp.json, jsonNormal_present, decodeOp]
  simp only [hg]
  simp only [PatchOp.entries, Assoc.get_cons, String.reduceEq, reduceIte, Option.join_some,
    textField_textEntry, textField_some, valueEntry_getD, Option.bind_eq_bind, Option.bind_some]
  cases he : op.path.empty with
  | true =>
    rw [Path.string_eq_empty.mpr he]
    rfl
  | false =>
    rw [Path.parsePath_string he]
    exact dif_pos (valid_jsonNormal op.valid)

theorem validateOp_ne_nil (h : op.path.empty = true) : validateOp op ≠ [] := by
  intro hn
  simp [(validateOp_eq_nil hn).1] at h

theorem mapM_decodeOp (ops : List PatchOp) : (ops.map fun op => op.json.jsonNormal).mapM decodeOp =
      if ops.any fun op => op.path.empty then none else some (ops.map PatchOp.normal) := by
  induction ops with
  | nil => rfl
  | cons op ops ih =>
    rw [map_cons, mapM_cons, decodeOp_json, ih, any_cons, map_cons]
    cases op.path.empty with
    | true => rfl
    | false =>
      cases ops.any fun op => op.path.empty with
      | true => rfl
      | false => rfl

/-- A patch comes back in normal form if that passes the check. -/
theorem decodePatch_json (patch : Patch) : decodePatch patch.json.jsonNormal =
      if validatePatch patch.normal = [] then some patch.normal else none := by
  obtain ⟨ops⟩ := patch
  cases ops with
  | nil => rfl
  | cons op ops =>
    have hi : (Patch.mk (op :: ops)).json.jsonNormal =
        Raw.slice .any ((op :: ops).map fun op => op.json.jsonNormal) := by
      rw [Patch.json, jsonNormal_slice (by decide), jsonItems_eq, map_map]
      rfl
    rw [hi, decodePatch, mapM_decodeOp]
    cases ha : (op :: ops).any fun op => op.path.empty with
    | true =>
      -- an operation without a path fails the check as well
      obtain ⟨bad, hm, he⟩ := any_eq_true.mp ha
      have his : validatePatch (Patch.mk (op :: ops)).normal ≠ [] := by
        intro hn
        have hb := validatePatch_eq_nil.mp hn bad.normal (mem_map_of_mem hm)
        have hp : bad.normal.path.empty = true := he
        exact validateOp_ne_nil hp hb
      rw [if_neg his]
      rfl
    | false => rfl

/-! ## Failures -/

theorem FailureContext.sorted_entries (failure : FailureContext) (details : Option ValidObject) :
    Assoc.Sorted (failure.entries details) :=
  sorted_of_keys ["Details", "Error", "ErrorClass", "SourceNodeID", "Stage"] rfl (by decide)

theorem decodeDetails_json (details : Option ValidObject) :
    decodeDetails (Option.map jsonNormal (some (detailsJSON details))) =
      some (details.map normalSection) := by
  cases details with
  | none => rfl
  | some kids =>
    rw [detailsJSON, Option.map_some, jsonNormal_node, decodeDetails]
    exact dif_pos (normalSection kids).2

/-- A failure comes back with its details in normal form. -/
theorem decodeFailure_json (failure : Option FailureContext) (details : Option ValidObject) :
    decodeFailure ((failure.map fun failure => failure.json details).map jsonNormal) =
      some (failure.map fun failure => (failure, details.map normalSection)) := by
  cases failure with
  | none => rfl
  | some failure =>
    have hg := get_normal_present (failure.sorted_entries details)
    have hk : knownFields failureFields (present (mapVals
        (Option.map jsonNormal) (failure.entries details))) = true :=
      knownFields_present (by simp [FailureContext.entries, failureFields])
    rw [Option.map_some, Option.map_some, FailureContext.json, jsonNormal_present,
      decodeFailure, if_pos hk]
    simp only [hg]
    simp only [FailureContext.entries, Assoc.get_cons, String.reduceEq, reduceIte,
      Option.join_some, textField_some, FailureStage.ofText_text, decodeDetails_json,
      Option.bind_eq_bind, Option.bind_some]
    rfl

/-! ## Tasks -/

theorem GraphTask.sorted_entries (task : GraphTask) (data : TaskData) :
    Assoc.Sorted (task.entries data) :=
  sorted_of_keys ["correlation_key", "dynamic", "failure", "input", "node_id", "operation_id",
    "order", "order_key", "parallel_wave_size", "task_id"] rfl (by decide)

theorem boolField_entry (b : Bool) :
    boolField (Option.map jsonNormal (if b then some (.leaf (.bool true)) else none)) = some b := by
  cases b <;> rfl

theorem intField_entry (n : Int) :
    intField (Option.map jsonNormal (if n = 0 then none else some (Raw.int n))) = some n := by
  split
  next h => rw [h]; rfl
  · rfl

theorem inputField_json (patch : Patch) : inputField (Option.map jsonNormal (some patch.json)) =
      if validatePatch patch.normal = [] then some patch.normal else none :=
  decodePatch_json patch

/-- A task comes back as it was, with its data in normal form, if its input passes the
check. -/
theorem decodeTask_json (task : GraphTask) (data : TaskData) :
    decodeTask (task.json data).jsonNormal =
      if validatePatch data.input.normal = [] then some (task, data.normal task) else none := by
  have hg := get_normal_present (task.sorted_entries data)
  have hk : knownFields taskFields (present (mapVals
      (Option.map jsonNormal) (task.entries data))) = true :=
    knownFields_present (by simp [GraphTask.entries, taskFields])
  have ht : Assoc.get "task_id" (task.entries data) =
    some (some (Raw.string task.taskID)) := rfl
  have ho : Assoc.get "operation_id" (task.entries data) =
    some (textEntry data.operationID) := rfl
  have hn : Assoc.get "node_id" (task.entries data) =
    some (some (Raw.string task.nodeID)) := rfl
  have hi : Assoc.get "input" (task.entries data) = some (some data.input.json) := rfl
  have hc : Assoc.get "correlation_key" (task.entries data) =
    some (textEntry task.correlationKey) := rfl
  have hor : Assoc.get "order_key" (task.entries data) =
    some (textEntry task.orderKey) := rfl
  have hod : Assoc.get "order" (task.entries data) = some (some (Raw.int task.order)) := rfl
  have hd : Assoc.get "dynamic" (task.entries data) =
    some (if task.dynamic then some (.leaf (.bool true)) else none) := rfl
  have hs : Assoc.get "parallel_wave_size" (task.entries data) =
    some (if data.parallelWaveSize = 0 then none
      else some (Raw.int data.parallelWaveSize)) := rfl
  have hf : Assoc.get "failure" (task.entries data) =
    some (task.failure.map fun failure => failure.json data.details) := rfl
  rw [GraphTask.json, jsonNormal_present, decodeTask, if_pos hk]
  simp only [hg, ht, ho, hn, hi, hc, hor, hod, hd,
    hs, hf, Option.join_some, textField_some, textField_textEntry, boolField_entry,
    intField_entry, inputField_json, decodeFailure_json, Option.bind_eq_bind,
    Option.bind_some]
  split
  · obtain ⟨taskID, nodeID, correlationKey, orderKey, order, dynamic, failure⟩ := task
    cases failure <;> rfl
  · rfl

/-! ## Encoded values are valid -/

theorem valid_textEntry (h : textEntry s = some v) : v.Valid := by
  rw [textEntry] at h
  split at h
  · cases h
  · cases h; rfl

theorem PatchOp.valid_json (op : PatchOp) : op.json.Valid := by
  refine valid_present op.sorted_entries ?_
  simp only [PatchOp.entries, forall_mem_cons, not_mem_nil, false_implies,
    implies_true, and_true, Option.some.injEq, forall_eq']
  refine ⟨rfl, rfl, fun v => valid_textEntry, fun v hv => ?_⟩
  unfold valueEntry at hv
  split at hv
  · cases hv
  · cases hv; exact op.valid

theorem Patch.valid_json (patch : Patch) : patch.json.Valid := by
  unfold Patch.json
  split
  · rfl
  · refine valid_slice.mpr fun v hv => ⟨.inl rfl, ?_⟩
    obtain ⟨op, -, rfl⟩ := mem_map.mp hv
    exact op.valid_json

theorem FailureContext.valid_json (failure : FailureContext) (details : Option ValidObject) :
    (failure.json details).Valid := by
  refine valid_present (failure.sorted_entries details) ?_
  simp only [FailureContext.entries, forall_mem_cons, not_mem_nil, false_implies,
    implies_true, and_true, Option.some.injEq, forall_eq']
  refine ⟨?_, rfl, rfl, rfl, rfl⟩
  cases details with
  | none => rfl
  | some kids => exact kids.2

theorem GraphTask.valid_json (task : GraphTask) (data : TaskData) : (task.json data).Valid := by
  refine valid_present (task.sorted_entries data) ?_
  simp only [GraphTask.entries, forall_mem_cons, not_mem_nil, false_implies,
    implies_true, and_true, Option.some.injEq, forall_eq']
  refine ⟨fun v => valid_textEntry, ?_, ?_, data.input.valid_json, rfl, fun v => valid_textEntry,
    rfl, fun v => valid_textEntry, ?_, rfl⟩
  · intro v hv
    split at hv
    · cases hv; rfl
    · cases hv
  · intro v hv
    obtain ⟨failure, -, rfl⟩ := Option.map_eq_some_iff.mp hv
    exact failure.valid_json data.details
  · intro v hv
    split at hv
    · cases hv
    · cases hv; rfl

end WeaveFlow
