import WeaveFlow.Lib.KeySort
import WeaveFlow.State.Patch

/-!
# Contracts and validation

A contract declares the paths a node may read and write.  The validators return a list
of issues; an empty list means that the patch or the state is accepted.

JSON Schema compilation and validation are done by a library outside the repository.
`SchemaEngine` stands for it: it is given the schema and the value as the JSON they
marshal to, so its answers depend on nothing else.
-/

namespace WeaveFlow

open List

/-! ## Contracts -/

/-- `AccessMode`; any other text is kept. -/
inductive AccessMode where
  | read
  | write
  | readWrite
  | other (mode : String)
  deriving DecidableEq, Repr

def AccessMode.text : AccessMode → String
  | read => "read"
  | write => "write"
  | readWrite => "read_write"
  | other mode => mode

/-- `MergeStrategy`; any other text is kept. -/
inductive MergeStrategy where
  | default
  | replace
  | merge
  | append
  | other (strategy : String)
  deriving DecidableEq, Repr

def MergeStrategy.text : MergeStrategy → String
  | default => ""
  | replace => "replace"
  | merge => "merge"
  | append => "append"
  | other strategy => strategy

/-- `FieldAccess`: one path of a node contract. -/
structure FieldAccess where
  path : Path
  mode : AccessMode
  required : Bool
  merge : MergeStrategy
  reducer : String
  schema : Object

structure Contract where
  fields : List FieldAccess
  wildcardRead : Bool
  wildcardWrite : Bool

/-- The zero contract, which a missing map entry gives. -/
def Contract.zero : Contract := ⟨[], false, false⟩

def isReadMode (mode : AccessMode) : Bool := mode = .read || mode = .readWrite

def isWriteMode (mode : AccessMode) : Bool := mode = .write || mode = .readWrite

def validAccessMode : AccessMode → Bool
  | .other _ => false
  | _ => true

def validMergeStrategy : MergeStrategy → Bool
  | .other _ => false
  | _ => true

def validPatchOpKind : PatchOpKind → Bool
  | .other _ => false
  | _ => true

/-- `contractPaths`: the declared paths with a mode, each once. -/
def contractPaths (fields : List FieldAccess) (include_ : AccessMode → Bool) : List Path :=
  (fields.foldl (fun (acc : List Path) field =>
    if field.path.empty || !include_ field.mode then acc
    else if acc.any fun p => p.string = field.path.string then acc
    else acc ++ [field.path]) [])

def Contract.readPaths (c : Contract) : List Path := contractPaths c.fields isReadMode

def Contract.writePaths (c : Contract) : List Path := contractPaths c.fields isWriteMode

/-- The loop that `mergeStrategyForPath` and `reducerForPath` share: the deepest write field
that contains the path or lies in it, the first one of that depth. -/
def fieldForPath (contract : Contract) (path : Path) : Option FieldAccess :=
  if path.empty then none
  else
    contract.fields.foldl (fun selected field =>
      if !isWriteMode field.mode || field.path.empty then selected
      else if !pathWithin path field.path && !pathWithin field.path path then selected
      else
        match selected with
        | none => some field
        | some old => if field.path.segments.length > old.path.segments.length then some field
            else selected) none

def mergeStrategyForPath (contract : Contract) (path : Path) : MergeStrategy × Bool :=
  match fieldForPath contract path with
  | none => (.default, false)
  | some field => (field.merge, true)

def reducerForPath (contract : Contract) (path : Path) : String × Bool :=
  match fieldForPath contract path with
  | none => ("", false)
  | some field => (trimSpace field.reducer, true)

/-! ## Issues -/

structure ValidationIssue where
  path : String
  kind : String
  message : String
  deriving DecidableEq, Repr

/-- The order of `sortValidationIssues`. -/
def issueLess (a b : ValidationIssue) : Bool :=
  if a.path ≠ b.path then a.path < b.path
  else if a.kind ≠ b.kind then a.kind < b.kind
  else a.message < b.message

def sortValidationIssues (issues : List ValidationIssue) : List ValidationIssue :=
  KeySort.sort issueLess issues

theorem sortValidationIssues_eq_nil : sortValidationIssues issues = [] ↔ issues = [] := by
  have hp := KeySort.perm_sort issueLess issues
  constructor
  · intro h
    rw [sortValidationIssues] at h
    rw [h] at hp
    exact hp.symm.eq_nil
  · rintro rfl
    rfl

/-! ## JSON Schema -/

/-- One failed keyword of a schema validation. -/
structure SchemaLeaf where
  instanceLocation : List String
  kind : String
  message : String

/-- The JSON Schema library: the error of compiling a schema, and the failures of a value. -/
structure SchemaEngine where
  compile : Raw → Option String
  validate : Raw → Raw → List SchemaLeaf

/-- A schema library that accepts every value. -/
def SchemaEngine.accepting : SchemaEngine := ⟨fun _ => none, fun _ _ => []⟩

def joinSchemaInstancePath (basePath : String) (location : List String) : String :=
  let parts := if basePath = "" then [] else [basePath]
  joinDots (parts ++ (location.map trimSpace).filter fun s => s ≠ "")

def schemaValidationIssues (leaves : List SchemaLeaf) (basePath : String) : List ValidationIssue :=
  let issues := leaves.map fun leaf =>
    (⟨joinSchemaInstancePath basePath leaf.instanceLocation, leaf.kind, leaf.message⟩ :
      ValidationIssue)
  sortValidationIssues (issues.foldl (fun acc issue =>
    if acc.contains issue then acc else acc ++ [issue]) [])

section Engine

variable (engine : SchemaEngine)

def validateJSONSchemaDefinition (schema : Object) : Option String :=
  if schema.isEmpty then none else engine.compile (Raw.jsonNormal (.node schema))

def validateJSONSchemaValue (value : Raw) (schema : Object) (basePath : String) :
    List ValidationIssue :=
  if schema.isEmpty then []
  else
    match engine.compile (Raw.jsonNormal (.node schema)) with
    | some e => [⟨trimSpace basePath, "invalid_json_schema", e⟩]
    | none =>
      schemaValidationIssues
        (engine.validate (Raw.jsonNormal (.node schema)) (Raw.jsonNormal value))
        (trimSpace basePath)

/-- The check of `ValidateStateBySchemas` for one path. -/
def validateStateBySchema (current : State) (pathText : String) (schema : Object) :
    List ValidationIssue :=
  match parsePath pathText with
  | .error e => [⟨pathText, "invalid_schema_path", e⟩]
  | .ok path =>
    match current.read path with
    | none => []
    | some value => validateJSONSchemaValue engine value schema pathText

def validateStateBySchemas (current : State) (schemas : SortedMap String Object) :
    List ValidationIssue :=
  schemas.entries.flatMap fun e => validateStateBySchema engine current e.1 e.2

/-! ## Validators -/

/-- The checks of `ValidateContract` for one field. -/
def validateField (field : FieldAccess) : List ValidationIssue :=
  let path := field.path.string
  (if field.path.empty then
    [⟨"", "empty_contract_path", "contract field path is required"⟩] else []) ++
  (if isReservedPath field.path then
    [⟨path, "reserved_contract_path",
      "contract path " ++ quote path ++ " is reserved for the runtime"⟩] else []) ++
  (if !validAccessMode field.mode then
    [⟨path, "invalid_access_mode", "invalid access mode " ++ quote field.mode.text⟩] else []) ++
  (if !validMergeStrategy field.merge then
    [⟨path, "invalid_merge_strategy",
      "invalid merge strategy " ++ quote field.merge.text⟩] else []) ++
  (match validateJSONSchemaDefinition engine field.schema with
    | none => []
    | some e => [⟨path, "invalid_json_schema",
        "invalid JSON Schema at " ++ quote path ++ ": " ++ e⟩])

def validateContract (contract : Contract) : List ValidationIssue :=
  contract.fields.flatMap (validateField engine)

end Engine

/-- The checks of `ValidatePatch` for one operation. -/
def validateOp (op : PatchOp) : List ValidationIssue :=
  let path := op.path.string
  (if op.path.empty then [⟨"", "empty_patch_path", "patch op path is required"⟩] else []) ++
  (if !validPatchOpKind op.kind then
    [⟨path, "invalid_patch_op", "invalid patch op kind " ++ quote op.kind.text⟩] else []) ++
  (if op.kind = .merge && op.value.asMap.isNone then
    [⟨path, "invalid_merge_value", "merge op at " ++ quote path ++
      " requires map[string]any value, got " ++ op.value.typeText⟩] else []) ++
  (if op.kind = .reduce && trimSpace op.reducer = "" then
    [⟨path, "missing_reducer", "reduce op requires reducer"⟩] else [])

def validatePatch (patch : Patch) : List ValidationIssue := patch.ops.flatMap validateOp

def pathAllowedByAny (path : Path) (allowed : List Path) : Bool :=
  allowed.any fun candidate => path.string = candidate.string

def patchCoversPath (patch : Patch) (required : Path) : Bool :=
  patch.ops.any fun op => pathWithin required op.path

def reservedPatchPath (path : Path) : ValidationIssue :=
  ⟨path.string, "reserved_patch_path", "patch writes reserved path " ++ quote path.string⟩

/-- The write checks of `ValidatePatchByContract` for one operation. -/
def validateOpByContract (contract : Contract) (op : PatchOp) : List ValidationIssue :=
  if op.path.empty then []
  else if pathAllowedByAny op.path contract.writePaths then
    let (reducer, known) := reducerForPath contract op.path
    if known && reducer ≠ "" && (op.kind ≠ .reduce || trimSpace op.reducer ≠ reducer) then
      [⟨op.path.string, "reducer_mismatch",
        "patch at " ++ quote op.path.string ++ " must use reducer " ++ quote reducer⟩]
    else if known && reducer = "" && op.kind = .reduce then
      [⟨op.path.string, "reducer_not_declared",
        "patch at " ++ quote op.path.string ++ " uses reducer " ++ quote op.reducer ++
          " without declaring it in the state contract"⟩]
    else []
  else [⟨op.path.string, "write_not_allowed",
    "patch writes undeclared path " ++ quote op.path.string⟩]

/-- The required writes that a patch does not make. -/
def missingRequiredWrites (patch : Patch) (contract : Contract) : List ValidationIssue :=
  contract.fields.flatMap fun field =>
    if !field.required || !isWriteMode field.mode || field.path.empty then []
    else if patchCoversPath patch field.path then []
    else [⟨field.path.string, "missing_required_write",
      "patch must write required path " ++ quote field.path.string⟩]

def validatePatchByContract (engine : SchemaEngine) (patch : Patch) (contract : Contract) :
    List ValidationIssue :=
  validatePatch patch ++ validateContract engine contract ++
    if contract.wildcardWrite then
      (patch.ops.filter fun op => isReservedPath op.path).map fun op => reservedPatchPath op.path
    else
      patch.ops.flatMap (validateOpByContract contract) ++ missingRequiredWrites patch contract

def pathAffectedByWrites (path : Path) (writtenPaths : List String) : Bool :=
  writtenPaths.any fun text =>
    match parsePath text with
    | .error _ => false
    | .ok written => pathWithin path written || pathWithin written path

/-! ## What an accepted patch has -/

theorem validateOp_eq_nil (h : validateOp op = []) :
    op.path.empty = false ∧ validPatchOpKind op.kind = true ∧
      (op.kind = .merge → ∃ overlay, op.value = .node overlay) := by
  simp only [validateOp, append_eq_nil_iff] at h
  obtain ⟨⟨⟨hp, hki⟩, hm⟩, -⟩ := h
  refine ⟨?_, ?_, fun hk => ?_⟩
  · by_contra hne
    simp [if_pos (by simpa using hne)] at hp
  · by_contra hne
    simp [if_pos (by simpa using hne)] at hki
  · cases hv : op.value with
    | node overlay => exact ⟨overlay, rfl⟩
    | leaf a =>
      rw [if_pos (by simp [hk, hv, Raw.asMap])] at hm
      cases hm

theorem validatePatch_eq_nil : validatePatch patch = [] ↔ ∀ op ∈ patch.ops, validateOp op = [] := by
  rw [validatePatch, flatMap_eq_nil_iff]

theorem validatePatch_of_byContract (h : validatePatchByContract engine patch contract = []) :
    validatePatch patch = [] := by
  rw [validatePatchByContract, append_eq_nil_iff, append_eq_nil_iff] at h
  exact h.1.1

/-- Schema validation sees only the JSON of the value. -/
theorem validateJSONSchemaValue_congr (h : Raw.JSONEq v w) :
    validateJSONSchemaValue engine v schema basePath =
      validateJSONSchemaValue engine w schema basePath := by
  rw [validateJSONSchemaValue, validateJSONSchemaValue, h]

end WeaveFlow
