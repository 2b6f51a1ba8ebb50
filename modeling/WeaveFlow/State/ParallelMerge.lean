import WeaveFlow.State.Validation

/-!
# Merging the patches of parallel branches

The operations of all branches are put in one list, ordered by the order number of the
branch, its node, its position and the position of the operation.  Every pair of
operations of different branches is checked for a conflict, and if there is none the list
is applied as one patch and the result is validated.

Two loops of the source range over Go maps, whose order is not specified: flattening a
merge overlay and validating the contracts.  `RangeOrders` gives the orders that a call
happens to use, so that every result of the function is a result for some `RangeOrders`.
-/

namespace WeaveFlow

structure BranchPatch where
  taskID : String
  nodeID : String
  order : Int
  patch : Patch

structure ParallelMergeOptions where
  contracts : SortedMap String Contract
  schemas : SortedMap String Object
  reducers : Reducers

/-- The map orders of one call: for the overlays of the entries at two positions, on the left
and on the right, the order of the keys of the map at a key path; and the order of the
contracts. -/
structure RangeOrders where
  overlay : Nat → Nat → Bool → List String → List String → List String
  contracts : List (String × Contract) → List (String × Contract)
  overlay_perm : ∀ i j side at_ keys, (overlay i j side at_ keys).Perm keys
  contracts_perm : ∀ cs, (contracts cs).Perm cs

def RangeOrders.ascending : RangeOrders where
  overlay _ _ _ _ keys := keys
  contracts cs := cs
  overlay_perm _ _ _ _ _ := List.Perm.refl _
  contracts_perm _ := List.Perm.refl _

/-- Why a merge failed. -/
inductive MergeError where
  | contractViolation (nodeID message : String)
  | patchViolation (nodeID message : String)
  | conflict (path left right reason : String)
  | applyFailed (e : PatchError)
  | invalidOutput (issues : List ValidationIssue)
  deriving DecidableEq, Repr

/-! ## Entries -/

structure ParallelPatchEntry where
  taskID : String
  nodeID : String
  branchOrd : Int
  branchIdx : Nat
  opIdx : Nat
  op : PatchOp
  merge : MergeStrategy
  mergeKnown : Bool
  reducer : String
  reducerKnown : Bool

/-- The comparison of `normalizeBranchPatchEntries`. -/
def entryLess (left right : ParallelPatchEntry) : Bool :=
  if left.branchOrd ≠ right.branchOrd then left.branchOrd < right.branchOrd
  else if left.nodeID ≠ right.nodeID then left.nodeID < right.nodeID
  else if left.branchIdx ≠ right.branchIdx then left.branchIdx < right.branchIdx
  else left.opIdx < right.opIdx

def mkEntry (contracts : SortedMap String Contract) (branchIdx : Nat) (branch : BranchPatch)
    (opIdx : Nat) (op : PatchOp) : ParallelPatchEntry :=
  let contract := (contracts.get branch.nodeID).getD .zero
  let strategy := mergeStrategyForPath contract op.path
  let reducer := reducerForPath contract op.path
  { taskID := branch.taskID
    nodeID := branch.nodeID
    branchOrd := branch.order
    branchIdx := branchIdx
    opIdx := opIdx
    op := op
    merge := strategy.1
    mergeKnown := strategy.2
    reducer := reducer.1
    reducerKnown := reducer.2 }

def branchEntries (contracts : SortedMap String Contract) (branchIdx : Nat)
    (branch : BranchPatch) : List ParallelPatchEntry :=
  branch.patch.ops.zipIdx.map fun (op, opIdx) => mkEntry contracts branchIdx branch opIdx op

def validateBranch (engine : SchemaEngine) (contracts : SortedMap String Contract)
    (branch : BranchPatch) : Except MergeError Unit :=
  match contracts.get branch.nodeID with
  | some contract =>
    match validatePatchByContract engine branch.patch contract with
    | [] => .ok ()
    | issue :: _ => .error (.contractViolation branch.nodeID issue.message)
  | none =>
    match validatePatch branch.patch with
    | [] => .ok ()
    | issue :: _ => .error (.patchViolation branch.nodeID issue.message)

/-- The branch loop of `normalizeBranchPatchEntries`. -/
def collectEntries (engine : SchemaEngine) (contracts : SortedMap String Contract) :
    Nat → List BranchPatch → Except MergeError (List ParallelPatchEntry)
  | _, [] => .ok []
  | branchIdx, branch :: rest => do
      validateBranch engine contracts branch
      let entries ← collectEntries engine contracts (branchIdx + 1) rest
      return branchEntries contracts branchIdx branch ++ entries

def sortEntries (entries : List ParallelPatchEntry) : List ParallelPatchEntry :=
  KeySort.sort entryLess entries

def normalizeBranchPatchEntries (engine : SchemaEngine) (branches : List BranchPatch)
    (contracts : SortedMap String Contract) : Except MergeError (List ParallelPatchEntry) := do
  let entries ← collectEntries engine contracts 0 branches
  return sortEntries entries

/-! ## Conflicts -/

def firstNonEmptyTaskID (taskID nodeID : String) : String := if taskID ≠ "" then taskID else nodeID

def parallelConflictError (left right : ParallelPatchEntry) (reason : String) : MergeError :=
  .conflict left.op.path.string (firstNonEmptyTaskID left.taskID left.nodeID)
    (firstNonEmptyTaskID right.taskID right.nodeID) reason

/-- The flattened overlay: values by dotted path. -/
abbrev Flat := SortedMap String Raw

mutual

/-- `flattenMergeOverlayValue`, with the order in which the map at each key path is ranged. -/
def flattenMergeOverlayValue (range : List String → List String → List String) :
    Raw → List String → String → Flat → Flat
  | .leaf a, _, dotted, out => out.put dotted (.leaf a)
  | .node mapped, at_, dotted, out =>
    if mapped.isEmpty then out.put dotted (.node [])
    else
      (range at_ (mapped.map Prod.fst)).foldl (fun out key =>
        match Assoc.get key (flattenKids range mapped) with
        | none => out
        | some flattenItem =>
          flattenItem (at_ ++ [key]) (if dotted ≠ "" then dotted ++ "." ++ key else key) out)
        out

/-- The flattening of every item of a map, by key. -/
def flattenKids (range : List String → List String → List String) :
    Object → List (String × (List String → String → Flat → Flat))
  | [] => []
  | (key, item) :: rest => (key, flattenMergeOverlayValue range item) :: flattenKids range rest

end

def flattenMergeOverlay (range : List String → List String → List String) (values : Object) :
    Flat :=
  flattenMergeOverlayValue range (.node values) [] "" SortedMap.empty

/-- `strings.HasPrefix`. -/
def hasPrefixText (s start : String) : Bool := start.toList.isPrefixOf s.toList

def dottedPathWithin (path parent : String) : Bool :=
  if path = "" || parent = "" then false
  else path ≠ parent && hasPrefixText path (parent ++ ".")

/-- The check of two flattened values: the reason of a conflict. -/
def flatConflict (left right : String × Raw) : Option String :=
  if left.1 = right.1 then
    if !Raw.jsonEqual left.2 right.2 then some ("conflicting merge values at " ++ left.1) else none
  else if dottedPathWithin left.1 right.1 || dottedPathWithin right.1 left.1 then
    some "overlapping merge values"
  else none

/-- The loops of `validateMergeOverlayConflict` over two flattened overlays. -/
def flatConflicts (left right : Flat) : List String :=
  left.entries.flatMap fun l => right.entries.filterMap fun r => flatConflict l r

def validateMergeOverlayConflict (rangeLeft rangeRight : List String → List String → List String)
    (left right : ParallelPatchEntry) : Except MergeError Unit :=
  let leftMap := left.op.value.asMap.getD []
  let rightMap := right.op.value.asMap.getD []
  match flatConflicts (flattenMergeOverlay rangeLeft leftMap)
      (flattenMergeOverlay rangeRight rightMap) with
  | [] => .ok ()
  | reason :: _ => .error (parallelConflictError left right reason)

def parallelPairReducer (left right : ParallelPatchEntry) : Except MergeError (String × Bool) :=
  let leftReducer := trimSpace left.reducer
  let rightReducer := trimSpace right.reducer
  if left.reducerKnown && right.reducerKnown && leftReducer ≠ rightReducer then
    .error (parallelConflictError left right "incompatible reducers")
  else if left.reducerKnown then .ok (leftReducer, true)
  else if right.reducerKnown then .ok (rightReducer, true)
  else .ok ("", false)

def normalizedKnownMergeStrategy (entry : ParallelPatchEntry) : MergeStrategy × Bool :=
  if !entry.mergeKnown || entry.merge = .default then (.default, false) else (entry.merge, true)

def parallelPairMergeStrategy (left right : ParallelPatchEntry) :
    Except MergeError (MergeStrategy × Bool) :=
  let (leftStrategy, leftKnown) := normalizedKnownMergeStrategy left
  let (rightStrategy, rightKnown) := normalizedKnownMergeStrategy right
  if leftKnown && rightKnown && leftStrategy ≠ rightStrategy then
    .error (parallelConflictError left right "incompatible merge strategies")
  else if leftKnown then .ok (leftStrategy, true)
  else if rightKnown then .ok (rightStrategy, true)
  else .ok (.default, false)

section Pairs

variable (rangeLeft rangeRight : List String → List String → List String)

def validateParallelPatchPairByStrategy (left right : ParallelPatchEntry) :
    MergeStrategy → Except MergeError Unit
  | .append =>
    if left.op.kind = .append && right.op.kind = .append then .ok ()
    else .error (parallelConflictError left right "append merge strategy requires append ops")
  | .merge =>
    if left.op.kind = .merge && right.op.kind = .merge then
      validateMergeOverlayConflict rangeLeft rangeRight left right
    else .error (parallelConflictError left right "object merge strategy requires merge ops")
  | .replace =>
    if left.op.kind = .set && right.op.kind = .set &&
        Raw.jsonEqual left.op.value right.op.value then .ok ()
    else if left.op.kind = .delete && right.op.kind = .delete then .ok ()
    else .error (parallelConflictError left right
      "replace merge strategy allows only identical replacements")
  | _ => .error (parallelConflictError left right "unsupported merge strategy")

/-- The end of `validateParallelPatchPair`, where no strategy is declared. -/
def validateParallelPatchPairByKind (left right : ParallelPatchEntry) : Except MergeError Unit :=
  if left.op.kind = .append && right.op.kind = .append then .ok ()
  else if left.op.kind = .reduce && right.op.kind = .reduce &&
      left.op.reducer = right.op.reducer then .ok ()
  else if left.op.kind = .merge && right.op.kind = .merge then
    validateMergeOverlayConflict rangeLeft rangeRight left right
  else if left.op.kind = .set && right.op.kind = .set &&
      Raw.jsonEqual left.op.value right.op.value then .ok ()
  else if left.op.kind = .delete && right.op.kind = .delete then .ok ()
  else .error (parallelConflictError left right "conflicting writes")

def validateParallelPatchPair (left right : ParallelPatchEntry) : Except MergeError Unit :=
  let leftPath := left.op.path.string
  let rightPath := right.op.path.string
  if leftPath = "" || rightPath = "" then .ok ()
  else if leftPath ≠ rightPath then
    if pathWithin left.op.path right.op.path || pathWithin right.op.path left.op.path then
      .error (parallelConflictError left right "overlapping parent/child writes")
    else .ok ()
  else
    match parallelPairReducer left right with
    | .error e => .error e
    | .ok (reducer, reducerKnown) =>
      if reducerKnown && reducer ≠ "" then
        if left.op.kind ≠ .reduce || right.op.kind ≠ .reduce || left.op.reducer ≠ reducer ||
            right.op.reducer ≠ reducer then
          .error (parallelConflictError left right
            ("reducer " ++ quote reducer ++ " requires matching reduce ops"))
        else .ok ()
      else
        match parallelPairMergeStrategy left right with
        | .error e => .error e
        | .ok (strategy, strategyKnown) =>
          if strategyKnown then
            validateParallelPatchPairByStrategy rangeLeft rangeRight left right strategy
          else validateParallelPatchPairByKind rangeLeft rangeRight left right

end Pairs

/-- The inner loop of `validateParallelPatchConflicts`: one entry against the later ones. -/
def validateAgainst (orders : RangeOrders) (i : Nat) (left : ParallelPatchEntry) :
    Nat → List ParallelPatchEntry → Except MergeError Unit
  | _, [] => .ok ()
  | j, right :: rest => do
      if left.branchIdx ≠ right.branchIdx then
        validateParallelPatchPair (orders.overlay i j false) (orders.overlay i j true) left right
      validateAgainst orders i left (j + 1) rest

/-- `validateParallelPatchConflicts`, from the entry at a position on. -/
def validateParallelPatchConflicts (orders : RangeOrders) :
    Nat → List ParallelPatchEntry → Except MergeError Unit
  | _, [] => .ok ()
  | i, left :: rest => do
      validateAgainst orders i left (i + 1) rest
      validateParallelPatchConflicts orders (i + 1) rest

/-! ## The result -/

/-- The field has to be validated after the merge. -/
def fieldAffected (writtenPaths : List String) (field : FieldAccess) : Bool :=
  isWriteMode field.mode && !field.path.empty && !field.schema.isEmpty &&
    pathAffectedByWrites field.path writtenPaths

/-- What `validated` remembers of a field: its path and its schema. -/
def fieldKey (field : FieldAccess) : String × Raw :=
  (field.path.string, Raw.jsonNormal (.node field.schema))

/-- The check of one field of the merged state. -/
def validateMergedField (engine : SchemaEngine) (merged : State) (field : FieldAccess) :
    List ValidationIssue :=
  match merged.read field.path with
  | none =>
    if field.required then
      [⟨field.path.string, "missing_required_write_value",
        "required write path " ++ quote field.path.string ++ " is missing after parallel merge"⟩]
    else []
  | some value => validateJSONSchemaValue engine value field.schema field.path.string

/-- The field loops of `validateParallelMergeResult`. -/
def validateMergedFields (engine : SchemaEngine) (merged : State) (writtenPaths : List String) :
    List (String × Raw) → List FieldAccess → List ValidationIssue
  | _, [] => []
  | validated, field :: rest =>
    if !fieldAffected writtenPaths field || validated.contains (fieldKey field) then
      validateMergedFields engine merged writtenPaths validated rest
    else
      validateMergedField engine merged field ++
        validateMergedFields engine merged writtenPaths (fieldKey field :: validated) rest

def validateParallelMergeResult (engine : SchemaEngine) (orders : RangeOrders) (merged : State)
    (entries : List ParallelPatchEntry) (options : ParallelMergeOptions) : List ValidationIssue :=
  let writtenPaths := (entries.filter fun e => !e.op.path.empty).map fun e => e.op.path.string
  let fields := (orders.contracts options.contracts.entries).flatMap fun c => c.2.fields
  sortValidationIssues (validateStateBySchemas engine merged options.schemas ++
    validateMergedFields engine merged writtenPaths [] fields)

def mergeParallelPatches (engine : SchemaEngine) (orders : RangeOrders) (base : State)
    (branches : List BranchPatch) (options : ParallelMergeOptions) : Except MergeError State :=
  if branches.isEmpty then .ok base.clone
  else do
    let entries ← normalizeBranchPatchEntries engine branches options.contracts
    validateParallelPatchConflicts orders 0 entries
    match Patch.applyWithReducers ⟨entries.map ParallelPatchEntry.op⟩ base.clone
        options.reducers with
    | .error e => .error (.applyFailed e)
    | .ok merged =>
      match validateParallelMergeResult engine orders merged entries options with
      | [] => .ok merged
      | issues => .error (.invalidOutput issues)

end WeaveFlow
