import WeaveFlow.Agent.Conversation
import WeaveFlow.Runtime.Records
import WeaveFlow.State.Validation

/-!
# Tools

Tools are looked up by the name that a model gives, and executed after a number of checks: the
definition and the handler are there, the arguments fit their schema, the permissions are
granted, somebody approves, there is capacity, and the intent is on record.  Only then the
handler is invoked.  `ToolEnv` holds what one execution meets: the grants, the approver, the
journal and what the handler returns.

`answerToolCall_invoked` says what an invocation means: the name of the call is resolved to this
tool, and the checks are passed.
-/

namespace WeaveFlow

/-! ## Errors -/

inductive ErrorClass where
  | unknown
  | invalidInput
  | invalidOutput
  | timeout
  | canceled
  | rateLimited
  | unavailable
  | permissionDenied
  | sideEffectFailed
  | resourceExhausted
  | nonRetryable
  | other (text : String)
  deriving DecidableEq, Repr

def ErrorClass.text : ErrorClass → String
  | .unknown => "unknown"
  | .invalidInput => "invalid_input"
  | .invalidOutput => "invalid_output"
  | .timeout => "timeout"
  | .canceled => "canceled"
  | .rateLimited => "rate_limited"
  | .unavailable => "unavailable"
  | .permissionDenied => "permission_denied"
  | .sideEffectFailed => "side_effect_failed"
  | .resourceExhausted => "resource_exhausted"
  | .nonRetryable => "non_retryable"
  | .other text => text

/-- An error of a tool: its class, its text, and whether it wraps `ErrToolNotFound`. -/
structure ToolError where
  errorClass : ErrorClass := .unknown
  message : String
  notFound : Bool := false
  deriving DecidableEq, Repr

/-- `NewExecutionError`, with the text that its `Error` returns. -/
def newExecutionError (errorClass : ErrorClass) (message : String) (cause : Option ToolError) :
    ToolError where
  errorClass := errorClass
  message :=
    if trimSpace message ≠ "" then trimSpace message
    else match cause with
      | some e => e.message
      | none => "execution failed with class " ++ quote errorClass.text
  notFound := cause.any ToolError.notFound

/-- The text of `NewValidationError`. -/
def validationErrorText (boundary : String) (issues : List ValidationIssue) : String :=
  match sortValidationIssues issues with
  | [] => "state validation failed"
  | first :: _ =>
    boundary ++ " state validation failed" ++
      (if first.path ≠ "" then " at " ++ quote first.path else "") ++ ": " ++ first.message

/-! ## Looking tools up -/

/-- Unicode case: `unicode.ToLower`, and the letter that `strings.EqualFold` compares by. -/
structure CaseMap where
  lower : Char → Char
  fold : Char → Char

def CaseMap.ascii : CaseMap := ⟨Char.toLower, Char.toLower⟩

def CaseMap.equalFold (cases : CaseMap) (s t : String) : Bool :=
  s.toList.map cases.fold = t.toList.map cases.fold

def CaseMap.toLower (cases : CaseMap) (s : String) : String := s.map cases.lower

structure FunctionDefinition where
  name : String
  parameters : Object := []
  outputSchema : Object := []
  deriving DecidableEq

/-- `ToolApprovalMode`; `unset` is the empty text. -/
inductive ToolApprovalMode where
  | unset
  | never
  | required
  | other (text : String)
  deriving DecidableEq, Repr

/-- `core.Tool`.  A handler is named; what it returns is given by a `ToolEnv`. -/
structure Tool where
  function : Option FunctionDefinition
  handler : Option String
  permissions : List String := []
  approval : ToolApprovalMode := .unset
  effect : EffectClass := .unset
  deriving DecidableEq

def Tool.name (tool : Tool) : String := (tool.function.map FunctionDefinition.name).getD ""

/-- The tools of a context, by id. -/
abbrev Tools := SortedMap String Tool

/-- `cloneTools`, which also `Context.Tools` returns; no tools are `nil`. -/
def cloneTools (input : Tools) : Tools :=
  input.entries.foldl (fun out e => if trimSpace e.1 = "" then out else out.put (trimSpace e.1) e.2)
    .empty

def filterTools (available : Tools) (ids : List String) : Tools :=
  if ids.isEmpty then cloneTools available
  else
    ids.foldl (fun filtered id =>
      if trimSpace id = "" then filtered
      else match available.get (trimSpace id) with
        | some tool => filtered.put (trimSpace id) tool
        | none => filtered) .empty

/-- `FindTool`: by its id, or else the only one whose id or name is the same up to case. -/
def findTool (cases : CaseMap) (available : Tools) (name : String) : Option Tool :=
  if trimSpace name = "" then none
  else match available.get (trimSpace name) with
    | some tool => some tool
    | none =>
      match available.entries.filter fun e =>
        cases.equalFold (trimSpace e.1) (trimSpace name) ||
          cases.equalFold (trimSpace e.2.name) (trimSpace name) with
      | [e] => some e.2
      | _ => none

/-! ## The checks -/

structure ToolApprovalDecision where
  approved : Bool
  reason : String := ""

/-- What one execution of a tool meets. -/
structure ToolEnv where
  cases : CaseMap
  engine : SchemaEngine
  /-- `json.Unmarshal` of the arguments. -/
  unmarshal : String → Except String Raw
  /-- The permissions that `WithToolPermissions` has granted, if it was called. -/
  grants : Option (List String)
  approver : Option (ToolCall → List String → Except String ToolApprovalDecision)
  /-- `AcquireToolExecution`. -/
  acquire : Except ToolError Unit
  /-- `recordEffect` of the operation with this status. -/
  record : EffectStatus → Except ToolError Unit
  /-- What the handler returns. -/
  handle : Tool → ToolCall → ToolResult × Option ToolError

def callArguments (call : ToolCall) : String :=
  match call.functionCall with
  | some function => if function.arguments = "" then "{}" else function.arguments
  | none => "{}"

/-- `core.toolCallName`. -/
def trimmedToolCallName (call : ToolCall) : String :=
  (call.functionCall.map fun function => trimSpace function.name).getD ""

def normalizeToolCall (tool : Tool) (call : ToolCall) : ToolCall :=
  let function := call.functionCall.getD ⟨"", ""⟩
  { call with
    type := if call.type = "" then "function" else call.type
    functionCall := some
      ⟨if trimSpace function.name = "" then trimSpace tool.name else function.name,
        if function.arguments = "" then "{}" else function.arguments⟩ }

/-- `normalizeToolResult`: an id and a name that the handler has set are kept. -/
def normalizeToolResult (call : ToolCall) (result : ToolResult) : ToolResult :=
  { result with
    toolCallID := if result.toolCallID = "" then call.id else result.toolCallID
    name := if result.name = "" then trimmedToolCallName call else result.name }

def normalizedPermissions (cases : CaseMap) (permissions : List String) : List String :=
  KeySort.sort (fun a b => decide (a < b))
    ((permissions.map fun p => cases.toLower (trimSpace p)).filter fun p => p ≠ "").dedup

section

variable (env : ToolEnv) (tool : Tool) (call : ToolCall)

def validateToolArguments : Except ToolError Unit :=
  let parameters := (tool.function.map FunctionDefinition.parameters).getD []
  if parameters.isEmpty then .ok ()
  else
    match env.unmarshal (callArguments call) with
    | .error message => .error
        { message := "tool " ++ quote tool.name ++ " arguments are not valid JSON: " ++ message }
    | .ok value =>
      match validateJSONSchemaValue env.engine value parameters "arguments" with
      | [] => .ok ()
      | issues => .error { message := validationErrorText "tool input" issues }

def validateToolResult (result : ToolResult) : Except ToolError Unit :=
  let schema := (tool.function.map FunctionDefinition.outputSchema).getD []
  let value := if result.value = .null then Raw.string result.content else result.value
  match validateJSONSchemaValue env.engine value schema "result" with
  | [] => .ok ()
  | issues => .error { message := validationErrorText "tool output" issues }

def authorizeToolPermissions : Except ToolError Unit :=
  let required := normalizedPermissions env.cases tool.permissions
  let missing := required.filter fun p => p ∉ env.grants.getD []
  if missing.isEmpty then .ok ()
  else .error (newExecutionError .permissionDenied
    ("tool " ++ quote tool.name ++ " requires permissions: " ++ ", ".intercalate missing) none)

def approveToolExecution : Except ToolError Unit :=
  match tool.approval with
  | .unset => .ok ()
  | .never => .ok ()
  | .other text => .error (newExecutionError .invalidInput
      ("tool " ++ quote tool.name ++ " has unsupported approval mode " ++ quote text) none)
  | .required =>
    match env.approver with
    | none => .error (newExecutionError .permissionDenied
        ("tool approval is required for tool " ++ quote tool.name) none)
    | some approve =>
      match approve call (normalizedPermissions env.cases tool.permissions) with
      | .error message => .error (newExecutionError .permissionDenied
          ("tool " ++ quote tool.name ++ " approval failed: " ++ message) none)
      | .ok decision =>
        if decision.approved then .ok ()
        else .error (newExecutionError .permissionDenied
          ("tool " ++ quote tool.name ++ " approval was denied" ++
            if trimSpace decision.reason = "" then ""
            else ": " ++ trimSpace decision.reason) none)

/-- A failed check: the code for the result, and the error. -/
structure ToolRefusal where
  code : ErrorClass
  error : ToolError

/-- A check that ends in `failToolExecution`. -/
def orFail (errorClass : ErrorClass) (message : ToolError → String)
    (check : Except ToolError Unit) : Except ToolRefusal Unit :=
  check.mapError fun e => ⟨errorClass, newExecutionError errorClass (message e) (some e)⟩

/-- A check that ends in `denyToolExecution`. -/
def orDeny (check : Except ToolError Unit) : Except ToolRefusal Unit :=
  check.mapError (ToolRefusal.mk .permissionDenied)

/-- A check of `ExecuteTool` that fails with a text. -/
def requireTool (condition : Bool) (message : String) : Except ToolRefusal Unit :=
  if condition then .ok ()
  else .error ⟨.invalidInput, newExecutionError .invalidInput message none⟩

/-- The checks of `ExecuteTool` before the handler. -/
def admitTool : Except ToolRefusal Unit := do
  requireTool ((tool.function.map fun function => trimSpace function.name).getD "" ≠ "")
    "tool definition is missing"
  requireTool tool.handler.isSome ("tool handler " ++ quote tool.name ++ " not found")
  orFail .invalidInput ToolError.message (validateToolArguments env tool call)
  orDeny (authorizeToolPermissions env tool)
  orDeny (approveToolExecution env tool call)
  env.acquire.mapError fun e =>
    ⟨e.errorClass, newExecutionError e.errorClass e.message (some e)⟩
  orFail .sideEffectFailed (fun _ => "persist tool effect intent") (env.record .intent)

end

/-! ## Execution -/

/-- The result and the error of an execution, and the tool whose handler was invoked. -/
structure ToolOutcome where
  result : ToolResult
  error : Option ToolError
  invoked : Option Tool

def isWriteEffect : EffectClass → Bool
  | .idempotentWrite => true
  | .nonIdempotentWrite => true
  | .compensatable => true
  | _ => false

/-- The result of `failToolExecution` and `denyToolExecution`. -/
def refusedResult (call : ToolCall) (refusal : ToolRefusal) : ToolResult :=
  normalizeToolResult call
    { isError := true, errorCode := refusal.code.text, errorMessage := refusal.error.message }

/-- `ExecuteTool` after the checks. -/
def invokeHandler (env : ToolEnv) (tool : Tool) (call : ToolCall) : ToolOutcome :=
  let returned := env.handle tool call
  let result := normalizeToolResult call returned.1
  match returned.2 with
  | some e =>
    let status := if isWriteEffect tool.effect then EffectStatus.unknown else .failed
    let e := match env.record status with
      | .error _ =>
        newExecutionError .sideEffectFailed "persist tool effect outcome" (some e)
      | .ok _ =>
        if isWriteEffect tool.effect || e.errorClass = .sideEffectFailed then
          newExecutionError .sideEffectFailed e.message (some e)
        else e
    ⟨result, some e, some tool⟩
  | none =>
    match (do
      orFail .sideEffectFailed (fun _ => "persist tool effect outcome") (env.record .succeeded)
      orFail .nonRetryable ToolError.message (validateToolResult env tool result)) with
    | .error refusal => ⟨refusedResult call refusal, some refusal.error, some tool⟩
    | .ok _ => ⟨result, none, some tool⟩

def executeTool (env : ToolEnv) (tool : Tool) (call : ToolCall) : ToolOutcome :=
  let call := normalizeToolCall tool call
  match admitTool env tool call with
  | .error refusal => ⟨refusedResult call refusal, some refusal.error, none⟩
  | .ok _ => invokeHandler env tool call

/-- `ExecuteToolCall` of the package of the nodes. -/
def executeToolCall (env : ToolEnv) (tools : Tools) (call : ToolCall) : ToolOutcome :=
  match call.functionCall with
  | none => ⟨{}, some { message := "tool call has no function payload" }, none⟩
  | some function =>
    match findTool env.cases tools function.name with
    | none =>
      ⟨{}, some { message := "tool " ++ quote function.name ++ " not found", notFound := true },
        none⟩
    | some tool =>
      if tool.handler.isNone then
        ⟨{}, some { message := "tool handler " ++ quote function.name ++ " not found" }, none⟩
      else executeTool env tool call

/-- `toolCallName` of the package of the nodes. -/
def toolCallName (call : ToolCall) : String := (call.functionCall.map FunctionCall.name).getD ""

/-- `executeToolCallMessage`: an error is written into the result, under the id of the call. -/
def answerToolCall (env : ToolEnv) (tools : Tools) (call : ToolCall) : ToolOutcome :=
  let outcome := executeToolCall env tools call
  match outcome.error with
  | none => outcome
  | some e =>
    { outcome with
      result := { outcome.result with
        toolCallID := call.id
        name := toolCallName call
        isError := true
        errorCode := e.errorClass.text
        errorMessage := e.message } }

def toolMessage (result : ToolResult) : MessageContent := ⟨.tool, [.toolResult result]⟩

/-! ## What was invoked -/

section

variable {env : ToolEnv} {tool : Tool} {call : ToolCall}

@[simp] theorem invoked_invokeHandler : (invokeHandler env tool call).invoked = some tool := by
  unfold invokeHandler
  dsimp only
  split
  · rfl
  · split <;> rfl

/-- The handler is invoked exactly if all checks are passed, and it is the one of the tool. -/
theorem executeTool_invoked : (executeTool env tool call).invoked = some other ↔
    other = tool ∧ admitTool env tool (normalizeToolCall tool call) = .ok () := by
  unfold executeTool
  dsimp only
  split
  next e he =>
    rw [he]
    simp
  next u hu =>
    rw [invoked_invokeHandler, hu]
    simp [eq_comm]

/-- The name of the call is resolved to this tool, and the checks are passed. -/
def ReachesHandler (env : ToolEnv) (tools : Tools) (call : ToolCall) (tool : Tool) : Prop :=
  ∃ function, call.functionCall = some function ∧
    findTool env.cases tools function.name = some tool ∧
    admitTool env tool (normalizeToolCall tool call) = .ok ()

/-- The handler that a call invokes is the one of the tool that its name is resolved to. -/
theorem answerToolCall_invoked : (answerToolCall env tools call).invoked = some other ↔
      ReachesHandler env tools call other := by
  have hs : (answerToolCall env tools call).invoked = (executeToolCall env tools call).invoked := by
    unfold answerToolCall
    dsimp only
    split <;> rfl
  rw [hs, ReachesHandler]
  unfold executeToolCall
  cases hf : call.functionCall with
  | none => simp
  | some function =>
    cases hfi : findTool env.cases tools function.name with
    | none => simp [hfi]
    | some tool =>
      cases hh : tool.handler with
      | none =>
        -- a tool without handler is not admitted either
        simp only [hfi, hh, Option.isNone_none, if_true, Option.some.injEq,
          reduceCtorEq, false_iff, not_exists, not_and]
        rintro _ rfl ho ha
        rw [hfi] at ho
        cases ho
        obtain ⟨_, -, ha⟩ := Outcome.of_bind ha
        obtain ⟨_, hr, -⟩ := Outcome.of_bind ha
        simp [requireTool, hh] at hr
      | some handler =>
        simp only [hfi, hh, Option.isNone_some, Bool.false_eq_true, if_false,
          executeTool_invoked, Option.some.injEq]
        constructor
        · rintro ⟨rfl, ha⟩
          exact ⟨function, rfl, hfi, ha⟩
        · rintro ⟨_, rfl, ho, ha⟩
          rw [hfi] at ho
          cases ho
          exact ⟨rfl, ha⟩

/-- A call that was stored reaches the same handler. -/
theorem reachesHandler_stored :
    ReachesHandler env tools call.stored tool ↔ ReachesHandler env tools call tool := by
  obtain ⟨id, type, functionCall⟩ := call
  cases functionCall with
  | none => exact Iff.rfl
  | some function =>
    by_cases hn : function.name = ""
    · -- a blank name is resolved to no tool
      have hb : trimSpace function.name = "" := by
        rw [hn]
        rfl
      have hs : (ToolCall.mk id type (some function)).stored = ⟨id, type, none⟩ := by
        simp [ToolCall.stored, Option.filter, hn]
      rw [hs]
      constructor
      · rintro ⟨_, hf, -⟩
        cases hf
      · rintro ⟨_, hf, hfi, -⟩
        cases hf
        simp [findTool, if_pos hb] at hfi
    · have hs : (ToolCall.mk id type (some function)).stored = ⟨id, type, some function⟩ := by
        simp [ToolCall.stored, Option.filter, hn]
      rw [hs]

end

end WeaveFlow
