import WeaveFlow.Agent.Tool

/-!
# Model requests

A model is asked with the messages of a conversation and the definitions of tools, and returns
choices of which the first one counts.  `generateModel` is the part of the request that the
runtime decides: it refuses requests without messages and tools without a name, takes the usage
in its normal form, and checks a structured answer.  What the model returns is arbitrary.
-/

namespace WeaveFlow

open ContentPart Outcome List

structure ModelChoice where
  content : String := ""
  reasoningContent : String := ""
  toolCalls : List ToolCall := []
  deriving DecidableEq, Repr

/-- `llms.ModelUsage`, the numbers that are compared. -/
structure ModelUsage where
  inputTokens : Int := 0
  outputTokens : Int := 0
  totalTokens : Int := 0
  deriving DecidableEq, Repr

/-- `llms.ModelResponse`; the cost is the total. -/
structure ModelResponse where
  choices : List (Option ModelChoice)
  usage : ModelUsage := {}
  cost : Option Rat := none

def ModelUsage.normalized (usage : ModelUsage) : ModelUsage :=
  let usage :=
    if usage.totalTokens ≤ 0 ∧ (0 < usage.inputTokens ∨ 0 < usage.outputTokens) then
      { usage with totalTokens := usage.inputTokens + usage.outputTokens }
    else usage
  let usage :=
    if usage.outputTokens ≤ 0 ∧ usage.inputTokens ≤ usage.totalTokens then
      { usage with outputTokens := usage.totalTokens - usage.inputTokens }
    else usage
  if usage.totalTokens < usage.inputTokens + usage.outputTokens then
    { usage with totalTokens := usage.inputTokens + usage.outputTokens }
  else usage

/-- The form of the final answer that is asked for. -/
structure OutputFormat where
  schema : Object := []
  json : Bool := false
  /-- `DecodeStructuredOutput` with this schema: the text of the value. -/
  decodeStructuredOutput : String → Except String String

/-- `outputJSONEnabled`. -/
def OutputFormat.enabled (format : OutputFormat) : Bool := format.json || !format.schema.isEmpty

def OutputFormat.normalizeFinalOutput (format : OutputFormat) (content : String) :
    Except String String :=
  if format.enabled then format.decodeStructuredOutput (trimSpace content)
  else .ok (trimSpace content)

/-- `validateModelRequest` of a chat: the first problem. -/
def validateModelRequest (engine : SchemaEngine) (format : OutputFormat)
    (messages : List MessageContent) (tools : Tools) : Except String Unit := do
  requireText (!messages.isEmpty) "chat model request requires messages"
  tools.vals.forM fun tool => do
    requireText (trimSpace tool.name ≠ "") "model tool definition requires a function name"
    match validateJSONSchemaDefinition engine
        ((tool.function.map FunctionDefinition.parameters).getD []) with
    | none => .ok ()
    | some e => .error ("model tool " ++ quote tool.name ++ " input schema: " ++ e)
  match validateJSONSchemaDefinition engine format.schema with
  | none => .ok ()
  | some e => .error ("model response schema: " ++ e)

def ModelResponse.choice (response : ModelResponse) : Option ModelChoice :=
  response.choices.head?.join

def validateStructuredModelResponse (format : OutputFormat) (response : ModelResponse) :
    Except String Unit :=
  if format.enabled then
    match response.choice with
    | none => .error "structured model response has no choices"
    | some choice =>
      if choice.toolCalls.isEmpty then
        (format.decodeStructuredOutput choice.content).map fun _ => ()
      else .ok ()
  else .ok ()

/-- `GenerateModel`, with what the model returns. -/
def generateModel (engine : SchemaEngine) (format : OutputFormat) (messages : List MessageContent)
    (tools : Tools) (generate : Except String ModelResponse) : Except String ModelResponse := do
  validateModelRequest engine format messages tools
  let response ← generate
  let response := { response with usage := response.usage.normalized }
  validateStructuredModelResponse format response
  return response

/-- A response that is accepted has the choices that the model has returned. -/
theorem generateModel_eq_ok {engine : SchemaEngine} {format : OutputFormat}
    {messages : List MessageContent} {tools : Tools} {generate : Except String ModelResponse}
    {response : ModelResponse}
    (h : generateModel engine format messages tools generate = .ok response) :
    ∃ returned, generate = .ok returned ∧ response.choice = returned.choice ∧
      response.usage = returned.usage.normalized ∧ response.cost = returned.cost := by
  obtain ⟨_, -, h⟩ := of_bind h
  obtain ⟨returned, hr, h⟩ := of_bind h
  obtain ⟨_, -, h⟩ := of_bind h
  cases h
  exact ⟨returned, hr, rfl, rfl, rfl⟩

/-- The calls that are kept: one without a type is left out with a warning. -/
def typedCalls (calls : List ToolCall) : List ToolCall := calls.filter fun call => call.type ≠ ""

def assistantMessage (choice : ModelChoice) (calls : List ToolCall) : MessageContent where
  role := .ai
  parts :=
    (if trimSpace choice.reasoningContent = "" then []
      else [.reasoning choice.reasoningContent]) ++
    (if trimSpace choice.content = "" then [] else [.text choice.content]) ++
    (typedCalls calls).map .toolCall

@[simp] theorem toolCalls_assistantMessage :
    (assistantMessage choice calls).toolCalls = typedCalls calls := by
  have hc : ((typedCalls calls).map toolCall).filterMap toolCall? = typedCalls calls := by
    rw [filterMap_map]
    exact filterMap_some
  rw [MessageContent.toolCalls, assistantMessage, filterMap_append, filterMap_append, hc]
  split <;> split <;> rfl

@[simp] theorem toolResults_assistantMessage :
    (assistantMessage choice calls).toolResults = [] := by
  have hc : ((typedCalls calls).map toolCall).filterMap toolResult? = [] := by
    rw [filterMap_map, filterMap_eq_nil_iff]
    exact fun _ _ => rfl
  rw [MessageContent.toolResults, assistantMessage, filterMap_append, filterMap_append, hc]
  split <;> split <;> rfl

end WeaveFlow
