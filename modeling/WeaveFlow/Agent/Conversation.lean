import WeaveFlow.State.Value
import WeaveFlow.State.Path

/-!
# Conversations

A conversation is a list of messages in the state, with a final answer, the number of model
requests made so far and the largest number allowed.  A view of it reads the messages by
decoding them and writes them by encoding them, so that what is read back is not quite what was
written: a result loses its final answer and the id the provider gave it, the value of a result
comes back as JSON, and a call without a function name comes back without its arguments.
`ContentPart.stored` is this round trip.  A `Conversation` holds messages as they are read.
-/

namespace WeaveFlow

open List

/-! ## Messages -/

structure FunctionCall where
  name : String
  arguments : String
  deriving DecidableEq, Repr

structure ToolCall where
  id : String
  type : String
  functionCall : Option FunctionCall
  deriving DecidableEq, Repr

structure ToolResult where
  toolCallID : String := ""
  name : String := ""
  content : String := ""
  value : Raw := .null
  finalAnswer : String := ""
  isError : Bool := false
  errorCode : String := ""
  errorMessage : String := ""
  providerRequestID : String := ""
  deriving DecidableEq

/-- `llms.ContentPart`; `reasoning` is the part that the nodes make. -/
inductive ContentPart where
  | text (text : String)
  | reasoning (text : String)
  | imageURL (url detail : String)
  | binary (mimeType : String) (data : List UInt8)
  | toolCall (call : ToolCall)
  | toolResult (result : ToolResult)
  deriving DecidableEq

inductive ChatMessageType where
  | system
  | human
  | ai
  | tool
  | other (role : String)
  deriving DecidableEq, Repr

structure MessageContent where
  role : ChatMessageType
  parts : List ContentPart
  deriving DecidableEq

def textParts (role : ChatMessageType) (text : String) : MessageContent := ⟨role, [.text text]⟩

def ContentPart.toolCall? : ContentPart → Option ToolCall
  | .toolCall call => some call
  | _ => none

def ContentPart.toolResult? : ContentPart → Option ToolResult
  | .toolResult result => some result
  | _ => none

def MessageContent.toolCalls (message : MessageContent) : List ToolCall :=
  message.parts.filterMap ContentPart.toolCall?

def MessageContent.toolResults (message : MessageContent) : List ToolResult :=
  message.parts.filterMap ContentPart.toolResult?

def extractText (message : MessageContent) : String :=
  "\n".intercalate (message.parts.filterMap fun part =>
    match part with
    | .text text => if trimSpace text = "" then none else some (trimSpace text)
    | _ => none)

/-! ## What is stored -/

/-- A call is written by the name and the arguments of its function. -/
def ToolCall.stored (call : ToolCall) : ToolCall :=
  { call with functionCall := call.functionCall.filter fun function => function.name ≠ "" }

/-- A result is written without its final answer and the id of the provider. -/
def ToolResult.stored (result : ToolResult) : ToolResult :=
  { result with value := result.value.jsonNormal, finalAnswer := "", providerRequestID := "" }

/-- `deserializeMessagePart` of `serializeMessagePart`. -/
def ContentPart.stored : ContentPart → ContentPart
  | .toolCall call => .toolCall call.stored
  | .toolResult result => .toolResult result.stored
  | part => part

/-- `DecodeMessages` of `EncodeMessages`, for one message. -/
def MessageContent.stored (message : MessageContent) : MessageContent :=
  { message with parts := message.parts.map ContentPart.stored }

theorem ToolCall.stored_idem (call : ToolCall) : call.stored.stored = call.stored := by
  obtain ⟨id, type, functionCall⟩ := call
  cases functionCall with
  | none => rfl
  | some function =>
    by_cases h : function.name = "" <;> simp [ToolCall.stored]

theorem ToolResult.stored_idem (result : ToolResult) : result.stored.stored = result.stored := by
  rw [ToolResult.stored, ToolResult.stored, Raw.jsonNormal_idem]

theorem ContentPart.stored_idem (part : ContentPart) : part.stored.stored = part.stored := by
  cases part with
  | toolCall call => exact congrArg ContentPart.toolCall call.stored_idem
  | toolResult result => exact congrArg ContentPart.toolResult result.stored_idem
  | _ => rfl

theorem MessageContent.stored_idem (message : MessageContent) :
    message.stored.stored = message.stored := by
  rw [MessageContent.stored, MessageContent.stored, map_map]
  exact congrArg (MessageContent.mk message.role) (map_congr_left fun part _ => part.stored_idem)

theorem MessageContent.toolCalls_stored (message : MessageContent) :
    message.stored.toolCalls = message.toolCalls.map ToolCall.stored := by
  rw [MessageContent.toolCalls, MessageContent.stored, filterMap_map, MessageContent.toolCalls,
    map_filterMap]
  refine filterMap_congr fun part _ => ?_
  cases part <;> rfl

theorem MessageContent.toolResults_stored (message : MessageContent) :
    message.stored.toolResults = message.toolResults.map ToolResult.stored := by
  rw [MessageContent.toolResults, MessageContent.stored, filterMap_map,
    MessageContent.toolResults, map_filterMap]
  refine filterMap_congr fun part _ => ?_
  cases part <;> rfl

/-! ## The view -/

/-- What a `conversation.View` reads. -/
structure Conversation where
  messages : List MessageContent
  finalAnswer : String
  iterationCount : Int
  /-- The stored number, before the default is put in its place. -/
  storedMaxIterations : Int
  /-- Messages are read as they come back. -/
  stored : ∀ message ∈ messages, message.stored = message

def defaultMaxIterations : Int := 8

namespace Conversation

def maxIterations (conversation : Conversation) : Int :=
  if conversation.storedMaxIterations ≤ 0 then defaultMaxIterations
  else conversation.storedMaxIterations

def setMaxIterations (conversation : Conversation) (maxIterations : Int) : Conversation :=
  { conversation with
    storedMaxIterations := if maxIterations ≤ 0 then defaultMaxIterations else maxIterations }

def setMessages (conversation : Conversation) (messages : List MessageContent) : Conversation :=
  { conversation with
    messages := messages.map MessageContent.stored
    stored := fun message hmem => by
      obtain ⟨written, -, rfl⟩ := mem_map.mp hmem
      exact written.stored_idem }

def setFinalAnswer (conversation : Conversation) (answer : String) : Conversation :=
  { conversation with finalAnswer := answer }

def setIterationCount (conversation : Conversation) (count : Int) : Conversation :=
  { conversation with iterationCount := if count < 0 then 0 else count }

def incrementIteration (conversation : Conversation) : Conversation :=
  conversation.setIterationCount (conversation.iterationCount + 1)

/-- `SetMessages` of the messages and more. -/
def append (conversation : Conversation) (messages : List MessageContent) : Conversation :=
  conversation.setMessages (conversation.messages ++ messages)

theorem maxIterations_pos (conversation : Conversation) : 0 < conversation.maxIterations := by
  rw [maxIterations]
  split
  · decide
  next h => exact Int.not_le.mp h

/-- What was there is read back as it was. -/
theorem messages_append (conversation : Conversation) (messages : List MessageContent) :
    (conversation.append messages).messages =
      conversation.messages ++ messages.map MessageContent.stored := by
  have hw : (conversation.append messages).messages =
      (conversation.messages ++ messages).map MessageContent.stored := rfl
  have hk : conversation.messages.map MessageContent.stored = conversation.messages := by
    conv_rhs => rw [← map_id conversation.messages]
    exact map_congr_left conversation.stored
  rw [hw, map_append, hk]

/-- More messages and the same limit. -/
structure Grows (before after : Conversation) : Prop where
  messages : before.messages <+: after.messages
  limit : before.storedMaxIterations = after.storedMaxIterations

theorem Grows.refl (conversation : Conversation) : conversation.Grows conversation :=
  ⟨prefix_rfl, rfl⟩

theorem Grows.trans {a b c : Conversation} (hab : a.Grows b) (hbc : b.Grows c) : a.Grows c :=
  ⟨hab.messages.trans hbc.messages, hab.limit.trans hbc.limit⟩

theorem Grows.append (conversation : Conversation) (messages : List MessageContent) :
    conversation.Grows (conversation.append messages) :=
  ⟨by rw [messages_append]; exact prefix_append _ _, rfl⟩

end Conversation

end WeaveFlow
