import WeaveFlow.Agent.Model

/-!
# Turns and tool execution

An LLM turn node asks the model once and appends its message to the conversation.  A tool
execution node executes the calls of the last message and appends their results.  Both are
configured with a list of tool ids.  The turn offers only these tools to the model, but the
execution looks every call up among all tools of the context: `ToolIDs` of the execution node is
written by `Build` and never read.

`allowlist_enforced_iff` says when the list holds at execution: exactly if the model calls no
tool outside the list that the context has and that passes the checks of the execution.

A turn leaves a message with calls for the execution, or a final answer.  It drops calls without a
type from the message, but takes the response for an answer only if there was no call at all:
`turn_routable_iff` says when neither is left.
-/

namespace WeaveFlow

open Outcome List

/-- `LLMTurnNode`, without the fields that only shape the request. -/
structure LLMTurnNode where
  toolIDs : List String
  systemPrompt : String := ""
  finalizeAfterMaxIterations : Bool := false

structure ToolExecutionNode where
  toolIDs : List String
  parallel : Bool := true

/-! ## The turn -/

def seedSystemPrompt (prompt : String) (conversation : Conversation) : Conversation :=
  if trimSpace prompt = "" || conversation.messages.any fun m => m.role = .system then conversation
  else conversation.setMessages (textParts .system prompt :: conversation.messages)

/-- The text of `finalIterationPrompt`. -/
def finalIterationPrompt : String :=
  "The conversation has exhausted its tool-iteration budget. Do not call tools. Return the " ++
    "best supported final answer now using the tool results already present, and explicitly " ++
    "acknowledge any material limitation."

namespace LLMTurnNode

variable (node : LLMTurnNode) (engine : SchemaEngine) (available : Tools)

def offered : Tools := filterTools (cloneTools available) node.toolIDs

/-- The last turn: calls are not taken any more. -/
def forceFinalization (conversation : Conversation) : Bool :=
  node.finalizeAfterMaxIterations && !(node.offered available).entries.isEmpty &&
    decide (conversation.maxIterations ≤ conversation.iterationCount)

def takenCalls (conversation : Conversation) (choice : ModelChoice) : List ToolCall :=
  if node.forceFinalization available conversation then [] else choice.toolCalls

/-- `LLMTurnNode.execute` after the response: the message and, without calls, the answer. -/
def accept (conversation : Conversation) (choice : ModelChoice) : Except String Conversation :=
  let calls := node.takenCalls available conversation choice
  let message := assistantMessage choice calls
  let turned := (conversation.append [message]).incrementIteration
  if calls.isEmpty then
    (requireText (!(node.forceFinalization available conversation &&
        trimSpace (extractText message) = ""))
      "llm turn: model returned no answer during forced finalization").map
      fun _ => turned.setFinalAnswer (extractText message)
  else .ok turned

/-- `LLMTurnNode.execute`; the output port is left out. -/
def execute (generate : Except String ModelResponse) (conversation : Conversation) :
    Except String Conversation := do
  let conversation := seedSystemPrompt node.systemPrompt conversation
  let prompt := conversation.messages ++
    if node.forceFinalization available conversation then [textParts .human finalIterationPrompt]
    else []
  let response ← generateModel engine ⟨[], false, .ok⟩ prompt (node.offered available) generate
  match response.choice with
  | none => .error "llm turn returned no choices"
  | some choice => node.accept available conversation choice

end LLMTurnNode

/-! ## The execution -/

/-- The executions of the calls, each in its own surroundings.  They may run at the same time;
the results are put in the order of the calls. -/
def answerToolCalls (env : Nat → ToolEnv) (tools : Tools) (calls : List ToolCall) :
    List ToolOutcome :=
  calls.mapIdx fun index call => answerToolCall (env index) tools call

namespace ToolExecutionNode

/-- `ToolExecutionNode.execute`; the fields of the node do not change what is executed. -/
def execute (_ : ToolExecutionNode) (env : Nat → ToolEnv) (available : Tools)
    (conversation : Conversation) : Except String (List ToolOutcome × Conversation) := do
  requireText (!(cloneTools available).entries.isEmpty) "tool execution node: tools not available"
  match conversation.messages.getLast? with
  | none => .error "no messages available for tool execution"
  | some last => do
      requireText (last.role = .ai) "last message is not an AI message"
      let outcomes := answerToolCalls env (cloneTools available) last.toolCalls
      return (outcomes, conversation.append (outcomes.map fun o => toolMessage o.result))

def Invokes (node : ToolExecutionNode) (env : Nat → ToolEnv) (available : Tools)
    (conversation : Conversation) (tool : Tool) : Prop :=
  ∃ outcomes after, node.execute env available conversation = .ok (outcomes, after) ∧
    ∃ o ∈ outcomes, o.invoked = some tool

end ToolExecutionNode

/-- `FilterTools` of the tools of the context has this tool. -/
def Allowed (available : Tools) (toolIDs : List String) (tool : Tool) : Prop :=
  ∃ id, (filterTools (cloneTools available) toolIDs).get id = some tool

/-! ## When the list holds -/

theorem findTool_empty (h : tools.entries = []) : findTool cases tools name = none := by
  rw [findTool, SortedMap.get, h]
  split <;> rfl

variable {available : Tools} {turned conversation : Conversation} {node : LLMTurnNode}
  {engine : SchemaEngine} {choice : ModelChoice} {calls : List ToolCall}
  {generate : Except String ModelResponse}

/-- A turn appends one message, with the typed calls that it has taken.  Whether it answers is
decided by the calls before the untyped ones are left out. -/
theorem LLMTurnNode.accept_eq_ok
    (hc : node.takenCalls available conversation choice = calls)
    (h : node.accept available conversation choice = .ok turned) :
    turned.messages = conversation.messages ++ [(assistantMessage choice calls).stored] ∧
      turned.finalAnswer = (if calls = [] then extractText (assistantMessage choice calls)
        else conversation.finalAnswer) ∧
      (calls = [] → node.forceFinalization available conversation →
        trimSpace turned.finalAnswer ≠ "") := by
  have hm := conversation.messages_append [assistantMessage choice calls]
  rw [LLMTurnNode.accept, hc] at h
  split at h
  next hn =>
    rw [if_pos (isEmpty_iff.mp hn)]
    obtain ⟨_, ha, rfl⟩ := map_eq_ok h
    simp only [Conversation.setFinalAnswer]
    refine ⟨hm, trivial, fun _ hf hb => ?_⟩
    have ha := requireText_eq_ok.mp ha
    rw [hf, Bool.true_and, Bool.not_eq_true', decide_eq_false_iff_not] at ha
    exact ha hb
  next hs =>
    have hs : calls ≠ [] := mt isEmpty_iff.mpr hs
    rw [if_neg hs]
    obtain rfl := Except.ok.inj h
    exact ⟨hm, rfl, fun hn => absurd hn hs⟩

theorem LLMTurnNode.accept_of_execute
    (h : node.execute engine available generate conversation = .ok turned) :
    ∃ response choice, generate = .ok response ∧ response.choice = some choice ∧
      node.accept available (seedSystemPrompt node.systemPrompt conversation) choice =
        .ok turned := by
  obtain ⟨response, hr, h⟩ := of_bind h
  obtain ⟨returned, hre, hs, -⟩ := generateModel_eq_ok hr
  rw [hs] at h
  cases hc : returned.choice with
  | none =>
    simp [hc] at h
  | some choice =>
    rw [hc] at h
    exact ⟨returned, choice, hre, hc, h⟩

/-! ## Where a turn leads -/

theorem extractText_stored (message : MessageContent) :
    extractText message.stored = extractText message := by
  rw [extractText, MessageContent.stored, filterMap_map, extractText]
  refine congrArg _ (filterMap_congr fun part _ => ?_)
  cases part <;> rfl

/-- The last message has calls, or it has none and the final answer is its text. -/
def Conversation.Routable (conversation : Conversation) : Prop :=
  ∃ last, conversation.messages.getLast? = some last ∧ last.role = .ai ∧
    (last.toolCalls ≠ [] ∨
      last.toolCalls = [] ∧ conversation.finalAnswer = extractText last)

theorem LLMTurnNode.routable_iff
    (hc : node.takenCalls available conversation choice = calls)
    (h : node.accept available conversation choice = .ok turned) :
    turned.Routable ↔ calls = [] ∨ typedCalls calls ≠ [] ∨
      conversation.finalAnswer = extractText (assistantMessage choice calls) := by
  obtain ⟨hm, ha, -⟩ := node.accept_eq_ok hc h
  have hl : turned.messages.getLast? = some (assistantMessage choice calls).stored := by
    rw [hm, getLast?_concat]
  have ht : (assistantMessage choice calls).stored.toolCalls = [] ↔ typedCalls calls = [] := by
    rw [MessageContent.toolCalls_stored, toolCalls_assistantMessage, map_eq_nil_iff]
  have hr : turned.Routable ↔ typedCalls calls ≠ [] ∨ typedCalls calls = [] ∧
      turned.finalAnswer = extractText (assistantMessage choice calls) := by
    rw [← extractText_stored, ne_eq, ← ht]
    constructor
    · rintro ⟨last, hs, -, hle⟩
      obtain rfl := Option.some.inj (hl.symm.trans hs)
      exact hle
    · exact fun hle => ⟨_, hl, rfl, hle⟩
  rw [hr, ha]
  by_cases hn : calls = []
  · rw [if_pos hn, hn]
    exact iff_of_true (.inr ⟨rfl, rfl⟩) (.inl rfl)
  · rw [if_neg hn, or_iff_right hn, ne_eq]
    by_cases hal : typedCalls calls = [] <;> simp [hal]

/-- For every configuration, conversation and response: a turn appends its message; there is a
call or an answer to go on with exactly if not all calls are untyped, or if the text happens to be
the answer already; and a forced answer has no calls and is not blank. -/
theorem turn_routable_iff {node : LLMTurnNode} {engine : SchemaEngine} {available : Tools}
    {generate : Except String ModelResponse} {conversation turned : Conversation}
    (h : node.execute engine available generate conversation = .ok turned) :
    ∃ response choice, generate = .ok response ∧ response.choice = some choice ∧
      let seeded := seedSystemPrompt node.systemPrompt conversation
      let calls := node.takenCalls available seeded choice
      let message := assistantMessage choice calls
      turned.messages = seeded.messages ++ [message.stored] ∧
      (turned.Routable ↔
        calls = [] ∨ typedCalls calls ≠ [] ∨ conversation.finalAnswer = extractText message) ∧
      (node.forceFinalization available seeded →
        message.toolCalls = [] ∧ trimSpace turned.finalAnswer ≠ "") := by
  obtain ⟨response, choice, hg, hc, ha⟩ := node.accept_of_execute h
  refine ⟨response, choice, hg, hc, ?_⟩
  intro seeded calls message
  obtain ⟨hm, -, hf⟩ := node.accept_eq_ok rfl ha
  have hs : seeded.finalAnswer = conversation.finalAnswer := by
    show (seedSystemPrompt _ _).finalAnswer = _
    rw [seedSystemPrompt]
    split <;> rfl
  refine ⟨hm, ?_, fun hfo => ?_⟩
  · rw [← hs]
    exact node.routable_iff rfl ha
  · have hn : calls = [] := if_pos hfo
    refine ⟨?_, hf hn hfo⟩
    rw [toolCalls_assistantMessage, hn]
    rfl

theorem invokes_iff {executor : ToolExecutionNode} {message : MessageContent}
    (hl : turned.messages.getLast? = some message) (hr : message.role = .ai) :
    executor.Invokes env available turned tool ↔
      ∃ index call, message.toolCalls[index]? = some call ∧
        ReachesHandler (env index) (cloneTools available) call tool := by
  have hou : ∀ o, o ∈ answerToolCalls env (cloneTools available) message.toolCalls ↔
      ∃ index call, message.toolCalls[index]? = some call ∧
        answerToolCall (env index) (cloneTools available) call = o := by
    intro o
    rw [answerToolCalls, mem_iff_getElem?]
    refine exists_congr fun index => ?_
    rw [List.getElem?_mapIdx, Option.map_eq_some_iff]
  constructor
  · rintro ⟨outcomes, after, he, o, ho, hi⟩
    obtain ⟨_, -, he⟩ := of_bind he
    rw [hl] at he
    obtain ⟨_, -, he⟩ := of_bind he
    cases he
    obtain ⟨index, call, hc, rfl⟩ := (hou o).mp ho
    exact ⟨index, call, hc, answerToolCall_invoked.mp hi⟩
  · rintro ⟨index, call, hc, hre⟩
    have ht : (cloneTools available).entries ≠ [] := by
      intro hn
      obtain ⟨function, -, hf, -⟩ := hre
      simp [findTool_empty hn] at hf
    have he : executor.execute env available turned =
        .ok (answerToolCalls env (cloneTools available) message.toolCalls,
          turned.append ((answerToolCalls env (cloneTools available) message.toolCalls).map
            fun o => toolMessage o.result)) := by
      refine bind_eq_ok.mpr ⟨(), requireText_eq_ok.mpr (by simpa using ht), ?_⟩
      rw [hl]
      exact bind_eq_ok.mpr ⟨(), requireText_eq_ok.mpr (by simp [hr]), rfl⟩
    exact ⟨_, _, he, _, (hou _).mpr ⟨index, call, hc, rfl⟩, answerToolCall_invoked.mpr hre⟩

/-- For every turn and every execution node with the same tool ids, every context, every
conversation and everything that the model returns: the execution invokes only handlers of tools
of the list exactly if no typed call that the turn has taken reaches the handler of another tool
of the context. -/
theorem allowlist_enforced_iff {turn : LLMTurnNode} {executor : ToolExecutionNode}
    (hids : executor.toolIDs = turn.toolIDs) {engine : SchemaEngine} {available : Tools}
    {response : ModelResponse} {conversation turned : Conversation}
    (hturn : turn.execute engine available (.ok response) conversation = .ok turned)
    (env : Nat → ToolEnv) :
    (∀ tool, executor.Invokes env available turned tool → Allowed available executor.toolIDs tool) ↔
    ∀ choice, response.choice = some choice → ∀ (index : Nat) (call : ToolCall) (tool : Tool),
      (typedCalls (turn.takenCalls available (seedSystemPrompt turn.systemPrompt conversation)
        choice))[index]? = some call →
      ReachesHandler (env index) (cloneTools available) call tool →
      Allowed available turn.toolIDs tool := by
  obtain ⟨_, choice, hg, hc, ha⟩ := turn.accept_of_execute hturn
  cases hg
  have hl := congrArg getLast? (turn.accept_eq_ok rfl ha).1
  rw [getLast?_concat] at hl
  have hi : ∀ tool, executor.Invokes env available turned tool ↔ _ := fun tool =>
    invokes_iff hl rfl
  rw [hids]
  constructor
  · intro hal other ho index call tool hca hr
    cases hc.symm.trans ho
    refine hal tool ((hi tool).mpr ⟨index, call.stored, ?_, reachesHandler_stored.mpr hr⟩)
    rw [MessageContent.toolCalls_stored, toolCalls_assistantMessage, List.getElem?_map, hca]
    rfl
  · intro hal tool ht
    obtain ⟨index, call, hca, hr⟩ := (hi tool).mp ht
    rw [MessageContent.toolCalls_stored, toolCalls_assistantMessage, List.getElem?_map,
      Option.map_eq_some_iff] at hca
    obtain ⟨call, hca, rfl⟩ := hca
    exact hal choice hc index call tool hca (reachesHandler_stored.mp hr)

def plainTool (name : String) : Tool := ⟨some { name }, some name, [], .unset, .unset⟩

/-- The context has `read` and `delete`. -/
def readAndDelete : Tools :=
  (SortedMap.empty.put "read" (plainTool "read")).put "delete" (plainTool "delete")

/-- Nothing is granted, nobody is asked, and handlers return an empty result. -/
def plainToolEnv : ToolEnv where
  cases := .ascii
  engine := .accepting
  unmarshal _ := .ok .null
  grants := none
  approver := none
  acquire := .ok ()
  record _ := .ok ()
  handle _ _ := ({}, none)

/-- A user has asked something. -/
def askedConversation : Conversation where
  messages := [textParts .human "?"]
  finalAnswer := ""
  iterationCount := 0
  storedMaxIterations := 0
  stored := forall_mem_singleton.mpr rfl

def callingResponse (name : String) : ModelResponse :=
  { choices := [some { toolCalls := [⟨"call-1", "function", some ⟨name, "{}"⟩⟩] }] }

/-- A turn whose call has a type can be routed. -/
theorem typed_call_routable :
    ∃ turned, LLMTurnNode.execute ⟨["read"], "", false⟩ .accepting readAndDelete
      (.ok (callingResponse "read")) askedConversation = .ok turned ∧ turned.Routable := by
  obtain ⟨turned, ht⟩ : ∃ turned, LLMTurnNode.execute ⟨["read"], "", false⟩ .accepting
      readAndDelete (.ok (callingResponse "read")) askedConversation = .ok turned := ⟨_, rfl⟩
  obtain ⟨_, choice, hg, hc, -, hr, -⟩ := turn_routable_iff ht
  cases hg
  cases hc
  exact ⟨turned, ht, hr.mpr (.inr (.inl (by decide)))⟩

/-- The model returns a text and a call without a type: the message has no call, and the text
does not become the final answer. -/
theorem untyped_call_not_routable :
    ∃ turned, LLMTurnNode.execute ⟨["read"], "", false⟩ .accepting readAndDelete
        (.ok { choices := [some {
          content := "wait"
          toolCalls := [⟨"call-1", "", some ⟨"read", "{}"⟩⟩] }] })
        askedConversation = .ok turned ∧ ¬ turned.Routable := by
  refine ⟨_, rfl, ?_⟩
  rintro ⟨last, hl, -, hc | ⟨-, ha⟩⟩
  · cases hl
    exact hc rfl
  · cases hl
    exact absurd ha (by decide)

/-- Only `read` is on the list and called. -/
theorem offered_tool_invoked :
    ∃ turned, LLMTurnNode.execute ⟨["read"], "", false⟩ .accepting readAndDelete
        (.ok (callingResponse "read")) askedConversation = .ok turned ∧
      ∀ tool, ToolExecutionNode.Invokes ⟨["read"], true⟩ (fun _ => plainToolEnv) readAndDelete
        turned tool → Allowed readAndDelete ["read"] tool := by
  obtain ⟨turned, ht⟩ : ∃ turned, LLMTurnNode.execute ⟨["read"], "", false⟩ .accepting
      readAndDelete (.ok (callingResponse "read")) askedConversation = .ok turned := ⟨_, rfl⟩
  refine ⟨turned, ht, (allowlist_enforced_iff rfl ht fun _ => plainToolEnv).mpr ?_⟩
  intro choice hc index call tool hca hr
  cases hc
  obtain ⟨rfl, rfl⟩ : index = 0 ∧ ⟨"call-1", "function", some ⟨"read", "{}"⟩⟩ = call := by
    cases index with
    | zero => exact ⟨rfl, Option.some.inj hca⟩
    | succ index => cases hca
  obtain ⟨function, hf, hfi, -⟩ := hr
  cases hf
  exact ⟨"read", hfi⟩

/-- Only `read` is on the list, but the model calls `delete`: its handler is invoked. -/
theorem unlisted_tool_invoked :
    ∃ turned, LLMTurnNode.execute ⟨["read"], "", false⟩ .accepting readAndDelete
        (.ok (callingResponse "delete")) askedConversation = .ok turned ∧
      ToolExecutionNode.Invokes ⟨["read"], true⟩ (fun _ => plainToolEnv) readAndDelete turned
        (plainTool "delete") ∧
      ¬ Allowed readAndDelete ["read"] (plainTool "delete") := by
  refine ⟨_, rfl, ⟨_, _, rfl, _, mem_cons_self, rfl⟩, ?_⟩
  rintro ⟨id, hg⟩
  have hf : filterTools (cloneTools readAndDelete) ["read"] =
      SortedMap.empty.put "read" (plainTool "read") := rfl
  rw [hf, SortedMap.get_put] at hg
  split at hg
  · exact absurd (Option.some.inj hg) (by decide)
  · cases hg

end WeaveFlow
