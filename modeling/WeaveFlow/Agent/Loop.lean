import WeaveFlow.Agent.Budget
import WeaveFlow.Agent.ToolExecution

/-!
# The loop of an agent

An agent asks its model, appends the answer to its conversation, executes the tool calls of the
answer and appends their results, until the answer has no calls or a tool supplies the final
answer.  It writes a checkpoint after every answer (phase `tool_calls`) and after every result
(phase `tool_result`).  An execution that is resumed in the phase `tool_calls` first executes the
calls that the conversation holds without a result.

`LoopRunner.iterate` is one round of the loop, in surroundings that are arbitrary
(`IterationEnv`): what the model returns, what every tool does, which checkpoints and records
fail, and the states that the provider of the context hands out.  It returns the events of the
round.  `LoopRunner.runLoop` strings rounds together; its list of surroundings may end before the
loop does, so that every stage of a run is a run.
-/

namespace WeaveFlow

open State Outcome MapTree List

/-! ## The runner -/

/-- `agent.Config`, without what only shapes the request. -/
structure AgentConfig where
  toolIDs : List String := []
  systemPrompt : String := ""
  maxIterations : Int := 0
  maxToolCalls : Int := 0
  maxTokens : Int := 0
  maxCost : Rat := 0
  parallel : Bool := true
  requireToolFinalAnswer : Bool := false

structure LoopRunner where
  config : AgentConfig
  format : OutputFormat
  engine : SchemaEngine

def agentResumePhaseToolCalls : String := "tool_calls"

/-- What happens around one execution of a tool call. -/
structure CallEnv where
  tool : ToolEnv
  /-- The error of `SetMessages`, if the result cannot be encoded. -/
  store : Option String := none
  /-- The error of the checkpoint after the result. -/
  checkpoint : Option String := none
  /-- The error of the records of the invocation. -/
  finish : Option String := none

/-- What happens in one round of the loop. -/
structure IterationEnv where
  /-- What the provider hands out when the budget is consumed: before the request, after the
  response, and before the tool calls. -/
  beforeRequest : Option State
  afterResponse : Option State
  beforeTools : Option State
  /-- What the model returns. -/
  generate : Except String ModelResponse
  /-- The error of the records of the request. -/
  finish : Option String := none
  /-- The error of the checkpoint after the response. -/
  checkpoint : Option String := none
  /-- The calls, by their index. -/
  call : Nat → CallEnv

/-- What is seen of a run. -/
inductive AgentEvent where
  /-- A request to the model, with the conversation. -/
  | request (messages : List MessageContent)
  /-- The tokens of a response. -/
  | responded (totalTokens : Int)
  /-- A tool call is executed; the handler may be refused. -/
  | executed (call : ToolCall) (invoked : Bool)
  /-- A checkpoint is written. -/
  | checkpoint (phase : String) (conversation : Conversation)

/-- Why the loop returns with an error. -/
inductive AgentError where
  | iterations (limit actual : Int)
  | budget (e : BudgetError)
  | model (message : String)
  | noChoices
  | finish (message : String)
  | checkpoint (message : String)
  | output (message : String)
  | tools (messages : List String)

/-- The loop between two rounds. -/
structure AgentLoop where
  conversation : Conversation
  resumePhase : String

/-- What comes after a round. -/
inductive AgentNext where
  | again (loop : AgentLoop)
  | returned (result : Except AgentError Unit) (conversation : Conversation)

/-! ## Pending calls -/

/-- The ids of the results in messages of tools. -/
def completedIDs (messages : List MessageContent) : List String :=
  ((messages.filter fun m => m.role = .tool).flatMap MessageContent.toolResults).map
    ToolResult.toolCallID

def pendingToolCalls (messages : List MessageContent) : List ToolCall :=
  match messages.getLast? with
  | none => []
  | some last =>
    if last.role = .ai then
      last.toolCalls.filter fun call =>
        trimSpace call.id = "" || call.id ∉ completedIDs messages
    else []

/-- The calls that a resumed execution makes up for. -/
def AgentLoop.resumedCalls (loop : AgentLoop) : List ToolCall :=
  if loop.resumePhase = agentResumePhaseToolCalls then pendingToolCalls loop.conversation.messages
  else []

/-! ## Executions -/

/-- `toolExecutionFinalAnswer`. -/
def ToolOutcome.finalAnswer (outcome : ToolOutcome) : String :=
  if outcome.error.isSome then "" else trimSpace outcome.result.finalAnswer

/-- The executions up to the first one that supplies a final answer. -/
def untilFinal : List ToolOutcome → List ToolOutcome
  | [] => []
  | outcome :: outcomes =>
    if outcome.finalAnswer = "" then outcome :: untilFinal outcomes else [outcome]

def executedEvents (calls : List ToolCall) (outcomes : List ToolOutcome) : List AgentEvent :=
  List.zipWith (fun call outcome => .executed call outcome.invoked.isSome) calls outcomes

/-- What `executeToolCalls` has collected. -/
structure ToolBatch where
  conversation : Conversation
  completionErrors : List String
  executionErrors : List String
  finalAnswer : String
  /-- The conversations that were written into checkpoints. -/
  checkpoints : List Conversation

/-- What `executeToolCalls` returns. -/
structure BatchResult where
  events : List AgentEvent
  conversation : Conversation
  error : Option AgentError

namespace LoopRunner

variable (r : LoopRunner)

/-! ## Before the loop -/

def effectiveMaxIterations (conversation : Conversation) : Int :=
  if 0 < r.config.maxIterations then r.config.maxIterations else conversation.maxIterations

theorem effectiveMaxIterations_pos (conversation : Conversation) :
    0 < r.effectiveMaxIterations conversation := by
  rw [effectiveMaxIterations]
  split
  next h => exact h
  · exact conversation.maxIterations_pos

def budgetLimits (maxIterations : Int) : AgentBudgetLimits :=
  ⟨maxIterations, r.config.maxToolCalls, r.config.maxTokens, r.config.maxCost⟩

def seedConversation (conversation : Conversation) (task : String) : Conversation :=
  let system := if trimSpace r.config.systemPrompt ≠ "" &&
      !(conversation.messages.any fun m => m.role = .system) then
    [textParts .system r.config.systemPrompt] else []
  let human := if task ≠ "" && !(conversation.messages.any fun m => m.role = .human) then
    [textParts .human task] else []
  if system.isEmpty && human.isEmpty then conversation
  else conversation.setMessages (system ++ conversation.messages ++ human)

/-- `Node.execute` up to the loop. -/
def start (task resumePhase : String) (conversation : Conversation) : AgentLoop :=
  let conversation :=
    if 0 < r.config.maxIterations ∧ conversation.maxIterations < r.config.maxIterations then
      conversation.setMaxIterations r.config.maxIterations
    else conversation
  ⟨r.seedConversation conversation (trimSpace task), resumePhase⟩

/-! ## Tool calls -/

/-- The executions that are made: with a required final answer, the first tool that supplies it
is the last one.  Executions at the same time give the same list. -/
def executions (tools : Tools) (env : IterationEnv) (calls : List ToolCall) : List ToolOutcome :=
  let outcomes := answerToolCalls (fun index => (env.call index).tool) tools calls
  if r.config.requireToolFinalAnswer then untilFinal outcomes else outcomes

/-- `repairableRequiredToolError`. -/
def repairable (e : ToolError) : Bool :=
  r.config.requireToolFinalAnswer &&
    (e.errorClass = .invalidInput || e.errorClass = .invalidOutput || e.errorClass = .unknown)

/-- The errors of a finished execution: those that count in any case, and those of the tool. -/
def finishErrors (env : CallEnv) (outcome : ToolOutcome) : List String × List String :=
  let messages := (outcome.error.map ToolError.message).toList ++ env.finish.toList
  if messages.isEmpty then ([], [])
  else
    match outcome.error with
    | none => (messages, [])
    | some e => if e.notFound || r.repairable e then ([], []) else ([], messages)

/-- One round of the loop of `executeToolCalls` over the results. -/
def collect (batch : ToolBatch) (env : CallEnv) (outcome : ToolOutcome) : ToolBatch :=
  match env.store with
  | some message => { batch with completionErrors := batch.completionErrors ++ [message] }
  | none =>
    let conversation := batch.conversation.append [toolMessage outcome.result]
    let candidate := outcome.finalAnswer
    let conflict := batch.finalAnswer ≠ "" && candidate ≠ "" && batch.finalAnswer ≠ candidate
    let (completion, execution) := r.finishErrors env outcome
    { conversation
      completionErrors := batch.completionErrors ++ env.checkpoint.toList ++ completion ++
        if conflict then ["agent tools returned conflicting final answers"] else []
      executionErrors := batch.executionErrors ++ execution
      finalAnswer := if candidate = "" || conflict then batch.finalAnswer else candidate
      checkpoints := batch.checkpoints ++
        if env.checkpoint.isSome then [] else [conversation] }

/-- The loop over the results, from an index on. -/
def collectAll (env : IterationEnv) : ToolBatch → Nat → List ToolOutcome → ToolBatch
  | batch, _, [] => batch
  | batch, index, outcome :: outcomes =>
    collectAll env (r.collect batch (env.call index) outcome) (index + 1) outcomes

/-- `executeToolCalls` once the budget admits the calls. -/
def executeAdmitted (tools : Tools) (env : IterationEnv) (conversation : Conversation)
    (calls : List ToolCall) : BatchResult :=
  let outcomes := r.executions tools env calls
  let batch := r.collectAll env ⟨conversation, [], [], "", []⟩ 0 outcomes
  let errors :=
    if batch.finalAnswer ≠ "" && r.config.requireToolFinalAnswer then batch.completionErrors
    else batch.completionErrors ++ batch.executionErrors
  { events := executedEvents calls outcomes ++
      batch.checkpoints.map (AgentEvent.checkpoint "tool_result")
    conversation :=
      if batch.finalAnswer = "" then batch.conversation
      else batch.conversation.setFinalAnswer batch.finalAnswer
    error := if errors.isEmpty then none else some (.tools errors) }

def executeToolCalls (tools : Tools) (env : IterationEnv) (conversation : Conversation)
    (calls : List ToolCall) : BatchResult :=
  if calls.isEmpty then ⟨[], conversation, none⟩
  else
    match consumeAgentBudget env.beforeTools
        (r.budgetLimits (r.effectiveMaxIterations conversation)) { toolCalls := calls.length } with
    | .error e => ⟨[], conversation, some (.budget e)⟩
    | .ok _ => r.executeAdmitted tools env conversation calls

/-! ## A round -/

/-- The request to the model, with the budget before and after it. -/
def requestModel (tools : Tools) (maxIterations : Int) (env : IterationEnv)
    (conversation : Conversation) : List AgentEvent × Except AgentError ModelChoice :=
  match consumeAgentBudget env.beforeRequest (r.budgetLimits maxIterations) { iterations := 1 } with
  | .error e => ([], .error (.budget e))
  | .ok _ =>
    match generateModel r.engine r.format conversation.messages tools env.generate with
    | .error message => ([.request conversation.messages], .error (.model message))
    | .ok response =>
      match response.choice with
      | none => ([.request conversation.messages], .error .noChoices)
      | some choice =>
        ([.request conversation.messages, .responded response.usage.totalTokens],
          match consumeAgentBudget env.afterResponse (r.budgetLimits maxIterations)
              { totalTokens := response.usage.totalTokens
                cost := response.cost.getD 0 } with
          | .error e => .error (.budget e)
          | .ok _ =>
            match env.finish with
            | some message => .error (.finish message)
            | none => .ok choice)

/-- The message to a model that has returned no answer. -/
def noAnswerPrompt : String :=
  "The response contained no final answer. Return the requested result in the answer content " ++
    "now; do not return reasoning without an answer."

/-- The message to a model that has to let a tool answer. -/
def toolAnswerPrompt : String :=
  "This task requires a trusted tool result as the final answer. Do not finish with an " ++
    "unverified summary or claim. Call the required validation or completion tool now, repair " ++
    "any reported failure, and continue until that tool supplies the final answer."

/-- An answer without calls. -/
def conclude (conversation : Conversation) (message : MessageContent) (resumePhase : String) :
    AgentNext :=
  if trimSpace (extractText message) = "" then
    .again ⟨conversation.append [textParts .human noAnswerPrompt], resumePhase⟩
  else if r.config.requireToolFinalAnswer then
    .again ⟨conversation.append [textParts .human toolAnswerPrompt], resumePhase⟩
  else
    match r.format.normalizeFinalOutput (extractText message) with
    | .error message => .returned (.error (.output message)) conversation
    | .ok answer => .returned (.ok ()) (conversation.setFinalAnswer answer)

def asked (conversation : Conversation) (choice : ModelChoice) : Conversation :=
  (conversation.append [assistantMessage choice choice.toolCalls]).incrementIteration

/-- The message of a choice is appended, and its calls are executed. -/
def answer (tools : Tools) (env : IterationEnv) (conversation : Conversation)
    (resumePhase : String) (choice : ModelChoice) : List AgentEvent × AgentNext :=
  match env.checkpoint with
  | some message => ([], .returned (.error (.checkpoint message)) (asked conversation choice))
  | none =>
    if choice.toolCalls.isEmpty then
      ([.checkpoint agentResumePhaseToolCalls (asked conversation choice)],
        r.conclude (asked conversation choice) (assistantMessage choice choice.toolCalls)
          resumePhase)
    else
      let batch := r.executeToolCalls tools env (asked conversation choice) choice.toolCalls
      (.checkpoint agentResumePhaseToolCalls (asked conversation choice) :: batch.events,
        match batch.error with
        | some e => .returned (.error e) batch.conversation
        | none =>
          if trimSpace batch.conversation.finalAnswer ≠ "" then
            .returned (.ok ()) batch.conversation
          else .again ⟨batch.conversation, resumePhase⟩)

/-- One round of `runLoop`. -/
def iterate (tools : Tools) (maxIterations : Int) (env : IterationEnv) (loop : AgentLoop) :
    List AgentEvent × AgentNext :=
  if maxIterations ≤ loop.conversation.iterationCount then
    ([], .returned (.error (.iterations maxIterations loop.conversation.iterationCount))
      loop.conversation)
  else if loop.resumedCalls ≠ [] then
    let batch := r.executeToolCalls tools env loop.conversation (loop.resumedCalls)
    (batch.events,
      match batch.error with
      | some e => .returned (.error e) batch.conversation
      | none => .again ⟨batch.conversation, ""⟩)
  else
    let resumePhase := if loop.resumePhase = agentResumePhaseToolCalls then "" else loop.resumePhase
    let asked := r.requestModel tools maxIterations env loop.conversation
    match asked.2 with
    | .error e => (asked.1, .returned (.error e) loop.conversation)
    | .ok choice =>
      let answered := r.answer tools env loop.conversation resumePhase choice
      (asked.1 ++ answered.1, answered.2)

/-- The rounds of `runLoop`, as long as there are surroundings for them. -/
def runLoop (tools : Tools) (maxIterations : Int) :
    List IterationEnv → AgentLoop → List AgentEvent × AgentNext
  | [], loop => ([], .again loop)
  | env :: envs, loop =>
    let round := r.iterate tools maxIterations env loop
    match round.2 with
    | .returned result conversation => (round.1, .returned result conversation)
    | .again next =>
      let rest := runLoop tools maxIterations envs next
      (round.1 ++ rest.1, rest.2)

/-! ## What a batch does -/

section Batch

variable {r} {tools : Tools} {env : IterationEnv} {batch : ToolBatch} {index : Nat}
  {outcomes : List ToolOutcome} {conversation : Conversation} {calls : List ToolCall}

theorem collect_complete (h : (r.collect batch callEnv outcome).completionErrors = []) :
    batch.completionErrors = [] ∧ (r.collect batch callEnv outcome).conversation =
        batch.conversation.append [toolMessage outcome.result] ∧
      (r.collect batch callEnv outcome).finalAnswer =
        if outcome.finalAnswer = "" then batch.finalAnswer else outcome.finalAnswer := by
  rw [collect] at h ⊢
  cases hs : callEnv.store with
  | some message =>
    rw [hs] at h
    simp at h
  | none =>
    rw [hs] at h
    simp only [append_eq_nil_iff] at h
    obtain ⟨⟨⟨hb, -⟩, -⟩, hc⟩ := h
    refine ⟨hb, rfl, ?_⟩
    have hno : (batch.finalAnswer ≠ "" && outcome.finalAnswer ≠ "" &&
        batch.finalAnswer ≠ outcome.finalAnswer) = false := by
      by_contra hy
      rw [if_pos (by simpa [and_assoc] using hy)] at hc
      cases hc
    simp only [hno, Bool.or_false, decide_eq_true_eq]

/-- If nothing went wrong, every result is appended, and there is a final answer if and only if
a tool has supplied one. -/
theorem collectAll_complete (h : (r.collectAll env batch index outcomes).completionErrors = []) :
    batch.completionErrors = [] ∧ (r.collectAll env batch index outcomes).conversation.messages =
        batch.conversation.messages ++ outcomes.map (fun o => (toolMessage o.result).stored) ∧
      ((r.collectAll env batch index outcomes).finalAnswer = "" ↔
        batch.finalAnswer = "" ∧ ∀ o ∈ outcomes, o.finalAnswer = "") := by
  induction outcomes generalizing batch index with
  | nil => simpa [collectAll] using h
  | cons o outcomes ih =>
    rw [collectAll] at h ⊢
    obtain ⟨hf, hm, ha⟩ := ih h
    obtain ⟨hb, hc, hfi⟩ := collect_complete hf
    refine ⟨hb, ?_, ?_⟩
    · rw [hm, hc, Conversation.messages_append, append_assoc,
        map_singleton, singleton_append, map_cons]
    · rw [ha, hfi, forall_mem_cons]
      by_cases ho : o.finalAnswer = ""
      · simp [ho]
      · simp [ho]

/-- A later batch has the number of iterations and the final answer of an earlier one, and what
it writes into checkpoints begins with the messages that were there. -/
structure BatchKept (batch later : ToolBatch) : Prop where
  iterationCount : later.conversation.iterationCount = batch.conversation.iterationCount
  finalAnswer : later.conversation.finalAnswer = batch.conversation.finalAnswer
  grows : batch.conversation.Grows later.conversation
  checkpoints : ∀ c ∈ later.checkpoints, c ∈ batch.checkpoints ∨ batch.conversation.Grows c

theorem collect_keeps : BatchKept batch (r.collect batch callEnv outcome) := by
  rw [collect]
  cases callEnv.store with
  | some message => exact ⟨rfl, rfl, .refl _, fun c hc => .inl hc⟩
  | none =>
    refine ⟨rfl, rfl, .append _ _, fun c hc => (mem_append.mp hc).imp_right fun hc => ?_⟩
    split at hc
    · cases hc
    · obtain rfl := mem_singleton.mp hc
      exact .append _ _

theorem collectAll_keeps : BatchKept batch (r.collectAll env batch index outcomes) := by
  induction outcomes generalizing batch index with
  | nil => exact ⟨rfl, rfl, .refl _, fun _ hc => .inl hc⟩
  | cons o outcomes ih =>
    have hk := @ih (r.collect batch (env.call index) o) (index + 1)
    have ho := @collect_keeps r batch (env.call index) o
    refine ⟨hk.iterationCount.trans ho.iterationCount, hk.finalAnswer.trans ho.finalAnswer,
      ho.grows.trans hk.grows, fun c hc => ?_⟩
    rcases hk.checkpoints c hc with hc | hc
    · exact ho.checkpoints c hc
    · exact .inr (ho.grows.trans hc)

/-- The final answer that is collected has no blanks around it. -/
theorem trimSpace_collectAll (h : trimSpace batch.finalAnswer = batch.finalAnswer) :
    trimSpace (r.collectAll env batch index outcomes).finalAnswer =
      (r.collectAll env batch index outcomes).finalAnswer := by
  induction outcomes generalizing batch index with
  | nil => exact h
  | cons o outcomes ih =>
    refine ih ?_
    rw [collect]
    cases (env.call index).store with
    | some message => exact h
    | none =>
      dsimp only
      split
      · exact h
      · rw [ToolOutcome.finalAnswer]
        split
        · rfl
        · exact trimSpace_idem

theorem untilFinal_eq (h : ∀ o ∈ untilFinal outcomes, o.finalAnswer = "") :
    untilFinal outcomes = outcomes := by
  induction outcomes with
  | nil => rfl
  | cons o outcomes ih =>
    rw [untilFinal] at h ⊢
    split at h
    next ho =>
      rw [if_pos ho, ih (forall_mem_cons.mp h).2]
    next ho => exact absurd (forall_mem_singleton.mp h) ho

/-- Nothing is executed, or the budget admits the calls. -/
theorem executeToolCalls_cases :
    (∃ error, r.executeToolCalls tools env conversation calls = ⟨[], conversation, error⟩ ∧
        (error = none → calls = [])) ∨
      r.executeToolCalls tools env conversation calls =
        r.executeAdmitted tools env conversation calls := by
  rw [executeToolCalls]
  split
  next hn => exact .inl ⟨none, rfl, fun _ => isEmpty_iff.mp hn⟩
  · split
    next e _ => exact .inl ⟨_, rfl, fun h => by cases h⟩
    · exact .inr rfl

theorem executeAdmitted_complete
    (h : (r.executeAdmitted tools env conversation calls).error = none) :
    (r.executeAdmitted tools env conversation calls).conversation.messages =
        conversation.messages ++
          (r.executions tools env calls).map (fun o => (toolMessage o.result).stored) ∧
      (trimSpace (r.executeAdmitted tools env conversation calls).conversation.finalAnswer = "" →
        r.executions tools env calls =
          answerToolCalls (fun index => (env.call index).tool) tools calls) := by
  rw [executeAdmitted] at h ⊢
  generalize ho : r.executions tools env calls = outcomes at h ⊢
  have hc : (r.collectAll env ⟨conversation, [], [], "", []⟩ 0 outcomes).completionErrors
      = [] := by
    have he := not_imp_comm.mp (ite_eq_left_iff.mp h) (by simp)
    split at he
    · exact isEmpty_iff.mp he
    · exact (append_eq_nil_iff.mp (isEmpty_iff.mp he)).1
  obtain ⟨-, hm, ha⟩ := collectAll_complete hc
  have ht : trimSpace (r.collectAll env ⟨conversation, [], [], "", []⟩ 0
      outcomes).finalAnswer = _ := trimSpace_collectAll rfl
  constructor
  · split
    · exact hm
    · exact hm
  · intro hb
    have hn : (r.collectAll env ⟨conversation, [], [], "", []⟩ 0 outcomes).finalAnswer = "" := by
      by_contra hs
      rw [if_neg hs] at hb
      exact hs (ht.symm.trans hb)
    have hal := (ha.mp hn).2
    rw [← ho, executions] at hal ⊢
    split at hal
    next hr => rw [if_pos hr, untilFinal_eq hal]
    next hr => rw [if_neg hr]

/-- A batch without errors has appended the results of its executions.  If the conversation has
no final answer afterwards, all calls were executed. -/
theorem executeToolCalls_complete
    (h : (r.executeToolCalls tools env conversation calls).error = none) :
    (r.executeToolCalls tools env conversation calls).conversation.messages =
        conversation.messages ++
          (r.executions tools env calls).map (fun o => (toolMessage o.result).stored) ∧
      (trimSpace (r.executeToolCalls tools env conversation calls).conversation.finalAnswer = "" →
        r.executions tools env calls =
          answerToolCalls (fun index => (env.call index).tool) tools calls) := by
  rcases @executeToolCalls_cases r tools env conversation calls with ⟨error, hn, hc⟩ | hs
  · rw [hn] at h ⊢
    obtain rfl := hc h
    have he : r.executions tools env [] = [] := by
      rw [executions]
      split <;> rfl
    rw [he]
    exact ⟨(append_nil _).symm, fun _ => rfl⟩
  · rw [hs] at h ⊢
    exact executeAdmitted_complete h

theorem mem_executedEvents (h : event ∈ executedEvents calls outcomes) :
    ∃ call ∈ calls, ∃ outcome ∈ outcomes, event = .executed call outcome.invoked.isSome := by
  obtain ⟨index, hi, rfl⟩ := mem_iff_getElem.mp h
  rw [executedEvents, length_zipWith, Nat.lt_min] at hi
  exact ⟨calls[index], getElem_mem hi.1, outcomes[index], getElem_mem hi.2, getElem_zipWith⟩

/-- A batch is seen by its executions and by the checkpoints of its results. -/
theorem mem_executeToolCalls {event : AgentEvent}
    (h : event ∈ (r.executeToolCalls tools env conversation calls).events) :
    (∃ call invoked, event = .executed call invoked) ∨
      ∃ written, event = .checkpoint "tool_result" written ∧ conversation.Grows written := by
  rcases @executeToolCalls_cases r tools env conversation calls with ⟨error, hn, -⟩ | hs
  · simp [hn] at h
  · rw [hs] at h
    rcases mem_append.mp h with h | h
    · obtain ⟨call, -, outcome, -, rfl⟩ := mem_executedEvents h
      exact .inl ⟨_, _, rfl⟩
    · obtain ⟨written, hw, rfl⟩ := mem_map.mp h
      obtain ⟨-, -, -, hc⟩ := @collectAll_keeps r env ⟨conversation, [], [], "", []⟩ 0
        (r.executions tools env calls)
      rcases hc written hw with hn | hg
      · cases hn
      · exact .inr ⟨written, rfl, hg⟩

theorem request_notMem_executeToolCalls :
    .request messages ∉ (r.executeToolCalls tools env conversation calls).events := by
  intro h
  rcases mem_executeToolCalls h with ⟨_, _, he⟩ | ⟨_, he, -⟩ <;> cases he

theorem executeAdmitted_keeps :
    let result := r.executeAdmitted tools env conversation calls
    conversation.Grows result.conversation ∧
      result.conversation.iterationCount = conversation.iterationCount := by
  obtain ⟨hc, -, hg, -⟩ := @collectAll_keeps r env ⟨conversation, [], [], "", []⟩ 0
    (r.executions tools env calls)
  rw [executeAdmitted]
  split
  · exact ⟨hg, hc⟩
  · exact ⟨⟨hg.messages, hg.limit⟩, hc⟩

theorem executeToolCalls_keeps :
    let result := r.executeToolCalls tools env conversation calls
    conversation.Grows result.conversation ∧
      result.conversation.iterationCount = conversation.iterationCount := by
  rcases @executeToolCalls_cases r tools env conversation calls with ⟨error, hn, -⟩ | hs
  · rw [hn]
    exact ⟨.refl _, rfl⟩
  · rw [hs]
    exact executeAdmitted_keeps

end Batch

/-! ## What a round does -/

section Round

variable {r} {tools : Tools} {maxIterations : Int} {env : IterationEnv} {loop next : AgentLoop}
  {conversation : Conversation} {resumePhase : String} {choice : ModelChoice}

/-- There is no request, or it is the first event and carries the conversation. -/
theorem requestModel_events : ((r.requestModel tools maxIterations env conversation).1 = [] ∧
        ∃ e, (r.requestModel tools maxIterations env conversation).2 = .error e) ∨
      ∃ rest, (r.requestModel tools maxIterations env conversation).1 =
          .request conversation.messages :: rest ∧
        ∀ event ∈ rest, ∃ totalTokens, event = .responded totalTokens := by
  rw [requestModel]
  split
  next e _ => exact .inl ⟨rfl, _, rfl⟩
  · split
    · exact .inr ⟨[], rfl, fun _ h => by cases h⟩
    · split
      · exact .inr ⟨[], rfl, fun _ h => by cases h⟩
      next response _ _ choice _ =>
        exact .inr ⟨_, rfl, fun event h => ⟨_, mem_singleton.mp h⟩⟩

theorem requestModel_eq_ok
    (h : (r.requestModel tools maxIterations env conversation).2 = .ok choice) :
    ∃ response, env.generate = .ok response ∧ response.choice = some choice := by
  rw [requestModel] at h
  split at h
  · cases h
  · split at h
    · cases h
    next response hr =>
      obtain ⟨returned, hre, hc, -⟩ := generateModel_eq_ok hr
      split at h
      · cases h
      next taken ht =>
        split at h
        · cases h
        · split at h
          · cases h
          · cases h
            exact ⟨returned, hre, hc ▸ ht⟩

theorem messages_asked : (asked conversation choice).messages =
    conversation.messages ++ [(assistantMessage choice choice.toolCalls).stored] :=
  conversation.messages_append _

theorem grows_asked : conversation.Grows (asked conversation choice) :=
  ⟨(Conversation.Grows.append conversation _).messages, rfl⟩

theorem iterationCount_asked : (asked conversation choice).iterationCount =
    if conversation.iterationCount + 1 < 0 then 0 else conversation.iterationCount + 1 :=
  rfl

section

variable (h : (r.answer tools env conversation resumePhase choice).2 = .again next)
include h

/-- The loop goes on after an answer: a message asks again, or all calls were answered. -/
theorem answer_again : (choice.toolCalls = [] ∧ ∃ prompt,
        next = ⟨(asked conversation choice).append [textParts .human prompt], resumePhase⟩) ∨
      ((r.executeToolCalls tools env (asked conversation choice) choice.toolCalls).error = none ∧
        trimSpace (r.executeToolCalls tools env (asked conversation choice)
          choice.toolCalls).conversation.finalAnswer = "" ∧
        next = ⟨(r.executeToolCalls tools env (asked conversation choice)
          choice.toolCalls).conversation, resumePhase⟩) := by
  rw [answer] at h
  split at h
  · cases h
  · split at h
    next hn =>
      refine .inl ⟨isEmpty_iff.mp hn, ?_⟩
      dsimp only [conclude] at h
      split at h
      · exact ⟨_, (AgentNext.again.inj h).symm⟩
      · split at h
        · exact ⟨_, (AgentNext.again.inj h).symm⟩
        · split at h <;> cases h
    · dsimp only at h
      split at h
      · cases h
      next he =>
        split at h
        · cases h
        next hb => exact .inr ⟨he, not_not.mp hb, (AgentNext.again.inj h).symm⟩

/-- What is appended: the message of the assistant, and replies that hold the results of all its
calls. -/
theorem messages_of_answer : ∃ replies : List MessageContent,
      next.conversation.messages = conversation.messages ++
        (assistantMessage choice choice.toolCalls).stored :: replies ∧
      (∀ reply ∈ replies, reply.role ≠ .ai) ∧
      replies.flatMap MessageContent.toolResults =
        (answerToolCalls (fun index => (env.call index).tool) tools choice.toolCalls).map
          fun outcome => outcome.result.stored := by
  rcases answer_again h with ⟨hn, prompt, rfl⟩ | ⟨he, hb, rfl⟩
  · refine ⟨[(textParts .human prompt).stored], ?_, ?_, ?_⟩
    · rw [Conversation.messages_append, messages_asked, append_assoc, singleton_append,
        map_singleton]
    · rw [forall_mem_singleton]
      exact ChatMessageType.noConfusion
    · rw [hn]
      rfl
  · obtain ⟨hm, ha⟩ := executeToolCalls_complete he
    rw [messages_asked, ha hb] at hm
    refine ⟨_, by rw [hm, append_assoc, singleton_append], ?_, ?_⟩
    · intro reply hr
      obtain ⟨outcome, -, rfl⟩ := mem_map.mp hr
      exact ChatMessageType.noConfusion
    · rw [flatMap_map]
      exact flatMap_pure_eq_map _ _

theorem grows_answer : conversation.Grows next.conversation := by
  rcases answer_again h with ⟨-, prompt, rfl⟩ | ⟨-, -, rfl⟩
  · exact grows_asked.trans (.append _ _)
  · exact grows_asked.trans executeToolCalls_keeps.1

theorem iterationCount_answer :
    next.conversation.iterationCount = (asked conversation choice).iterationCount := by
  rcases answer_again h with ⟨-, prompt, rfl⟩ | ⟨-, -, rfl⟩
  · rfl
  · exact executeToolCalls_keeps.2

end

/-- A round in which calls were made up for. -/
theorem iterate_resumed (hl : loop.conversation.iterationCount < maxIterations)
    (hc : loop.resumedCalls ≠ [])
    (hb : r.executeToolCalls tools env loop.conversation loop.resumedCalls = batch) :
    r.iterate tools maxIterations env loop = (batch.events, match batch.error with
        | some e => .returned (.error e) batch.conversation
        | none => .again ⟨batch.conversation, ""⟩) := by
  rw [iterate, if_neg (Int.not_le.mpr hl), if_pos hc, hb]

/-- A round in which the model was asked. -/
theorem iterate_asked (hl : loop.conversation.iterationCount < maxIterations)
    (hc : loop.resumedCalls = []) :
    ∃ resumePhase, resumePhase ≠ agentResumePhaseToolCalls ∧
      r.iterate tools maxIterations env loop =
        match (r.requestModel tools maxIterations env loop.conversation).2 with
        | .error e => ((r.requestModel tools maxIterations env loop.conversation).1,
            .returned (.error e) loop.conversation)
        | .ok choice =>
          ((r.requestModel tools maxIterations env loop.conversation).1 ++
              (r.answer tools env loop.conversation resumePhase choice).1,
            (r.answer tools env loop.conversation resumePhase choice).2) := by
  refine ⟨if loop.resumePhase = agentResumePhaseToolCalls then "" else loop.resumePhase, ?_, ?_⟩
  · split
    · decide
    next h => exact h
  · rw [iterate, if_neg (Int.not_le.mpr hl), if_neg (not_not.mpr hc)]

theorem iterate_limit (hl : maxIterations ≤ loop.conversation.iterationCount) :
    r.iterate tools maxIterations env loop =
      ([], .returned (.error (.iterations maxIterations loop.conversation.iterationCount))
        loop.conversation) := by
  rw [iterate, if_pos hl]

/-- An answer makes no request. -/
theorem request_notMem_answer :
    .request messages ∉ (r.answer tools env conversation resumePhase choice).1 := by
  intro h
  rw [answer] at h
  split at h
  · cases h
  · split at h
    · cases mem_singleton.mp h
    · rcases mem_cons.mp h with he | h
      · cases he
      · exact request_notMem_executeToolCalls h

/-- What a round is seen by. -/
theorem mem_iterate (h : event ∈ (r.iterate tools maxIterations env loop).1) :
    event = .request loop.conversation.messages ∨ (∃ totalTokens, event = .responded totalTokens) ∨
      (∃ phase choice, event ∈ (r.answer tools env loop.conversation phase choice).1) ∨
      event ∈ (r.executeToolCalls tools env loop.conversation loop.resumedCalls).events := by
  have ha (hm : event ∈ (r.requestModel tools maxIterations env loop.conversation).1) :
      event = .request loop.conversation.messages ∨
        ∃ totalTokens, event = .responded totalTokens := by
    rcases @requestModel_events r tools maxIterations env loop.conversation with
      ⟨hn, -⟩ | ⟨rest, hs, hr⟩
    · simp [hn] at hm
    · rw [hs] at hm
      exact (mem_cons.mp hm).imp_right (hr _)
  rw [iterate] at h
  split at h
  · cases h
  · split at h
    · exact .inr (.inr (.inr h))
    · dsimp only at h
      split at h
      · exact (ha h).imp_right .inl
      · rcases mem_append.mp h with h | h
        · exact (ha h).imp_right .inl
        · exact .inr (.inr (.inl ⟨_, _, h⟩))

/-- The rounds after one that goes on. -/
theorem runLoop_cons (h : r.iterate tools maxIterations env loop = (events, .again next)) :
    r.runLoop tools maxIterations (env :: envs) loop =
      (events ++ (r.runLoop tools maxIterations envs next).1,
        (r.runLoop tools maxIterations envs next).2) := by
  rw [runLoop, h]

end Round

end LoopRunner

/-! ## A plain agent -/

/-- An agent that asks for text. -/
def plainAgent (config : AgentConfig) : LoopRunner where
  config
  format := { decodeStructuredOutput := .ok }
  engine := .accepting

/-- A round in which nothing fails. -/
def plainRound (response : ModelResponse) : IterationEnv where
  beforeRequest := some newState
  afterResponse := some newState
  beforeTools := some newState
  generate := .ok response
  call _ := { tool := plainToolEnv }

section

variable {r : LoopRunner} {tools : Tools} {maxIterations : Int} {conversation : Conversation}
  {response : ModelResponse} {choice : ModelChoice} {calls : List ToolCall}

theorem holdsNoInternal_newState : HoldsNoInternal newState := by
  intro path hs hse
  obtain ⟨segment, segments, hp⟩ := exists_cons_of_ne_nil hse
  have he : path.empty = false := by
    rw [Path.empty, hs]
    rfl
  have hi : Assoc.get sectionInternal newState.root = some (.node []) := rfl
  rw [State.read, Root.read_eq_lookAt he, Path.keys, hs, hp, lookAt_cons_node,
    hi, lookAt_cons_node, Assoc.get_nil, lookAt_none]

theorem consumeAgentBudget_newState {limits : AgentBudgetLimits} {iterations toolCalls tokens : Int}
    (hi : 0 ≤ iterations ∧ (limits.maxIterations ≤ 0 ∨ iterations ≤ limits.maxIterations))
    (ht : 0 ≤ toolCalls ∧ (limits.maxToolCalls ≤ 0 ∨ toolCalls ≤ limits.maxToolCalls))
    (hto : 0 ≤ tokens ∧ (limits.maxTokens ≤ 0 ∨ tokens ≤ limits.maxTokens)) :
    ∃ consumed, consumeAgentBudget (some newState) limits ⟨iterations, toolCalls, tokens, 0⟩ =
      .ok consumed := by
  refine (consumeAgentBudget_fresh holdsNoInternal_newState).mpr ⟨?_, ?_⟩
  · simp [AgentBudget.nonnegative, AgentBudget.add, hi.1, ht.1, hto.1]
  · simp only [AgentBudget.add, Int.zero_add, Rat.zero_add]
    exact ⟨hi.2, ht.2, hto.2, Rat.le_total⟩

theorem executeToolCalls_plainRound (hc : calls ≠ [])
    (hw : r.config.maxToolCalls ≤ 0 ∨ (calls.length : Int) ≤ r.config.maxToolCalls) :
    r.executeToolCalls tools (plainRound response) conversation calls =
      r.executeAdmitted tools (plainRound response) conversation calls := by
  have hl := r.effectiveMaxIterations_pos conversation
  obtain ⟨_, hb⟩ := @consumeAgentBudget_newState
    (r.budgetLimits (r.effectiveMaxIterations conversation)) 0 calls.length 0
    ⟨by decide, .inr hl.le⟩ ⟨by omega, hw⟩ ⟨by decide, by omega⟩
  simp only [LoopRunner.executeToolCalls, plainRound, hb,
    if_neg (show ¬ calls.isEmpty = true by simpa using hc)]

section

variable (hl : 0 < maxIterations) (hch : response.choice = some choice) (hca : choice.toolCalls ≠ [])
  (ht : 0 ≤ response.usage.normalized.totalTokens)
  (hw : r.config.maxTokens ≤ 0 ∨ response.usage.normalized.totalTokens ≤ r.config.maxTokens)
  (hco : response.cost = none)

include hl hch hca ht hw hco

/-- A request that is valid and whose response is within the limits. -/
theorem requestModel_plainRound
    (hv : validateModelRequest r.engine r.format conversation.messages tools = .ok ()) :
    r.requestModel tools maxIterations (plainRound response) conversation =
      ([.request conversation.messages, .responded response.usage.normalized.totalTokens],
        .ok choice) := by
  obtain ⟨_, hb⟩ := @consumeAgentBudget_newState (r.budgetLimits maxIterations) 1 0 0
    ⟨by decide, .inr hl⟩ ⟨by decide, by omega⟩ ⟨by decide, by omega⟩
  obtain ⟨_, ha⟩ := @consumeAgentBudget_newState (r.budgetLimits maxIterations) 0 0
    response.usage.normalized.totalTokens ⟨by decide, .inr hl.le⟩ ⟨by decide, by omega⟩
    ⟨ht, hw⟩
  have hso : ModelResponse.choice { response with usage := response.usage.normalized } =
      some choice := hch
  have hg : generateModel r.engine r.format conversation.messages tools (.ok response) =
      .ok { response with usage := response.usage.normalized } := by
    refine bind_eq_ok.mpr ⟨(), hv, ?_⟩
    refine bind_eq_ok.mpr ⟨response, rfl, bind_eq_ok.mpr ⟨(), ?_, rfl⟩⟩
    rw [validateStructuredModelResponse]
    split
    · rw [hso]
      exact if_neg (by simpa using hca)
    · rfl
  simp only [LoopRunner.requestModel, plainRound, hb, hg, hso]
  rw [hco, Option.getD_none, ha]

/-- A round in which nothing fails, up to what the tools return. -/
theorem iterate_plainRound {loop : AgentLoop} {result : BatchResult}
    (hc : loop.conversation.iterationCount < maxIterations) (hr : loop.resumedCalls = [])
    (hv : validateModelRequest r.engine r.format loop.conversation.messages tools = .ok ())
    (hn : r.config.maxToolCalls ≤ 0 ∨ (choice.toolCalls.length : Int) ≤ r.config.maxToolCalls)
    (he : r.executeAdmitted tools (plainRound response)
      (LoopRunner.asked loop.conversation choice) choice.toolCalls = result)
    (hd : result.error = none) (hb : trimSpace result.conversation.finalAnswer = "") :
    ∃ phase, phase ≠ agentResumePhaseToolCalls ∧
      r.iterate tools maxIterations (plainRound response) loop =
        (.request loop.conversation.messages :: .responded response.usage.normalized.totalTokens ::
          .checkpoint agentResumePhaseToolCalls (LoopRunner.asked loop.conversation choice) ::
          result.events, .again ⟨result.conversation, phase⟩) := by
  obtain ⟨phase, hp, hro⟩ :=
    @LoopRunner.iterate_asked r tools maxIterations (plainRound response) loop hc hr
  refine ⟨phase, hp, ?_⟩
  rw [hro, requestModel_plainRound hl hch hca ht hw hco hv]
  have hba := (executeToolCalls_plainRound hca hn).trans he
  have hce : (plainRound response).checkpoint = none := rfl
  simp only [LoopRunner.answer, hce, hba, hd, hb, ne_eq, not_true, if_false,
    if_neg (show ¬ choice.toolCalls.isEmpty = true by simpa using hca), cons_append,
    nil_append]

end

end

end WeaveFlow
