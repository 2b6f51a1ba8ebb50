import WeaveFlow.Agent.Protocol

/-!
# Resuming between tool calls

An execution of an agent that was interrupted right after a checkpoint is started again with the
conversation of the checkpoint and its phase.  The calls that are outstanding then are those of
the last message of the assistant that have no result after it.  This module compares them with
the calls that the resumed execution makes before its first request.

After the checkpoint of an answer (phase `tool_calls`) the resumed execution looks for pending
calls; after the checkpoint of a result (phase `tool_result`) it does not, so that the calls
whose results were not yet appended are lost.  In the phase `tool_calls` it asks for a result
with the id of the call anywhere in the conversation, not only after the message.
-/

namespace WeaveFlow

open LoopRunner AgentEvent Conversation List

/-! ## Outstanding calls -/

/-- The results after the last message of the assistant. -/
def lastReplies (messages : List MessageContent) : List ToolResult :=
  (messages.reverse.takeWhile fun message => message.role ≠ .ai).flatMap MessageContent.toolResults

/-- The calls of the last message of the assistant without a result after it. -/
def outstandingCalls (messages : List MessageContent) : List ToolCall :=
  match nearestAssistant messages with
  | none => []
  | some assistant => assistant.toolCalls.filter fun call =>
    call.id ∉ (lastReplies messages).map ToolResult.toolCallID

/-- The calls that are executed before the first request. -/
def callsBeforeRequest : List AgentEvent → List ToolCall
  | [] => []
  | .request _ :: _ => []
  | .executed call _ :: events => call :: callsBeforeRequest events
  | _ :: events => callsBeforeRequest events

/-- Nothing stands after the last message of the assistant. -/
theorem outstandingCalls_concat (hr : assistant.role = .ai) :
    outstandingCalls (base ++ [assistant]) = assistant.toolCalls := by
  have hre : lastReplies (base ++ [assistant]) = [] := by
    rw [lastReplies, reverse_append, reverse_singleton, singleton_append,
      takeWhile_cons, if_neg (by simp [hr])]
    rfl
  rw [outstandingCalls, nearestAssistant_turn hr (fun _ h => by cases h), hre]
  exact filter_eq_self.mpr fun call _ => by simp

theorem pendingToolCalls_concat (hr : assistant.role = .ai) :
    pendingToolCalls (base ++ [assistant]) = assistant.toolCalls.filter fun call =>
      trimSpace call.id = "" || call.id ∉ completedIDs (base ++ [assistant]) := by
  rw [pendingToolCalls, List.getLast?_concat]
  exact if_pos hr

theorem callsBeforeRequest_append (h : ∀ event ∈ events, ∀ messages, event ≠ .request messages) :
    callsBeforeRequest (events ++ rest) = callsBeforeRequest events ++ callsBeforeRequest rest := by
  induction events with
  | nil => rfl
  | cons event events ih =>
    obtain ⟨he, hev⟩ := forall_mem_cons.mp h
    cases event with
    | request messages => exact absurd rfl (he messages)
    | executed call invoked => exact congrArg (call :: ·) (ih hev)
    | responded totalTokens | checkpoint phase conversation => exact ih hev

theorem callsBeforeRequest_executedEvents (outcomes : List ToolOutcome) (rest : List AgentEvent) :
    callsBeforeRequest (executedEvents calls outcomes ++ rest) =
      calls.take outcomes.length ++ callsBeforeRequest rest := by
  induction calls generalizing outcomes with
  | nil => rw [executedEvents, zipWith_nil_left, take_nil]; rfl
  | cons call calls ih =>
    cases outcomes with
    | nil => rfl
    | cons outcome outcomes => exact congrArg (call :: ·) (ih outcomes)

theorem callsBeforeRequest_checkpoints (written : List Conversation) :
    callsBeforeRequest (written.map (checkpoint phase)) = [] := by
  induction written with
  | nil => rfl
  | cons conversation written ih => exact ih

/-! ## A conversation that was started -/

/-- The limit is set and the prompt and the task are there, as far as there are any. -/
structure Started (r : LoopRunner) (task : String) (conversation : Conversation) : Prop where
  limit : r.config.maxIterations ≤ 0 ∨ r.config.maxIterations ≤ conversation.maxIterations
  system : trimSpace r.config.systemPrompt = "" ∨ ∃ m ∈ conversation.messages, m.role = .system
  human : trimSpace task = "" ∨ ∃ m ∈ conversation.messages, m.role = .human

theorem Started.of_grows (h : Started r task conversation) (hg : conversation.Grows later) :
    Started r task later := by
  refine ⟨?_, h.system.imp_right ?_, h.human.imp_right ?_⟩
  · rw [maxIterations, ← hg.limit, ← maxIterations]
    exact h.limit
  · rintro ⟨m, hm, hr⟩
    exact ⟨m, hg.messages.subset hm, hr⟩
  · rintro ⟨m, hm, hr⟩
    exact ⟨m, hg.messages.subset hm, hr⟩

/-- Starting again changes nothing. -/
theorem Started.start_eq (h : Started r task conversation) (phase : String) :
    r.start task phase conversation = ⟨conversation, phase⟩ := by
  have hl : ¬ (0 < r.config.maxIterations ∧
      conversation.maxIterations < r.config.maxIterations) := by
    have := h.limit
    omega
  have hs : (trimSpace r.config.systemPrompt ≠ "" &&
      !(conversation.messages.any fun m => m.role = .system)) = false := by
    rcases h.system with hb | ⟨m, hm, hr⟩
    · simp [hb]
    · rw [any_eq_true.mpr ⟨m, hm, decide_eq_true hr⟩, Bool.not_true, Bool.and_false]
  have hh : (trimSpace task ≠ "" &&
      !(conversation.messages.any fun m => m.role = .human)) = false := by
    rcases h.human with hb | ⟨m, hm, hr⟩
    · simp [hb]
    · rw [any_eq_true.mpr ⟨m, hm, decide_eq_true hr⟩, Bool.not_true, Bool.and_false]
  rw [LoopRunner.start, if_neg hl, seedConversation]
  simp only [hs, hh, Bool.false_eq_true, if_false, isEmpty_nil, Bool.and_self, if_true]

/-- A message that is put in unless there is one of its role. -/
theorem exists_role (messages : List MessageContent) (hr : message.role = role)
    (hmi : missing = true) :
    ∃ m ∈ (if missing && !(messages.any fun m => m.role = role) then [message] else []) ++ messages,
      m.role = role := by
  cases ha : messages.any fun m => m.role = role with
  | true =>
    obtain ⟨m, hm, hf⟩ := any_eq_true.mp ha
    exact ⟨m, mem_append_right _ hm, of_decide_eq_true hf⟩
  | false =>
    rw [hmi]
    exact ⟨message, mem_cons_self, hr⟩

theorem started_seedConversation
    (hl : r.config.maxIterations ≤ 0 ∨ r.config.maxIterations ≤ conversation.maxIterations) :
    Started r task (r.seedConversation conversation (trimSpace task)) := by
  have hs := fun h => exists_role conversation.messages
    (show (textParts .system r.config.systemPrompt).role = .system from rfl)
    (decide_eq_true (p := trimSpace r.config.systemPrompt ≠ "") h)
  have hh := fun h => exists_role conversation.messages
    (show (textParts .human (trimSpace task)).role = .human from rfl)
    (decide_eq_true (p := trimSpace task ≠ "") h)
  rw [seedConversation]
  generalize (if trimSpace r.config.systemPrompt ≠ "" &&
    !(conversation.messages.any fun m => m.role = .system) then
      [textParts .system r.config.systemPrompt] else []) = system at hs ⊢
  generalize (if trimSpace task ≠ "" && !(conversation.messages.any fun m => m.role = .human) then
    [textParts .human (trimSpace task)] else []) = human at hh ⊢
  have hr : ∀ role, (∃ m ∈ system ++ conversation.messages ++ human, m.role = role) →
      ∃ m ∈ (if system.isEmpty && human.isEmpty then conversation
        else conversation.setMessages (system ++ conversation.messages ++ human)).messages,
        m.role = role := by
    rintro role ⟨m, hm, hro⟩
    split
    next he =>
      rw [Bool.and_eq_true, List.isEmpty_iff, List.isEmpty_iff] at he
      rw [he.1, he.2, nil_append, append_nil] at hm
      exact ⟨m, hm, hro⟩
    · exact ⟨m.stored, mem_map_of_mem hm, hro⟩
  refine ⟨?_, ?_, ?_⟩
  · split
    · exact hl
    · exact hl
  · refine Classical.or_iff_not_imp_left.mpr fun h => hr _ ?_
    obtain ⟨m, hm, hro⟩ := hs h
    exact ⟨m, mem_append_left _ hm, hro⟩
  · refine Classical.or_iff_not_imp_left.mpr fun h => hr _ ?_
    obtain ⟨m, hm, hro⟩ := hh h
    refine ⟨m, ?_, hro⟩
    rw [append_assoc]
    exact mem_append_right _ (mem_append.mpr (mem_append.mp hm).symm)

theorem started_start : Started r task (r.start task phase conversation).conversation := by
  refine started_seedConversation ?_
  split
  next h =>
    right
    rw [setMaxIterations, maxIterations]
    rw [if_neg (Int.not_le.mpr h.1), if_neg (Int.not_le.mpr h.1)]
  next h => omega

/-! ## What checkpoints hold -/

/-- A checkpoint of a run: the conversation has grown, and it is written after an answer, which is
its last message, or after a result. -/
structure CheckpointOf (before : Conversation) (phase : String) (written : Conversation) : Prop where
  grows : before.Grows written
  phase : phase = "tool_result" ∨ (phase = agentResumePhaseToolCalls ∧
    ∃ base assistant, written.messages = base ++ [assistant] ∧ assistant.role = .ai)

section

variable {r : LoopRunner} {tools : Tools} {maxIterations : Int} {env : IterationEnv}
  {loop next : AgentLoop} {phase : String} {written : Conversation}

theorem checkpoint_mem_executeToolCalls {conversation : Conversation} {calls : List ToolCall}
    (h : checkpoint phase written ∈ (r.executeToolCalls tools env conversation calls).events) :
    CheckpointOf conversation phase written := by
  rcases mem_executeToolCalls h with ⟨_, _, he⟩ | ⟨_, he, hg⟩
  · cases he
  · cases he
    exact ⟨hg, .inl rfl⟩

theorem checkpoint_mem_answer {conversation : Conversation} {resumePhase : String}
    {choice : ModelChoice}
    (h : checkpoint phase written ∈ (r.answer tools env conversation resumePhase choice).1) :
    CheckpointOf conversation phase written := by
  have ha : checkpoint phase written = .checkpoint agentResumePhaseToolCalls
      (LoopRunner.asked conversation choice) → CheckpointOf conversation phase written := by
    intro he
    obtain ⟨rfl, rfl⟩ := checkpoint.inj he
    exact ⟨grows_asked, .inr ⟨rfl, conversation.messages,
      (assistantMessage choice choice.toolCalls).stored, messages_asked, rfl⟩⟩
  rw [LoopRunner.answer] at h
  split at h
  · cases h
  · split at h
    · exact ha (mem_singleton.mp h)
    · rcases mem_cons.mp h with he | h
      · exact ha he
      · have hb := checkpoint_mem_executeToolCalls h
        exact ⟨grows_asked.trans hb.grows, hb.phase⟩

/-- One round. -/
theorem checkpoint_mem_iterate
    (h : checkpoint phase written ∈ (r.iterate tools maxIterations env loop).1) :
    CheckpointOf loop.conversation phase written := by
  rcases mem_iterate h with he | ⟨_, he⟩ | ⟨_, _, h⟩ | h
  · cases he
  · cases he
  · exact checkpoint_mem_answer h
  · exact checkpoint_mem_executeToolCalls h

theorem grows_iterate (h : (r.iterate tools maxIterations env loop).2 = .again next) :
    loop.conversation.Grows next.conversation := by
  have hl := iterationCount_lt_of_again h
  by_cases hc : loop.resumedCalls = []
  · obtain ⟨resumePhase, -, hr⟩ := @iterate_asked r tools maxIterations env loop hl hc
    rw [hr] at h
    split at h
    · cases h
    next choice _ => exact grows_answer h
  · rw [iterate_resumed hl hc rfl] at h
    split at h
    · cases h
    · cases h
      exact executeToolCalls_keeps.1

theorem checkpoint_mem_runLoop
    (h : checkpoint phase written ∈ (r.runLoop tools maxIterations envs loop).1) :
    CheckpointOf loop.conversation phase written := by
  induction envs generalizing loop with
  | nil => cases h
  | cons env envs ih =>
    rw [runLoop] at h
    split at h
    · exact checkpoint_mem_iterate h
    next next hn =>
      rcases mem_append.mp h with h | h
      · exact checkpoint_mem_iterate h
      · have hl := ih h
        exact ⟨(grows_iterate hn).trans hl.grows, hl.phase⟩

end

/-! ## What is executed before the first request -/

section

variable {r : LoopRunner} {tools : Tools} {maxIterations : Int} {env : IterationEnv}
  {envs : List IterationEnv} {loop : AgentLoop}

/-- Without pending calls the request comes first. -/
theorem callsBeforeRequest_asked (hc : loop.resumedCalls = []) :
    callsBeforeRequest (r.runLoop tools maxIterations envs loop).1 = [] := by
  cases envs with
  | nil => rfl
  | cons env envs =>
    rw [runLoop]
    by_cases hl : loop.conversation.iterationCount < maxIterations
    · obtain ⟨phase, -, hr⟩ := @iterate_asked r tools maxIterations env loop hl hc
      rw [hr]
      rcases @requestModel_events r tools maxIterations env loop.conversation with
        ⟨hn, e, he⟩ | ⟨rest, hs, -⟩
      · rw [hn, he]
        rfl
      · rw [hs]
        split
        · split <;> rfl
        · split <;> rfl
    · rw [iterate_limit (Int.not_lt.mp hl)]
      rfl

/-- A batch is admitted by its own size. -/
theorem toolCalls_admitted_iff {provided : State} (hf : HoldsNoInternal provided)
    {conversation : Conversation} {count : Nat} :
    (∃ consumed, consumeAgentBudget (some provided)
        (r.budgetLimits (r.effectiveMaxIterations conversation)) { toolCalls := count } =
          .ok consumed) ↔
      r.config.maxToolCalls ≤ 0 ∨ (count : Int) ≤ r.config.maxToolCalls := by
  rw [consumeAgentBudget_fresh hf]
  have hp := r.effectiveMaxIterations_pos conversation
  constructor
  · rintro ⟨-, hw⟩
    simpa [AgentBudget.add, budgetLimits] using hw.toolCalls
  · intro hc
    refine ⟨by simp [AgentBudget.nonnegative, AgentBudget.add], ?_⟩
    simp only [AgentBudget.add, Int.zero_add, Rat.zero_add]
    exact ⟨.inr hp.le, hc, Int.le_total .., Rat.le_total⟩

/-- The calls that a batch executes. -/
theorem callsBeforeRequest_executeToolCalls {provided : State} {conversation : Conversation}
    {calls : List ToolCall} (hp : env.beforeTools = some provided)
    (hf : HoldsNoInternal provided) (hc : calls ≠ []) :
    callsBeforeRequest (r.executeToolCalls tools env conversation calls).events =
      if r.config.maxToolCalls ≤ 0 ∨ (calls.length : Int) ≤ r.config.maxToolCalls
      then calls.take (r.executions tools env calls).length else [] := by
  rw [executeToolCalls, if_neg (by simpa using hc), hp]
  split
  next e he =>
    rw [if_neg]
    · rfl
    · intro ha
      obtain ⟨_, hco⟩ := (toolCalls_admitted_iff hf).mpr ha
      rw [he] at hco
      cases hco
  next consumed hco =>
    rw [if_pos ((toolCalls_admitted_iff hf).mp ⟨consumed, hco⟩), executeAdmitted]
    rw [callsBeforeRequest_executedEvents, callsBeforeRequest_checkpoints, append_nil]

/-- Pending calls are executed first. -/
theorem callsBeforeRequest_resumed (hl : loop.conversation.iterationCount < maxIterations)
    (hc : loop.resumedCalls ≠ []) :
    callsBeforeRequest (r.runLoop tools maxIterations (env :: envs) loop).1 = callsBeforeRequest
        (r.executeToolCalls tools env loop.conversation loop.resumedCalls).events := by
  have hn : ∀ event ∈ (r.executeToolCalls tools env loop.conversation loop.resumedCalls).events,
      ∀ messages, event ≠ .request messages := by
    rintro event he messages rfl
    exact request_notMem_executeToolCalls he
  rw [runLoop, iterate_resumed hl hc rfl]
  split
  · rfl
  next next hne =>
    have hno : next.resumedCalls = [] := by
      split at hne
      · cases hne
      · cases hne
        rfl
    rw [callsBeforeRequest_append hn, callsBeforeRequest_asked hno, append_nil]

/-- Nothing is cut off unless a call before the last one supplies the final answer. -/
theorem length_untilFinal_iff : outcomes.length ≤ (untilFinal outcomes).length ↔
      ∀ outcome ∈ outcomes.dropLast, outcome.finalAnswer = "" := by
  induction outcomes with
  | nil => simp
  | cons outcome outcomes ih =>
    cases outcomes with
    | nil =>
      rw [untilFinal]
      split <;> simp [untilFinal]
    | cons second outcomes =>
      rw [dropLast_cons_cons, forall_mem_cons, ← ih, untilFinal]
      split
      next h => simp [h]
      next h => simp [h]

/-- All calls are executed. -/
theorem length_executions_iff : calls.length ≤ (r.executions tools env calls).length ↔
      (r.config.requireToolFinalAnswer = true → ∀ outcome ∈
        (answerToolCalls (fun index => (env.call index).tool) tools calls).dropLast,
        outcome.finalAnswer = "") := by
  have hl : (answerToolCalls (fun index => (env.call index).tool) tools calls).length =
      calls.length := by
    rw [answerToolCalls, length_mapIdx]
  rw [executions]
  split
  next h =>
    rw [← hl, length_untilFinal_iff]
    exact ⟨fun ha _ => ha, fun ha => ha h⟩
  next h => simp [h, hl]

end

/-! ## The resumed execution -/

/-- The outstanding calls can all be made up for. -/
structure Resumable (r : LoopRunner) (tools : Tools) (env : IterationEnv) (phase : String)
    (conversation : Conversation) : Prop where
  phase : phase = agentResumePhaseToolCalls
  limit : conversation.iterationCount < r.effectiveMaxIterations conversation
  /-- No id was used before. -/
  fresh : ∀ call ∈ outstandingCalls conversation.messages, trimSpace call.id ≠ "" →
    call.id ∉ completedIDs conversation.messages
  admitted : r.config.maxToolCalls ≤ 0 ∨
    ((outstandingCalls conversation.messages).length : Int) ≤ r.config.maxToolCalls
  /-- If a final answer is required, only the last call may supply it. -/
  unfinished : r.config.requireToolFinalAnswer = true → ∀ outcome ∈ (answerToolCalls
    (fun index => (env.call index).tool) tools
    (outstandingCalls conversation.messages)).dropLast, outcome.finalAnswer = ""

section

variable {r : LoopRunner} {tools : Tools} {env : IterationEnv} {envs : List IterationEnv}
  {provided : State} {conversation : Conversation}

/-- After the checkpoint of an answer. -/
theorem callsBeforeRequest_toolCalls (hp : env.beforeTools = some provided)
    (hf : HoldsNoInternal provided) (hm : conversation.messages = base ++ [assistant])
    (hr : assistant.role = .ai) :
    callsBeforeRequest (r.runLoop tools (r.effectiveMaxIterations conversation) (env :: envs)
        ⟨conversation, agentResumePhaseToolCalls⟩).1 = outstandingCalls conversation.messages ↔
      outstandingCalls conversation.messages = [] ∨
        Resumable r tools env agentResumePhaseToolCalls conversation := by
  have ho : outstandingCalls conversation.messages = assistant.toolCalls := by
    rw [hm, outstandingCalls_concat hr]
  obtain ⟨calls, hc⟩ : ∃ calls,
      AgentLoop.resumedCalls ⟨conversation, agentResumePhaseToolCalls⟩ = calls := ⟨_, rfl⟩
  have hre : calls = assistant.toolCalls.filter fun call =>
      trimSpace call.id = "" || call.id ∉ completedIDs conversation.messages := by
    rw [← hc, AgentLoop.resumedCalls, if_pos rfl, hm, pendingToolCalls_concat hr]
  have ha : calls = assistant.toolCalls ↔
      ∀ call ∈ assistant.toolCalls, trimSpace call.id ≠ "" →
        call.id ∉ completedIDs conversation.messages := by
    rw [hre, filter_eq_self]
    simp only [Bool.or_eq_true, decide_eq_true_eq, Classical.or_iff_not_imp_left]
  by_cases hn : assistant.toolCalls = []
  · rw [hn, filter_nil] at hre
    rw [callsBeforeRequest_asked (hc.trans hre), ho, hn]
    exact ⟨fun _ => .inl rfl, fun _ => rfl⟩
  rw [ho]
  constructor
  · intro h
    refine .inr ?_
    -- a call was executed, so that the calls were pending and admitted
    have hl : conversation.iterationCount < r.effectiveMaxIterations conversation := by
      by_contra hra
      rw [runLoop, iterate_limit (Int.not_lt.mp hra)] at h
      exact hn h.symm
    have hpe : calls ≠ [] := by
      intro he
      rw [callsBeforeRequest_asked (hc.trans he)] at h
      exact hn h.symm
    rw [← hc] at hpe
    rw [callsBeforeRequest_resumed hl hpe, callsBeforeRequest_executeToolCalls hp hf hpe, hc] at h
    split at h
    next had =>
      have hs : calls.length ≤ assistant.toolCalls.length := by
        rw [hre]
        exact length_filter_le _ _
      have hle := congrArg List.length h
      rw [length_take] at hle
      have hsa : calls = assistant.toolCalls := by
        rw [← h, take_of_length_le (by omega)]
      rw [hsa] at had hle
      exact ⟨rfl, hl, ho ▸ ha.mp hsa, ho ▸ had, ho ▸ length_executions_iff.mp (by omega)⟩
    · exact absurd h.symm hn
  · rintro (hni | h)
    · exact absurd hni hn
    · have hsa := ha.mpr (ho ▸ h.fresh)
      rw [← hc] at hsa
      have hpe := fun he => hn (hsa.symm.trans he)
      rw [callsBeforeRequest_resumed h.limit hpe,
        callsBeforeRequest_executeToolCalls hp hf hpe, hsa,
        if_pos (ho ▸ h.admitted)]
      exact take_of_length_le (length_executions_iff.mpr (ho ▸ h.unfinished))

end

/-- For every checkpoint of every run: the resumed execution makes exactly the outstanding calls
before its first request, if and only if there are none or all of them can be made up for. -/
theorem outstanding_calls_resumed_iff (r : LoopRunner) (task : String) {tools : Tools}
    {resumePhase phase : String} {first conversation : Conversation} {maxIterations : Int}
    {envs : List IterationEnv}
    (hcheckpoint : checkpoint phase conversation ∈
      (r.runLoop tools maxIterations envs (r.start task resumePhase first)).1)
    {env : IterationEnv} {provided : State} (hprovided : env.beforeTools = some provided)
    (hfresh : HoldsNoInternal provided) (later : List IterationEnv) :
    callsBeforeRequest (r.runLoop tools (r.effectiveMaxIterations conversation) (env :: later)
        (r.start task phase conversation)).1 = outstandingCalls conversation.messages ↔
      outstandingCalls conversation.messages = [] ∨ Resumable r tools env phase conversation := by
  have hw := checkpoint_mem_runLoop hcheckpoint
  have hs : Started r task conversation := started_start.of_grows hw.grows
  rw [hs.start_eq]
  rcases hw.phase with rfl | ⟨rfl, base, assistant, hm, hr⟩
  · have hp : "tool_result" ≠ agentResumePhaseToolCalls := by decide
    have hn : AgentLoop.resumedCalls ⟨conversation, "tool_result"⟩ = [] := if_neg hp
    rw [callsBeforeRequest_asked hn]
    constructor
    · intro h
      exact .inl h.symm
    · rintro (h | h)
      · exact h.symm
      · exact absurd h.phase hp
  · exact callsBeforeRequest_toolCalls hprovided hfresh hm hr

/-- The model calls a tool twice. -/
def twoCalls : ModelResponse :=
  { choices := [some { toolCalls := [⟨"call-1", "function", some ⟨"read", "{}"⟩⟩,
      ⟨"call-2", "function", some ⟨"read", "{}"⟩⟩] }] }

/-- The first round with two calls, and what the checkpoint after the first result holds. -/
theorem twoCalls_checkpoints : ∃ answered replied, checkpoint agentResumePhaseToolCalls answered ∈
        ((plainAgent {}).runLoop readAndDelete 8 [plainRound twoCalls]
          ((plainAgent {}).start "" "" askedConversation)).1 ∧
      checkpoint "tool_result" replied ∈
        ((plainAgent {}).runLoop readAndDelete 8 [plainRound twoCalls]
          ((plainAgent {}).start "" "" askedConversation)).1 ∧
      answered.iterationCount < (plainAgent {}).effectiveMaxIterations answered ∧
      completedIDs answered.messages = [] ∧
      outstandingCalls replied.messages =
        [⟨"call-2", "function", some ⟨"read", "{}"⟩⟩] := by
  obtain ⟨phase, -, hr⟩ := @iterate_plainRound (plainAgent {}) readAndDelete 8 twoCalls _
    (by decide) rfl (by decide) (by decide) (by decide) rfl ⟨askedConversation, ""⟩ _ (by decide)
    rfl rfl (by decide) rfl rfl rfl
  have hs : (plainAgent {}).start "" "" askedConversation = ⟨askedConversation, ""⟩ := rfl
  rw [hs, runLoop_cons hr]
  refine ⟨_, _, mem_append_left _ (.tail _ (.tail _ (.head _))), mem_append_left _
    (.tail _ (.tail _ (.tail _ (.tail _ (.tail _ (.head _)))))), by decide, rfl, rfl⟩

/-- Resumed after the answer, both calls are executed. -/
theorem answered_calls_resumed : ∃ conversation, checkpoint agentResumePhaseToolCalls conversation ∈
        ((plainAgent {}).runLoop readAndDelete 8 [plainRound twoCalls]
          ((plainAgent {}).start "" "" askedConversation)).1 ∧
      callsBeforeRequest ((plainAgent {}).runLoop readAndDelete
        ((plainAgent {}).effectiveMaxIterations conversation) [plainRound twoCalls]
        ((plainAgent {}).start "" agentResumePhaseToolCalls conversation)).1 =
          outstandingCalls conversation.messages := by
  obtain ⟨conversation, -, ha, -, hc, hco, -⟩ := twoCalls_checkpoints
  refine ⟨conversation, ha, (outstanding_calls_resumed_iff (plainAgent {}) "" ha rfl
    holdsNoInternal_newState []).mpr (.inr ⟨rfl, hc, ?_, .inl (by decide), ?_⟩)⟩
  · intro call _ _
    rw [hco]
    exact not_mem_nil
  · intro hr
    cases hr

/-- Interrupted after the first result: the second call is outstanding, and the resumed execution
makes no call before its next request. -/
theorem outstanding_call_lost :
    ∃ conversation, checkpoint "tool_result" conversation ∈
        ((plainAgent {}).runLoop readAndDelete 8 [plainRound twoCalls]
          ((plainAgent {}).start "" "" askedConversation)).1 ∧
      outstandingCalls conversation.messages = [⟨"call-2", "function", some ⟨"read", "{}"⟩⟩] ∧
      ∀ envs, callsBeforeRequest ((plainAgent {}).runLoop readAndDelete
        ((plainAgent {}).effectiveMaxIterations conversation) envs
        ((plainAgent {}).start "" "tool_result" conversation)).1 = [] := by
  obtain ⟨-, conversation, -, hr, -, -, ho⟩ := twoCalls_checkpoints
  have hp : "tool_result" ≠ agentResumePhaseToolCalls := by decide
  exact ⟨conversation, hr, ho, fun envs => callsBeforeRequest_asked (if_neg hp)⟩

end WeaveFlow
