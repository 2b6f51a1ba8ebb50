import WeaveFlow.Agent.Loop

/-!
# The protocol of tool calls

A model expects that every result in its conversation answers a call of the last message of the
assistant before it, and that every call of such a message is answered by exactly one result
before the next one.  A round of the loop appends one message of the assistant, the answers to
its calls, and nothing else (`LoopRunner.answer_again`), so the protocol survives a round exactly
if it holds of this one turn.

It need not: a call without a type is left out of the message but executed and answered all the
same, the handler of a tool may return a result under an id of its own, and the ids of the calls
are taken as the model gives them.  `OrderlyCalls` says that nothing of this happens.
-/

namespace WeaveFlow

open LoopRunner AgentEvent MessageContent List

/-! ## The protocol -/

def nearestAssistant (messages : List MessageContent) : Option MessageContent :=
  messages.reverse.find? fun message => message.role = .ai

/-- The results up to the next message of the assistant. -/
def repliesOf (messages : List MessageContent) : List ToolResult :=
  (messages.takeWhile fun message => message.role ≠ .ai).flatMap toolResults

/-- Results answer calls of the nearest message of the assistant before them, and every call is
answered by exactly one result before the next one. -/
structure KeepsProtocol (messages : List MessageContent) : Prop where
  answers : ∀ before message after, messages = before ++ message :: after →
    ∀ result ∈ message.toolResults, ∃ assistant, nearestAssistant before = some assistant ∧
      ∃ call ∈ assistant.toolCalls, call.id = result.toolCallID
  answered : ∀ before message after, messages = before ++ message :: after →
    message.role = .ai → ∀ call ∈ message.toolCalls,
      (repliesOf after).countP (fun result => result.toolCallID = call.id) = 1

/-- The protocol for one message of the assistant and the results after it. -/
structure TurnComplete (assistant : MessageContent) (results : List ToolResult) : Prop where
  answers : ∀ result ∈ results, ∃ call ∈ assistant.toolCalls, call.id = result.toolCallID
  answered : ∀ call ∈ assistant.toolCalls,
    results.countP (fun result => result.toolCallID = call.id) = 1

/-! ## One more turn -/

section Turn

variable {base replies before after : List MessageContent} {assistant message : MessageContent}

theorem nearestAssistant_turn (hr : assistant.role = .ai)
    (hre : ∀ reply ∈ replies, reply.role ≠ .ai) :
    nearestAssistant (base ++ assistant :: replies) = some assistant := by
  have hn : replies.reverse.find? (fun message => message.role = .ai) = none := by
    rw [List.find?_eq_none]
    intro reply hrp
    simpa using hre reply (mem_reverse.mp hrp)
  rw [nearestAssistant, reverse_append, reverse_cons, append_assoc,
    List.find?_append, hn, Option.none_or, singleton_append, List.find?_cons,
    decide_eq_true hr]

theorem repliesOf_turn (hr : assistant.role = .ai) :
    repliesOf (before ++ assistant :: after) = repliesOf before := by
  rw [repliesOf, repliesOf]
  congr 1
  induction before with
  | nil =>
    rw [nil_append, takeWhile_cons, if_neg (by simp [hr])]
    rfl
  | cons message before ih => rw [cons_append, takeWhile_cons, takeWhile_cons, ih]

theorem repliesOf_all (hr : ∀ reply ∈ replies, reply.role ≠ .ai) :
    repliesOf replies = replies.flatMap toolResults := by
  rw [repliesOf, takeWhile_eq_self_iff.mpr]
  exact fun reply hre => decide_eq_true (hr reply hre)

/-- A message of a conversation stands before the last turn, begins it, or is a reply. -/
theorem turn_cases (h : base ++ assistant :: replies = before ++ message :: after) :
    (∃ rest, base = before ++ message :: rest ∧ after = rest ++ assistant :: replies) ∨
      (before = base ∧ message = assistant ∧ after = replies) ∨
      ∃ first, before = base ++ assistant :: first ∧ replies = first ++ message :: after := by
  rcases append_eq_append_iff.mp h with ⟨first, hb, hr⟩ | ⟨rest, hba, ha⟩
  · cases first with
    | nil =>
      rw [append_nil] at hb
      obtain ⟨hm, ha⟩ := List.cons.inj hr
      exact .inr (.inl ⟨hb, hm.symm, ha.symm⟩)
    | cons head first =>
      obtain ⟨rfl, hre⟩ := List.cons.inj hr
      exact .inr (.inr ⟨first, hb, hre⟩)
  · cases rest with
    | nil =>
      rw [append_nil] at hba
      obtain ⟨hm, ha⟩ := List.cons.inj ha
      exact .inr (.inl ⟨hba.symm, hm, ha⟩)
    | cons head rest =>
      obtain ⟨rfl, hr⟩ := List.cons.inj ha
      exact .inl ⟨rest, hba, hr⟩

/-- The protocol survives a turn exactly if the turn is complete. -/
theorem keepsProtocol_turn (hr : assistant.role = .ai) (hre : assistant.toolResults = [])
    (hrp : ∀ reply ∈ replies, reply.role ≠ .ai) :
    KeepsProtocol (base ++ assistant :: replies) ↔ KeepsProtocol base ∧
        TurnComplete assistant (replies.flatMap toolResults) := by
  constructor
  · intro h
    refine ⟨⟨?_, ?_⟩, ⟨?_, ?_⟩⟩
    · rintro before message after rfl
      exact h.answers before message (after ++ assistant :: replies) (append_assoc ..)
    · rintro before message after rfl hai call hc
      have ho := h.answered before message (after ++ assistant :: replies)
        (append_assoc ..) hai call hc
      rwa [repliesOf_turn hr] at ho
    · intro result hrs
      obtain ⟨reply, hrl, hin⟩ := mem_flatMap.mp hrs
      obtain ⟨first, after, rfl⟩ := append_of_mem hrl
      obtain ⟨nearest, hn, hc⟩ := h.answers (base ++ assistant :: first) reply after
        (by rw [append_assoc, cons_append]) result hin
      have hf : ∀ reply ∈ first, reply.role ≠ .ai := fun reply hm =>
        hrp reply (mem_append_left _ hm)
      rw [nearestAssistant_turn hr hf] at hn
      cases hn
      exact hc
    · intro call hc
      have ho := h.answered base assistant replies rfl hr call hc
      rwa [repliesOf_all hrp] at ho
  · rintro ⟨hb, ht⟩
    refine ⟨?_, ?_⟩
    · intro before message after h result hrs
      rcases turn_cases h with ⟨rest, hs, -⟩ | ⟨-, rfl, -⟩ | ⟨first, rfl, rfl⟩
      · exact hb.answers before message rest hs result hrs
      · rw [hre] at hrs
        cases hrs
      · have hf : ∀ reply ∈ first, reply.role ≠ .ai := fun reply hm =>
          hrp reply (mem_append_left _ hm)
        exact ⟨assistant, nearestAssistant_turn hr hf, ht.answers result
          (mem_flatMap.mpr ⟨message, mem_append_right _ mem_cons_self, hrs⟩)⟩
    · intro before message after h hai call hc
      rcases turn_cases h with ⟨rest, hs, rfl⟩ | ⟨-, rfl, rfl⟩ | ⟨first, rfl, rfl⟩
      · rw [repliesOf_turn hr]
        exact hb.answered before message rest hs hai call hc
      · rw [repliesOf_all hrp]
        exact ht.answered call hc
      · exact absurd hai (hrp message (mem_append_right _ mem_cons_self))

end Turn

/-! ## Orderly turns -/

/-- The ids under which the results of calls are appended. -/
def answeredIDs (tools : Tools) (env : IterationEnv) (calls : List ToolCall) : List String :=
  (answerToolCalls (fun index => (env.call index).tool) tools calls).map
    fun outcome => outcome.result.toolCallID

/-- All calls have a type, their ids are distinct, and the results bear these ids. -/
structure OrderlyCalls (tools : Tools) (env : IterationEnv) (calls : List ToolCall) : Prop where
  typed : ∀ call ∈ calls, call.type ≠ ""
  distinct : (calls.map ToolCall.id).Nodup
  answered : (answeredIDs tools env calls).Perm (calls.map ToolCall.id)

/-- What the model returns is answered in order. -/
def OrderlyRound (tools : Tools) (env : IterationEnv) : Prop :=
  ∀ response choice, env.generate = .ok response → response.choice = some choice →
    OrderlyCalls tools env choice.toolCalls

/-- At least as many answers as there are questions, all of them to one of these, and one for
each: no question stands there twice. -/
theorem perm_of_count_eq_one {α : Type*} [DecidableEq α] {questions answers : List α}
    (han : ∀ a ∈ answers, a ∈ questions) (ho : ∀ q ∈ questions, answers.count q = 1)
    (hl : questions.length ≤ answers.length) :
    answers.Perm questions ∧ questions.Nodup := by
  have hn : answers.Nodup := by
    rw [nodup_iff_count_le_one]
    intro a
    by_cases ha : a ∈ answers
    · exact (ho a (han a ha)).le
    · rw [count_eq_zero_of_not_mem ha]
      exact Nat.zero_le 1
  have hp : answers.Perm questions := (hn.subperm han).perm_of_length_le hl
  exact ⟨hp, hp.nodup_iff.mp hn⟩

/-- The turn in terms of ids. -/
theorem turnComplete_iff_ids : TurnComplete (assistantMessage choice calls).stored
        ((answerToolCalls (fun index => (env.call index).tool) tools calls).map
          fun outcome => outcome.result.stored) ↔
      (∀ id ∈ answeredIDs tools env calls, id ∈ (typedCalls calls).map ToolCall.id) ∧
        ∀ id ∈ (typedCalls calls).map ToolCall.id, (answeredIDs tools env calls).count id = 1 := by
  have hc : ∀ id, ((answerToolCalls (fun index => (env.call index).tool) tools calls).map
        fun outcome => outcome.result.stored).countP (fun result => result.toolCallID = id) =
      (answeredIDs tools env calls).count id := by
    intro id
    rw [answeredIDs, List.count, countP_map, countP_map]
    rfl
  have hca : (assistantMessage choice calls).stored.toolCalls =
      (typedCalls calls).map ToolCall.stored := by
    rw [toolCalls_stored, toolCalls_assistantMessage]
  constructor
  · rintro ⟨ha, han⟩
    rw [hca] at ha han
    refine ⟨?_, ?_⟩
    · intro id hid
      obtain ⟨outcome, ho, rfl⟩ := mem_map.mp hid
      obtain ⟨stored, hs, hid⟩ := ha outcome.result.stored (mem_map_of_mem ho)
      obtain ⟨call, hcl, rfl⟩ := mem_map.mp hs
      exact mem_map.mpr ⟨call, hcl, hid⟩
    · intro id hid
      obtain ⟨call, hcl, rfl⟩ := mem_map.mp hid
      rw [← hc]
      exact han call.stored (mem_map_of_mem hcl)
  · rintro ⟨ha, han⟩
    refine ⟨?_, ?_⟩ <;> rw [hca]
    · intro result hr
      obtain ⟨outcome, ho, rfl⟩ := mem_map.mp hr
      obtain ⟨call, hcl, hid⟩ := mem_map.mp (ha outcome.result.toolCallID (mem_map_of_mem ho))
      exact ⟨call.stored, mem_map_of_mem hcl, hid⟩
    · intro stored hs
      obtain ⟨call, hcl, rfl⟩ := mem_map.mp hs
      rw [hc]
      exact han call.id (mem_map_of_mem hcl)

theorem length_answeredIDs : (answeredIDs tools env calls).length = calls.length := by
  rw [answeredIDs, length_map, answerToolCalls, length_mapIdx]

/-- There are as many results as calls, so that a complete turn has no call without a type. -/
theorem turnComplete_iff : TurnComplete (assistantMessage choice calls).stored
        ((answerToolCalls (fun index => (env.call index).tool) tools calls).map
          fun outcome => outcome.result.stored) ↔ OrderlyCalls tools env calls := by
  rw [turnComplete_iff_ids]
  constructor
  · rintro ⟨ha, han⟩
    have hl : ((typedCalls calls).map ToolCall.id).length ≤
        (answeredIDs tools env calls).length := by
      rw [length_answeredIDs, length_map]
      exact length_filter_le _ _
    obtain ⟨hp, hn⟩ := perm_of_count_eq_one ha han hl
    have ht : typedCalls calls = calls := by
      refine filter_eq_self.mpr (length_filter_eq_length_iff.mp ?_)
      have hs := hp.length_eq
      rw [length_answeredIDs, length_map] at hs
      exact hs.symm
    rw [ht] at hp hn
    refine ⟨fun call hc => ?_, hn, hp⟩
    rw [← ht] at hc
    simpa using (mem_filter.mp hc).2
  · rintro ⟨ht, hd, hp⟩
    have hal : typedCalls calls = calls :=
      filter_eq_self.mpr fun call hc => decide_eq_true (ht call hc)
    rw [hal]
    refine ⟨fun id hid => hp.mem_iff.mp hid, fun id hid => ?_⟩
    rw [hp.count_eq]
    exact count_eq_one_of_mem hd hid

/-! ## Rounds and runs -/

section

variable {r : LoopRunner} {tools : Tools} {maxIterations : Int} {env : IterationEnv}
  {loop next : AgentLoop}

/-- Nothing is pending in a conversation that keeps the protocol. -/
theorem resumedCalls_eq_nil (h : KeepsProtocol loop.conversation.messages) :
    loop.resumedCalls = [] := by
  rw [AgentLoop.resumedCalls]
  split
  · rw [pendingToolCalls]
    split
    · rfl
    next last hl =>
      split
      next hr =>
        obtain ⟨before, hm⟩ := List.getLast?_eq_some_iff.mp hl
        have hn : last.toolCalls = [] := by
          rw [eq_nil_iff_forall_not_mem]
          intro call hc
          cases h.answered before last [] hm hr call hc
        rw [hn]
        rfl
      · rfl
  · rfl

theorem iterationCount_lt_of_again (h : (r.iterate tools maxIterations env loop).2 = .again next) :
    loop.conversation.iterationCount < maxIterations := by
  by_contra hl
  rw [iterate_limit (Int.not_lt.mp hl)] at h
  cases h

/-- One round: what it appends is one turn. -/
theorem keepsProtocol_iterate (hs : KeepsProtocol loop.conversation.messages)
    (h : (r.iterate tools maxIterations env loop).2 = .again next) :
    KeepsProtocol next.conversation.messages ↔ OrderlyRound tools env := by
  obtain ⟨phase, -, hr⟩ := @iterate_asked r tools maxIterations env loop
    (iterationCount_lt_of_again h) (resumedCalls_eq_nil hs)
  rw [hr] at h
  split at h
  · cases h
  next choice hc =>
    obtain ⟨response, hg, hre⟩ := requestModel_eq_ok hc
    obtain ⟨replies, hm, hrp, hrs⟩ := messages_of_answer h
    have hn : (assistantMessage choice choice.toolCalls).stored.toolResults = [] := by
      rw [toolResults_stored, toolResults_assistantMessage, map_nil]
    rw [hm, keepsProtocol_turn rfl hn hrp, hrs, turnComplete_iff]
    constructor
    · rintro ⟨-, ho⟩ returned taken hrt ht
      obtain rfl := Except.ok.inj (hg.symm.trans hrt)
      obtain rfl := Option.some.inj (hre.symm.trans ht)
      exact ho
    · intro ho
      exact ⟨hs, ho response choice hg hre⟩

/-- A request carries the conversation that the round began with. -/
theorem request_mem_iterate (h : request messages ∈ (r.iterate tools maxIterations env loop).1) :
    messages = loop.conversation.messages := by
  rcases mem_iterate h with he | ⟨_, he⟩ | ⟨_, _, h⟩ | h
  · exact request.inj he
  · cases he
  · exact absurd h request_notMem_answer
  · exact absurd h request_notMem_executeToolCalls

theorem keepsProtocol_request (hs : KeepsProtocol loop.conversation.messages)
    (ho : ∀ env ∈ envs, OrderlyRound tools env)
    (h : request messages ∈ (r.runLoop tools maxIterations envs loop).1) :
    KeepsProtocol messages := by
  induction envs generalizing loop with
  | nil => cases h
  | cons env envs ih =>
    obtain ⟨hf, hr⟩ := forall_mem_cons.mp ho
    have hro : request messages ∈ (r.iterate tools maxIterations env loop).1 →
        KeepsProtocol messages := fun hm => request_mem_iterate hm ▸ hs
    rw [runLoop] at h
    split at h
    · exact hro h
    next next hn =>
      rcases mem_append.mp h with h | h
      · exact hro h
      · exact ih ((keepsProtocol_iterate hs hn).mpr hf) hr h

/-- A round from a conversation that keeps the protocol keeps it exactly if the round is
orderly, and every request of a run of orderly rounds carries a conversation that keeps it. -/
theorem tool_protocol_kept_iff_orderly (r : LoopRunner) (tools : Tools) (maxIterations : Int)
    (loop : AgentLoop) (hstart : KeepsProtocol loop.conversation.messages) :
    (∀ env next, (r.iterate tools maxIterations env loop).2 = .again next →
      (KeepsProtocol next.conversation.messages ↔ OrderlyRound tools env)) ∧
    ∀ envs, (∀ env ∈ envs, OrderlyRound tools env) → ∀ messages,
      request messages ∈ (r.runLoop tools maxIterations envs loop).1 → KeepsProtocol messages := by
  refine ⟨fun env next h => keepsProtocol_iterate hstart h, ?_⟩
  intro envs ho messages h
  exact keepsProtocol_request hstart ho h

theorem keepsProtocol_asked : KeepsProtocol askedConversation.messages := by
  have hs : ∀ before message after, askedConversation.messages = before ++ message :: after →
      message = textParts .human "?" := by
    intro before message after h
    have hm : message ∈ askedConversation.messages := by
      rw [h]
      exact mem_append_right _ mem_cons_self
    exact mem_singleton.mp hm
  refine ⟨?_, ?_⟩
  · intro before message after h result hr
    rw [hs before message after h] at hr
    cases hr
  · intro before message after h hro
    rw [hs before message after h] at hro
    cases hro

/-- The model calls a tool and then answers: both requests keep the protocol. -/
theorem called_tool_kept :
    let envs := [plainRound (callingResponse "read"),
      plainRound { choices := [some { content := "done" }] }]
    let events := ((plainAgent {}).runLoop readAndDelete 8 envs ⟨askedConversation, ""⟩).1
    ∀ messages, request messages ∈ events → KeepsProtocol messages := by
  intro envs events
  refine (tool_protocol_kept_iff_orderly (plainAgent {}) readAndDelete 8 ⟨askedConversation, ""⟩
    keepsProtocol_asked).2 envs ?_
  rw [forall_mem_cons, forall_mem_singleton]
  constructor
  all_goals
    rintro response choice hr hc
    cases hr
    cases hc
    exact ⟨by decide, by decide, by decide⟩

/-- A tool is called without a type. -/
def untypedResponse : ModelResponse :=
  { choices := [some { toolCalls := [⟨"call-1", "", some ⟨"read", "{}"⟩⟩] }] }

/-- The model calls a tool without a type: the second request carries a result without a call. -/
theorem untyped_call_answered : ∃ messages, request messages ∈
        ((plainAgent {}).runLoop readAndDelete 8
          [plainRound untypedResponse, plainRound untypedResponse] ⟨askedConversation, ""⟩).1 ∧
      KeepsProtocol askedConversation.messages ∧ ¬ KeepsProtocol messages := by
  obtain ⟨phase, hp, hr⟩ := @iterate_plainRound (plainAgent {}) readAndDelete 8
    untypedResponse _ (by decide) rfl (by decide) (by decide) (by decide) rfl
    ⟨askedConversation, ""⟩ _ (by decide) rfl rfl (by decide) rfl rfl rfl
  generalize hn : AgentLoop.mk (executeAdmitted (plainAgent {}) readAndDelete
    (plainRound untypedResponse) (LoopRunner.asked askedConversation _) _).conversation phase = next
    at hr
  have hc : next.conversation.iterationCount = 1 := by
    rw [← hn]
    rfl
  obtain ⟨_, -, hs⟩ := @iterate_plainRound (plainAgent {}) readAndDelete 8
    untypedResponse _ (by decide) rfl (by decide) (by decide) (by decide) rfl next _
    (hc ▸ by decide) (by rw [AgentLoop.resumedCalls, ← hn, if_neg hp]) (hn ▸ rfl) (by decide) rfl
    (hn ▸ rfl) (hn ▸ rfl)
  refine ⟨next.conversation.messages, ?_, keepsProtocol_asked, ?_⟩
  · rw [runLoop_cons hr, runLoop_cons hs]
    exact mem_append_right _ mem_cons_self
  · refine (keepsProtocol_iterate keepsProtocol_asked (congrArg Prod.snd hr)).not.mpr ?_
    intro ho
    exact (ho _ _ rfl rfl).typed _ mem_cons_self rfl

end

end WeaveFlow
