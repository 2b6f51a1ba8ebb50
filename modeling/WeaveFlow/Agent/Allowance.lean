import WeaveFlow.Agent.Outstanding

/-!
# The budget of an agent over a whole execution

`ConsumeAgentBudget` loads the budget from the state that the context provides, adds a use,
compares with the limits and stores the sum.  An agent node provides working copies that hold
nothing under the internal section, and what is stored in one copy is not in the next, so that
every use is compared by itself (`consumeAgentBudget_fresh`): a single batch of tool calls or a
single response, never their sum.

The limits hold over an execution as long as there is at most one request, and with a final
answer that is there from before, which ends the loop at the first batch, as long as there are at
most two.  As soon as the limit of the iterations leaves room for two, there are responses of the
model with which an execution without such an answer exceeds them.
-/

namespace WeaveFlow

open LoopRunner hiding config
open List

/-! ## What is used up -/

/-- An execution of a tool call. -/
def AgentEvent.isExecuted : AgentEvent → Bool
  | .executed _ _ => true
  | _ => false

/-- The number of tool calls that were executed. -/
def executedCount (events : List AgentEvent) : Nat := events.countP AgentEvent.isExecuted

def AgentEvent.tokens : AgentEvent → Int
  | .responded totalTokens => totalTokens
  | _ => 0

/-- The sum of the tokens that were reported. -/
def reportedTokens (events : List AgentEvent) : Int := (events.map AgentEvent.tokens).sum

/-- No more tool calls than allowed, and no request once the tokens are used up. -/
structure WithinAllowance (config : AgentConfig) (events : List AgentEvent) : Prop where
  toolCalls : (executedCount events : Int) ≤ config.maxToolCalls
  tokens : ∀ before messages after, events = before ++ .request messages :: after →
    reportedTokens before ≤ config.maxTokens

/-- The states that the context of an agent node hands out. -/
structure AgentProvides (env : IterationEnv) : Prop where
  beforeRequest : ∃ provided, env.beforeRequest = some provided ∧ HoldsNoInternal provided
  afterResponse : ∃ provided, env.afterResponse = some provided ∧ HoldsNoInternal provided
  beforeTools : ∃ provided, env.beforeTools = some provided ∧ HoldsNoInternal provided

@[simp] theorem executedCount_append :
    executedCount (events ++ rest) = executedCount events + executedCount rest :=
  countP_append

theorem executedCount_eq_zero (h : ∀ event ∈ events, event.isExecuted = false) :
    executedCount events = 0 := by
  rw [executedCount, countP_eq_zero]
  intro event he
  rw [h event he]
  exact Bool.false_ne_true

theorem executedCount_executedEvents :
    executedCount (executedEvents calls outcomes) = min calls.length outcomes.length := by
  have ha : ∀ event ∈ executedEvents calls outcomes, event.isExecuted = true := by
    intro event he
    obtain ⟨_, -, _, -, rfl⟩ := mem_executedEvents he
    rfl
  rw [executedCount, countP_eq_length.mpr ha, executedEvents, length_zipWith]

theorem executedCount_checkpoints (written : List Conversation) :
    executedCount (written.map (AgentEvent.checkpoint phase)) = 0 := by
  refine executedCount_eq_zero fun event he => ?_
  obtain ⟨_, -, rfl⟩ := mem_map.mp he
  rfl

/-! ## One request -/

section

variable {r : LoopRunner} {tools : Tools} {maxIterations : Int} {env : IterationEnv}
  {loop next : AgentLoop}

/-- A batch by itself is within the limit. -/
theorem executedCount_executeToolCalls (hl : 0 < r.config.maxToolCalls) (hp : AgentProvides env) :
    (executedCount (r.executeToolCalls tools env conversation calls).events : Int) ≤
      r.config.maxToolCalls := by
  obtain ⟨provided, hpr, hf⟩ := hp.beforeTools
  rw [executeToolCalls, hpr]
  split
  · exact hl.le
  · split
    · exact hl.le
    next consumed hc =>
      have hco := (toolCalls_admitted_iff hf).mp ⟨consumed, hc⟩
      rw [executeAdmitted]
      rw [executedCount_append, executedCount_executedEvents, executedCount_checkpoints]
      omega

/-- Nothing, or one request before everything else. -/
def OneRequest (events : List AgentEvent) : Prop :=
  events = [] ∨ ∃ messages rest, events = .request messages :: rest ∧
    ∀ event ∈ rest, ∀ messages, event ≠ .request messages

/-- A request after no more tokens than allowed. -/
theorem OneRequest.after (h : OneRequest events)
    (hr : ∀ event ∈ first, ∀ messages, event ≠ .request messages)
    (he : (executedCount (first ++ events) : Int) ≤ config.maxToolCalls)
    (ht : reportedTokens first ≤ config.maxTokens) : WithinAllowance config (first ++ events) := by
  refine ⟨he, fun before again after hs => ?_⟩
  rcases h with rfl | ⟨messages, rest, rfl, hn⟩
  · rw [append_nil] at hs
    exact absurd rfl (hr (.request again) (hs ▸ mem_append_right _ mem_cons_self) again)
  · -- the request is the only one
    rcases append_eq_append_iff.mp hs with ⟨more, rfl, hm⟩ | ⟨more, rfl, hm⟩
    · cases more with
      | nil => rwa [append_nil]
      | cons event more =>
        obtain ⟨-, hre⟩ := List.cons.inj hm
        refine absurd rfl (hn (.request again) ?_ again)
        rw [hre]
        exact mem_append_right _ mem_cons_self
    · cases more with
      | nil => rwa [append_nil] at ht
      | cons event more =>
        obtain ⟨rfl, -⟩ := List.cons.inj hm
        exact absurd rfl (hr _ (mem_append_right _ mem_cons_self) again)

theorem OneRequest.within (h : OneRequest events)
    (he : (executedCount events : Int) ≤ config.maxToolCalls) (ht : 0 < config.maxTokens) :
    WithinAllowance config events := by
  rw [← nil_append events] at he ⊢
  exact h.after nofun he ht.le

theorem WithinAllowance.cons_request (h : WithinAllowance config events)
    (ht : 0 < config.maxTokens) : WithinAllowance config (.request messages :: events) := by
  refine ⟨h.toolCalls, fun before again after hs => ?_⟩
  cases before with
  | nil => exact ht.le
  | cons event before =>
    obtain ⟨rfl, hrest⟩ := List.cons.inj hs
    have hb := h.tokens before again after hrest
    simpa [reportedTokens, AgentEvent.tokens] using hb

theorem withinAllowance_nil (h : 0 < config.maxToolCalls) : WithinAllowance config [] :=
  ⟨h.le, fun before _ _ hs => by cases before <;> cases hs⟩

/-- An answer executes at most as many calls as allowed. -/
theorem executedCount_answer (hc : 0 < r.config.maxToolCalls) (hp : AgentProvides env)
    (conversation : Conversation) (resumePhase : String) (choice : ModelChoice) :
    (executedCount (r.answer tools env conversation resumePhase choice).1 : Int) ≤
      r.config.maxToolCalls := by
  rw [answer]
  split
  · exact hc.le
  · split
    · exact hc.le
    · exact executedCount_executeToolCalls hc hp

/-- A round makes at most one request, before everything else, and executes at most as many calls
as allowed. -/
theorem oneRequest_iterate (hc : 0 < r.config.maxToolCalls) (hp : AgentProvides env)
    (hr : loop.resumedCalls = []) :
    OneRequest (r.iterate tools maxIterations env loop).1 ∧
      (executedCount (r.iterate tools maxIterations env loop).1 : Int) ≤ r.config.maxToolCalls := by
  by_cases hl : loop.conversation.iterationCount < maxIterations
  · obtain ⟨phase, -, hro⟩ := @iterate_asked r tools maxIterations env loop hl hr
    rw [hro]
    rcases @requestModel_events r tools maxIterations env loop.conversation with
      ⟨hn, e, he⟩ | ⟨rest, hs, hre⟩
    · rw [hn, he]
      exact ⟨.inl rfl, hc.le⟩
    · have hno : ∀ event ∈ rest, ∀ messages, event ≠ .request messages := by
        rintro event hev messages rfl
        obtain ⟨_, h⟩ := hre _ hev
        cases h
      have hz : executedCount (.request loop.conversation.messages :: rest) = 0 := by
        refine executedCount_eq_zero fun event hev => ?_
        rcases mem_cons.mp hev with rfl | hev
        · rfl
        · obtain ⟨_, rfl⟩ := hre event hev
          rfl
      rw [hs]
      split
      · exact ⟨.inr ⟨_, rest, rfl, hno⟩, by rw [hz]; exact hc.le⟩
      next choice _ =>
        refine ⟨.inr ⟨_, _, cons_append, ?_⟩, ?_⟩
        · rintro event hev messages rfl
          rcases mem_append.mp hev with hev | hev
          · exact hno _ hev messages rfl
          · exact request_notMem_answer hev
        · rw [executedCount_append, hz, Nat.zero_add]
          exact executedCount_answer hc hp _ _ _
  · rw [iterate_limit (Int.not_lt.mp hl)]
    exact ⟨.inl rfl, hc.le⟩

/-- A request is counted. -/
theorem iterationCount_iterate (hr : loop.resumedCalls = [])
    (h : (r.iterate tools maxIterations env loop).2 = .again next) :
    loop.conversation.iterationCount + 1 ≤ next.conversation.iterationCount := by
  obtain ⟨phase, -, hro⟩ := @iterate_asked r tools maxIterations env loop
    (iterationCount_lt_of_again h) hr
  rw [hro] at h
  split at h
  · cases h
  next choice _ =>
    rw [iterationCount_answer h, iterationCount_asked]
    omega

/-- Nothing happens once the limit of the iterations is reached. -/
theorem runLoop_limit (hl : maxIterations ≤ loop.conversation.iterationCount) :
    (r.runLoop tools maxIterations envs loop).1 = [] := by
  cases envs with
  | nil => rfl
  | cons env envs => rw [runLoop, iterate_limit hl]

/-- A run with room for one request. -/
theorem oneRequest_runLoop (hc : 0 < r.config.maxToolCalls) (hp : ∀ env ∈ envs, AgentProvides env)
    (hr : loop.resumedCalls = []) (hro : maxIterations ≤ loop.conversation.iterationCount + 1) :
    OneRequest (r.runLoop tools maxIterations envs loop).1 ∧
      (executedCount (r.runLoop tools maxIterations envs loop).1 : Int) ≤
        r.config.maxToolCalls := by
  cases envs with
  | nil => exact ⟨.inl rfl, hc.le⟩
  | cons env envs =>
    have hru := @oneRequest_iterate r tools maxIterations env loop hc (hp env mem_cons_self) hr
    rw [runLoop]
    dsimp only
    split
    · exact hru
    next next hn =>
      have hre : maxIterations ≤ next.conversation.iterationCount :=
        hro.trans (iterationCount_iterate hr hn)
      rw [runLoop_limit hre, append_nil]
      exact hru

/-- A request with a choice is valid, and its tokens are within the limit by themselves. -/
theorem requestModel_within (hp : AgentProvides env) (ht : 0 < r.config.maxTokens)
    (h : (r.requestModel tools maxIterations env conversation).2 = .ok choice) :
    validateModelRequest r.engine r.format conversation.messages tools = .ok () ∧
      ∃ totalTokens ≤ r.config.maxTokens, (r.requestModel tools maxIterations env conversation).1 =
        [.request conversation.messages, .responded totalTokens] := by
  obtain ⟨provided, hpr, hf⟩ := hp.afterResponse
  rw [requestModel] at h ⊢
  split at h
  · cases h
  · split at h
    · cases h
    next response hg =>
      split at h
      · cases h
      next taken hta =>
        refine ⟨(Outcome.of_bind hg).elim fun _ hv => hv.1, response.usage.totalTokens, ?_, rfl⟩
        split at h
        · cases h
        next consumed hco =>
          rw [hpr] at hco
          have hw := ((consumeAgentBudget_fresh hf).mp ⟨consumed, hco⟩).2.tokens
          simpa [AgentBudget.add, budgetLimits, Int.not_le.mpr ht] using hw

/-- A final answer that is there from before stays there, or another one takes its place. -/
theorem stale_executeToolCalls (hs : trimSpace conversation.finalAnswer ≠ "") :
    trimSpace (r.executeToolCalls tools env conversation calls).conversation.finalAnswer ≠ "" := by
  rcases @executeToolCalls_cases r tools env conversation calls with ⟨error, hn, -⟩ | ha
  · rw [hn]
    exact hs
  · rw [ha, executeAdmitted]
    split
    · rw [collectAll_keeps.finalAnswer]
      exact hs
    next hne =>
      change trimSpace (r.collectAll env _ 0 _).finalAnswer ≠ ""
      rwa [trimSpace_collectAll rfl]

end

/-! ## Two requests -/

/-- A call without the name of a tool: it is answered by an error that does not end the loop. -/
def namelessCall : ToolCall := ⟨"", "function", some ⟨"", ""⟩⟩

/-- The model makes this call, a number of times. -/
def namelessCalls (count : Nat) : ModelResponse :=
  { choices := [some { toolCalls := replicate count namelessCall }] }

/-- What the call comes to. -/
def namelessOutcome : ToolOutcome := answerToolCall plainToolEnv .empty namelessCall

section

variable {r : LoopRunner} {tools : Tools} {maxIterations : Int} {loop : AgentLoop}
  {conversation : Conversation} {count : Nat}

theorem finalAnswer_nameless : namelessOutcome.finalAnswer = "" := rfl

theorem executions_nameless :
    r.executions tools (plainRound response) (replicate count namelessCall) =
      replicate count namelessOutcome := by
  have ha : answerToolCalls (fun index => ((plainRound response).call index).tool) tools
      (replicate count namelessCall) = replicate count namelessOutcome := by
    rw [answerToolCalls, eq_replicate_iff]
    refine ⟨by rw [length_mapIdx, length_replicate], fun outcome ho => ?_⟩
    obtain ⟨index, hi, rfl⟩ := mem_mapIdx.mp ho
    rw [getElem_replicate]
    rfl
  have hu : untilFinal (replicate count namelessOutcome) = replicate count namelessOutcome := by
    clear ha
    induction count with
    | zero => rfl
    | succ count ih => rw [replicate_succ, untilFinal, if_pos finalAnswer_nameless, ih]
  rw [executions, ha]
  split
  · exact hu
  · rfl

/-- The results are appended without an error and without a final answer. -/
theorem collectAll_nameless (response : ModelResponse) {batch : ToolBatch} {index : Nat}
    (hc : batch.completionErrors = []) (he : batch.executionErrors = [])
    (ha : batch.finalAnswer = "") :
    let collected := r.collectAll (plainRound response) batch index
      (replicate count namelessOutcome)
    collected.completionErrors = [] ∧ collected.executionErrors = [] ∧
      collected.finalAnswer = "" := by
  induction count generalizing batch index with
  | zero => exact ⟨hc, he, ha⟩
  | succ count ih =>
    have hf : r.finishErrors { tool := plainToolEnv } namelessOutcome = ([], []) := rfl
    have ho : r.collect batch ((plainRound response).call index) namelessOutcome = { batch with
          conversation := batch.conversation.append [toolMessage namelessOutcome.result]
          checkpoints := batch.checkpoints ++
            [batch.conversation.append [toolMessage namelessOutcome.result]] } := by
      rw [collect]
      simp [hf, finalAnswer_nameless, plainRound]
    rw [replicate_succ, collectAll, ho]
    exact ih hc he ha

/-- A batch of these calls. -/
theorem executeAdmitted_nameless (response : ModelResponse) :
    let result := r.executeAdmitted tools (plainRound response) conversation
      (replicate count namelessCall)
    result.error = none ∧ result.conversation.finalAnswer = conversation.finalAnswer ∧
      executedCount result.events = count := by
  obtain ⟨hc, he, ha⟩ := @collectAll_nameless r count response
    ⟨conversation, [], [], "", []⟩ 0 rfl rfl rfl
  obtain ⟨-, hf, -⟩ := @collectAll_keeps r (plainRound response)
    ⟨conversation, [], [], "", []⟩ 0 (replicate count namelessOutcome)
  rw [executeAdmitted, executions_nameless]
  refine ⟨?_, ?_, ?_⟩
  · rw [hc, he]
    simp
  · rw [ha, if_pos rfl]
    exact hf
  · rw [executedCount_append, executedCount_executedEvents, executedCount_checkpoints,
      length_replicate, length_replicate, Nat.min_self, Nat.add_zero]

/-- Whether a request is valid depends on its messages only by their being there. -/
theorem validateModelRequest_messages {engine : SchemaEngine} {format : OutputFormat}
    {messages more : List MessageContent}
    (h : validateModelRequest engine format messages tools = .ok ()) (hm : more ≠ []) :
    validateModelRequest engine format more tools = .ok () := by
  obtain ⟨_, -, h⟩ := Outcome.of_bind h
  refine Outcome.bind_eq_ok.mpr ⟨(), requireText_eq_ok.mpr ?_, h⟩
  simpa using hm

/-- A loop that can make another request. -/
structure Asking (r : LoopRunner) (tools : Tools) (maxIterations : Int) (loop : AgentLoop) :
    Prop where
  room : loop.conversation.iterationCount < maxIterations
  resumed : loop.resumedCalls = []
  valid : validateModelRequest r.engine r.format loop.conversation.messages tools = .ok ()
  unanswered : trimSpace loop.conversation.finalAnswer = ""

section

variable (hl : Asking r tools maxIterations loop) (hm : 0 < maxIterations)
  (ht : 0 < r.config.maxTokens)

include hl hm ht

/-- A round without errors and without a final answer leaves a loop that can go on asking. -/
theorem Asking.iterate_eq (calls : List ToolCall) (hc : calls ≠ [])
    (ha : (calls.length : Int) ≤ r.config.maxToolCalls)
    (hd : ∀ conversation, (r.executeAdmitted tools
      (plainRound { choices := [some { toolCalls := calls }] }) conversation calls).error = none ∧
      (r.executeAdmitted tools (plainRound { choices := [some { toolCalls := calls }] }) conversation
        calls).conversation.finalAnswer = conversation.finalAnswer) :
    ∃ first second third next,
      r.iterate tools maxIterations (plainRound { choices := [some { toolCalls := calls }] }) loop =
        ([.request first, .responded second, .checkpoint agentResumePhaseToolCalls third] ++
          (r.executeAdmitted tools (plainRound { choices := [some { toolCalls := calls }] }) third
            calls).events, .again next) ∧
      (loop.conversation.iterationCount + 1 < maxIterations →
        Asking r tools maxIterations next) := by
  obtain ⟨he, hf⟩ := hd (asked loop.conversation { toolCalls := calls })
  have hb := hl.unanswered
  have hn : 0 ≤ (ModelUsage.normalized {}).totalTokens := by decide
  obtain ⟨hg, hco⟩ := @executeAdmitted_keeps r tools
    (plainRound { choices := [some { toolCalls := calls }] })
    (asked loop.conversation { toolCalls := calls }) calls
  obtain ⟨phase, hp, hr⟩ := @iterate_plainRound r tools maxIterations
    { choices := [some { toolCalls := calls }] } { toolCalls := calls } hm rfl hc hn (.inr ht.le)
    rfl loop _ hl.room hl.resumed hl.valid (.inr ha) rfl he (hf ▸ hb)
  refine ⟨_, _, _, _, hr, fun hro => ⟨?_, if_neg hp, ?_, hf ▸ hb⟩⟩
  · rw [hco, iterationCount_asked]
    split
    · exact hm
    · exact hro
  · refine validateModelRequest_messages hl.valid fun hno => ?_
    have hme := hg.messages
    rw [messages_asked, hno, prefix_nil] at hme
    exact absurd hme (by simp)

/-- A round in which the model makes nameless calls, as many as allowed at once. -/
theorem iterate_nameless (hc : count ≠ 0) (ha : (count : Int) ≤ r.config.maxToolCalls) :
    ∃ events next, r.iterate tools maxIterations (plainRound (namelessCalls count)) loop =
        (events, .again next) ∧
      executedCount events = count ∧
      (loop.conversation.iterationCount + 1 < maxIterations →
        Asking r tools maxIterations next) := by
  have hca : replicate count namelessCall ≠ [] := by
    rw [Ne, replicate_eq_nil_iff]
    exact hc
  rw [← length_replicate (n := count) (a := namelessCall)] at ha
  obtain ⟨_, _, asked, next, hr, hn⟩ := hl.iterate_eq hm ht _ hca ha fun conversation =>
      have hb := @executeAdmitted_nameless r tools conversation count (namelessCalls count)
      ⟨hb.1, hb.2.1⟩
  obtain ⟨-, -, he⟩ := @executeAdmitted_nameless r tools asked count (namelessCalls count)
  exact ⟨_, next, hr, he, hn⟩

/-- As many calls as allowed at once, and one more. -/
theorem executedCount_nameless (hr : loop.conversation.iterationCount + 1 < maxIterations)
    (hc : count ≠ 0) (ha : (count : Int) ≤ r.config.maxToolCalls) :
    count + 1 ≤ executedCount (r.runLoop tools maxIterations
      [plainRound (namelessCalls count), plainRound (namelessCalls 1)] loop).1 := by
  obtain ⟨events, next, hro, hf, hn⟩ := iterate_nameless hl hm ht hc ha
  obtain ⟨more, last, hmo, hs, -⟩ := @iterate_nameless r tools maxIterations next 1 (hn hr) hm ht
    Nat.one_ne_zero (by omega)
  rw [runLoop_cons hro, runLoop_cons hmo]
  rw [executedCount_append, executedCount_append, hf, hs]
  exact Nat.add_le_add_left (Nat.le_add_right _ _) _

end

theorem agentProvides_plainRound : AgentProvides (plainRound response) :=
  ⟨⟨_, rfl, holdsNoInternal_newState⟩, ⟨_, rfl, holdsNoInternal_newState⟩,
    ⟨_, rfl, holdsNoInternal_newState⟩⟩

end

section

variable {r : LoopRunner} {tools : Tools} {loop : AgentLoop} {maxIterations : Int}

/-- An invalid request ends the loop. -/
theorem runLoop_invalid (hr : loop.resumedCalls = [])
    (hv : validateModelRequest r.engine r.format loop.conversation.messages tools ≠ .ok ()) :
    (r.runLoop tools maxIterations envs loop).1 = [] ∨
      (r.runLoop tools maxIterations envs loop).1 = [.request loop.conversation.messages] := by
  cases envs with
  | nil => exact .inl rfl
  | cons env envs =>
    by_cases hl : loop.conversation.iterationCount < maxIterations
    · obtain ⟨phase, -, hro⟩ := @iterate_asked r tools maxIterations env loop hl hr
      have hg : ∃ e, generateModel r.engine r.format loop.conversation.messages tools env.generate =
          .error e := by
        rw [generateModel]
        cases h : validateModelRequest r.engine r.format loop.conversation.messages tools with
        | error e => exact ⟨e, rfl⟩
        | ok u => exact absurd h hv
      obtain ⟨e, hg⟩ := hg
      have hq : ∃ e, (r.requestModel tools maxIterations env loop.conversation).2 = .error e ∧
          ((r.requestModel tools maxIterations env loop.conversation).1 = [] ∨
            (r.requestModel tools maxIterations env loop.conversation).1 =
              [.request loop.conversation.messages]) := by
        rw [requestModel]
        split
        · exact ⟨_, rfl, .inl rfl⟩
        · rw [hg]
          exact ⟨_, rfl, .inr rfl⟩
      obtain ⟨e, he, hev⟩ := hq
      rw [runLoop, hro, he]
      exact hev
    · exact .inl (runLoop_limit (Int.not_lt.mp hl))

/-- A final answer that is there from before ends the loop at the first batch. -/
theorem withinAllowance_stale (hc : 0 < r.config.maxToolCalls) (ht : 0 < r.config.maxTokens)
    (hp : ∀ env ∈ envs, AgentProvides env) (hr : loop.resumedCalls = [])
    (hs : trimSpace loop.conversation.finalAnswer ≠ "")
    (hro : maxIterations ≤ loop.conversation.iterationCount + 2) :
    WithinAllowance r.config (r.runLoop tools maxIterations envs loop).1 := by
  cases envs with
  | nil => exact withinAllowance_nil hc
  | cons env envs =>
    obtain ⟨hpe, hpr⟩ := forall_mem_cons.mp hp
    obtain ⟨hone, hex⟩ := @oneRequest_iterate r tools maxIterations env loop hc hpe hr
    rw [runLoop]
    dsimp only
    split
    · exact hone.within hex ht
    next next hn =>
      have hcount := iterationCount_iterate hr hn
      obtain ⟨phase, hph, hit⟩ := @iterate_asked r tools maxIterations env loop
        (iterationCount_lt_of_again hn) hr
      rw [hit] at hn ⊢
      split at hn
      · cases hn
      next choice hch =>
        obtain ⟨-, totalTokens, hle, hev⟩ := requestModel_within hpe ht hch
        rcases answer_again hn with ⟨hno, prompt, rfl⟩ | ⟨-, hb, -⟩
        · obtain ⟨hr₂, hx⟩ := @oneRequest_runLoop r tools maxIterations
            ⟨(asked loop.conversation choice).append [textParts .human prompt], phase⟩ envs hc hpr
            (if_neg hph) (by omega)
          have ha : (r.answer tools env loop.conversation phase choice).1 =
              [.checkpoint agentResumePhaseToolCalls (asked loop.conversation choice)] := by
            rw [answer] at hn ⊢
            split at hn
            · cases hn
            · rw [hno]
              rfl
          rw [hev, ha]
          refine WithinAllowance.cons_request (hr₂.after ?_ ?_ ?_) ht
          · simp
          · rw [executedCount_append]
            exact (congrArg Nat.cast (Nat.zero_add _)).trans_le hx
          · simpa [reportedTokens, AgentEvent.tokens] using hle
        · exact absurd hb (stale_executeToolCalls hs)

theorem reportedTokens_executeToolCalls (env : IterationEnv) (conversation : Conversation)
    (calls : List ToolCall) :
    reportedTokens (r.executeToolCalls tools env conversation calls).events = 0 := by
  refine List.sum_eq_zero fun tokens ht => ?_
  obtain ⟨event, he, rfl⟩ := mem_map.mp ht
  rcases mem_executeToolCalls he with ⟨_, _, rfl⟩ | ⟨_, rfl, -⟩ <;> rfl

/-- Calls that are made up for, and an invalid request after them. -/
theorem withinAllowance_resumed_invalid (hc : 0 < r.config.maxToolCalls)
    (ht : 0 < r.config.maxTokens) (hp : ∀ env ∈ envs, AgentProvides env)
    (hr : loop.resumedCalls ≠ [])
    (hv : validateModelRequest r.engine r.format loop.conversation.messages tools ≠ .ok ()) :
    WithinAllowance r.config (r.runLoop tools maxIterations envs loop).1 := by
  cases envs with
  | nil => exact withinAllowance_nil hc
  | cons env envs =>
    by_cases hl : loop.conversation.iterationCount < maxIterations
    · obtain ⟨batch, hb⟩ : ∃ batch,
        r.executeToolCalls tools env loop.conversation loop.resumedCalls = batch := ⟨_, rfl⟩
      have hex : (executedCount batch.events : Int) ≤ r.config.maxToolCalls :=
        hb ▸ executedCount_executeToolCalls hc (hp env mem_cons_self)
      have hno : ∀ event ∈ batch.events, ∀ messages, event ≠ .request messages := by
        rintro event he messages rfl
        exact request_notMem_executeToolCalls (hb ▸ he)
      have hto : reportedTokens batch.events ≤ r.config.maxTokens := by
        rw [← hb, reportedTokens_executeToolCalls]
        exact ht.le
      rw [runLoop, iterate_resumed hl hr hb]
      cases batch.error with
      | some e =>
        have hw := OneRequest.after (.inl rfl) hno (by rwa [append_nil]) hto
        rwa [append_nil] at hw
      | none =>
        have hi : validateModelRequest r.engine r.format batch.conversation.messages tools ≠
            .ok () := by
          refine fun h => hv (validateModelRequest_messages h fun hn => hr ?_)
          rw [AgentLoop.resumedCalls, hn]
          exact ite_self _
        have hne : AgentLoop.resumedCalls ⟨batch.conversation, ""⟩ = [] :=
          if_neg (show "" ≠ agentResumePhaseToolCalls by decide)
        dsimp only
        rcases @runLoop_invalid r tools ⟨batch.conversation, ""⟩ maxIterations envs hne hi with
          he | he <;> rw [he]
        · exact OneRequest.after (.inl rfl) hno (by rwa [append_nil]) hto
        · exact OneRequest.after (.inr ⟨_, [], rfl, fun _ h => by cases h⟩) hno
            (by rw [executedCount_append]; exact hex) hto
    · rw [runLoop_limit (Int.not_lt.mp hl)]
      exact withinAllowance_nil hc

/-- Too many calls to make up for are refused, and the loop ends. -/
theorem withinAllowance_refused (hc : 0 < r.config.maxToolCalls)
    (hp : ∀ env ∈ envs, AgentProvides env)
    (hl : r.config.maxToolCalls < loop.resumedCalls.length) :
    WithinAllowance r.config (r.runLoop tools maxIterations envs loop).1 := by
  have hr : loop.resumedCalls ≠ [] := by
    rintro hn
    rw [hn] at hl
    exact absurd (hc.trans hl) (Int.lt_irrefl 0)
  cases envs with
  | nil => exact withinAllowance_nil hc
  | cons env envs =>
    by_cases hi : loop.conversation.iterationCount < maxIterations
    · obtain ⟨provided, hpr, hf⟩ := (hp env mem_cons_self).beforeTools
      have hb : ∃ e, r.executeToolCalls tools env loop.conversation loop.resumedCalls =
          ⟨[], loop.conversation, some e⟩ := by
        rw [executeToolCalls, if_neg (by simpa using hr), hpr]
        split
        · exact ⟨_, rfl⟩
        next consumed hco =>
          have := (toolCalls_admitted_iff hf).mp ⟨consumed, hco⟩
          omega
      obtain ⟨e, hb⟩ := hb
      rw [runLoop, iterate_resumed hi hr hb]
      exact withinAllowance_nil hc
    · rw [runLoop_limit (Int.not_lt.mp hi)]
      exact withinAllowance_nil hc

end

/-- The loop makes at most one request, or at most two with a final answer from before; or it has
calls to make up for that are too many, or no valid request after them. -/
def FewRequests (r : LoopRunner) (tools : Tools) (loop : AgentLoop) : Prop :=
  let maxIterations := r.effectiveMaxIterations loop.conversation
  let count := loop.conversation.iterationCount
  maxIterations ≤ count ∨
    validateModelRequest r.engine r.format loop.conversation.messages tools ≠ .ok () ∨
    if loop.resumedCalls = [] then maxIterations ≤ count + 1 ∨
      (trimSpace loop.conversation.finalAnswer ≠ "" ∧ maxIterations ≤ count + 2)
    else r.config.maxToolCalls < loop.resumedCalls.length

/-- The limits hold over every execution. -/
def KeepsAllowance (r : LoopRunner) (tools : Tools) (loop : AgentLoop) : Prop :=
  ∀ envs, (∀ env ∈ envs, AgentProvides env) → WithinAllowance r.config
    (r.runLoop tools (r.effectiveMaxIterations loop.conversation) envs loop).1

end WeaveFlow
