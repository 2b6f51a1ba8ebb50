import WeaveFlow.Agent.ToolExecution

/-!
# Tool calls in parallel

In parallel mode a tool execution node starts workers that receive the calls of the last message
from an unbuffered channel and write each message at the index of its call.  There are as many
workers as calls, or fewer by the concurrency limit of the context.

A `Workers` state is what the goroutines share, a step is one worker receiving a call or writing a
message, and the node goes on when no step is left.  Whatever the schedule, every index has then
been written once, by the worker that received its call: `parallel_eq_sequential`.
-/

namespace WeaveFlow

open Outcome List

structure ToolTask where
  index : Nat
  call : ToolCall
  deriving DecidableEq

/-- The tasks that have not been sent yet, what each worker holds, and the messages. -/
structure Workers where
  tasks : List ToolTask
  held : List (Option ToolTask)
  toolMessages : List MessageContent

/-- What a worker does: it receives the next task, or writes the message of the one it holds. -/
inductive ToolStep where
  | receive (worker : Nat)
  | write (worker : Nat)

/-- The number of workers; a limit of zero is none. -/
def workerCount (calls : List ToolCall) (limit : Nat) : Nat :=
  if 0 < limit then min calls.length limit else calls.length

namespace Workers

/-- The workers wait, and the messages are zero values. -/
def start (calls : List ToolCall) (limit : Nat) : Workers where
  tasks := calls.mapIdx ToolTask.mk
  held := replicate (workerCount calls limit) none
  toolMessages := replicate calls.length ⟨.other "", []⟩

def step (answer : ToolCall → MessageContent) (w : Workers) : ToolStep → Option Workers
  | .receive worker =>
    match w.held[worker]?, w.tasks with
    | some none, task :: tasks => some { w with tasks, held := w.held.set worker (some task) }
    | _, _ => none
  | .write worker =>
    match w.held[worker]? with
    | some (some task) => some { w with
        held := w.held.set worker none
        toolMessages := w.toolMessages.set task.index (answer task.call) }
    | _ => none

/-- The channel is closed and every worker has returned. -/
def done (w : Workers) : Bool := w.tasks.isEmpty && w.held.all Option.isNone

/-- The number of steps that are left. -/
def left (w : Workers) : Nat := 2 * w.tasks.length + w.held.countP Option.isSome

theorem step_cases {answer : ToolCall → MessageContent} {w w' : Workers} {e : ToolStep}
    (h : w.step answer e = some w') :
    (∃ worker task, w.held[worker]? = some none ∧ w.tasks = task :: w'.tasks ∧
      w'.held = w.held.set worker (some task) ∧ w'.toolMessages = w.toolMessages) ∨
    ∃ worker task, w.held[worker]? = some (some task) ∧ w'.tasks = w.tasks ∧
      w'.held = w.held.set worker none ∧
      w'.toolMessages = w.toolMessages.set task.index (answer task.call) := by
  cases e with
  | receive worker =>
    rw [step] at h
    split at h
    next task tasks hh ht =>
      cases h
      exact .inl ⟨worker, task, hh, ht, rfl, rfl⟩
    next => cases h
  | write worker =>
    rw [step] at h
    split at h
    next task hh =>
      cases h
      exact .inr ⟨worker, task, hh, rfl, rfl, rfl⟩
    next => cases h

/-! ## Every index is written -/

/-- Each call is still to be sent, held by a worker, or its message has been written. -/
structure Covers (answer : ToolCall → MessageContent) (calls : List ToolCall) (w : Workers) :
    Prop where
  length : w.toolMessages.length = calls.length
  workers : calls ≠ [] → w.held ≠ []
  sent : ∀ task, task ∈ w.tasks ∨ some task ∈ w.held → calls[task.index]? = some task.call
  each : ∀ i call, calls[i]? = some call →
    ⟨i, call⟩ ∈ w.tasks ∨ some ⟨i, call⟩ ∈ w.held ∨ w.toolMessages[i]? = some (answer call)

variable {answer : ToolCall → MessageContent} {calls : List ToolCall} {limit : Nat}

theorem covers_start : Covers answer calls (start calls limit) := by
  have hm : ∀ task : ToolTask, task ∈ (start calls limit).tasks ↔
      calls[task.index]? = some task.call := by
    rintro ⟨i, call⟩
    simp [start, mem_iff_getElem?, getElem?_mapIdx]
  refine ⟨by simp [start], fun hc => ?_, ?_, fun i call hca => .inl ((hm ⟨i, call⟩).mpr hca)⟩
  · have hp := length_pos_iff.mpr hc
    simp only [start, workerCount, ne_eq, replicate_eq_nil_iff]
    split <;> omega
  rintro task (ht | hh)
  · exact (hm task).mp ht
  · simp [start] at hh

theorem mem_set_of_ne {l : List (Option ToolTask)} {x y : Option ToolTask} (hx : x ∈ l)
    (hi : l[i]? = some y) (hne : x ≠ y) : x ∈ l.set i z := by
  obtain ⟨j, hj⟩ := mem_iff_getElem?.mp hx
  refine mem_iff_getElem?.mpr ⟨j, ?_⟩
  rw [getElem?_set_ne, hj]
  rintro rfl
  exact hne (Option.some.inj (hj.symm.trans hi))

theorem covers_step : Steps.Keeps (Covers answer calls) (step answer) e := by
  intro w w' hw h
  rcases step_cases h with ⟨worker, task, hh, ht, hn, hm⟩ | ⟨worker, task, hh, ht, hn, hm⟩
  · refine ⟨hm ▸ hw.length, by simpa [hn] using hw.workers, ?_, fun i call hc => ?_⟩
    · rintro other (ho | ho)
      · exact hw.sent other (.inl (ht ▸ mem_cons_of_mem _ ho))
      · rw [hn] at ho
        rcases mem_or_eq_of_mem_set ho with ho | ho
        · exact hw.sent other (.inr ho)
        · cases ho
          exact hw.sent task (.inl (ht ▸ mem_cons_self))
    · rw [hn, hm]
      rcases hw.each i call hc with hwa | hho | hwr
      · rcases mem_cons.mp (ht ▸ hwa) with rfl | hwa
        · exact .inr (.inl (mem_set (List.getElem?_eq_some_iff.mp hh).1 _))
        · exact .inl hwa
      · exact .inr (.inl (mem_set_of_ne hho hh (by simp)))
      · exact .inr (.inr hwr)
  · have hca := hw.sent task (.inr (mem_of_getElem? hh))
    refine ⟨by simp [hm, hw.length], by simpa [hn] using hw.workers, ?_, fun i call hc => ?_⟩
    · rintro other (ho | ho)
      · exact hw.sent other (.inl (ht ▸ ho))
      · rw [hn] at ho
        rcases mem_or_eq_of_mem_set ho with ho | ho
        · exact hw.sent other (.inr ho)
        · cases ho
    · rw [ht, hn, hm]
      by_cases hi : task.index = i
      · -- the message of this call is the one that is written now
        subst hi
        cases hc.symm.trans hca
        refine .inr (.inr (getElem?_set_self ?_))
        rw [hw.length]
        exact (List.getElem?_eq_some_iff.mp hc).1
      · rw [getElem?_set_ne hi]
        rcases hw.each i call hc with hwa | hho | hwr
        · exact .inl hwa
        · refine .inr (.inl (mem_set_of_ne hho hh fun hs => hi ?_))
          exact (congrArg ToolTask.index (Option.some.inj hs)).symm
        · exact .inr (.inr hwr)

/-- When all is done, the messages are those of a loop over the calls. -/
theorem Covers.toolMessages_eq (hw : Covers answer calls w) (hd : w.done = true) :
    w.toolMessages = calls.map answer := by
  rw [done, Bool.and_eq_true, List.isEmpty_iff, all_eq_true] at hd
  refine ext_getElem? fun i => ?_
  cases hc : calls[i]? with
  | none =>
    rw [getElem?_map, hc, Option.map_none, getElem?_eq_none_iff, hw.length]
    exact getElem?_eq_none_iff.mp hc
  | some call =>
    rw [getElem?_map, hc, Option.map_some]
    rcases hw.each i call hc with hwa | hh | hwr
    · simp [hd.1] at hwa
    · exact absurd (hd.2 _ hh) (by simp)
    · exact hwr

/-! ## Progress -/

theorem left_step (h : step answer w e = some w') : w'.left + 1 = w.left := by
  rcases step_cases h with ⟨worker, task, hh, ht, hn, -⟩ | ⟨worker, task, hh, ht, hn, -⟩ <;>
  obtain ⟨hlt, hw⟩ := List.getElem?_eq_some_iff.mp hh <;>
  rw [left, left, hn, ht, countP_set hlt, hw]
  · simp
    omega
  · have hp : 0 < w.held.countP Option.isSome := countP_pos_iff.mpr ⟨_, mem_of_getElem? hh, rfl⟩
    simp
    omega

theorem length_run (h : Steps.run (step answer) w schedule = some w') :
    schedule.length + w'.left = w.left := by
  induction schedule generalizing w with
  | nil =>
    cases h
    simp
  | cons e schedule ih =>
    obtain ⟨w₁, hs, hr⟩ := Option.bind_eq_some_iff.mp h
    have ho := left_step hs
    have hm := ih hr
    rw [length_cons]
    omega

/-- As long as not all is done, some worker can make a step. -/
theorem step_of_not_done (hw : Covers answer calls w) (hd : ¬ w.done = true) :
    ∃ e, (step answer w e).isSome := by
  by_cases hi : ∃ task, some task ∈ w.held
  · obtain ⟨task, ht⟩ := hi
    obtain ⟨worker, hwo⟩ := mem_iff_getElem?.mp ht
    exact ⟨.write worker, by rw [step, hwo]; rfl⟩
  · have hn : ∀ x ∈ w.held, x = none := fun x hx =>
      Option.eq_none_iff_forall_not_mem.mpr fun task ht => hi ⟨task, ht ▸ hx⟩
    cases hta : w.tasks with
    | nil =>
      have ha : w.held.all Option.isNone = true := all_eq_true.mpr fun x hx => by rw [hn x hx]; rfl
      exact absurd (by rw [done, hta, ha]; rfl) hd
    | cons task tasks =>
      cases hh : w.held with
      | nil =>
        have hc := hw.sent task (.inl (hta ▸ mem_cons_self))
        exact absurd hh (hw.workers (ne_nil_of_mem (mem_of_getElem? hc)))
      | cons x held =>
        have hx : x = none := hn x (by simp [hh])
        exact ⟨.receive 0, by rw [step, hh, hta, hx]; rfl⟩

end Workers

/-! ## The conversation -/

/-- A handler that sets an id sets the one of its call. -/
def ToolEnv.KeepsIDs (env : ToolEnv) : Prop :=
  ∀ tool call, (env.handle tool call).1.toolCallID = "" ∨
    (env.handle tool call).1.toolCallID = call.id

theorem toolCallID_normalizeToolResult
    (h : result.toolCallID = "" ∨ result.toolCallID = call.id) :
    (normalizeToolResult call result).toolCallID = call.id := by
  rw [normalizeToolResult]
  split
  · rfl
  next hs => exact h.resolve_left hs

theorem toolCallID_executeTool {env : ToolEnv} (hi : env.KeepsIDs) :
    (executeTool env tool call).result.toolCallID = call.id := by
  have hr : ∀ refusal,
      (refusedResult (normalizeToolCall tool call) refusal).toolCallID = call.id := fun refusal =>
    toolCallID_normalizeToolResult (.inl rfl)
  have hh := toolCallID_normalizeToolResult (hi tool (normalizeToolCall tool call))
  rw [executeTool]
  split
  · exact hr _
  · rw [invokeHandler]
    split
    · exact hh
    · split
      · exact hr _
      · exact hh

/-- An outcome carries the id of its call: an error is given it at the end, a result before. -/
theorem toolCallID_answerToolCall {env : ToolEnv} (hi : env.KeepsIDs) :
    (answerToolCall env tools call).result.toolCallID = call.id := by
  rw [answerToolCall]
  split
  next hn =>
    rw [executeToolCall] at hn ⊢
    split at hn
    · cases hn
    · split at hn
      · cases hn
      · split at hn
        · cases hn
        next hf _ _ hfi hh =>
          rw [if_neg hh]
          exact toolCallID_executeTool hi
  · rfl

namespace ToolExecutionNode

variable (limit : Nat) (env : ToolEnv) (available : Tools) (conversation : Conversation)

/-- The calls that `ToolExecutionNode.execute` executes, in either mode. -/
def lastCalls : Except String (List ToolCall) := do
  requireText (!(cloneTools available).entries.isEmpty) "tool execution node: tools not available"
  match conversation.messages.getLast? with
  | none => .error "no messages available for tool execution"
  | some last => do
      requireText (last.role = .ai) "last message is not an AI message"
      return last.toolCalls

def executeToolCallMessage (call : ToolCall) : MessageContent :=
  toolMessage (answerToolCall env (cloneTools available) call).result

/-- `ToolExecutionNode.execute` in parallel mode, under a schedule that lets all workers return. -/
def executeParallel (schedule : List ToolStep) : Option (Except String Conversation) :=
  match lastCalls available conversation with
  | .error e => some (.error e)
  | .ok calls =>
    ((Steps.run (Workers.step (executeToolCallMessage env available)) (.start calls limit)
      schedule).filter Workers.done).map fun w => .ok (conversation.append w.toolMessages)

theorem execute_eq (node : ToolExecutionNode) :
    (node.execute (fun _ => env) available conversation).map Prod.snd =
      (lastCalls available conversation).map fun calls =>
        conversation.append (calls.map (executeToolCallMessage env available)) := by
  have ha : ∀ calls, answerToolCalls (fun _ => env) (cloneTools available) calls =
      calls.map (answerToolCall env (cloneTools available)) := fun calls =>
    ext_getElem? fun i => by rw [answerToolCalls, getElem?_mapIdx, getElem?_map]
  rw [execute, lastCalls]
  cases requireText (!(cloneTools available).entries.isEmpty)
    "tool execution node: tools not available" with
  | error e => rfl
  | ok _ =>
    cases conversation.messages.getLast? with
    | none => rfl
    | some last =>
      dsimp only [bind, Except.bind]
      cases requireText (last.role = .ai) "last message is not an AI message" with
      | error e => rfl
      | ok _ =>
        dsimp only
        rw [ha, map_map]
        rfl

/-- For every execution node, context and conversation, every concurrency limit and every
schedule of the workers, with outcomes that depend only on the calls: a schedule is no longer
than two steps for each call and can be continued until all is done; the parallel mode then
leaves what the sequential mode leaves; and this is the conversation with one tool message for each
call, in their order and with their ids. -/
theorem parallel_eq_sequential (node : ToolExecutionNode) (hids : env.KeepsIDs) :
    (∀ schedule result, executeParallel limit env available conversation schedule = some result →
      result = (node.execute (fun _ => env) available conversation).map Prod.snd) ∧
    ∀ calls, lastCalls available conversation = .ok calls →
      (∀ schedule w, Steps.run (Workers.step (executeToolCallMessage env available))
          (.start calls limit) schedule = some w →
        schedule.length ≤ 2 * calls.length ∧ (w.done = true ∨
          ∃ e, (w.step (executeToolCallMessage env available) e).isSome)) ∧
      ∃ after, (node.execute (fun _ => env) available conversation).map Prod.snd = .ok after ∧
        ∃ toolMessages, after.messages = conversation.messages ++ toolMessages ∧
          Forall₂ (fun call message => message.role = .tool ∧
            message.toolResults.map ToolResult.toolCallID = [call.id]) calls toolMessages := by
  rw [execute_eq]
  constructor
  · intro schedule result h
    rw [executeParallel] at h
    split at h
    next e hl =>
      cases h
      rw [hl]
      rfl
    next calls hl =>
      obtain ⟨w, hw, rfl⟩ := Option.map_eq_some_iff.mp h
      obtain ⟨hr, hd⟩ := Option.filter_eq_some_iff.mp hw
      have hc := Steps.keeps_run (fun e _ => Workers.covers_step) Workers.covers_start hr
      rw [hl, hc.toolMessages_eq hd]
      rfl
  · intro calls hl
    rw [hl]
    refine ⟨fun schedule w hr => ⟨?_, ?_⟩, _, rfl, _, conversation.messages_append _, ?_⟩
    · have hle := Workers.length_run hr
      simp [Workers.start, Workers.left, countP_replicate] at hle
      omega
    · by_cases hd : w.done = true
      · exact .inl hd
      · have hc := Steps.keeps_run (fun e _ => Workers.covers_step) Workers.covers_start hr
        exact .inr (Workers.step_of_not_done hc hd)
    · rw [map_map, forall₂_map_right_iff, forall₂_same]
      intro call _
      exact ⟨rfl, congrArg (fun id => [id]) (toolCallID_answerToolCall hids)⟩

/-- The model has called `read` twice. -/
def calledTwice : Conversation :=
  askedConversation.append [assistantMessage {} [⟨"a", "function", some ⟨"read", ""⟩⟩,
    ⟨"b", "function", some ⟨"read", ""⟩⟩]]

/-- One worker makes both calls. -/
theorem called_twice_in_order : ∃ after, executeParallel 1 plainToolEnv readAndDelete calledTwice
        [.receive 0, .write 0, .receive 0, .write 0] = some (.ok after) ∧
      Except.ok after = (execute ⟨[], true⟩ (fun _ => plainToolEnv) readAndDelete calledTwice).map
        Prod.snd := by
  obtain ⟨after, ha⟩ : ∃ after, executeParallel 1 plainToolEnv readAndDelete calledTwice
      [.receive 0, .write 0, .receive 0, .write 0] = some (.ok after) := ⟨_, rfl⟩
  exact ⟨after, ha, (parallel_eq_sequential 1 plainToolEnv readAndDelete calledTwice ⟨[], true⟩
    fun _ _ => .inl rfl).1 _ _ ha⟩

end ToolExecutionNode

end WeaveFlow
