import WeaveFlow.Agent.Conversation

/-!
# Prompt trimming

A prompt that is too long keeps its leading system messages, the first human message and a tail
of the other messages, the *body*.  Where the tail starts is found in one of two ways.  The stable
way splits the body from the front into segments of about half the budget and takes the earliest
boundary whose suffix fits; a boundary never separates tool results from their calls.  If no
boundary fits, the fallback goes back from the end as far as the budget allows, and then on to the
start of the tool exchange it has stopped in, if that still fits.

`trim_shape` is what is returned in all cases, with its bound.  The fallback may stop inside an
exchange: `trim_answered_iff` says exactly when a tool result loses its call.  It also forgets the
size of a last message that does not fit, and can then go back behind the boundary that a shorter
conversation was cut at: `dropped_stays_dropped_iff` says exactly when a dropped exchange comes back.
-/

namespace WeaveFlow

open List

/-! ## Sizes -/

/-- The texts that are made of values: `json.Marshal` and base64. -/
structure PromptTexts where
  marshal : Raw → String
  encodeBase64 : List UInt8 → String

def ChatMessageType.text : ChatMessageType → String
  | system => "system"
  | human => "human"
  | ai => "assistant"
  | tool => "tool"
  | other role => role

/-- The runes of a text without the space around it. -/
def trimmedRunes (text : String) : Nat := (trimSpace text).length

def messageHasToolCalls (message : MessageContent) : Bool := !message.toolCalls.isEmpty

section

variable (texts : PromptTexts)

def toolResultText (result : ToolResult) : String :=
  if result.content ≠ "" then result.content
  else match result.value with
    | .leaf .null => ""
    | value => texts.marshal value

/-- What a part adds to the size of its message. -/
def partCharCount : ContentPart → Nat
  | .text text => trimmedRunes text
  | .reasoning text => trimmedRunes text
  | .toolCall call => 16 + match call.functionCall with
    | some function => trimmedRunes function.name + trimmedRunes function.arguments
    | none => 0
  | .toolResult result => 16 + trimmedRunes result.name +
      trimmedRunes (toolResultText texts result) + trimmedRunes result.errorMessage
  | .imageURL url _ => trimmedRunes url
  | .binary mimeType data =>
      trimmedRunes ("data:" ++ mimeType ++ ";base64," ++ texts.encodeBase64 data)

def promptMessageCharCount (message : MessageContent) : Nat :=
  message.role.text.utf8ByteSize + 8 + (message.parts.map (partCharCount texts)).sum

def promptMessagesCharCount (messages : List MessageContent) : Nat :=
  (messages.map (promptMessageCharCount texts)).sum

/-! ## Where the tail starts -/

def isPromptTrimBoundary (body : List MessageContent) (index : Nat) : Bool :=
  decide (0 < index) && match body[index - 1]?, body[index]? with
    | some previous, some current => current.role ≠ .tool && !messageHasToolCalls previous
    | _, _ => false

/-- The loop of `stablePromptTrimStart` over the messages from an index on. -/
def trimBoundaries (body : List MessageContent) (segmentChars : Nat) :
    (index accumulated : Nat) → List MessageContent → List Nat
  | _, _, [] => []
  | index, accumulated, message :: messages =>
    if segmentChars ≤ accumulated && isPromptTrimBoundary body index then
      index :: trimBoundaries body segmentChars (index + 1)
        (promptMessageCharCount texts message) messages
    else trimBoundaries body segmentChars (index + 1)
      (accumulated + promptMessageCharCount texts message) messages

def stablePromptTrimStart (body : List MessageContent) (budget : Nat) : Option Nat :=
  if budget = 0 then none
  else (0 :: trimBoundaries texts body (max (budget / 2) 1) 0 0 body).find? fun boundary =>
    promptMessagesCharCount texts (body.drop boundary) ≤ budget

/-- The loop of `adjustReducerTailStart`. -/
def adjustLoop (messages : List MessageContent) : Nat → Nat
  | 0 => 0
  | start + 1 =>
    match messages[start + 1]?, messages[start]? with
    | some current, some previous =>
      if current.role = .tool || previous.role = .tool || messageHasToolCalls previous then
        adjustLoop messages start
      else start + 1
    | _, _ => start + 1

def adjustReducerTailStart (messages : List MessageContent) (start : Nat) : Nat :=
  if start = 0 || messages.length ≤ start then start else adjustLoop messages start

/-- The loop of `fittingPromptTailStart`: the start of the tail, and what is used with it.  A last
message that does not fit is taken, but not counted. -/
def fittingLoop (body : List MessageContent) (maxChars : Nat) : (start used : Nat) → Nat × Nat
  | 0, used => (0, used)
  | i + 1, used =>
    let candidateCost := promptMessagesCharCount texts body[i]?.toList
    if maxChars < used + candidateCost then
      (if i + 1 < body.length then i + 1 else i, used)
    else fittingLoop body maxChars i (used + candidateCost)

def fittingPromptTailStart (body : List MessageContent) (used maxChars : Nat) : Nat :=
  let tail := fittingLoop texts body maxChars body.length used
  let adjusted := adjustReducerTailStart body tail.1
  let start := if 0 < tail.1 && tail.1 < body.length &&
      tail.2 + promptMessagesCharCount texts ((body.take tail.1).drop adjusted) ≤ maxChars then
    adjusted else tail.1
  if body.length ≤ start then adjustReducerTailStart body (body.length - 1) else start

/-- Where `trimLLMPromptMessages` cuts the body. -/
def promptTailStart (body : List MessageContent) (used maxChars : Nat) : Nat :=
  (stablePromptTrimStart texts body (maxChars - used)).getD
    (fittingPromptTailStart texts body used maxChars)

/-! ## The messages that are kept -/

variable {α : Type} (message : α → MessageContent)

/-- The prefix and the body of a list of messages, which may carry their positions. -/
def promptParts (items : List α) (maxChars : Nat) : List α × List α :=
  let leadingSystem := items.takeWhile fun item => (message item).role = .system
  let rest := items.dropWhile fun item => (message item).role = .system
  let leading := if maxChars < promptMessagesCharCount texts (leadingSystem.map message) &&
    1 < leadingSystem.length then leadingSystem.take 1 else leadingSystem
  (leading ++ (rest.find? fun item => (message item).role = .human).toList,
    rest.eraseP fun item => (message item).role = .human)

/-- `trimLLMPromptMessages` of messages that may carry their positions. -/
def trimItems (items : List α) (maxChars : Nat) : List α :=
  if maxChars = 0 || promptMessagesCharCount texts (items.map message) ≤ maxChars then items
  else
    let parts := promptParts texts message items maxChars
    let used := promptMessagesCharCount texts (parts.1.map message)
    if parts.2.isEmpty then parts.1
    else parts.1 ++ parts.2.drop (promptTailStart texts (parts.2.map message) used maxChars)

/-- `trimLLMPromptMessages`.  A limit of zero stands for every limit that is not positive. -/
def trimLLMPromptMessages (messages : List MessageContent) (maxChars : Nat) :
    List MessageContent :=
  trimItems texts id messages maxChars

/-- The positions of the messages that `trimLLMPromptMessages` keeps. -/
def keptPositions (messages : List MessageContent) (maxChars : Nat) : List Nat :=
  (trimItems texts Prod.fst messages.zipIdx maxChars).map Prod.snd

end

/-! ## Sizes of suffixes -/

section

variable {texts : PromptTexts} {body : List MessageContent}

@[simp] theorem count_append (l l' : List MessageContent) :
    promptMessagesCharCount texts (l ++ l') =
      promptMessagesCharCount texts l + promptMessagesCharCount texts l' := by
  simp [promptMessagesCharCount]

theorem count_drop_succ (texts : PromptTexts) (body : List MessageContent) (i : Nat) :
    promptMessagesCharCount texts (body.drop i) = promptMessagesCharCount texts body[i]?.toList +
        promptMessagesCharCount texts (body.drop (i + 1)) := by
  rw [← count_append]
  by_cases hi : i < body.length
  · rw [getElem?_eq_getElem hi, Option.toList_some, singleton_append, drop_eq_getElem_cons hi]
  · simp [drop_eq_nil_of_le, Nat.not_lt.mp hi, Nat.le_succ_of_le]

/-- A later suffix is not larger. -/
theorem count_drop_le (texts : PromptTexts) (body : List MessageContent) (h : i ≤ j) :
    promptMessagesCharCount texts (body.drop j) ≤ promptMessagesCharCount texts (body.drop i) := by
  refine Sublist.sum_le_sum ((IsSuffix.sublist ?_).map _) (by simp)
  rw [show j = i + (j - i) by omega, ← drop_drop]
  exact drop_suffix _ _

theorem count_between (texts : PromptTexts) (hj : j ≤ body.length) (hi : i ≤ j) :
    promptMessagesCharCount texts ((body.take j).drop i) +
        promptMessagesCharCount texts (body.drop j) =
      promptMessagesCharCount texts (body.drop i) := by
  conv_rhs => rw [← take_append_drop j body, drop_append_of_le_length (by simp; omega)]
  rw [count_append]

theorem adjustLoop_le (start : Nat) : adjustLoop body start ≤ start := by
  induction start with
  | zero => exact Nat.le_refl 0
  | succ start ih =>
    rw [adjustLoop]
    split
    · split <;> omega
    · exact Nat.le_refl _

theorem adjustReducerTailStart_le (body : List MessageContent) (start : Nat) :
    adjustReducerTailStart body start ≤ start := by
  rw [adjustReducerTailStart]
  split
  · exact Nat.le_refl _
  · exact adjustLoop_le start

/-! ## The fallback -/

/-- From inside the body the loop goes back as far as the limit allows. -/
theorem fittingLoop_spec {i : Nat} (ht : fittingLoop texts body maxChars i used = (cut, total))
    (hi : i < body.length) (hle : used ≤ maxChars)
    (hu : used = base + promptMessagesCharCount texts (body.drop i)) :
    cut ≤ i ∧ total = base + promptMessagesCharCount texts (body.drop cut) ∧ total ≤ maxChars ∧
      ∀ j < cut, maxChars < base + promptMessagesCharCount texts (body.drop j) := by
  induction i generalizing used with
  | zero =>
    cases ht
    exact ⟨Nat.le_refl 0, hu, hle, nofun⟩
  | succ i ih =>
    have hs := count_drop_succ texts body i
    rw [fittingLoop] at ht
    split at ht
    next ho =>
      cases ht
      refine ⟨Nat.le_refl _, hu, hle, fun j hj => ?_⟩
      have hsu := count_drop_le texts body (Nat.lt_succ_iff.mp hj)
      omega
    next hf =>
      obtain ⟨hle, hr⟩ := ih ht (Nat.lt_of_succ_lt hi) (Nat.not_lt.mp hf) (by omega)
      exact ⟨by omega, hr⟩

theorem fittingLoop_concat (init : List MessageContent) (last : MessageContent) :
    fittingLoop texts (init ++ [last]) maxChars (init ++ [last]).length used =
      if maxChars < used + promptMessagesCharCount texts [last] then (init.length, used)
      else fittingLoop texts (init ++ [last]) maxChars init.length
        (used + promptMessagesCharCount texts [last]) := by
  rw [length_append, length_singleton, fittingLoop, getElem?_concat_length, Option.toList_some,
    length_append, length_singleton, if_neg (Nat.lt_irrefl _)]

theorem fittingLoop_le (ht : fittingLoop texts (init ++ [last]) maxChars
      (init ++ [last]).length used = (cut, total)) : cut ≤ init.length := by
  rw [fittingLoop_concat] at ht
  split at ht
  · cases ht
    exact Nat.le_refl _
  next hl =>
    exact (fittingLoop_spec ht (by simp) (Nat.not_lt.mp hl) (by rw [drop_left' rfl])).1

/-- The start of the fallback: the exchange is taken as a whole if it fits. -/
theorem fittingPromptTailStart_eq (ht : fittingLoop texts (init ++ [last]) maxChars
      (init ++ [last]).length used = (cut, total)) :
    fittingPromptTailStart texts (init ++ [last]) used maxChars =
      if total + promptMessagesCharCount texts (((init ++ [last]).take cut).drop
          (adjustReducerTailStart (init ++ [last]) cut)) ≤ maxChars then
        adjustReducerTailStart (init ++ [last]) cut
      else cut := by
  have ha := adjustReducerTailStart_le (init ++ [last]) cut
  have hlt : cut < (init ++ [last]).length := by
    rw [length_append]
    exact Nat.lt_succ_of_le (fittingLoop_le ht)
  rw [fittingPromptTailStart, ht]
  dsimp only
  rw [if_neg]
  · by_cases hp : 0 < cut
    · simp only [hp, hlt, decide_true, Bool.true_and, decide_eq_true_eq]
    · have hz : cut = 0 := by omega
      simp [hz, adjustReducerTailStart]
  · split <;> omega

/-- With a last message that fits, the fallback takes the longest tail that fits. -/
theorem fittingPromptTailStart_fits (init : List MessageContent) (last : MessageContent)
    (hl : used + promptMessagesCharCount texts [last] ≤ maxChars)
    (hs : fittingPromptTailStart texts (init ++ [last]) used maxChars = start) :
    start ≤ init.length ∧
      used + promptMessagesCharCount texts ((init ++ [last]).drop start) ≤ maxChars ∧
      ∀ j < start, maxChars < used + promptMessagesCharCount texts ((init ++ [last]).drop j) := by
  obtain ⟨⟨cut, total⟩, ht⟩ : ∃ tail,
      fittingLoop texts (init ++ [last]) maxChars (init ++ [last]).length used = tail := ⟨_, rfl⟩
  have hlo := ht
  rw [fittingLoop_concat, if_neg (Nat.not_lt.mpr hl)] at hlo
  obtain ⟨hle, hu, hf, hb⟩ := fittingLoop_spec hlo (by simp) hl (by rw [drop_left' rfl])
  obtain rfl : cut = start := by
    rw [← hs, fittingPromptTailStart_eq ht]
    split
    next he =>
      -- a longer tail would fit, which the loop has not taken
      refine Nat.le_antisymm (Nat.not_lt.mp fun hlt => ?_) (adjustReducerTailStart_le _ cut)
      have ho := hb _ hlt
      rw [← count_between texts (by simp; omega) (adjustReducerTailStart_le _ cut)] at ho
      omega
    · rfl
  exact ⟨hle, hu ▸ hf, hb⟩

/-- A last message that does not fit is taken without being counted. -/
theorem fittingPromptTailStart_over (init : List MessageContent) (last : MessageContent)
    (hl : maxChars < used + promptMessagesCharCount texts [last]) :
    fittingPromptTailStart texts (init ++ [last]) used maxChars =
      if used + promptMessagesCharCount texts (init.drop
          (adjustReducerTailStart (init ++ [last]) init.length)) ≤ maxChars then
        adjustReducerTailStart (init ++ [last]) init.length
      else init.length := by
  have ht : fittingLoop texts (init ++ [last]) maxChars (init ++ [last]).length used =
      (init.length, used) := by
    rw [fittingLoop_concat, if_pos hl]
  rw [fittingPromptTailStart_eq ht, take_left' rfl]

/-! ## The boundaries -/

/-- A boundary starts no tool result. -/
theorem isPromptTrimBoundary_iff : isPromptTrimBoundary body index = true ↔
    0 < index ∧ ∃ previous current, body[index - 1]? = some previous ∧
      body[index]? = some current ∧ current.role ≠ .tool ∧
      messageHasToolCalls previous = false := by
  rw [isPromptTrimBoundary, Bool.and_eq_true, decide_eq_true_eq]
  refine and_congr_right fun _ => ?_
  split
  next previous current hp hc => simp [hp, hc]
  next hn =>
    simp only [Bool.false_eq_true, false_iff]
    rintro ⟨previous, current, hp, hc, -⟩
    exact hn previous current hp hc

/-- Boundaries ascend from the index on and are places to cut at. -/
theorem trimBoundaries_spec (index accumulated : Nat) (messages : List MessageContent) :
    (trimBoundaries texts body chars index accumulated messages).Pairwise (· < ·) ∧
    ∀ b ∈ trimBoundaries texts body chars index accumulated messages,
      index ≤ b ∧ isPromptTrimBoundary body b = true := by
  induction messages generalizing index accumulated with
  | nil => exact ⟨.nil, nofun⟩
  | cons message messages ih =>
    rw [trimBoundaries]
    split
    next hc =>
      obtain ⟨hs, ha⟩ := ih (index + 1) (promptMessageCharCount texts message)
      refine ⟨pairwise_cons.mpr ⟨fun b hb => (ha b hb).1, hs⟩, fun b hb => ?_⟩
      rcases mem_cons.mp hb with rfl | hb
      · exact ⟨Nat.le_refl _, (Bool.and_eq_true_iff.mp hc).2⟩
      · exact ⟨by have := (ha b hb).1; omega, (ha b hb).2⟩
    · obtain ⟨hs, ha⟩ := ih (index + 1) (accumulated + promptMessageCharCount texts message)
      exact ⟨hs, fun b hb => ⟨by have := (ha b hb).1; omega, (ha b hb).2⟩⟩

/-- More messages only add boundaries behind the old ones. -/
theorem trimBoundaries_append (x : List MessageContent)
    (h : index + messages.length = body.length) :
    ∃ more, trimBoundaries texts (body ++ x) chars index accumulated (messages ++ x) =
      trimBoundaries texts body chars index accumulated messages ++ more ∧
        ∀ b ∈ more, body.length ≤ b := by
  induction messages generalizing index accumulated with
  | nil =>
    refine ⟨_, rfl, fun b hb => ?_⟩
    have hle := ((trimBoundaries_spec _ _ _).2 b hb).1
    simp at h
    omega
  | cons message messages ih =>
    have hlt : index < body.length := by simp at h; omega
    have hs : isPromptTrimBoundary (body ++ x) index = isPromptTrimBoundary body index := by
      rw [isPromptTrimBoundary, isPromptTrimBoundary, getElem?_append_left hlt,
        getElem?_append_left (by omega)]
    rw [cons_append, trimBoundaries, trimBoundaries, hs]
    split
    · obtain ⟨more, hm, hbe⟩ :=
        @ih (index + 1) (promptMessageCharCount texts message) (by simp at h; omega)
      exact ⟨more, congrArg (index :: ·) hm, hbe⟩
    · exact ih (by simp at h; omega)

/-! ## The cut -/

theorem stablePromptTrimStart_eq_some
    (h : stablePromptTrimStart texts body (maxChars - used) = some start) :
    used + promptMessagesCharCount texts (body.drop start) ≤ maxChars ∧
      (start = 0 ∨ isPromptTrimBoundary body start = true) := by
  rw [stablePromptTrimStart] at h
  split at h
  · cases h
  next hb =>
    have hf := find?_some h
    rw [decide_eq_true_eq] at hf
    refine ⟨by omega, (mem_cons.mp (mem_of_find?_eq_some h)).imp id fun hm => ?_⟩
    exact ((trimBoundaries_spec 0 0 body).2 start hm).2

theorem promptTailStart_le (init : List MessageContent) (last : MessageContent) :
    promptTailStart texts (init ++ [last]) used maxChars ≤ init.length := by
  rw [promptTailStart]
  cases hs : stablePromptTrimStart texts (init ++ [last]) (maxChars - used) with
  | some start =>
    rcases (stablePromptTrimStart_eq_some hs).2 with rfl | hc
    · exact Nat.zero_le _
    · obtain ⟨-, _, current, -, hcu, -⟩ := isPromptTrimBoundary_iff.mp hc
      have hlt := (List.getElem?_eq_some_iff.mp hcu).1
      rw [length_append, length_singleton] at hlt
      exact Nat.lt_succ_iff.mp hlt
  | none =>
    rw [Option.getD_none]
    by_cases hl : used + promptMessagesCharCount texts [last] ≤ maxChars
    · exact (fittingPromptTailStart_fits init last hl rfl).1
    · rw [fittingPromptTailStart_over init last (Nat.not_le.mp hl)]
      split
      · exact adjustReducerTailStart_le _ _
      · exact Nat.le_refl _

theorem promptTailStart_fits (init : List MessageContent) (last : MessageContent)
    (hl : used + promptMessagesCharCount texts [last] ≤ maxChars) :
    used + promptMessagesCharCount texts ((init ++ [last]).drop
      (promptTailStart texts (init ++ [last]) used maxChars)) ≤ maxChars := by
  rw [promptTailStart]
  cases hs : stablePromptTrimStart texts (init ++ [last]) (maxChars - used) with
  | some start => exact (stablePromptTrimStart_eq_some hs).1
  | none => exact (fittingPromptTailStart_fits init last hl rfl).2.1

/-- The first boundary that fits, among ascending ones. -/
theorem not_of_lt_find {l : List Nat} (hl : l.Pairwise (· < ·)) (h : l.find? p = some b)
    (ha : a ∈ l) (hlt : a < b) : p a = false := by
  obtain ⟨-, before, after, rfl, hb⟩ := find?_eq_some_iff_append.mp h
  rcases mem_append.mp ha with ha | ha
  · simpa using hb a ha
  · rcases mem_cons.mp ha with rfl | ha
    · exact absurd hlt (Nat.lt_irrefl a)
    · have hgt := rel_of_pairwise_cons (pairwise_append.mp hl).2.1 ha
      omega

theorem ascending_boundaries (body : List MessageContent) (chars : Nat) :
    (0 :: trimBoundaries texts body chars 0 0 body).Pairwise (· < ·) :=
  pairwise_cons.mpr ⟨fun c hc => (isPromptTrimBoundary_iff.mp
    ((trimBoundaries_spec 0 0 body).2 c hc).2).1, (trimBoundaries_spec 0 0 body).1⟩

/-- With more messages the stable cut does not move to an earlier place. -/
theorem stablePromptTrimStart_append (h : stablePromptTrimStart texts body budget = some b)
    (hlt : start < b) (hb : b ≤ body.length)
    (hf : promptMessagesCharCount texts ((body ++ x).drop start) ≤ budget) :
    ∃ other, stablePromptTrimStart texts (body ++ x) budget = some other ∧ other ≠ start := by
  rw [stablePromptTrimStart] at h ⊢
  split at h
  · cases h
  next hbu =>
    obtain ⟨more, hm, hbe⟩ := trimBoundaries_append x (Nat.zero_add body.length)
    rw [if_neg hbu, hm, ← cons_append]
    have hs : ∃ other, find? (fun boundary => decide (promptMessagesCharCount texts
        ((body ++ x).drop boundary) ≤ budget))
        (0 :: trimBoundaries texts body (max (budget / 2) 1) 0 0 body ++ more) = some other := by
      refine Option.isSome_iff_exists.mp (find?_isSome.mpr ⟨b, ?_, ?_⟩)
      · exact mem_append_left more (mem_of_find?_eq_some h)
      · exact decide_eq_true (Nat.le_trans (count_drop_le texts _ (Nat.le_of_lt hlt)) hf)
    refine hs.imp fun other ho => ⟨ho, ?_⟩
    rintro rfl
    -- the old boundaries before the cut do not even fit without the new messages
    have hol : other ∈ 0 :: trimBoundaries texts body (max (budget / 2) 1) 0 0 body := by
      refine (mem_append.mp (mem_of_find?_eq_some ho)).resolve_right fun hn => ?_
      have := hbe other hn
      omega
    have hov := not_of_lt_find (ascending_boundaries body _) h hol hlt
    rw [drop_append_of_le_length (by omega), count_append] at hf
    simp at hov
    omega

/-- A cut of a longer body that fits is not before the cut of the body. -/
theorem promptTailStart_le_of_fits (init : List MessageContent) (last : MessageContent)
    (hs : promptTailStart texts (init ++ [last] ++ x) used maxChars = start)
    (hf : used + promptMessagesCharCount texts ((init ++ [last] ++ x).drop start) ≤ maxChars) :
    promptTailStart texts (init ++ [last]) used maxChars ≤ start := by
  refine Nat.not_lt.mp fun hb => ?_
  have hl : (init ++ [last]).length = init.length + 1 := length_append
  have hle : start < init.length := Nat.lt_of_lt_of_le hb (promptTailStart_le init last)
  cases hst : stablePromptTrimStart texts (init ++ [last]) (maxChars - used) with
  | some b =>
    have hc : promptTailStart texts (init ++ [last]) used maxChars = b := by
      rw [promptTailStart, hst, Option.getD_some]
    obtain ⟨other, ho, hne⟩ := stablePromptTrimStart_append hst (hc ▸ hb)
      (by rw [← hc, hl]; exact Nat.le_succ_of_le (promptTailStart_le init last))
      (Nat.le_sub_of_add_le' hf)
    rw [promptTailStart, ho, Option.getD_some] at hs
    exact hne hs
  | none =>
    rw [drop_append_of_le_length (by omega), count_append] at hf
    rw [promptTailStart, hst, Option.getD_none] at hb
    by_cases hla : used + promptMessagesCharCount texts [last] ≤ maxChars
    · have hov := (fittingPromptTailStart_fits init last hla rfl).2.2 start hb
      omega
    · have ht := count_drop_le texts (init ++ [last]) (Nat.le_of_lt hle)
      rw [drop_left' rfl] at ht
      omega

/-! ## Shape and bound -/

variable {α : Type} {message : α → MessageContent} {items : List α}

theorem trimItems_eq {leading rest : List α} (hp : 0 < maxChars)
    (ho : maxChars < promptMessagesCharCount texts (items.map message))
    (hpa : promptParts texts message items maxChars = (leading, rest)) :
    trimItems texts message items maxChars = leading ++ rest.drop (promptTailStart texts
      (rest.map message) (promptMessagesCharCount texts (leading.map message)) maxChars) := by
  rw [trimItems, if_neg (by simp; omega), hpa]
  cases rest <;> simp

theorem trimLLMPromptMessages_eq (hp : 0 < maxChars)
    (ho : maxChars < promptMessagesCharCount texts messages)
    (hpa : promptParts texts id messages maxChars = (leading, body)) :
    trimLLMPromptMessages texts messages maxChars = leading ++ body.drop
      (promptTailStart texts body (promptMessagesCharCount texts leading) maxChars) := by
  rw [trimLLMPromptMessages, trimItems_eq hp (by rwa [map_id]) hpa, map_id, map_id]

/-- For every list and every limit: a list that fits is returned as it is.  Otherwise there are
the leading system messages, only the first if they exceed the limit, then the first human message
of the rest, then a suffix of what remains, which is not empty if anything remains; and this
fits whenever the prefix fits with the last remaining message. -/
theorem trim_shape (texts : PromptTexts) (messages : List MessageContent) (maxChars : Nat) :
    let leadingSystem := messages.takeWhile fun m => m.role = .system
    let rest := messages.dropWhile fun m => m.role = .system
    let kept := (if maxChars < promptMessagesCharCount texts leadingSystem then
      leadingSystem.take 1 else leadingSystem) ++ (rest.find? fun m => m.role = .human).toList
    let remaining := rest.eraseP fun m => m.role = .human
    let trimmed := trimLLMPromptMessages texts messages maxChars
    (promptMessagesCharCount texts messages ≤ maxChars → trimmed = messages) ∧
    (0 < maxChars → maxChars < promptMessagesCharCount texts messages →
      ∃ tail, trimmed = kept ++ tail ∧ tail <:+ remaining ∧ (remaining ≠ [] → tail ≠ []) ∧
        ∀ last ∈ remaining.getLast?, promptMessagesCharCount texts (kept ++ [last]) ≤ maxChars →
          promptMessagesCharCount texts trimmed ≤ maxChars) := by
  intro leadingSystem rest kept remaining trimmed
  have hp : promptParts texts id messages maxChars = (kept, remaining) := by
    refine Prod.ext (congrArg (· ++ _) ?_) rfl
    show (if maxChars < promptMessagesCharCount texts (leadingSystem.map id) &&
      1 < leadingSystem.length then leadingSystem.take 1 else leadingSystem) = _
    rw [map_id]
    by_cases ho : 1 < leadingSystem.length
    · simp [ho]
    · simp [ho, take_of_length_le (Nat.not_lt.mp ho)]
  constructor
  · intro hf
    exact if_pos (by simp [hf])
  · intro hpo hov
    have ht : trimmed = kept ++ remaining.drop
        (promptTailStart texts remaining (promptMessagesCharCount texts kept) maxChars) :=
      trimLLMPromptMessages_eq hpo hov hp
    refine ⟨_, ht, drop_suffix _ _, fun hn => ?_, fun last hla hb => ?_⟩
    · obtain ⟨init, last, hl⟩ := (eq_nil_or_concat' remaining).resolve_left hn
      rw [hl, ne_eq, drop_eq_nil_iff, length_append, Nat.not_le]
      exact Nat.lt_succ_of_le (promptTailStart_le init last)
    · obtain ⟨init, hl⟩ := getLast?_eq_some_iff.mp hla
      rw [count_append] at hb
      rw [ht, count_append, hl]
      exact promptTailStart_fits init last hb

/-! ## Tool exchanges -/

/-- The message has the calls that a tool message answers. -/
def Requests (request message : MessageContent) : Prop :=
  request.role = .ai ∧ messageHasToolCalls request = true ∧
    ∀ result ∈ message.toolResults, ∃ call ∈ request.toolCalls, call.id = result.toolCallID

/-- Every tool message comes, with only tool messages between, after the message that has
requested it; `last` is the message before the list that is not a tool message. -/
def Paired : (last : Option MessageContent) → List MessageContent → Prop
  | _, [] => True
  | last, message :: messages =>
    (message.role = .tool → ∃ request ∈ last, Requests request message) ∧
      Paired (if message.role = .tool then last else some message) messages

/-- The last message that is not a tool message. -/
def lastRequest (last : Option MessageContent) (messages : List MessageContent) :
    Option MessageContent :=
  messages.foldl (fun last message => if message.role = .tool then last else some message) last

theorem paired_append : Paired last (l ++ l') ↔
    Paired last l ∧ Paired (lastRequest last l) l' := by
  induction l generalizing last with
  | nil => simp [Paired, lastRequest]
  | cons message l ih => rw [cons_append, Paired, Paired, ih, and_assoc]; rfl

/-- The list does not start with a tool message. -/
def StartsFree (messages : List MessageContent) : Prop :=
  ∀ message ∈ messages.head?, message.role ≠ .tool

/-- What comes before does not matter to a list that starts with another message. -/
theorem Paired.of_startsFree (h : Paired last l) (hl : StartsFree l) : Paired last' l := by
  cases l with
  | nil => trivial
  | cons message l =>
    have hr : message.role ≠ .tool := hl message rfl
    rw [Paired, if_neg hr] at h ⊢
    exact ⟨fun ht => absurd ht hr, h.2⟩

/-- Only the model requests tools. -/
theorem Paired.startsFree (h : Paired last l) (hl : ∀ m ∈ last, m.role ≠ .ai) :
    StartsFree l := by
  cases l with
  | nil => nofun
  | cons message l =>
    rintro _ ⟨⟩ ht
    obtain ⟨request, hr, hai, -⟩ := h.1 ht
    exact hl request hr hai

theorem lastRequest_ne_ai (hla : ∀ m ∈ last, m.role ≠ .ai) (hl : ∀ m ∈ l, m.role ≠ .ai) :
    ∀ m ∈ lastRequest last l, m.role ≠ .ai := by
  induction l generalizing last with
  | nil => exact hla
  | cons message l ih =>
    refine ih ?_ (forall_mem_cons.mp hl).2
    dsimp only
    split
    · exact hla
    · rintro _ ⟨⟩
      exact hl message mem_cons_self

theorem paired_of_ne_tool (hl : ∀ m ∈ l, m.role ≠ .tool) : Paired last l := by
  induction l generalizing last with
  | nil => trivial
  | cons message l ih =>
    exact ⟨fun ht => absurd ht (hl message mem_cons_self),
      ih (forall_mem_cons.mp hl).2⟩

/-- The message that is pinned is in no exchange. -/
theorem Paired.eraseP_human (h : Paired last l) :
    Paired last (l.eraseP fun m => m.role = .human) := by
  rcases exists_or_eq_self_of_eraseP (fun m : MessageContent => decide (m.role = .human)) l with
    hn | ⟨pinned, before, after, -, hh, rfl, he⟩
  · rwa [hn]
  · rw [he]
    have hh : pinned.role = .human := of_decide_eq_true hh
    obtain ⟨hb, ha⟩ := paired_append.mp h
    rw [Paired, if_neg (by simp [hh])] at ha
    refine paired_append.mpr ⟨hb, ha.2.of_startsFree (ha.2.startsFree ?_)⟩
    rintro _ ⟨⟩
    simp [hh]

theorem adjustLoop_free (hb : StartsFree body) (start : Nat) :
    ∀ message ∈ body[adjustLoop body start]?, message.role ≠ .tool := by
  induction start with
  | zero => rwa [adjustLoop, ← head?_eq_getElem?]
  | succ start ih =>
    rw [adjustLoop]
    split
    next current previous hc hp =>
      split
      · exact ih
      next hf =>
        intro message hm
        cases hc.symm.trans hm
        simp only [Bool.or_eq_true, decide_eq_true_eq, not_or] at hf
        exact hf.1.1
    next hn =>
      intro message hm
      have hlt := (List.getElem?_eq_some_iff.mp hm).1
      exact absurd (getElem?_eq_getElem (by omega)) (hn message _ hm)

/-- An adjusted start is not inside an exchange. -/
theorem adjustReducerTailStart_free (hb : StartsFree body) (start : Nat) :
    ∀ message ∈ body[adjustReducerTailStart body start]?, message.role ≠ .tool := by
  rw [adjustReducerTailStart]
  split
  next he =>
    rcases Bool.or_eq_true_iff.mp he with hz | he
    · rwa [of_decide_eq_true hz, ← head?_eq_getElem?]
    · rw [getElem?_eq_none (of_decide_eq_true he)]
      nofun
  · exact adjustLoop_free hb start

def ToolAt (body : List MessageContent) (index : Nat) : Prop :=
  ∃ message ∈ body[index]?, message.role = .tool

/-- No exchange joins the message at an index with the one before it. -/
def Separate (body : List MessageContent) (index : Nat) : Prop :=
  index = 0 ∨ ∃ previous ∈ body[index - 1]?, ∃ current ∈ body[index]?,
    current.role ≠ .tool ∧ previous.role ≠ .tool ∧ messageHasToolCalls previous = false

theorem adjustLoop_spec (hi : start < body.length) : Separate body (adjustLoop body start) ∧
    ∀ a ≤ start, Separate body a → a ≤ adjustLoop body start := by
  induction start with
  | zero => exact ⟨.inl rfl, fun a ha _ => ha⟩
  | succ start ih =>
    have hc := getElem?_eq_getElem hi
    have hp := getElem?_eq_getElem (Nat.lt_of_succ_lt hi)
    rw [adjustLoop, hc, hp]
    dsimp only
    split
    next hj =>
      refine ⟨(ih (Nat.lt_of_succ_lt hi)).1, fun a ha hs => ?_⟩
      rcases Nat.lt_or_eq_of_le ha with hlt | rfl
      · exact (ih (Nat.lt_of_succ_lt hi)).2 a (Nat.lt_succ_iff.mp hlt) hs
      · obtain hz | ⟨previous, hpr, current, hcu, hs⟩ := hs
        · cases hz
        · cases hc.symm.trans hcu
          cases hp.symm.trans hpr
          simp [hs.1, hs.2.1, hs.2.2] at hj
    next hf =>
      simp only [Bool.or_eq_true, decide_eq_true_eq, not_or, Bool.not_eq_true] at hf
      exact ⟨.inr ⟨_, hp, _, hc, hf.1.1, hf.1.2, hf.2⟩, fun a ha _ => ha⟩

/-- The adjusted start is the last separate place. -/
theorem adjustReducerTailStart_spec (hi : start < body.length) :
    Separate body (adjustReducerTailStart body start) ∧
      ∀ a ≤ start, Separate body a → a ≤ adjustReducerTailStart body start := by
  rw [adjustReducerTailStart]
  split
  next he =>
    have hz : start = 0 := by
      simp only [Bool.or_eq_true, decide_eq_true_eq] at he
      omega
    exact ⟨.inl hz, fun a ha _ => ha⟩
  · exact adjustLoop_spec hi

/-- The next stable boundary: the first place between exchanges that at least so many
characters are before. -/
def NextBoundary (texts : PromptTexts) (body : List MessageContent) (chars a b : Nat) : Prop :=
  a < b ∧ isPromptTrimBoundary body b = true ∧
    chars ≤ promptMessagesCharCount texts ((body.take b).drop a) ∧
    ∀ c, a < c → c < b → isPromptTrimBoundary body c = true →
      promptMessagesCharCount texts ((body.take c).drop a) < chars

/-- The stable boundaries, with segments of half of what the prefix leaves. -/
def StableBoundary (texts : PromptTexts) (body : List MessageContent) (budget : Nat) : Nat → Prop :=
  Relation.ReflTransGen (NextBoundary texts body (max (budget / 2) 1)) 0

theorem NextBoundary.eq (h : NextBoundary texts body chars a b)
    (h' : NextBoundary texts body chars a c) : b = c := by
  rcases Nat.lt_trichotomy b c with hlt | heq | hlt
  · have := h'.2.2.2 b h.1 hlt h.2.1
    have := h.2.2.1
    omega
  · exact heq
  · have := h.2.2.2 c h'.1 hlt h'.2.1
    have := h'.2.2.1
    omega

theorem mem_trimBoundaries {messages : List MessageContent} (hc : 0 < chars)
    (hm : body.drop index = messages) (ha : a ≤ index)
    (hacc : accumulated = promptMessagesCharCount texts ((body.take index).drop a))
    (hno : ∀ c, a < c → c < index → isPromptTrimBoundary body c = true →
      promptMessagesCharCount texts ((body.take c).drop a) < chars) :
    b ∈ trimBoundaries texts body chars index accumulated messages ↔
      Relation.TransGen (NextBoundary texts body chars) a b := by
  induction messages generalizing index accumulated a with
  | nil =>
    refine iff_of_false (by simp [trimBoundaries]) fun h => ?_
    obtain ⟨c, hn, -⟩ := Relation.TransGen.head'_iff.mp h
    obtain ⟨-, _, current, -, hcu, -⟩ := isPromptTrimBoundary_iff.mp hn.2.1
    have hlt := (List.getElem?_eq_some_iff.mp hcu).1
    have hle := drop_eq_nil_iff.mp hm
    have := hno c hn.1 (by omega) hn.2.1
    have := hn.2.2.1
    omega
  | cons message messages ih =>
    have hme : body[index]? = some message := by
      rw [← head?_drop, hm, head?_cons]
    have hlt := (List.getElem?_eq_some_iff.mp hme).1
    have hdr : body.drop (index + 1) = messages := by
      rw [← tail_drop, hm, tail_cons]
    have hco : ∀ a ≤ index, promptMessagesCharCount texts ((body.take (index + 1)).drop a) =
        promptMessagesCharCount texts ((body.take index).drop a) +
          promptMessageCharCount texts message := by
      intro a ha
      rw [take_add_one, hme, drop_append_of_le_length (by simp; omega), count_append]
      simp [promptMessagesCharCount]
    rw [trimBoundaries]
    by_cases hb : chars ≤ accumulated ∧ isPromptTrimBoundary body index = true
    · have hlt : a < index := by
        refine Nat.lt_of_le_of_ne ha ?_
        rintro rfl
        simp [promptMessagesCharCount] at hacc
        omega
      have hn : NextBoundary texts body chars a index := ⟨hlt, hb.2, by omega, hno⟩
      rw [if_pos (by simpa using hb), mem_cons, ih hdr (Nat.le_succ index)
        (by rw [hco index (Nat.le_refl _), drop_take]; simp [promptMessagesCharCount])
        fun c _ _ => by omega, ← Relation.reflTransGen_iff_eq_or_transGen,
        Relation.TransGen.head'_iff]
      constructor
      · exact fun h => ⟨index, hn, h⟩
      · rintro ⟨c, hc, h⟩
        rwa [hn.eq hc]
    · rw [if_neg (by simpa using hb)]
      refine ih hdr (Nat.le_succ_of_le ha) (by rw [hco a ha, hacc]) fun c hac hci hcb => ?_
      rcases Nat.lt_or_eq_of_le (Nat.lt_succ_iff.mp hci) with hci | rfl
      · exact hno c hac hci hcb
      · rw [← hacc]
        exact Nat.not_le.mp fun hle => hb ⟨hle, hcb⟩

theorem mem_boundaries : b ∈ 0 :: trimBoundaries texts body (max (budget / 2) 1) 0 0 body ↔
    StableBoundary texts body budget b := by
  rw [mem_cons, mem_trimBoundaries (by omega) (show body.drop 0 = body from drop_zero)
    (Nat.le_refl 0) (by simp [promptMessagesCharCount]) fun c _ hc => by omega, StableBoundary,
    Relation.reflTransGen_iff_eq_or_transGen]

theorem promptCount_pos (texts : PromptTexts) (h : l ≠ []) : 0 < promptMessagesCharCount texts l := by
  cases l with
  | nil => exact absurd rfl h
  | cons message l =>
    simp only [promptMessagesCharCount, promptMessageCharCount, map_cons, sum_cons]
    omega

/-- A stable boundary is in the body. -/
theorem StableBoundary.eq_zero_or_lt (h : StableBoundary texts body budget b) :
    b = 0 ∨ b < body.length := by
  rcases Relation.ReflTransGen.cases_tail h with rfl | ⟨a, -, hn⟩
  · exact .inl rfl
  · obtain ⟨-, _, current, -, hcu, -⟩ := isPromptTrimBoundary_iff.mp hn.2.1
    exact .inr (List.getElem?_eq_some_iff.mp hcu).1

theorem StableBoundary.lt (h : StableBoundary texts body budget b) (hne : body ≠ []) :
    b < body.length := by
  have hp := length_pos_iff.mpr hne
  rcases h.eq_zero_or_lt with rfl | hlt <;> omega

theorem stablePromptTrimStart_eq_none_iff (hne : body ≠ []) :
    stablePromptTrimStart texts body (maxChars - used) = none ↔
      ∀ b, StableBoundary texts body (maxChars - used) b →
        maxChars < used + promptMessagesCharCount texts (body.drop b) := by
  rw [stablePromptTrimStart]
  split
  next hz =>
    refine iff_of_true rfl fun b hb => ?_
    have hp := promptCount_pos texts (drop_eq_nil_iff.not.mpr (Nat.not_le.mpr (hb.lt hne)))
    omega
  next hz =>
    rw [find?_eq_none]
    refine forall_congr' fun b => ?_
    rw [mem_boundaries, decide_eq_true_eq]
    exact imp_congr_right fun _ => by omega

/-- No stable boundary fits, and a tool message is the start of the longest tail that fits, or
it is the last message, fits in no way, and the messages of its exchange before it do not fit. -/
def SplitsExchange (texts : PromptTexts) (messages : List MessageContent) (maxChars : Nat) : Prop :=
  let parts := promptParts texts id messages maxChars
  let used := promptMessagesCharCount texts parts.1
  let size := fun i => used + promptMessagesCharCount texts (parts.2.drop i)
  0 < maxChars ∧ maxChars < promptMessagesCharCount texts messages ∧
    (∀ b, StableBoundary texts parts.2 (maxChars - used) b → maxChars < size b) ∧
    ∃ i, ToolAt parts.2 i ∧
      ((size i ≤ maxChars ∧ ∀ j < i, maxChars < size j) ∨
        (i + 1 = parts.2.length ∧ maxChars < size i ∧ ∀ a ≤ i, Separate parts.2 a →
          maxChars < used + promptMessagesCharCount texts ((parts.2.take i).drop a)))

theorem toolAt_promptTailStart (used maxChars : Nat) (hb : StartsFree body) :
    ToolAt body (promptTailStart texts body used maxChars) ↔
      (∀ b, StableBoundary texts body (maxChars - used) b →
        maxChars < used + promptMessagesCharCount texts (body.drop b)) ∧
      ∃ i, ToolAt body i ∧
        ((used + promptMessagesCharCount texts (body.drop i) ≤ maxChars ∧
            ∀ j < i, maxChars < used + promptMessagesCharCount texts (body.drop j)) ∨
          (i + 1 = body.length ∧ maxChars < used + promptMessagesCharCount texts (body.drop i) ∧
            ∀ a ≤ i, Separate body a →
              maxChars < used + promptMessagesCharCount texts ((body.take i).drop a))) := by
  rcases eq_nil_or_concat' body with rfl | ⟨init, last, rfl⟩
  · simp [ToolAt]
  · rw [← stablePromptTrimStart_eq_none_iff (by simp), promptTailStart]
    cases hs : stablePromptTrimStart texts (init ++ [last]) (maxChars - used) with
    | some start =>
      rw [Option.getD_some]
      refine iff_of_false ?_ (by simp)
      rintro ⟨message, hm, hto⟩
      rcases (stablePromptTrimStart_eq_some hs).2 with rfl | hc
      · exact hb message (head?_eq_getElem?.trans hm) hto
      · obtain ⟨-, _, current, -, hcu, hr, -⟩ := isPromptTrimBoundary_iff.mp hc
        cases hcu.symm.trans hm
        exact hr hto
    | none =>
      rw [Option.getD_none, eq_self, true_and]
      have hlen : (init ++ [last]).length = init.length + 1 := length_append
      have hlast : (init ++ [last]).drop init.length = [last] := drop_left' rfl
      by_cases hl : used + promptMessagesCharCount texts [last] ≤ maxChars
      · obtain ⟨hle, hf, hbe⟩ := fittingPromptTailStart_fits init last hl rfl
        constructor
        · exact fun ht => ⟨_, ht, .inl ⟨hf, hbe⟩⟩
        · rintro ⟨i, ht, ⟨hfi, hbi⟩ | ⟨hi, ho, -⟩⟩
          · rcases Nat.lt_trichotomy i
              (fittingPromptTailStart texts (init ++ [last]) used maxChars) with hlt | rfl | hlt
            · exact absurd (hbe i hlt) (Nat.not_lt.mpr hfi)
            · exact ht
            · exact absurd (hbi _ hlt) (Nat.not_lt.mpr hf)
          · rw [show i = init.length by omega, hlast] at ho
            omega
      · rw [fittingPromptTailStart_over init last (Nat.not_le.mp hl)]
        obtain ⟨hse, hmax⟩ := adjustReducerTailStart_spec
          (show init.length < (init ++ [last]).length by omega)
        have hle := adjustReducerTailStart_le (init ++ [last]) init.length
        split
        next hf =>
          refine iff_of_false ?_ ?_
          · rintro ⟨message, hm, hto⟩
            exact adjustReducerTailStart_free hb _ message hm hto
          · rintro ⟨i, ⟨message, hm, -⟩, ⟨hfi, -⟩ | ⟨hi, -, ho⟩⟩
            · have hlt := (List.getElem?_eq_some_iff.mp hm).1
              have hd := count_drop_le texts (init ++ [last]) (show i ≤ init.length by omega)
              rw [hlast] at hd
              omega
            · obtain rfl : i = init.length := by omega
              have := ho _ hle hse
              rw [take_left' rfl] at this
              omega
        next ho =>
          constructor
          · refine fun ht => ⟨_, ht, .inr ⟨hlen.symm, by rw [hlast]; omega, fun a ha hs => ?_⟩⟩
            have := count_drop_le texts init (hmax a ha hs)
            rw [take_left' rfl]
            omega
          · rintro ⟨i, ht, ⟨hfi, -⟩ | ⟨hi, -⟩⟩
            · obtain ⟨message, hm, -⟩ := ht
              have hlt := (List.getElem?_eq_some_iff.mp hm).1
              have hd := count_drop_le texts (init ++ [last]) (show i ≤ init.length by omega)
              rw [hlast] at hd
              omega
            · rwa [show init.length = i by omega]

/-- The prefix has no exchanges, and the body has those of the conversation. -/
theorem promptParts_paired (h : Paired none messages)
    (hp : promptParts texts id messages maxChars = (leading, body)) :
    (∀ m ∈ leading, m.role = .system ∨ m.role = .human) ∧ StartsFree body ∧
      ∃ last, Paired last body := by
  have hs : ∀ m ∈ messages.takeWhile (fun m => m.role = .system), m.role = .system :=
    fun m hm => by simpa using mem_takeWhile_imp hm
  rw [← takeWhile_append_dropWhile (p := fun m : MessageContent => decide (m.role = .system))
    (l := messages), paired_append] at h
  have hb := h.2.eraseP_human
  have hf := hb.startsFree (lastRequest_ne_ai nofun fun m hm => by simp [hs m hm])
  cases hp
  refine ⟨fun m hm => ?_, hf, _, hb⟩
  rcases mem_append.mp hm with hm | hm
  · refine .inl (hs m ?_)
    split at hm
    · exact mem_of_mem_take hm
    · exact hm
  · exact .inr (by simpa using find?_some (Option.mem_toList.mp hm))

/-- For every conversation in which tool messages follow the message that has requested them,
and every limit: they still do so after the trimming, exactly if it does not split an exchange. -/
theorem trim_answered_iff (texts : PromptTexts) {messages : List MessageContent} (maxChars : Nat)
    (h : Paired none messages) :
    Paired none (trimLLMPromptMessages texts messages maxChars) ↔
      ¬ SplitsExchange texts messages maxChars := by
  by_cases hk : maxChars = 0 ∨ promptMessagesCharCount texts messages ≤ maxChars
  · have ht : trimLLMPromptMessages texts messages maxChars = messages := if_pos (by simpa using hk)
    rw [ht]
    refine iff_of_true h fun hs => ?_
    obtain ⟨hp, ho, -⟩ := hs
    omega
  · obtain ⟨⟨leading, body⟩, hpa⟩ : ∃ parts,
      promptParts texts id messages maxChars = parts := ⟨_, rfl⟩
    obtain ⟨hl, hf, last, hb⟩ := promptParts_paired h hpa
    have ht := trimLLMPromptMessages_eq (by omega) (by omega) hpa
    have hs : SplitsExchange texts messages maxChars ↔ ToolAt body
        (promptTailStart texts body (promptMessagesCharCount texts leading) maxChars) := by
      refine Iff.trans ?_ (toolAt_promptTailStart _ _ hf).symm
      rw [SplitsExchange, hpa]
      exact ⟨fun h => h.2.2, fun h => ⟨by omega, by omega, h⟩⟩
    rw [ht, hs, paired_append]
    have hbe : ∀ m ∈ lastRequest none leading, m.role ≠ .ai :=
      lastRequest_ne_ai nofun fun m hm => by rcases hl m hm with h | h <;> simp [h]
    constructor
    · rintro ⟨-, hta⟩ ⟨message, hme, hto⟩
      exact hta.startsFree hbe message (head?_drop.trans hme) hto
    · intro hc
      refine ⟨paired_of_ne_tool fun m hm => by rcases hl m hm with h | h <;> simp [h], ?_⟩
      rw [← take_append_drop (promptTailStart texts body (promptMessagesCharCount texts leading)
        maxChars) body, paired_append] at hb
      refine hb.2.of_startsFree fun message hme hto => hc ⟨message, ?_, hto⟩
      exact head?_drop.symm.trans hme

/-- Values and data have no text. -/
def plainTexts : PromptTexts := ⟨fun _ => "", fun _ => ""⟩

/-- A message of the model that calls a tool. -/
def callMessage (id : String) : MessageContent := ⟨.ai, [.toolCall ⟨id, "function", none⟩]⟩

def answerMessage (id content : String) : MessageContent :=
  ⟨.tool, [.toolResult { toolCallID := id, content }]⟩

/-- An exchange that fits is kept. -/
theorem kept_exchange_answered : Paired none (trimLLMPromptMessages plainTexts
      [textParts .human "", callMessage "a", answerMessage "a" ""] 80) := by
  refine (trim_answered_iff plainTexts 80 ?_).mpr fun h => absurd h.2.1 (by decide)
  simp [Paired, textParts, callMessage, answerMessage, Requests, messageHasToolCalls,
    MessageContent.toolCalls, MessageContent.toolResults, ContentPart.toolCall?,
    ContentPart.toolResult?]

/-- The answer fits, but the call does not. -/
theorem orphaned_answer :
    Paired none [textParts .human "", callMessage "a", answerMessage "a" ""] ∧
      trimLLMPromptMessages plainTexts
        [textParts .human "", callMessage "a", answerMessage "a" ""] 50 =
          [textParts .human "", answerMessage "a" ""] ∧
      ¬ Paired none [textParts .human "", answerMessage "a" ""] := by
  refine ⟨?_, rfl, ?_⟩ <;>
  simp [Paired, textParts, callMessage, answerMessage, Requests, messageHasToolCalls,
    MessageContent.toolCalls, MessageContent.toolResults, ContentPart.toolCall?,
    ContentPart.toolResult?]

/-! ## Growing conversations -/

theorem span_append {p : α → Bool} (hi : item ∈ items) (hp : p item = false) :
    (items ++ x).takeWhile p = items.takeWhile p ∧
      (items ++ x).dropWhile p = items.dropWhile p ++ x ∧ item ∈ items.dropWhile p := by
  induction items with
  | nil => cases hi
  | cons head items ih =>
    cases hh : p head with
    | true =>
      have hne : item ≠ head := by
        rintro rfl
        simp [hp] at hh
      simpa [takeWhile_cons, dropWhile_cons, hh] using ih ((mem_cons.mp hi).resolve_left hne)
    | false => simpa [takeWhile_cons, dropWhile_cons, hh] using hi

/-- More messages only extend the body. -/
theorem promptParts_append (hh : ∃ item ∈ items, (message item).role = .human) (x : List α) :
    promptParts texts message (items ++ x) maxChars = ((promptParts texts message items maxChars).1,
        (promptParts texts message items maxChars).2 ++ x) := by
  obtain ⟨item, hi, hr⟩ := hh
  obtain ⟨ht, hd, hre⟩ := span_append (x := x) hi
    (p := fun item => decide ((message item).role = .system)) (by simp [hr])
  obtain ⟨found, hf⟩ := Option.isSome_iff_exists.mp (find?_isSome
    (p := fun item => decide ((message item).role = .human)).mpr ⟨item, hre, decide_eq_true hr⟩)
  rw [promptParts, ht, hd, find?_append, hf, Option.some_or,
    eraseP_append_left (p := fun item => decide ((message item).role = .human))
      (decide_eq_true hr) x hre, promptParts, hf]

theorem promptParts_map (items : List α) : promptParts texts id (items.map message) maxChars =
      ((promptParts texts message items maxChars).1.map message,
        (promptParts texts message items maxChars).2.map message) := by
  simp only [promptParts, takeWhile_map, dropWhile_map, find?_map, eraseP_map, map_append, id,
    Function.comp_def, length_map, map_map, ← Option.toList_map]
  refine Prod.ext ?_ rfl
  dsimp only
  split <;> simp [map_take]

theorem find_append_eraseP_perm {p : α → Bool} (items : List α) :
    ((items.find? p).toList ++ items.eraseP p).Perm items := by
  induction items with
  | nil => exact .nil
  | cons item items ih =>
    cases hi : p item with
    | true => simp [hi]
    | false =>
      simp only [find?_cons, hi, eraseP_cons, cond_false]
      exact perm_middle.trans (ih.cons item)

/-- The prefix and the body share no message. -/
theorem promptParts_subperm (hp : promptParts texts message items maxChars = (leading, rest)) :
    (leading ++ rest).Subperm items := by
  obtain ⟨rfl, rfl⟩ := Prod.mk.inj hp
  have hs := takeWhile_append_dropWhile (l := items)
    (p := fun item => decide ((message item).role = .system))
  rw [append_assoc]
  refine (Subperm.append ?_ (find_append_eraseP_perm _).subperm).trans (Perm.of_eq hs).subperm
  split
  · exact (take_sublist _ _).subperm
  · exact .refl _

theorem nodup_positions {messages : List MessageContent}
    (hp : promptParts texts Prod.fst messages.zipIdx maxChars = (leading, rest)) :
    ((leading ++ rest).map Prod.snd).Nodup := by
  obtain ⟨l, hl, hs⟩ := promptParts_subperm hp
  refine (hl.map Prod.snd).nodup_iff.mp ((hs.map Prod.snd).nodup ?_)
  rw [zipIdx_map_snd]
  exact nodup_range'

/-- A later part of the body has a position that the earlier cut leaves out. -/
theorem exists_dropped_iff {leading rest : List (α × Nat)}
    (hn : ((leading ++ rest).map Prod.snd).Nodup) (hc : cut ≤ rest.length) :
    (∃ i ∈ (rest.drop other).map Prod.snd,
      i ∉ leading.map Prod.snd ++ (rest.drop cut).map Prod.snd) ↔ other < cut := by
  constructor
  · rintro ⟨i, hi, hno⟩
    refine Nat.not_le.mp fun hle => hno (mem_append_right _ ?_)
    exact map_subset _ (drop_subset_drop_left rest hle) hi
  · intro hlt
    have hlt' := Nat.lt_of_lt_of_le hlt hc
    rw [← take_append_drop cut rest, ← append_assoc, map_append, nodup_append] at hn
    have hm : rest[other] ∈ rest.take cut := by
      rw [mem_take_iff_getElem]
      exact ⟨other, by omega, rfl⟩
    refine ⟨rest[other].2, mem_map_of_mem (mem_drop_iff_getElem.mpr ⟨0, by omega, rfl⟩), ?_⟩
    rw [mem_append, not_or]
    have hb := mem_map_of_mem (f := Prod.snd) hm
    constructor
    · intro hl
      rw [map_append, nodup_append] at hn
      exact hn.1.2.2 _ hl _ hb rfl
    · intro hr
      exact hn.2.2 _ (by rw [map_append]; exact mem_append_right _ hb) _ hr rfl

/-- If a tail fits that starts before the cut, the cut is at a later stable boundary. -/
theorem lt_promptTailStart_iff (hne : body ≠ [])
    (hf : used + promptMessagesCharCount texts (body.drop a) ≤ maxChars) :
    a < promptTailStart texts body used maxChars ↔
      (∃ b, StableBoundary texts body (maxChars - used) b ∧ a < b) ∧
        ∀ b ≤ a, StableBoundary texts body (maxChars - used) b →
          maxChars < used + promptMessagesCharCount texts (body.drop b) := by
  cases hs : stablePromptTrimStart texts body (maxChars - used) with
  | none =>
    have hno := (stablePromptTrimStart_eq_none_iff hne).mp hs
    refine iff_of_false (Nat.not_lt.mpr ?_) ?_
    · obtain ⟨init, last, rfl⟩ := (eq_nil_or_concat' body).resolve_left hne
      rw [promptTailStart, hs, Option.getD_none]
      by_cases ha : a ≤ init.length
      · have hd := count_drop_le texts (init ++ [last]) ha
        rw [drop_left' rfl] at hd
        refine Nat.not_lt.mp fun hlt => ?_
        have := (fittingPromptTailStart_fits init last (by omega) rfl).2.2 a hlt
        omega
      · have := @promptTailStart_le texts used maxChars init last
        rw [promptTailStart, hs, Option.getD_none] at this
        omega
    · rintro ⟨⟨b, hb, hlt⟩, -⟩
      have := hno b hb
      have := count_drop_le texts body (Nat.le_of_lt hlt)
      omega
  | some c =>
    rw [promptTailStart, hs, Option.getD_some]
    have hfc := (stablePromptTrimStart_eq_some hs).1
    rw [stablePromptTrimStart] at hs
    split at hs
    · cases hs
    next hz =>
      have hc := mem_boundaries.mp (mem_of_find?_eq_some hs)
      constructor
      · refine fun hlt => ⟨⟨c, hc, hlt⟩, fun b hba hb => ?_⟩
        have hov := not_of_lt_find (ascending_boundaries body _) hs (mem_boundaries.mpr hb)
          (Nat.lt_of_le_of_lt hba hlt)
        simp at hov
        omega
      · rintro ⟨-, hno⟩
        refine Nat.not_le.mp fun hle => ?_
        have := hno c hle hc
        omega

/-- The last message does not fit with the prefix, the messages of its exchange before it fit,
and the shorter conversation was cut at a stable boundary inside or behind that exchange. -/
def ExchangeReturns (texts : PromptTexts) (messages more : List MessageContent)
    (last : MessageContent) (maxChars : Nat) : Prop :=
  let parts := promptParts texts id messages maxChars
  let used := promptMessagesCharCount texts parts.1
  let before := parts.2 ++ more
  maxChars < used + promptMessagesCharCount texts [last] ∧
    ∃ a ≤ before.length, Separate (before ++ [last]) a ∧
      (∀ c ≤ before.length, Separate (before ++ [last]) c → c ≤ a) ∧
      used + promptMessagesCharCount texts (before.drop a) ≤ maxChars ∧
      (∃ b, StableBoundary texts parts.2 (maxChars - used) b ∧ a < b) ∧
      ∀ b ≤ a, StableBoundary texts parts.2 (maxChars - used) b →
        maxChars < used + promptMessagesCharCount texts (parts.2.drop b)

/-- An exchange that returns is not empty and fits. -/
theorem ExchangeReturns.pos (h : ExchangeReturns texts messages more last maxChars) :
    0 < maxChars ∧ (promptParts texts id messages maxChars).2 ≠ [] := by
  obtain ⟨-, a, -, -, -, hf, ⟨b, hb, hlt⟩, -⟩ := h
  have hb' := hb.eq_zero_or_lt.resolve_left (Nat.ne_zero_of_lt hlt)
  refine ⟨?_, ne_nil_of_length_pos (Nat.zero_lt_of_lt hb')⟩
  have hp := promptCount_pos texts (drop_eq_nil_iff.not.mpr (Nat.not_le.mpr (show a < _ by
    rw [length_append]
    exact Nat.lt_add_right more.length (Nat.lt_trans hlt hb'))))
  omega

/-- The cut moves back exactly if an exchange returns. -/
theorem promptTailStart_moves_back_iff (hne : body ≠ []) (more : List MessageContent)
    (last : MessageContent) :
    promptTailStart texts (body ++ (more ++ [last])) used maxChars <
        promptTailStart texts body used maxChars ↔
      maxChars < used + promptMessagesCharCount texts [last] ∧
      ∃ a ≤ (body ++ more).length, Separate (body ++ more ++ [last]) a ∧
        (∀ c ≤ (body ++ more).length, Separate (body ++ more ++ [last]) c → c ≤ a) ∧
        used + promptMessagesCharCount texts ((body ++ more).drop a) ≤ maxChars ∧
        (∃ b, StableBoundary texts body (maxChars - used) b ∧ a < b) ∧
        ∀ b ≤ a, StableBoundary texts body (maxChars - used) b →
          maxChars < used + promptMessagesCharCount texts (body.drop b) := by
  obtain ⟨init, l, rfl⟩ := (eq_nil_or_concat' body).resolve_left hne
  have hcut := @promptTailStart_le texts used maxChars init l
  have hlen : (init ++ [l]).length = init.length + 1 := length_append
  generalize hbody : init ++ [l] = body at *
  by_cases hl : used + promptMessagesCharCount texts [last] ≤ maxChars
  · refine iff_of_false (Nat.not_lt.mpr ?_) fun h => Nat.not_lt.mpr hl h.1
    have hf := promptTailStart_fits (body ++ more) last hl
    rw [append_assoc] at hf
    subst hbody
    exact promptTailStart_le_of_fits init l rfl hf
  · have hl' := Nat.not_le.mp hl
    have hst : stablePromptTrimStart texts (body ++ more ++ [last]) (maxChars - used) = none := by
      refine (stablePromptTrimStart_eq_none_iff (by simp)).mpr fun b hb => ?_
      have hb' := hb.lt (by simp)
      rw [length_append, length_singleton] at hb'
      have hd := count_drop_le texts (body ++ more ++ [last]) (Nat.lt_succ_iff.mp hb')
      rw [drop_left' rfl] at hd
      omega
    obtain ⟨hse, hmax⟩ := adjustReducerTailStart_spec
      (show (body ++ more).length < (body ++ more ++ [last]).length by simp)
    have hle := adjustReducerTailStart_le (body ++ more ++ [last]) (body ++ more).length
    rw [← append_assoc, promptTailStart, hst, Option.getD_none,
      fittingPromptTailStart_over (body ++ more) last hl']
    generalize adjustReducerTailStart (body ++ more ++ [last]) (body ++ more).length = a at *
    have hbm : (body ++ more).length = body.length + more.length := length_append
    split
    next hf =>
      have hfb : a ≤ body.length →
          used + promptMessagesCharCount texts (body.drop a) ≤ maxChars := by
        intro hab
        rw [drop_append_of_le_length hab, count_append] at hf
        omega
      constructor
      · intro hlt
        exact ⟨hl', a, hle, hse, hmax, hf,
          (lt_promptTailStart_iff hne (hfb (by omega))).mp hlt⟩
      · rintro ⟨-, a', hle', hse', hmax', -, ⟨b, hb, hlt⟩, hno⟩
        obtain rfl : a' = a := Nat.le_antisymm (hmax a' hle' hse') (hmax' a hle hse)
        have := hb.lt hne
        exact (lt_promptTailStart_iff hne (hfb (by omega))).mpr ⟨⟨b, hb, hlt⟩, hno⟩
    next ho =>
      refine iff_of_false (by omega) ?_
      rintro ⟨-, a', hle', hse', hmax', hf, -⟩
      obtain rfl : a' = a := Nat.le_antisymm (hmax a' hle' hse') (hmax' a hle hse)
      exact ho hf

/-- For every conversation with a human message that exceeds the limit, and all messages that
are appended: what was dropped stays dropped exactly if no exchange returns. -/
theorem dropped_stays_dropped_iff {texts : PromptTexts} {messages : List MessageContent}
    {maxChars : Nat} (hhuman : ∃ m ∈ messages, m.role = .human)
    (hover : maxChars < promptMessagesCharCount texts messages) (more : List MessageContent)
    (last : MessageContent) :
    (∀ i < messages.length, i ∉ keptPositions texts messages maxChars →
      i ∉ keptPositions texts (messages ++ (more ++ [last])) maxChars) ↔
      ¬ ExchangeReturns texts messages more last maxChars := by
  obtain ⟨⟨leading, rest⟩, hp⟩ : ∃ parts,
    promptParts texts Prod.fst messages.zipIdx maxChars = parts := ⟨_, rfl⟩
  have hn : promptParts texts Prod.fst (messages ++ (more ++ [last])).zipIdx maxChars =
      (leading, rest ++ (more ++ [last]).zipIdx messages.length) := by
    rw [zipIdx_append, promptParts_append ?_, hp, Nat.zero_add]
    obtain ⟨m, hm, hr⟩ := hhuman
    obtain ⟨j, hj⟩ := mem_iff_getElem?.mp hm
    exact ⟨(m, j), mem_zipIdx_iff_getElem?.mpr hj, hr⟩
  have hid : promptParts texts id messages maxChars =
      (leading.map Prod.fst, rest.map Prod.fst) := by
    rw [← zipIdx_map_fst 0 messages, promptParts_map, hp]
  rcases Nat.eq_zero_or_pos maxChars with rfl | hpo
  · refine iff_of_true (fun i hi hd => absurd ?_ hd) fun h => Nat.lt_irrefl 0 h.pos.1
    simpa [keptPositions, trimItems, zipIdx_map_snd] using hi
  have hkept := trimItems_eq hpo (by simpa using hover) hp
  have hkept' := trimItems_eq hpo (by simp at hover ⊢; omega) hn
  rw [map_append, zipIdx_map_fst, drop_append] at hkept'
  -- the new messages have new positions, so only the old body matters
  have hreturn : (∀ i < messages.length, i ∉ keptPositions texts messages maxChars →
      i ∉ keptPositions texts (messages ++ (more ++ [last])) maxChars) ↔
      ¬ ∃ i ∈ (rest.drop (promptTailStart texts (rest.map Prod.fst ++ (more ++ [last]))
          (promptMessagesCharCount texts (leading.map Prod.fst)) maxChars)).map Prod.snd,
        i ∉ leading.map Prod.snd ++ (rest.drop (promptTailStart texts (rest.map Prod.fst)
          (promptMessagesCharCount texts (leading.map Prod.fst)) maxChars)).map Prod.snd := by
    rw [keptPositions, hkept, keptPositions, hkept', map_append, map_append, map_append]
    constructor
    · rintro h ⟨i, hi, hno⟩
      refine h i ?_ hno (mem_append_right _ (mem_append_left _ hi))
      obtain ⟨⟨m, j⟩, hm, rfl⟩ := mem_map.mp hi
      have hsu := (promptParts_subperm hp).subset (mem_append_right leading (mem_of_mem_drop hm))
      exact (mem_zipIdx hsu).2.1.trans_eq (Nat.zero_add _)
    · intro h i hi hno hk
      rcases mem_append.mp hk with hk | hk
      · exact hno (mem_append_left _ hk)
      · rcases mem_append.mp hk with hk | hk
        · exact h ⟨i, hk, hno⟩
        · obtain ⟨⟨m, j⟩, hm, rfl⟩ := mem_map.mp hk
          have := (mem_zipIdx (mem_of_mem_drop hm)).1
          omega
  rw [hreturn]
  rcases eq_or_ne rest [] with rfl | hne
  · exact iff_of_true (by simp) fun h => h.pos.2 (by rw [hid]; rfl)
  · have hne' : rest.map Prod.fst ≠ [] := by simpa using hne
    have hc : promptTailStart texts (rest.map Prod.fst)
        (promptMessagesCharCount texts (leading.map Prod.fst)) maxChars ≤ rest.length := by
      obtain ⟨init, l, he⟩ := (eq_nil_or_concat' (rest.map Prod.fst)).resolve_left hne'
      have hle := @promptTailStart_le texts
        (promptMessagesCharCount texts (leading.map Prod.fst)) maxChars init l
      have hlen := congrArg length he
      rw [length_map, length_append, length_singleton] at hlen
      rw [he]
      omega
    rw [exists_dropped_iff (nodup_positions hp) hc, promptTailStart_moves_back_iff hne',
      ExchangeReturns, hid]

/-- Two exchanges after a message of the model; the last call is not answered yet. -/
def twoExchanges : List MessageContent :=
  [textParts .human "", textParts .ai "", callMessage "a", answerMessage "a" "", callMessage "b"]

/-- After a short answer the first exchange stays dropped. -/
theorem short_answer_stays_dropped : keptPositions plainTexts twoExchanges 113 = [0, 4] ∧
      ∀ i < 5, i ∉ keptPositions plainTexts twoExchanges 113 →
        i ∉ keptPositions plainTexts (twoExchanges ++ ([] ++ [answerMessage "b" ""])) 113 :=
  ⟨rfl, (@dropped_stays_dropped_iff plainTexts twoExchanges 113
    ⟨textParts .human "", mem_cons_self, rfl⟩ (by decide) [] (answerMessage "b" "")).mpr
      fun h => absurd h.1 (by decide)⟩

/-- After an answer that does not fit the first exchange comes back. -/
theorem dropped_exchange_returns : keptPositions plainTexts twoExchanges 113 = [0, 4] ∧
      keptPositions plainTexts (twoExchanges ++
        [answerMessage "b" (String.ofList (replicate 80 'x'))]) 113 = [0, 2, 3, 4, 5] :=
  ⟨rfl, rfl⟩

end

end WeaveFlow
