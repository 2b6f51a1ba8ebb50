import WeaveFlow.Agent.Tool
import WeaveFlow.Runner.AgentCheckpoint

/-!
# The budget of an agent

An agent may be limited in its iterations, tool calls, tokens and cost.  What it has used is a
value in the internal section of a state: `ConsumeAgentBudget` loads it from the state that the
provider of the context hands out, adds what is used next, compares the sums with the limits and
stores them in the same state.

The provider of an agent node hands out a new clone of its working copy at every call.  The sums
are stored in the clone, and the clone is dropped.  As the working copy holds nothing of the
internal section either, every comparison starts from nothing (`consumeAgentBudget_fresh`).

A budget that is kept in a state goes through its checkpoints as an object of numbers
(`budget_restored_iff`).
-/

namespace WeaveFlow

open State Outcome MapTree

structure AgentBudget where
  iterations : Int := 0
  toolCalls : Int := 0
  totalTokens : Int := 0
  totalCost : Rat := 0
  deriving DecidableEq

structure AgentBudgetUsage where
  iterations : Int := 0
  toolCalls : Int := 0
  totalTokens : Int := 0
  cost : Rat := 0

/-- `AgentBudgetLimits`; a limit that is not positive is none. -/
structure AgentBudgetLimits where
  maxIterations : Int
  maxToolCalls : Int
  maxTokens : Int
  maxCost : Rat

inductive BudgetError where
  | text (message : String)
  | exceeded (kind : String) (limit actual : Rat)
  deriving DecidableEq

/-! ## Load and store -/

def agentBudgetPath : Path := ⟨sectionInternal, ["agent", "budget"], by decide⟩

/-- The fields of an `AgentBudget`. -/
def AgentBudget.entries (budget : AgentBudget) : List (String × Option Raw) :=
  [("iterations", some (Raw.int budget.iterations)),
    ("tool_calls", some (Raw.int budget.toolCalls)),
    ("total_cost", some (.leaf (.float64 budget.totalCost))),
    ("total_tokens", some (Raw.int budget.totalTokens))]

/-- An `AgentBudget` as a value. -/
def AgentBudget.value (budget : AgentBudget) : Raw :=
  .leaf (.opaqueValue "runtime.AgentBudget" (.node (Assoc.present budget.entries)))

theorem AgentBudget.valid_value (budget : AgentBudget) : budget.value.Valid := by
  have hj : Raw.Valid (.node (Assoc.present budget.entries)) := by
    refine valid_present
      (sorted_of_keys ["iterations", "tool_calls", "total_cost", "total_tokens"] rfl (by decide)) ?_
    simp only [AgentBudget.entries, List.forall_mem_cons, List.not_mem_nil, false_implies,
      implies_true, and_true, Option.some.injEq, forall_eq']
    exact ⟨rfl, rfl, rfl, rfl⟩
  exact Raw.valid_opaqueValue (by decide) hj

def parseDecimal (text : String) : Int :=
  match text.toList with
  | '-' :: digits => -((String.ofList digits).toNat?.getD 0)
  | '+' :: digits => (String.ofList digits).toNat?.getD 0
  | digits => (String.ofList digits).toNat?.getD 0

def intBudgetValue : Option Raw → Int
  | some (.leaf (.int n)) => n
  | some (.leaf (.float64 q)) => if 0 ≤ q then q.floor else q.ceil
  | some (.leaf (.string text)) => parseDecimal text
  | _ => 0

/-- The cost is a `float64`. -/
def costBudgetValue : Option Raw → Rat
  | some (.leaf (.float64 q)) => q
  | _ => 0

def AgentBudget.ofFields (kids : Object) : AgentBudget where
  iterations := intBudgetValue (Assoc.get "iterations" kids)
  toolCalls := intBudgetValue (Assoc.get "tool_calls" kids)
  totalTokens := intBudgetValue (Assoc.get "total_tokens" kids)
  totalCost := costBudgetValue (Assoc.get "total_cost" kids)

/-- No number is negative. -/
def AgentBudget.nonnegative (budget : AgentBudget) : Bool :=
  0 ≤ budget.iterations && 0 ≤ budget.toolCalls && 0 ≤ budget.totalTokens && 0 ≤ budget.totalCost

def decodeAgentBudget (value : Raw) : Except String AgentBudget :=
  let checked (budget : AgentBudget) : Except String AgentBudget :=
    if budget.nonnegative then .ok budget else .error "agent budget values cannot be negative"
  match value with
  | .leaf (.opaqueValue "runtime.AgentBudget" (.node kids)) => checked (.ofFields kids)
  | .node kids => checked (.ofFields kids)
  | other => .error ("agent budget has invalid type " ++ other.typeText)

/-- `LoadAgentBudget`; a budget that is not there is zero. -/
def loadAgentBudget (current : State) : Except String AgentBudget :=
  match current.read agentBudgetPath with
  | none => .ok {}
  | some value => decodeAgentBudget value

def storeAgentBudget (current : State) (budget : AgentBudget) : Except String State := do
  requireText budget.nonnegative "agent budget values cannot be negative"
  ((Patch.mk [⟨.set, agentBudgetPath, budget.value, "", budget.valid_value⟩]).apply
    current).mapError PatchError.message

/-! ## Consume -/

/-- One comparison of `validateAgentBudgetLimits`. -/
def checkLimit (kind : String) (limit actual : Rat) : Except BudgetError Unit :=
  if 0 < limit ∧ limit < actual then .error (.exceeded kind limit actual) else .ok ()

def validateAgentBudgetLimits (budget : AgentBudget) (limits : AgentBudgetLimits) :
    Except BudgetError Unit := do
  checkLimit "iterations" limits.maxIterations budget.iterations
  checkLimit "tool_calls" limits.maxToolCalls budget.toolCalls
  checkLimit "tokens" limits.maxTokens budget.totalTokens
  checkLimit "cost" limits.maxCost budget.totalCost

def AgentBudget.add (budget : AgentBudget) (usage : AgentBudgetUsage) : AgentBudget where
  iterations := budget.iterations + usage.iterations
  toolCalls := budget.toolCalls + usage.toolCalls
  totalTokens := budget.totalTokens + usage.totalTokens
  totalCost := budget.totalCost + usage.cost

/-- `ConsumeAgentBudget` on what the provider hands out: the budget, and the state in which it
was stored. -/
def consumeAgentBudget (provided : Option State) (limits : AgentBudgetLimits)
    (usage : AgentBudgetUsage) : Except BudgetError (AgentBudget × Option State) :=
  if usage.iterations < 0 ∨ usage.toolCalls < 0 ∨ usage.totalTokens < 0 ∨ usage.cost < 0 then
    .error (.text "agent budget usage cannot be negative")
  else
    match provided with
    | none => .ok ({}, none)
    | some current => do
        let budget ← (loadAgentBudget current).mapError .text
        validateAgentBudgetLimits (budget.add usage) limits
        let stored ← (storeAgentBudget current (budget.add usage)).mapError .text
        return (budget.add usage, some stored)

theorem checkLimit_eq_ok : checkLimit kind limit actual = .ok u ↔ limit ≤ 0 ∨ actual ≤ limit := by
  rw [checkLimit]
  split
  next h =>
    simp only [reduceCtorEq, false_iff, not_or, Rat.not_le]
    exact h
  next h =>
    rw [not_and_or, Rat.not_lt, Rat.not_lt] at h
    simpa using h

structure AgentBudget.Within (budget : AgentBudget) (limits : AgentBudgetLimits) : Prop where
  iterations : limits.maxIterations ≤ 0 ∨ budget.iterations ≤ limits.maxIterations
  toolCalls : limits.maxToolCalls ≤ 0 ∨ budget.toolCalls ≤ limits.maxToolCalls
  tokens : limits.maxTokens ≤ 0 ∨ budget.totalTokens ≤ limits.maxTokens
  cost : limits.maxCost ≤ 0 ∨ budget.totalCost ≤ limits.maxCost

theorem validateAgentBudgetLimits_eq_ok :
    validateAgentBudgetLimits budget limits = .ok u ↔ budget.Within limits := by
  have hc : ∀ limit actual : Int, ((limit : Rat) ≤ 0 ∨ (actual : Rat) ≤ limit) ↔
      (limit ≤ 0 ∨ actual ≤ limit) := fun limit actual => by
    rw [Rat.intCast_le_intCast, Rat.intCast_nonpos]
  simp only [validateAgentBudgetLimits, bind_eq_ok, checkLimit_eq_ok, exists_const, hc]
  exact ⟨fun h => ⟨h.1, h.2.1, h.2.2.1, h.2.2.2⟩,
    fun h => ⟨h.iterations, h.toolCalls, h.tokens, h.cost⟩⟩

/-! ## Working copies without an internal section -/

/-- The internal section is empty. -/
def HoldsNoInternal (current : State) : Prop :=
  ∀ path : Path, path.sectionName = sectionInternal → path.segments ≠ [] → current.read path = none

/-- The states that an agent node provides. -/
theorem AgentState.holdsNoInternal (h : AgentState waveState data agentState) :
    HoldsNoInternal agentState :=
  fun _ => h.read_internal

section

variable {current : State} (hnone : HoldsNoInternal current)

include hnone

theorem storeAgentBudget_fresh (hb : budget.nonnegative = true) :
    ∃ stored, storeAgentBudget current budget = .ok stored := by
  have ha := hnone ⟨sectionInternal, ["agent"], by decide⟩ rfl (by decide)
  obtain ⟨kids, hk⟩ := hasSections_iff.mp current.ok.2 sectionInternal (by decide)
  rw [State.read, Root.read_eq_lookAt rfl, Path.keys, lookAt_cons_node, hk, lookAt_cons_node] at ha
  have hf : blockedAt agentBudgetPath.keys (some (.node current.root)) = false := by
    show blockedAt ["agent", "budget"] (Assoc.get sectionInternal current.root) = false
    rw [hk]
    show blockedAt ["budget"] (Assoc.get "agent" kids) = false
    rw [show Assoc.get "agent" kids = none from ha]
    rfl
  have he := (editAt_true_isSome (setUpdate agentBudgetPath budget.value)
    agentBudgetPath.keys (some (.node current.root))).mpr ⟨hf, rfl⟩
  rw [← apply_set_toOption rfl budget.valid_value current] at he
  cases hap : (Patch.mk [⟨.set, agentBudgetPath, budget.value, "", budget.valid_value⟩]).apply
      current with
  | error e =>
    rw [hap] at he
    cases he
  | ok stored =>
    refine ⟨stored, bind_eq_ok.mpr ⟨(), requireText_eq_ok.mpr hb, ?_⟩⟩
    rw [hap]
    rfl

/-- Every use is compared with the limits by itself. -/
theorem consumeAgentBudget_fresh : (∃ r, consumeAgentBudget (some current) limits usage = .ok r) ↔
      (({} : AgentBudget).add usage).nonnegative = true ∧
        (({} : AgentBudget).add usage).Within limits := by
  have hl : loadAgentBudget current = .ok {} := by
    rw [loadAgentBudget, hnone agentBudgetPath rfl (by decide)]
  have hs : (({} : AgentBudget).add usage).nonnegative = true ↔
      ¬ (usage.iterations < 0 ∨ usage.toolCalls < 0 ∨ usage.totalTokens < 0 ∨ usage.cost < 0) := by
    simp [AgentBudget.nonnegative, AgentBudget.add, and_assoc]
  rw [consumeAgentBudget, hs]
  split
  next hn => simp [hn]
  next hp =>
    rw [hl]
    constructor
    · rintro ⟨r, h⟩
      obtain ⟨_, hb, h⟩ := of_bind h
      cases hb
      obtain ⟨_, hv, -⟩ := of_bind h
      exact ⟨hp, validateAgentBudgetLimits_eq_ok.mp hv⟩
    · rintro ⟨-, hw⟩
      obtain ⟨stored, hst⟩ := storeAgentBudget_fresh hnone (hs.mpr hp)
      refine ⟨_, bind_eq_ok.mpr ⟨_, rfl, bind_eq_ok.mpr
        ⟨(), validateAgentBudgetLimits_eq_ok.mpr hw, bind_eq_ok.mpr ⟨stored, ?_, rfl⟩⟩⟩⟩
      rw [hst]
      rfl

end

/-! ## Through a checkpoint -/

/-- A checkpoint makes a whole cost an integer, which is not read as a cost. -/
theorem loadAgentBudget_restored {current stored : State} {budget : AgentBudget}
    (hc : budget.totalCost.den = 1) (hs : storeAgentBudget current budget = .ok stored) :
    loadAgentBudget stored.restored = .ok { budget with totalCost := 0 } := by
  obtain ⟨_, hsi, hse⟩ := of_bind hs
  obtain ⟨o, ho⟩ := read_apply_own [] (mapError_eq_ok.mp hse) nofun
  have hr := read_restored (Option.some.inj ho).symm
  have hf : budget.value.jsonNormal = .node
      [("iterations", Raw.int budget.iterations), ("tool_calls", Raw.int budget.toolCalls),
        ("total_cost", Raw.int budget.totalCost.num),
        ("total_tokens", Raw.int budget.totalTokens)] := by
    simp [AgentBudget.value, AgentBudget.entries, Assoc.present, Raw.jsonNormal, Raw.jsonLeaf,
      Raw.jsonKids, hc]
  have hn : ({ budget with totalCost := 0 } : AgentBudget).nonnegative = true := by
    have hsi := requireText_eq_ok.mp hsi
    simp only [AgentBudget.nonnegative, Bool.and_eq_true] at hsi ⊢
    exact ⟨hsi.1, rfl⟩
  rw [loadAgentBudget, hr, hf]
  exact if_pos hn

/-- A budget with a whole cost is loaded from a checkpoint as it was stored exactly if the cost
is zero. -/
theorem budget_restored_iff {current stored restored : State} {budget : AgentBudget}
    (hcost : budget.totalCost.den = 1) (hstore : storeAgentBudget current budget = .ok stored)
    (hrestore : stored.restore = .ok restored) :
    loadAgentBudget restored = .ok budget ↔ budget.totalCost = 0 := by
  rw [restore_eq] at hrestore
  cases hrestore
  rw [loadAgentBudget_restored hcost hstore, Except.ok.injEq]
  constructor
  · intro h
    exact (congrArg AgentBudget.totalCost h).symm
  · intro h
    rw [← h]

theorem counters_restored : ∃ stored restored,
    storeAgentBudget newState { iterations := 3, toolCalls := 2, totalTokens := 700 } = .ok stored ∧
      stored.restore = .ok restored ∧
      loadAgentBudget restored = .ok { iterations := 3, toolCalls := 2, totalTokens := 700 } := by
  have hs : storeAgentBudget newState
    { iterations := 3, toolCalls := 2, totalTokens := 700 } = .ok _ := rfl
  exact ⟨_, _, hs, restore_eq _, (budget_restored_iff rfl hs (restore_eq _)).mpr rfl⟩

/-- A cost of 2 is loaded as 0. -/
theorem cost_lost : ∃ stored restored, storeAgentBudget newState { totalCost := 2 } = .ok stored ∧
    stored.restore = .ok restored ∧ loadAgentBudget restored = .ok { totalCost := 0 } := by
  have hs : storeAgentBudget newState { totalCost := 2 } = .ok _ := rfl
  exact ⟨_, _, hs, restore_eq _, loadAgentBudget_restored rfl hs⟩

end WeaveFlow
