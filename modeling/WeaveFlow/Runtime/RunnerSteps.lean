import WeaveFlow.Runtime.ChildRuns

/-!
# What runners do to the runs

Runners create runs and replace records by their next revision.  `RunnerStep`
says what all of these writes have in common: a run that is reserved for deletion
is left alone, the lineage of a run does not change, and the children a run lists
are never dropped.
-/

namespace WeaveFlow

open Proc Outcome

/-! ## The children of a run -/

/-- The children in a record, linked or reserved. -/
def RunRecord.listed (run : RunRecord) : List String :=
  run.childRunIDs ++ run.pendingChildRuns.map (·.childRunID)

theorem RunRecord.mem_listed {run : RunRecord} {child : String} : child ∈ run.listed ↔
      child ∈ run.childRunIDs ∨ ∃ pending ∈ run.pendingChildRuns, pending.childRunID = child := by
  simp [listed]

/-- The id of a child that `RunChild` derives from a request to the parent. -/
def IsChildID (digest : List String → String) (parentRunID childRunID : String) : Prop :=
  ∃ request : ChildRunRequest, request.parentRunID = parentRunID ∧
    childRunID = childRunIDForRequestKey (childRunRequestKey digest request)

/-- Every stored record passes the check of its children. -/
def MemoryStore.ChildStatesValid (store : MemoryStore) : Prop :=
  ∀ runID run, store.runs.get runID = some run → validateRunChildState run = .ok ()

/-! ## Steps of runners -/

section

variable (digest : List String → String)

/-- A record and one that a runner computes from it. -/
structure ParentChange (existing next : RunRecord) : Prop where
  runID : next.runID = existing.runID
  revision : next.revision = existing.revision
  deletion : next.deletion = existing.deletion
  parent : next.parentRunID = existing.parentRunID
  root : next.rootRunID = existing.rootRunID
  listed : ∀ child ∈ existing.listed, child ∈ next.listed
  linked : ∀ child ∈ existing.childRunIDs, child ∈ next.childRunIDs
  named : ∀ child ∈ next.listed, child ∈ existing.listed ∨ IsChildID digest next.runID child
  /-- A run that has ended stays so and gets no more children. -/
  ended : existing.status.isTerminal = true →
    next.status.isTerminal = true ∧ ∀ child ∈ next.listed, child ∈ existing.listed

/-- The runs before a write by a runner, and after it. -/
inductive RunnerMove (store : MemoryStore) : KeyedMap RunRecord.runID → Prop
  | same : RunnerMove store store.runs
  | created (run : RunRecord) :
      store.AcceptsRun run → run.listed = [] →
        (run.parentRunID ≠ "" → run.childRequestKey ≠ "") →
        (run.parentRunID = "" → ∀ parent, ¬ IsChildID digest parent run.runID) →
        RunnerMove store (store.runs.put run)
  | updated (existing next : RunRecord) :
      store.runs.get next.runID = some existing → ParentChange digest existing next →
        existing.deletion = none → validateRunChildState next = .ok () →
        RunnerMove store (store.runs.put (MemoryStore.bumped next))

structure RunnerStep (store store' : MemoryStore) : Prop where
  runs : RunnerMove digest store store'.runs
  fences : store'.fences = store.fences

theorem RunnerStep.refl (store : MemoryStore) : RunnerStep digest store store := ⟨.same, rfl⟩

variable {digest}

theorem ParentChange.trans (h : ParentChange digest a b) (h' : ParentChange digest b c) :
    ParentChange digest a c where
  runID := h'.runID.trans h.runID
  revision := h'.revision.trans h.revision
  deletion := h'.deletion.trans h.deletion
  parent := h'.parent.trans h.parent
  root := h'.root.trans h.root
  listed child hc := h'.listed child (h.listed child hc)
  linked child hc := h'.linked child (h.linked child hc)
  named child hc := by
    rcases h'.named child hc with hc | hc
    · rcases h.named child hc with hc | hc
      · exact .inl hc
      · exact .inr (h'.runID ▸ hc)
    · exact .inr hc
  ended ha := ⟨(h'.ended (h.ended ha).1).1, fun child hc =>
      (h.ended ha).2 child ((h'.ended (h.ended ha).1).2 child hc)⟩

end

/-! ## One run -/

section

variable {digest : List String → String}

/-- One run before a write by a runner, and after it. -/
inductive RunnerChange (digest : List String → String) (store : MemoryStore) (runID : String) :
    Option RunRecord → Option RunRecord → Prop
  | same (run : Option RunRecord) : RunnerChange digest store runID run run
  | created (run : RunRecord) :
      run.runID = runID → store.AcceptsRun run → run.listed = [] →
        (run.parentRunID ≠ "" → run.childRequestKey ≠ "") →
        (run.parentRunID = "" → ∀ parent, ¬ IsChildID digest parent run.runID) →
        RunnerChange digest store runID none (some run)
  | updated (existing next : RunRecord) :
      next.runID = runID → ParentChange digest existing next → existing.deletion = none →
        validateRunChildState next = .ok () →
        RunnerChange digest store runID (some existing) (some (MemoryStore.bumped next))

variable {store : MemoryStore}

theorem RunnerMove.change (h : RunnerMove digest store runs') (runID : String) :
    RunnerChange digest store runID (store.runs.get runID) (runs'.get runID) := by
  cases h with
  | same => exact .same _
  | created run ha hl hk hr =>
    rw [KeyedMap.get_put]
    split
    next hid =>
      rw [hid, ha.free]
      exact .created run rfl ha hl hk hr
    · exact .same _
  | updated existing next hs hc hd hch =>
    rw [KeyedMap.get_put]
    split
    next hid =>
      have hid : runID = next.runID := hid
      rw [hid, hs]
      exact .updated existing next rfl hc hd hch
    · exact .same _

/-- The record of a run after a step of a runner. -/
theorem RunnerStep.change (h : RunnerStep digest store store') (runID : String) :
    RunnerChange digest store runID (store.runs.get runID) (store'.runs.get runID) :=
  h.runs.change runID

theorem RunnerStep.evolves (h : RunnerStep digest store store') : Evolves store store' := by
  refine ⟨fun runID hf => by rw [h.fences]; exact hf, ?_, ?_⟩
  · intro runID run hg
    have hc := h.change runID
    rw [hg] at hc
    generalize hn : store'.runs.get runID = next at hc
    cases hc with
    | same => exact .inl ⟨run, rfl, .inl rfl⟩
    | updated existing next hid hp _ _ =>
      refine .inl ⟨_, rfl, .inr ?_⟩
      show run.revision < next.revision + 1
      rw [hp.revision]
      exact Nat.lt_succ_self _
  · intro runID hg hf
    have hc := h.change runID
    rw [hg] at hc
    generalize hn : store'.runs.get runID = next at hc
    cases hc with
    | same => rfl
    | created run hid ha _ _ _ =>
      have hno := ha.fence
      rw [hid] at hno
      exact absurd hno hf

/-- A runner stores only records that pass the check of their children. -/
theorem RunnerStep.childStatesValid (h : RunnerStep digest store store')
    (hs : store.ChildStatesValid) : store'.ChildStatesValid := by
  intro runID run hg
  have hc := h.change runID
  rw [hg] at hc
  generalize hp : store.runs.get runID = previous at hc
  cases hc with
  | same => exact hs runID run hp
  | created _ _ ha _ _ _ => exact ha.childState
  | updated existing next _ _ _ hch => exact hch

def MemoryStore.LinkedChild (store : MemoryStore) (runID child : String) : Prop :=
  ∃ run, store.runs.get runID = some run ∧ child ∈ run.childRunIDs

/-- A linked child stays linked. -/
theorem RunnerStep.linkedChild (h : RunnerStep digest store store')
    (hs : store.LinkedChild runID child) : store'.LinkedChild runID child := by
  obtain ⟨run, hg, hc⟩ := hs
  have hch := h.change runID
  rw [hg] at hch
  generalize hn : store'.runs.get runID = next at hch
  cases hch with
  | same => exact ⟨run, hn, hc⟩
  | updated existing next _ hp _ _ => exact ⟨_, hn, hp.linked child hc⟩

/-! ## Writes that are runner steps -/

/-- Outside a deletion no run that is reserved is changed, and none is reserved. -/
theorem deletion_of_transition (hu : ctx.unlinkMutation = none) (hd : ctx.deletionMutation = none)
    (h : validateRunDeletionTransition ctx existing next = .ok ()) : existing.deletion = none := by
  rw [validateRunDeletionTransition, hu] at h
  obtain ⟨_, -, h⟩ := of_bind h
  obtain ⟨_, -, h⟩ := of_bind h
  cases he : existing.deletion with
  | none => rfl
  | some previous =>
    cases hn : next.deletion with
    | none => simp [he, hn] at h
    | some deletion =>
      rw [he, hn, hd] at h
      obtain ⟨_, hr, -⟩ := of_bind h
      simp at hr

/-- A write of a record that was computed from the stored one. -/
theorem runnerStep_of_swaps (hc : ParentChange digest existing next)
    (hu : ctx.unlinkMutation = none) (hd : ctx.deletionMutation = none)
    (h : store.Swaps ctx existing next)
    (hr : store'.runs = store.runs.put (MemoryStore.bumped next))
    (hf : store'.fences = store.fences) : RunnerStep digest store store' := by
  refine ⟨?_, hf⟩
  rw [hr]
  exact .updated existing next h.stored hc (deletion_of_transition hu hd h.deletion) h.childState

end

end WeaveFlow
