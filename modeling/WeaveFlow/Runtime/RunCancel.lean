import WeaveFlow.Runtime.LeaseFencing
import WeaveFlow.Runtime.StoreProc

/-!
# Cancelling a paused run

`CancelPausedRun` walks from a run along the linked child runs, cancels the paused ones from the
leaves upwards and marks each run it has entered.  A run that is entered again while it is still
open closes a cycle and stops the walk, so that the walk is never deeper than there are runs.

A child run that its parent has only reserved is not linked: the walk does not come to it
(`canceled_hierarchy`).
-/

namespace WeaveFlow

open Outcome

/-! ## The service -/

def RunStatus.text : RunStatus → String
  | pending => "pending"
  | running => "running"
  | paused => "paused"
  | failed => "failed"
  | completed => "completed"
  | canceled => "canceled"

/-- `runCancelVisit`: a run that is open, or one that is done. -/
inductive RunCancelVisit where
  | visiting (run : RunRecord)
  | done (run : RunRecord)

/-- What the service reads from outside for one commit: the clock and the ids it generates. -/
structure ControlDraw where
  now : Time
  transactionID : String
  requestedEventID : String
  canceledEventID : String

/-- The store and the marks of the walk. -/
structure CancelState where
  store : MemoryStore
  visits : SortedMap String RunCancelVisit

/-- An answer of the walk, with the state it leaves; none where the recursion goes deeper than it
may. -/
abbrev CancelAnswer (α : Type) := Option (Except RunError α × CancelState)

def CancelState.visit (st : CancelState) (runID : String) (visit : RunCancelVisit) : CancelState :=
  { st with visits := st.visits.put runID visit }

def canceledRun (run : RunRecord) (now : Time) : RunRecord :=
  { run with
    pauseRequested := false
    status := .canceled
    cancelRequested := false
    updatedAt := now
    finishedAt := some now }

def cancelCommit (run : RunRecord) (draw : ControlDraw) : Commit where
  transactionID := draw.transactionID
  lease := run.executionLeaseGuard
  run := some ⟨.update, run⟩
  events := [
    { id := draw.requestedEventID, runID := run.runID, nodeID := run.currentNodeID
      type := .other "run.cancel_requested", timestamp := draw.now },
    { id := draw.canceledEventID, runID := run.runID, nodeID := run.currentNodeID
      type := .other "run.canceled", timestamp := draw.now }]

/-- The end of the loop body of `cancelPausedRun`: the run itself, after its children. -/
def MemoryStore.cancelRecord (store : MemoryStore) (ctx : Context) (draw : ControlDraw)
    (run : RunRecord) (root : Bool) : Except RunError (RunRecord × MemoryStore) :=
  if run.status = .canceled then .ok (run, store)
  else if run.status ≠ .paused then
    if !root && (run.status = .completed || run.status = .failed) then .ok (run, store)
    else .error (.controlNotAllowed ("run " ++ quoted run.runID ++ " status " ++
      quoted run.status.text ++ " cannot be canceled without an active runner"))
  else do
    let canceled := canceledRun run draw.now
    let committed ← store.commitGenerated ctx (cancelCommit canceled draw)
    return (committed.1.run.getD canceled, committed.2)

/-- The loop over the child runs; `cancel` is the recursive call, with the child and its parent. -/
def cancelChildren (cancel : String → String → CancelState → CancelAnswer RunRecord)
    (runID : String) : List String → CancelState → CancelAnswer Unit
  | [], st => some (.ok (), st)
  | childRunID :: rest, st =>
    if trimSpace childRunID = "" then
      some (.error (.invalid ("run " ++ quoted runID ++ " has an empty child run ID")), st)
    else
      match cancel (trimSpace childRunID) runID st with
      | none => none
      | some (.error e, st) =>
        some (.error (e.within ("cancel child run " ++ quoted (trimSpace childRunID) ++ " of " ++
          quoted runID)), st)
      | some (.ok _, st) => cancelChildren cancel runID rest st

/-- The loop of `cancelPausedRun`, with the attempts that are left. -/
def cancelAttempts (ctx : Context) (draws : String → Nat → ControlDraw)
    (cancel : String → String → CancelState → CancelAnswer RunRecord)
    (runID expectedParentRunID : String) (root : Bool) :
    Nat → CancelState → CancelAnswer RunRecord
  | 0, st => some (.error (.retriesExceeded "cancel paused run"), st)
  | attempts + 1, st =>
    match st.store.getRun runID with
    | .error e => some (.error e, st)
    | .ok run =>
      if expectedParentRunID ≠ "" ∧ run.parentRunID ≠ expectedParentRunID then
        some (.error (.invalid ("child run " ++ quoted run.runID ++ " parent is " ++
          quoted run.parentRunID ++ ", want " ++ quoted expectedParentRunID)), st)
      else
        match cancelChildren cancel run.runID run.childRunIDs (st.visit runID (.visiting run)) with
        | none => none
        | some (.error e, st) => some (.error e, st)
        | some (.ok _, st) =>
          match st.store.cancelRecord ctx (draws runID attempts) run root with
          | .ok (run, store) => some (.ok run, ({ st with store }.visit runID (.done run)))
          | .error e =>
            if e.isRevisionConflict then
              cancelAttempts ctx draws cancel runID expectedParentRunID root attempts st
            else some (.error e, st)

/-- `cancelPausedRun`, as deep as `depth` calls. -/
def cancelRuns (ctx : Context) (draws : String → Nat → ControlDraw) :
    Nat → String → String → Bool → CancelState → CancelAnswer RunRecord
  | 0, _, _, _, _ => none
  | depth + 1, runID, expectedParentRunID, root, st =>
    match st.visits.get runID with
    | some (.visiting _) =>
      some (.error (.invalid ("child run lineage cycle includes " ++ quoted runID)), st)
    | some (.done run) => some (.ok run, st)
    | none =>
      cancelAttempts ctx draws (fun childRunID parentRunID =>
          cancelRuns ctx draws depth childRunID parentRunID false)
        runID expectedParentRunID root runRevisionRetryLimit st

/-- `CancelPausedRun`, with one call more than there are runs. -/
def MemoryStore.cancelPausedRun (store : MemoryStore) (ctx : Context)
    (draws : String → Nat → ControlDraw) (runID : String) :
    Option (Except RunError RunRecord × MemoryStore) :=
  (cancelRuns ctx draws (store.runs.vals.length + 1) (trimSpace runID) "" true
    ⟨store, .empty⟩).map fun answer => (answer.1, answer.2.store)

/-! ## Hierarchies -/

/-- The children each run is linked to, and its parent. -/
abbrev RunLinks := String → Option (List String × String)

def MemoryStore.links (store : MemoryStore) : RunLinks := fun runID =>
  (store.runs.get runID).map fun run => (run.childRunIDs.map trimSpace, run.parentRunID)

/-- A child that names its parent and is linked by it. -/
def LinkedIn (links : RunLinks) (runID childRunID : String) : Prop :=
  (∃ children parent, links runID = some (children, parent) ∧ childRunID ∈ children) ∧
    ∃ children, links childRunID = some (children, runID)

/-- The runs that the links lead to. -/
abbrev ReachedIn (links : RunLinks) : String → String → Prop :=
  Relation.ReflTransGen (LinkedIn links)

/-- The runs whose chain of parents leads to a run. -/
def MemoryStore.InHierarchy (store : MemoryStore) : String → String → Prop :=
  Relation.ReflTransGen fun runID childRunID =>
    ∃ run, store.runs.get childRunID = some run ∧ run.parentRunID = runID

theorem MemoryStore.inHierarchy_of_reachedIn {store : MemoryStore} {root runID : String}
    (h : ReachedIn store.links root runID) : store.InHierarchy root runID := by
  refine Relation.ReflTransGen.mono ?_ _ _ h
  rintro a b ⟨-, children, hl⟩
  obtain ⟨run, hg, heq⟩ := Option.map_eq_some_iff.mp hl
  exact ⟨run, hg, (Prod.mk.inj heq).2⟩

/-! ## What a walk does -/

namespace CancelState

def Visiting (st : CancelState) (runID : String) : Prop :=
  ∃ run, st.visits.get runID = some (.visiting run)

def Done (st : CancelState) (runID : String) : Prop :=
  ∃ run, st.visits.get runID = some (.done run)

/-- Every run that is done has ended, and its children are done. -/
def Settled (st : CancelState) : Prop :=
  ∀ runID, st.Done runID → ∃ run, st.store.runs.get runID = some run ∧
    run.status.isTerminal = true ∧ ∀ childRunID ∈ run.childRunIDs.map trimSpace, st.Done childRunID

/-- A run is as it was, or it was paused and is canceled. -/
def CanceledAt (st st' : CancelState) (runID : String) : Prop :=
  ∃ run now, st.store.runs.get runID = some run ∧ run.status = .paused ∧
    st'.store.runs.get runID = some (MemoryStore.bumped (canceledRun run now))

/-- What a walk does that succeeds: it cancels paused runs that satisfy `P` and were not open,
keeps the marks, and leaves finished runs finished. -/
structure Cancels (P : String → Prop) (st st' : CancelState) : Prop where
  runs : ∀ runID, st'.store.runs.get runID = st.store.runs.get runID ∨
    (P runID ∧ ¬ st.Visiting runID ∧ st.CanceledAt st' runID)
  done : ∀ runID, st.Done runID → st'.Done runID
  visiting : ∀ runID, st.Visiting runID → st'.Visiting runID
  settled : st.Settled → st'.Settled

variable {P Q : String → Prop} {st st' st'' : CancelState}

theorem Cancels.refl (P : String → Prop) (st : CancelState) : st.Cancels P st :=
  ⟨fun _ => .inl rfl, fun _ => id, fun _ => id, id⟩

theorem Cancels.mono (h : st.Cancels P st') (hPQ : ∀ runID, P runID → Q runID) : st.Cancels Q st' :=
  ⟨fun runID => (h.runs runID).imp_right (.imp_left (hPQ runID)), h.done, h.visiting, h.settled⟩

theorem Cancels.trans (h : st.Cancels P st') (h' : st'.Cancels P st'') : st.Cancels P st'' := by
  refine ⟨fun runID => ?_, fun runID => h'.done runID ∘ h.done runID,
    fun runID => h'.visiting runID ∘ h.visiting runID, h'.settled ∘ h.settled⟩
  rcases h'.runs runID with hs | ⟨hP, ho, run, now, hg, hp, hpu⟩
  · rcases h.runs runID with hsa | ⟨hP, ho, run, now, hg, hp, hpu⟩
    · exact .inl (hs.trans hsa)
    · exact .inr ⟨hP, ho, run, now, hg, hp, hs.trans hpu⟩
  · rcases h.runs runID with hsa | ⟨-, -, run', now', -, -, hpt⟩
    · exact .inr ⟨hP, fun hv => ho (h.visiting runID hv), run, now, hsa ▸ hg, hp, hpu⟩
    · -- A run that was canceled is not paused any more.
      rw [hpt] at hg
      cases hg
      cases hp

/-- A walk keeps the links of every run. -/
theorem Cancels.links (h : st.Cancels P st') : st'.store.links = st.store.links := by
  funext runID
  rcases h.runs runID with hs | ⟨-, -, run, now, hg, -, hp⟩
  · rw [MemoryStore.links, hs, MemoryStore.links]
  · rw [MemoryStore.links, MemoryStore.links, hg, hp]
    rfl

theorem visits_visit (st : CancelState) (runID other : String) (visit : RunCancelVisit) :
    (st.visit runID visit).visits.get other =
      if other = runID then some visit else st.visits.get other :=
  SortedMap.get_put _ _ _ _

theorem visiting_visit (h : st.Visiting other) :
    (st.visit runID (.visiting run)).Visiting other := by
  obtain ⟨run', hg⟩ := h
  by_cases heq : other = runID
  · exact ⟨run, by rw [visits_visit, if_pos heq]⟩
  · exact ⟨run', by rw [visits_visit, if_neg heq, hg]⟩

theorem cancels_open (hn : ¬ st.Done runID) (run : RunRecord) :
    st.Cancels P (st.visit runID (.visiting run)) := by
  have hk : ∀ other, st.Done other → (st.visit runID (.visiting run)).Done other := by
    rintro other ⟨run', hg⟩
    have hne : other ≠ runID := fun heq => hn (heq ▸ ⟨run', hg⟩)
    exact ⟨run', by rw [visits_visit, if_neg hne, hg]⟩
  refine ⟨fun _ => .inl rfl, hk, fun _ => visiting_visit, ?_⟩
  rintro hs other ⟨run', hg⟩
  rw [visits_visit] at hg
  split at hg
  · cases hg
  · obtain ⟨record, hr, ht, hc⟩ := hs other ⟨run', hg⟩
    exact ⟨record, hr, ht, fun child hch => hk child (hc child hch)⟩

end CancelState

open CancelState

section

variable {ctx : Context} {draws : String → Nat → ControlDraw} {st st' : CancelState}
  {run run' : RunRecord} {store store' : MemoryStore} {runID parent : String} {root : Bool}

/-- The run itself: it had ended, or it was paused and is canceled. -/
theorem cancelRecord_eq_ok (h : store.cancelRecord ctx draw run root = .ok (run', store')) :
    (root = true → run'.status = .canceled) ∧ run'.status.isTerminal = true ∧
      ((run' = run ∧ store' = store) ∨
        run.status = .paused ∧ run' = MemoryStore.bumped (canceledRun run draw.now) ∧
          store'.runs = store.runs.put run') := by
  rw [MemoryStore.cancelRecord] at h
  split at h
  next hs =>
    cases h
    exact ⟨fun _ => hs, by rw [hs]; rfl, .inl ⟨rfl, rfl⟩⟩
  · split at h
    · split at h
      next he =>
        cases h
        rw [Bool.and_eq_true, Bool.or_eq_true, decide_eq_true_eq, decide_eq_true_eq,
          Bool.not_eq_true'] at he
        refine ⟨fun hr => absurd hr (by rw [he.1]; exact Bool.false_ne_true), ?_, .inl ⟨rfl, rfl⟩⟩
        rcases he.2 with hs | hs <;> rw [hs] <;> rfl
      · cases h
    next hp =>
      obtain ⟨⟨result, store₁⟩, hc, h⟩ := of_bind h
      have ha := MemoryStore.commitGenerated_eq_ok hc
      rcases MemoryStore.commitRun_eq_ok ha.valid ha.run with
        ⟨-, hm⟩ | ⟨_, hru, -⟩ | ⟨_, _, hru, hw, -⟩
      · cases hm _ rfl
      · cases hru
      · cases hru
        have hrn := ha.runs
        rw [hw] at hrn
        cases h
        rw [hw]
        exact ⟨fun _ => rfl, rfl, .inr ⟨not_not.mp hp, rfl, hrn⟩⟩

/-- The runs that a call may cancel: its own run has the parent it should have, and leads to
them. -/
def ReachedFrom (links : RunLinks) (runID parent other : String) :
    Prop :=
  (parent ≠ "" → ∃ children, links runID = some (children, parent)) ∧ ReachedIn links runID other

/-- A call returns, and `Q` holds of what it returns without an error. -/
def Answers {α : Type} (Q : α → CancelState → Prop) (answer : CancelAnswer α) : Prop :=
  ∃ result st, answer = some (result, st) ∧ ∀ a, result = .ok a → Q a st

theorem answers_error {α : Type} (Q : α → CancelState → Prop) (e : RunError) (st : CancelState) :
    Answers Q (some (.error e, st)) := ⟨_, _, rfl, nofun⟩

theorem answers_ok {α : Type} {Q : α → CancelState → Prop} {a : α} (h : Q a st) :
    Answers Q (some (.ok a, st)) := ⟨_, _, rfl, fun _ heq => by cases heq; exact h⟩

/-- A call that does what it should, from a state in which the runs of `opened` are open. -/
def CancelsReached (links : RunLinks) (opened : Finset String) (root : Bool)
    (cancel : String → String → CancelState → CancelAnswer RunRecord) : Prop :=
  ∀ runID parent st, st.store.links = links → (∀ id ∈ opened, st.Visiting id) →
    Answers (fun run st' => st.Cancels (ReachedFrom links runID parent) st' ∧ st'.Done runID ∧
        (root = true → st.visits.get runID = none →
          st'.store.runs.get runID = some run ∧ run.status = .canceled))
      (cancel runID parent st)

variable {links : RunLinks} {opened : Finset String}
  {cancel : String → String → CancelState → CancelAnswer RunRecord}

theorem answers_cancelChildren (hc : CancelsReached links opened false cancel)
    (hne : runID ≠ "") {children : List String} (hl : links runID = some (children, parent))
    (rest : List String) (hr : ∀ child ∈ rest, trimSpace child ∈ children)
    (hst : st.store.links = links)
    (ho : ∀ id ∈ opened, st.Visiting id) :
    Answers (fun _ st' => st.Cancels (ReachedIn links runID) st' ∧
      ∀ child ∈ rest, st'.Done (trimSpace child)) (cancelChildren cancel runID rest st) := by
  induction rest generalizing st with
  | nil => exact answers_ok ⟨.refl _ _, nofun⟩
  | cons child rest ih =>
    rw [cancelChildren]
    split
    · exact answers_error _ _ _
    · obtain ⟨hch, hr⟩ := List.forall_mem_cons.mp hr
      obtain ⟨result, st₁, hca, hok⟩ := hc (trimSpace child) runID st hst ho
      rw [hca]
      cases result with
      | error e => exact answers_error _ _ _
      | ok run =>
        obtain ⟨hf, hd, -⟩ := hok run rfl
        obtain ⟨result, st₂, hcl, hos⟩ := ih hr (hf.links.trans hst)
          fun id hid => hf.visiting id (ho id hid)
        refine ⟨result, st₂, hcl, fun u hu => ?_⟩
        obtain ⟨hla, hdo⟩ := hos u hu
        refine ⟨(hf.mono ?_).trans hla, List.forall_mem_cons.mpr ⟨hla.done _ hd, hdo⟩⟩
        rintro other ⟨hp, hre⟩
        exact .head ⟨⟨children, parent, hl, hch⟩, hp hne⟩ hre

/-- Closing a run whose children are done. -/
theorem cancels_close {P : String → Prop} {start : CancelState} (hs : start.Cancels P st)
    (hn : start.visits.get runID = none) (hP : P runID)
    (hg : st.store.runs.get runID = some run)
    (hc : ∀ child ∈ run.childRunIDs, st.Done (trimSpace child)) {draw : ControlDraw}
    (h : st.store.cancelRecord ctx draw run root = .ok (run', store')) :
    start.Cancels P ({ st with store := store' }.visit runID (.done run')) ∧
      store'.runs.get runID = some run' := by
  obtain ⟨-, ht, hca⟩ := cancelRecord_eq_ok h
  have hk : run.runID = runID := KeyedMap.key_of_get hg
  have ho : ∀ other, other ≠ runID → store'.runs.get other = st.store.runs.get other := by
    intro other hne
    rcases hca with ⟨-, rfl⟩ | ⟨-, rfl, hr⟩
    · rfl
    · rw [hr, KeyedMap.get_put_ne (by exact hk ▸ hne)]
  have hse : store'.runs.get runID = some run' := by
    rcases hca with ⟨rfl, rfl⟩ | ⟨-, rfl, hr⟩
    · exact hg
    · rw [hr, KeyedMap.get_put]
      exact if_pos hk.symm
  have hl : ∀ other, other ≠ runID →
      ({ st with store := store' }.visit runID (.done run')).visits.get other =
        st.visits.get other := fun other hne => by rw [visits_visit, if_neg hne]
  have hd : ∀ other, st.Done other →
      ({ st with store := store' }.visit runID (.done run')).Done other := by
    rintro other ⟨run₁, hget₁⟩
    by_cases heq : other = runID
    · exact ⟨run', by rw [visits_visit, if_pos heq]⟩
    · exact ⟨run₁, by rw [hl other heq, hget₁]⟩
  refine ⟨⟨fun other => ?_, fun other => hd other ∘ hs.done other, ?_, fun hst => ?_⟩, hse⟩
  · by_cases heq : other = runID
    · -- The run itself: no call below has canceled it, since it was paused when it was read.
      subst heq
      have hi : ¬ start.Visiting other := fun ⟨run₁, hv⟩ => by
        rw [hn] at hv
        cases hv
      rcases hca with ⟨rfl, rfl⟩ | ⟨hp, rfl, -⟩
      · exact hs.runs other
      · rcases hs.runs other with hsa | ⟨-, -, run₁, now, -, -, hpu⟩
        · exact .inr ⟨hP, hi, run, _, hsa ▸ hg, hp, hse⟩
        · rw [hg] at hpu
          cases hpu
          cases hp
    · refine (hs.runs other).imp (ho other heq).trans (.imp_right (.imp_right ?_))
      rintro ⟨run₁, now, hget₁, hp, hpu⟩
      exact ⟨run₁, now, hget₁, hp, (ho other heq).trans hpu⟩
  · rintro other hv
    have hne : other ≠ runID := by
      rintro rfl
      obtain ⟨run₁, hget₁⟩ := hv
      rw [hn] at hget₁
      cases hget₁
    obtain ⟨run₁, hget₁⟩ := hs.visiting other hv
    exact ⟨run₁, (hl other hne).trans hget₁⟩
  · rintro other ⟨run₁, hget₁⟩
    by_cases heq : other = runID
    · subst heq
      refine ⟨run', hse, ht, fun child hch => hd child ?_⟩
      have hsa : run'.childRunIDs = run.childRunIDs := by
        rcases hca with ⟨rfl, -⟩ | ⟨-, rfl, -⟩ <;> rfl
      rw [hsa] at hch
      obtain ⟨child, hm, rfl⟩ := List.mem_map.mp hch
      exact hc child hm
    · rw [hl other heq] at hget₁
      obtain ⟨record, hre, he, hdo⟩ := hs.settled hst other ⟨run₁, hget₁⟩
      exact ⟨record, (ho other heq).trans hre, he, fun child hch => hd child (hdo child hch)⟩

theorem ne_empty_of_getRun (h : store.getRun runID = .ok run) : runID ≠ "" := by
  rintro rfl
  cases h

/-- The loop, from a state that the walk has come to from `start`. -/
theorem answers_cancelAttempts {start : CancelState}
    (hc : CancelsReached links (insert runID opened) false cancel)
    (hl : start.store.links = links) (hn : start.visits.get runID = none) (attempts : Nat)
    (hs : start.Cancels (ReachedFrom links runID parent) st) (ho : ¬ st.Done runID)
    (hop : ∀ id ∈ opened, st.Visiting id) :
    Answers (fun run' st' => start.Cancels (ReachedFrom links runID parent) st' ∧
        st'.Done runID ∧ (root = true → start.visits.get runID = none →
          st'.store.runs.get runID = some run' ∧ run'.status = .canceled))
      (cancelAttempts ctx draws cancel runID parent root attempts st) := by
  induction attempts generalizing st with
  | zero => exact answers_error _ _ _
  | succ attempts ih =>
    rw [cancelAttempts]
    split
    · exact answers_error _ _ _
    next run hr =>
      split
      · exact answers_error _ _ _
      next hpa =>
        obtain ⟨hg, hk, -⟩ := getRun_eq_ok hr
        have hst := hs.links.trans hl
        have how : links runID = some (run.childRunIDs.map trimSpace, run.parentRunID) := by
          rw [← hst, MemoryStore.links, hg, Option.map_some]
        have hf : ∀ other, ReachedIn links runID other →
            ReachedFrom links runID parent other := fun other hre =>
          ⟨fun hne => ⟨_, how.trans (by rw [not_not.mp fun hp => hpa ⟨hne, hp⟩])⟩, hre⟩
        have hv := cancels_open (P := ReachedFrom links runID parent) ho run
        have hm : (st.visit runID (.visiting run)).Visiting runID :=
          ⟨run, by rw [visits_visit, if_pos rfl]⟩
        obtain ⟨result, st₁, hch, hok⟩ := answers_cancelChildren hc
          (ne_empty_of_getRun hr) how run.childRunIDs
          (fun child hci => List.mem_map_of_mem hci) (hv.links.trans hst)
          (Finset.forall_mem_insert _ _ _ |>.mpr ⟨hm, fun id hid => hv.visiting id (hop id hid)⟩)
        rw [hk, hch]
        cases result with
        | error e => exact answers_error _ _ _
        | ok u =>
          obtain ⟨hb, hd⟩ := hok u rfl
          have hnx := (hs.trans hv).trans (hb.mono hf)
          have hget₁ : st₁.store.runs.get runID = some run :=
            ((hb.runs runID).resolve_right fun h => h.2.1 hm).trans hg
          simp only
          split
          next run₂ store₂ hrc =>
            obtain ⟨hla, hse⟩ := cancels_close hnx hn (hf _ .refl) hget₁ hd hrc
            exact answers_ok ⟨hla, ⟨_, by rw [visits_visit, if_pos rfl]⟩, fun hro _ =>
              ⟨hse, (cancelRecord_eq_ok hrc).1 hro⟩⟩
          · split
            · refine ih hnx ?_ fun id hid =>
                hb.visiting id (hv.visiting id (hop id hid))
              rintro ⟨run₂, hget₂⟩
              obtain ⟨run₃, hget₃⟩ := hb.visiting _ hm
              rw [hget₂] at hget₃
              cases hget₃
            · exact answers_error _ _ _

/-- Every call does what it should, and does not go deeper than there are runs that are not
open. -/
theorem cancelsReached_cancelRuns {runIDs : Finset String}
    (hr : ∀ id, links id ≠ none → id ∈ runIDs) {depth : Nat}
    (hd : (runIDs \ opened).card < depth) :
    CancelsReached links opened root fun runID parent =>
      cancelRuns ctx draws depth runID parent root := by
  induction depth generalizing opened root with
  | zero => exact absurd hd (Nat.not_lt_zero _)
  | succ depth ih =>
    intro runID parent st hl ho
    change Answers _ (cancelRuns ctx draws (depth + 1) runID parent root st)
    rw [cancelRuns]
    split
    · exact answers_error _ _ _
    next run hg =>
      exact answers_ok ⟨.refl _ st, ⟨run, hg⟩, fun _ hn => by rw [hg] at hn; cases hn⟩
    next hne =>
      have hi : ¬ st.Done runID := fun ⟨run₁, hget₁⟩ => by rw [hne] at hget₁; cases hget₁
      by_cases hs : links runID = none
      · -- A run that is not stored has no children to go to.
        have hg : st.store.runs.get runID = none := by
          rw [← hl, MemoryStore.links, Option.map_eq_none_iff] at hs
          exact hs
        rw [runRevisionRetryLimit, cancelAttempts]
        split
        · exact answers_error _ _ _
        next run hru => cases hg.symm.trans (getRun_eq_ok hru).1
      · have hf : runID ∈ runIDs \ opened := by
          refine Finset.mem_sdiff.mpr ⟨hr runID hs, fun hm => ?_⟩
          obtain ⟨run₁, hget₁⟩ := ho runID hm
          rw [hne] at hget₁
          cases hget₁
        refine answers_cancelAttempts (ih ?_) hl hne _ (.refl _ st) hi ho
        rw [Finset.sdiff_insert, Finset.card_erase_of_mem hf]
        have hp := Finset.card_pos.mpr ⟨runID, hf⟩
        omega

end

/-- `CancelPausedRun` returns for every store.  If it succeeds, its run is canceled, runs that had
ended and runs outside the hierarchy are as they were, and the whole hierarchy has ended exactly
when the part of it that the links do not lead to had ended before. -/
theorem canceled_hierarchy (ctx : Context) (draws : String → Nat → ControlDraw)
    (store : MemoryStore) (runID : String) :
    ∃ answer store', store.cancelPausedRun ctx draws runID = some (answer, store') ∧
      ∀ run, answer = .ok run →
        (∃ root, store'.runs.get (trimSpace runID) = some root ∧ root.status = .canceled) ∧
        (∀ id run, store.runs.get id = some run → run.status.isTerminal = true →
          store'.runs.get id = some run) ∧
        (∀ id, ¬ store.InHierarchy (trimSpace runID) id → store'.runs.get id = store.runs.get id) ∧
        ((∀ id run, store.InHierarchy (trimSpace runID) id → store'.runs.get id = some run →
            run.status.isTerminal = true) ↔
          ∀ id run, store.InHierarchy (trimSpace runID) id →
            ¬ ReachedIn store.links (trimSpace runID) id → store.runs.get id = some run →
            run.status.isTerminal = true) := by
  have he : ∀ id, ¬ CancelState.Done ⟨store, .empty⟩ id := fun id ⟨_, h⟩ => by cases h
  have hr : ∀ id, store.links id ≠ none → id ∈ (store.runs.vals.map RunRecord.runID).toFinset := by
    intro id hid
    obtain ⟨entry, hen⟩ := Option.ne_none_iff_exists'.mp hid
    obtain ⟨run, hg, -⟩ := Option.map_eq_some_iff.mp hen
    have hk : run.runID = id := KeyedMap.key_of_get hg
    exact List.mem_toFinset.mpr (hk ▸ List.mem_map_of_mem (KeyedMap.mem_vals.mpr (hk.symm ▸ hg)))
  have hd : ((store.runs.vals.map RunRecord.runID).toFinset \ ∅).card <
      store.runs.vals.length + 1 := by
    rw [Finset.sdiff_empty]
    exact Nat.lt_succ_of_le ((List.toFinset_card_le _).trans (by rw [List.length_map]))
  obtain ⟨answer, st', ha, hok⟩ := @cancelsReached_cancelRuns ctx draws true _ ∅ _ hr _
    hd (trimSpace runID) "" ⟨store, .empty⟩ rfl (fun _ h => absurd h (Finset.notMem_empty _))
  refine ⟨answer, st'.store, congrArg (Option.map _) ha, ?_⟩
  rintro run rfl
  obtain ⟨hc, hdo, hro⟩ := hok run rfl
  have hs := hc.settled fun id h => absurd h (he id)
  -- Everything that the links lead to is done.
  have hre : ∀ id, ReachedIn store.links (trimSpace runID) id → st'.Done id := by
    intro id h
    induction h with
    | refl => exact hdo
    | tail _ hl ih =>
      obtain ⟨⟨children, parent, hli, hm⟩, -⟩ := hl
      obtain ⟨record, hg, -, hch⟩ := hs _ ih
      rw [← hc.links, MemoryStore.links, hg, Option.map_some] at hli
      cases hli
      exact hch _ hm
  have hke : ∀ id, ¬ ReachedIn store.links (trimSpace runID) id →
      st'.store.runs.get id = store.runs.get id := fun id hn =>
    (hc.runs id).resolve_right fun h => hn h.1.2
  refine ⟨⟨run, hro rfl rfl⟩, ?_, fun id hn => hke id fun h =>
    hn (MemoryStore.inHierarchy_of_reachedIn h), ?_, ?_⟩
  · intro id record hg ht
    rcases hc.runs id with hsa | ⟨-, -, record', now, hge, hp, -⟩
    · exact hsa.trans hg
    · cases hg.symm.trans hge
      rw [hp] at ht
      cases ht
  · intro hal id record hin hn hg
    exact hal id record hin ((hke id hn).trans hg)
  · intro hal id record hin hg
    by_cases h : ReachedIn store.links (trimSpace runID) id
    · obtain ⟨record', hge, ht, -⟩ := hs id (hre id h)
      cases hg.symm.trans hge
      exact ht
    · exact hal id record hin h ((hke id h).symm.trans hg)

/-- A paused run with a child that is reserved, and created, and not linked yet. -/
def reservedChildStore : MemoryStore where
  runs := (KeyedMap.empty.put
    { runID := "p", status := .paused
      pendingChildRuns :=
        [⟨"k", "child-k", "p", "s", "t", "g", "g", "1", "", "", "", "n", "h", 1⟩] }).put
    { runID := "child-k", parentRunID := "p", parentStepID := "s", parentTaskID := "t"
      childRequestKey := "k", childInputHash := "h", status := .paused }

/-- The reserved child stays paused. -/
theorem reserved_child_not_canceled : ∃ run store' child,
    reservedChildStore.cancelPausedRun {} (fun _ _ => ⟨2, "tx", "e1", "e2"⟩) "p" =
        some (.ok run, store') ∧
      store'.runs.get "child-k" = some child ∧ child.parentRunID = "p" ∧
      child.status = .paused :=
  ⟨_, _, _, rfl, rfl, rfl, rfl⟩

end WeaveFlow
