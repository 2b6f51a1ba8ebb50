import WeaveFlow.Graph.NodeExecution

/-!
# The hand-off of an attempt

A node attempt runs in a goroutine of its own, and the scheduler waits for its result or for
the end of the attempt's context.  Both ask a shared decision for the attempt: the goroutine
before its success commit and again before it delivers its result, the scheduler when the
context ends.  The first to ask gets it.

An abandoned task is entered into the collector's table of abandoned tasks, so that a patch
which the body records later is dropped, and an empty patch is stored for it.  The goroutine
takes the entry out again when it ends.

The two programs are modelled step by step, with the steps of all other tasks on the
collector in between.  A panic of the body is an end of the body without any record.  A
commit step succeeds, is refused with a conflict, or fails.

Two steps lose a success that is committed (`LosingStep`): the outcome of the commit is
unknown and is returned as an error, and the record of the finished attempt fails, which
replaces its result.  `attempt_hand_off` holds in every state that the interleavings of all
other steps reach, and `committed_success_lost` is what such a step does.
-/

namespace WeaveFlow

open CompilePatchCollector SortedMap List

/-! ## The decision -/

/-- The value of `NodeAttempt.decision`. -/
inductive Decision where
  | pending
  | accepted
  | abandoned
  deriving DecidableEq, Repr

def Decision.tryAccept : Decision → Bool × Decision
  | pending => (true, accepted)
  | accepted => (true, accepted)
  | abandoned => (false, abandoned)

def Decision.tryAbandon : Decision → Bool × Decision
  | pending => (true, abandoned)
  | accepted => (false, accepted)
  | abandoned => (false, abandoned)

/-! ## The collector -/

/-- The error of a task; an interrupt keeps a recorded patch. -/
structure AttemptError where
  interrupt : Bool
  deriving DecidableEq, Repr

namespace CompilePatchCollector

/-- `recordFailedBranchPatch`. -/
def recordFailed (c : CompilePatchCollector) (base : Nat) (task : GraphTask) (e : AttemptError) :
    CompilePatchCollector :=
  if e.interrupt && c.hasPatch base task.taskID then c else c.record base task ⟨[]⟩

def discard (c : CompilePatchCollector) (base : Nat) : CompilePatchCollector :=
  { c with patches := c.patches.del base }

def patchFor (c : CompilePatchCollector) (base : Nat) (taskID : String) : Option Patch :=
  ((c.branchesOf base).find? fun b => b.taskID = taskID).map BranchPatch.patch

/-- What the tasks of this and of other waves do to the collector beside one task. -/
inductive OtherStep (base : Nat) (taskID : String) :
    CompilePatchCollector → CompilePatchCollector → Prop where
  | record (c : CompilePatchCollector) (base' : Nat) (task : GraphTask) (patch : Patch)
      (other : base' ≠ base ∨ task.taskID ≠ taskID) :
      OtherStep base taskID c (c.record base' task patch)
  | abandonTask (c : CompilePatchCollector) (base' : Nat) (task : GraphTask)
      (other : base' ≠ base ∨ task.taskID ≠ taskID) :
      OtherStep base taskID c (c.abandonTask base' task)
  | releaseAbandonedTask (c : CompilePatchCollector) (base' : Nat) (otherID : String)
      (other : base' ≠ base ∨ otherID ≠ taskID) :
      OtherStep base taskID c (c.releaseAbandonedTask base' otherID)
  | discard (c : CompilePatchCollector) (base' : Nat) (other : base' ≠ base) :
      OtherStep base taskID c (c.discard base')

end CompilePatchCollector

/-! ## The two programs -/

abbrev AttemptResult := Except AttemptError ExecutionResult

/-- Where the goroutine of the attempt stands. -/
inductive Worker where
  /-- the body runs -/
  | running
  /-- the patch of the body is recorded; the attempt is not accepted yet -/
  | recorded (r : ExecutionResult)
  /-- the attempt is accepted and its result is being committed -/
  | accepted (r : ExecutionResult)
  /-- `executeNode` returns an error -/
  | failing (e : AttemptError)
  /-- `ExecuteNode` has returned a result -/
  | returned (r : ExecutionResult)
  /-- the deferred function starts -/
  | closing (c : AttemptResult)
  /-- the attempt is decided -/
  | sending (c : AttemptResult)
  /-- the result is delivered -/
  | sent (c : AttemptResult)
  | ended (c : AttemptResult)

/-- How the scheduler takes the end of the attempt. -/
inductive AttemptEnd where
  | abandoned
  | used (c : AttemptResult)
  /-- the result is delivered, and an error of `recordTaskAttempt` is returned instead -/
  | lost (c : AttemptResult)

/-- Where the scheduler stands, up to the end of the wave. -/
inductive Scheduler where
  | waiting
  /-- `TryAbandon` has succeeded -/
  | abandoning
  /-- `TryAbandon` has failed -/
  | awaiting
  /-- `executeTaskWithRetry` has returned -/
  | settling (e : AttemptEnd)
  | settled (e : AttemptEnd)
  /-- the wave is merged, with this patch for the task -/
  | merged (e : AttemptEnd) (patch : Option Patch)
  /-- the wave has failed, and its patches are discarded -/
  | discarded (e : AttemptEnd)

/-- The shared state and the positions of both programs, with what the body has returned and
what is committed. -/
structure HandOff where
  decision : Decision
  collector : CompilePatchCollector
  channel : Option AttemptResult
  body : Option ExecutionResult
  committed : Option ExecutionResult
  worker : Worker
  scheduler : Scheduler

/-- The error of an attempt that is abandoned or cannot be recorded. -/
def plainError : AttemptError := ⟨false⟩

/-- What `executeTasks` records for the task. -/
def AttemptEnd.recordEnd (base : Nat) (task : GraphTask) (c : CompilePatchCollector) :
    AttemptEnd → CompilePatchCollector
  | abandoned => c.recordFailed base task plainError
  | lost _ => c.recordFailed base task plainError
  | used (.error e) => c.recordFailed base task e
  | used (.ok _) => c

/-- A step of the goroutine. -/
inductive WorkerStep (base : Nat) (task : GraphTask) (s : HandOff) : HandOff → Prop where
  | bodyReturns (r : ExecutionResult) (at_ : s.worker = .running) :
      WorkerStep base task s { s with
        collector := s.collector.record base task r.patch, body := some r
        worker := .recorded r }
  | bodyFails (e : AttemptError) (at_ : s.worker = .running) :
      WorkerStep base task s { s with worker := .failing e }
  | bodyPanics (e : AttemptError) (at_ : s.worker = .running) :
      WorkerStep base task s { s with worker := .closing (.error e) }
  /-- an error of the result is returned after the attempt was accepted or not -/
  | refuses (r : ExecutionResult) (e : AttemptError) (at_ : s.worker = .recorded r) :
      WorkerStep base task s { s with
        decision := s.decision.tryAccept.2, worker := .failing e }
  | fails (r : ExecutionResult) (e : AttemptError)
      (at_ : s.worker = .recorded r ∨ s.worker = .accepted r) :
      WorkerStep base task s { s with worker := .failing e }
  /-- `afterNode` returns without a commit -/
  | skips (r : ExecutionResult) (at_ : s.worker = .recorded r) :
      WorkerStep base task s { s with worker := .returned r }
  | accepts (r : ExecutionResult) (at_ : s.worker = .recorded r)
      (won : s.decision.tryAccept.1 = true) :
      WorkerStep base task s { s with
        decision := s.decision.tryAccept.2, worker := .accepted r }
  | loses (r : ExecutionResult) (e : AttemptError) (at_ : s.worker = .recorded r)
      (lost : s.decision.tryAccept.1 = false) :
      WorkerStep base task s { s with worker := .failing e }
  | commits (r : ExecutionResult) (at_ : s.worker = .accepted r) :
      WorkerStep base task s { s with committed := some r, worker := .returned r }
  /-- the commit meets a newer revision and is tried again -/
  | conflicts (r : ExecutionResult) (at_ : s.worker = .accepted r) :
      WorkerStep base task s { s with worker := .recorded r }
  | recordsFailure (e : AttemptError) (at_ : s.worker = .failing e) :
      WorkerStep base task s { s with
        collector := s.collector.recordFailed base task e, worker := .closing (.error e) }
  | recordsPatch (r : ExecutionResult) (at_ : s.worker = .returned r) :
      WorkerStep base task s { s with
        collector :=
          if s.collector.hasPatch base task.taskID then s.collector
          else s.collector.record base task r.patch
        worker := .closing (.ok r) }
  | decides (c : AttemptResult) (at_ : s.worker = .closing c) :
      WorkerStep base task s { s with
        decision := s.decision.tryAccept.2, worker := .sending c }
  | sends (c : AttemptResult) (at_ : s.worker = .sending c) :
      WorkerStep base task s { s with channel := some c, worker := .sent c }
  | releases (c : AttemptResult) (at_ : s.worker = .sent c) :
      WorkerStep base task s { s with
        collector :=
          if s.decision = .abandoned then s.collector.releaseAbandonedTask base task.taskID
          else s.collector
        worker := .ended c }

/-- A step of the scheduler.  The context of the attempt may end at any time. -/
inductive SchedulerStep (base : Nat) (task : GraphTask) (s : HandOff) : HandOff → Prop where
  | receives (c : AttemptResult) (at_ : s.scheduler = .waiting ∨ s.scheduler = .awaiting)
      (ready : s.channel = some c) :
      SchedulerStep base task s { s with channel := none, scheduler := .settling (.used c) }
  | expires (at_ : s.scheduler = .waiting) :
      SchedulerStep base task s { s with
        decision := s.decision.tryAbandon.2
        scheduler := if s.decision.tryAbandon.1 then .abandoning else .awaiting }
  | abandons (at_ : s.scheduler = .abandoning) :
      SchedulerStep base task s { s with
        collector := s.collector.abandonTask base task, scheduler := .settling .abandoned }
  | settles (e : AttemptEnd) (at_ : s.scheduler = .settling e) :
      SchedulerStep base task s { s with
        collector := e.recordEnd base task s.collector, scheduler := .settled e }
  | merges (e : AttemptEnd) (at_ : s.scheduler = .settled e) :
      SchedulerStep base task s { s with
        collector := (s.collector.consume base).2
        scheduler := .merged e (s.collector.patchFor base task.taskID) }
  | discards (e : AttemptEnd) (at_ : s.scheduler = .settled e) :
      SchedulerStep base task s { s with
        collector := s.collector.discard base, scheduler := .discarded e }

/-- A step of the goroutine, of the scheduler or of another task. -/
inductive HandOffStep (base : Nat) (task : GraphTask) (s : HandOff) : HandOff → Prop where
  | worker {s' : HandOff} : WorkerStep base task s s' → HandOffStep base task s s'
  | scheduler {s' : HandOff} : SchedulerStep base task s s' → HandOffStep base task s s'
  | other (c : CompilePatchCollector) :
      OtherStep base task.taskID s.collector c →
        HandOffStep base task s { s with collector := c }

/-- A step that loses a success: the commit is made and an error is returned for it, or the
delivered result is replaced by the error of `recordTaskAttempt`. -/
inductive LosingStep (s : HandOff) : HandOff → Prop where
  | commitUnknown (r : ExecutionResult) (e : AttemptError) (at_ : s.worker = .accepted r) :
      LosingStep s { s with committed := some r, worker := .failing e }
  | recordFails (c : AttemptResult) (at_ : s.scheduler = .settling (.used c)) :
      LosingStep s { s with scheduler := .settling (.lost c) }

def HandOff.start (c : CompilePatchCollector) : HandOff :=
  ⟨.pending, c, none, none, none, .running, .waiting⟩

/-- The states that the interleavings of an attempt reach, with or without losing steps.  At its
start the task is not abandoned. -/
inductive HandOffReached (losing : Bool) (base : Nat) (task : GraphTask) : HandOff → Prop where
  | start (c : CompilePatchCollector) (alive : task.taskID ∉ c.abandonedOf base) :
      HandOffReached losing base task (.start c)
  | step {s s' : HandOff} : HandOffReached losing base task s → HandOffStep base task s s' →
      HandOffReached losing base task s'
  | lose {s s' : HandOff} (allowed : losing = true) : HandOffReached losing base task s →
      LosingStep s s' → HandOffReached losing base task s'

/-! ## What the collector keeps -/

namespace CompilePatchCollector

variable {c c' : CompilePatchCollector} {base : Nat} {task : GraphTask} {taskID : String}

theorem find_storeBranch_self (branch : BranchPatch) (branches : List BranchPatch) :
    (storeBranch branch branches).find? (fun b => b.taskID = branch.taskID) = some branch := by
  induction branches with
  | nil => simp [storeBranch]
  | cons b rest ih =>
    rw [storeBranch]
    split
    · simp
    next hne => simp [hne, ih]

theorem find_storeBranch_other (h : branch.taskID ≠ taskID) :
    (storeBranch branch branches).find? (fun b => b.taskID = taskID) =
      branches.find? fun b => b.taskID = taskID := by
  induction branches with
  | nil => simp [storeBranch, h]
  | cons b rest ih =>
    rw [storeBranch]
    split
    next hs => simp [h, hs]
    · simp [List.find?_cons, ih]

theorem branchesOf_store_other (h : base' ≠ base) :
    (c.store base' task patch).branchesOf base = c.branchesOf base := by
  rw [branchesOf, store, get_put, if_neg (Ne.symm h), branchesOf]

theorem patchFor_store (patch : Patch) :
    (c.store base task patch).patchFor base task.taskID = some patch := by
  have hf := find_storeBranch_self
    ⟨task.taskID, task.nodeID, (orderFor c.orders task).1, patch⟩ (c.branchesOf base)
  rw [patchFor, branchesOf_store, hf]
  rfl

variable {patch : Patch} {e : AttemptError}

theorem patchFor_store_other (h : base' ≠ base ∨ task.taskID ≠ taskID) :
    (c.store base' task patch).patchFor base taskID = c.patchFor base taskID := by
  by_cases hb : base' = base
  · subst hb
    have hne := h.resolve_left fun hn => hn rfl
    rw [patchFor, branchesOf_store, find_storeBranch_other hne]
    rfl
  · rw [patchFor, branchesOf_store_other hb, patchFor]

theorem abandonedOf_record : (c.record base' task patch).abandonedOf base = c.abandonedOf base := by
  rw [record]
  split
  · rfl
  · rfl

theorem record_of_abandoned (h : task.taskID ∈ c.abandonedOf base) :
    c.record base task patch = c := by
  rw [record, if_pos h]

theorem patchFor_record (h : task.taskID ∉ c.abandonedOf base) :
    (c.record base task patch).patchFor base task.taskID = some patch := by
  rw [record, if_neg h, patchFor_store]

theorem hasPatch_of_patchFor (h : c.patchFor base taskID = some patch) :
    c.hasPatch base taskID = true := by
  obtain ⟨branch, hf, -⟩ := Option.map_eq_some_iff.mp h
  have hid : decide (branch.taskID = taskID) = true :=
    List.find?_some (p := fun b : BranchPatch => decide (b.taskID = taskID)) hf
  exact any_eq_true.mpr ⟨branch, mem_of_find?_eq_some hf, hid⟩

theorem patchFor_abandonTask :
    (c.abandonTask base task).patchFor base task.taskID = some ⟨[]⟩ := patchFor_store _

theorem mem_abandonedOf_abandonTask : task.taskID ∈ (c.abandonTask base task).abandonedOf base := by
  have hg : (c.abandonTask base task).abandonedOf base = task.taskID :: c.abandonedOf base := by
    simp only [abandonedOf, abandonTask, store, get_put, if_true, Option.getD_some]
  rw [hg]
  exact mem_cons_self

theorem abandonedOf_recordFailed (e : AttemptError) :
    (c.recordFailed base task e).abandonedOf base = c.abandonedOf base := by
  rw [recordFailed]
  split
  · rfl
  · exact abandonedOf_record

/-- An empty patch stays, whatever error is recorded. -/
theorem patchFor_recordFailed_empty (h : c.patchFor base task.taskID = some ⟨[]⟩) :
    (c.recordFailed base task e).patchFor base task.taskID = some ⟨[]⟩ := by
  rw [recordFailed]
  split
  · exact h
  · by_cases hm : task.taskID ∈ c.abandonedOf base
    · rw [record_of_abandoned hm, h]
    · exact patchFor_record hm

theorem patchFor_recordFailed (he : e.interrupt = false) (h : task.taskID ∉ c.abandonedOf base) :
    (c.recordFailed base task e).patchFor base task.taskID = some ⟨[]⟩ := by
  rw [recordFailed, he, Bool.false_and, if_neg Bool.false_ne_true, patchFor_record h]

theorem recordFailed_of_abandoned (h : task.taskID ∈ c.abandonedOf base) :
    c.recordFailed base task e = c := by
  rw [recordFailed, record_of_abandoned h, ite_self]

theorem abandonedOf_releaseAbandonedTask : (c.releaseAbandonedTask base' otherID).abandonedOf base =
      if base' = base then (c.abandonedOf base).filter fun t => t ≠ otherID
      else c.abandonedOf base := by
  rw [releaseAbandonedTask]
  generalize hr : ((c.abandonedOf base').filter fun t => t ≠ otherID) = rest
  by_cases he : rest.isEmpty = true
  · rw [if_pos he, abandonedOf, get_del]
    by_cases hb : base' = base
    · subst hb
      rw [if_pos rfl, if_pos rfl, hr, isEmpty_iff.mp he]
      rfl
    · rw [if_neg (Ne.symm hb), if_neg hb, abandonedOf]
  · rw [if_neg he, abandonedOf, get_put]
    by_cases hb : base' = base
    · subst hb
      rw [if_pos rfl, if_pos rfl, hr]
      rfl
    · rw [if_neg (Ne.symm hb), if_neg hb, abandonedOf]

/-- Other tasks change neither the patch of a task nor its place among the abandoned ones. -/
theorem keeps_of_otherStep (h : OtherStep base taskID c c') :
    c'.patchFor base taskID = c.patchFor base taskID ∧
      (taskID ∈ c'.abandonedOf base ↔ taskID ∈ c.abandonedOf base) := by
  cases h with
  | record base' task patch ho =>
    rw [abandonedOf_record, record]
    refine ⟨?_, Iff.rfl⟩
    split
    · rfl
    · exact patchFor_store_other ho
  | abandonTask base' task ho =>
    refine ⟨patchFor_store_other ho, ?_⟩
    simp only [abandonedOf, abandonTask, store, get_put]
    split
    next hb =>
      have hne := ho.resolve_left fun hn => hn hb.symm
      subst hb
      rw [Option.getD_some, mem_cons, or_iff_right (Ne.symm hne)]
    · rfl
  | releaseAbandonedTask base' otherID ho =>
    refine ⟨rfl, ?_⟩
    rw [abandonedOf_releaseAbandonedTask]
    split
    next hb =>
      have hne := ho.resolve_left fun hn => hn hb
      simp [Ne.symm hne]
    · rfl
  | discard base' ho =>
    refine ⟨?_, Iff.rfl⟩
    rw [patchFor, branchesOf, discard, get_del, if_neg (Ne.symm ho), patchFor, branchesOf]

end CompilePatchCollector

/-! ## The invariant -/

/-- What the goroutine delivers or has delivered. -/
def Worker.result : Worker → Option AttemptResult
  | returned r => some (.ok r)
  | closing c => some c
  | sending c => some c
  | sent c => some c
  | ended c => some c
  | _ => none

/-- The result whose patch the goroutine has recorded. -/
def Worker.holds : Worker → Option ExecutionResult
  | recorded r => some r
  | accepted r => some r
  | returned r => some r
  | closing c => c.toOption
  | sending c => c.toOption
  | sent c => c.toOption
  | ended c => c.toOption
  | _ => none

/-- The attempt was decided before the goroutine delivers. -/
def Worker.Decided : Worker → Prop
  | accepted _ => True
  | sending _ => True
  | sent _ => True
  | ended _ => True
  | _ => False

def Worker.Delivered (w : Worker) (c : AttemptResult) : Prop :=
  w = .sent c ∨ w = .ended c

def Scheduler.taken : Scheduler → Option AttemptEnd
  | settling e => some e
  | settled e => some e
  | merged e _ => some e
  | discarded e => some e
  | _ => none

/-- The patches of the wave are still in the collector. -/
def Scheduler.Open : Scheduler → Prop
  | merged _ _ => False
  | discarded _ => False
  | _ => True

/-- The decision that a position of the scheduler goes with. -/
def Scheduler.Agrees (d : Decision) : Scheduler → Prop
  | waiting => d ≠ .abandoned
  | abandoning => d = .abandoned
  | awaiting => d = .accepted
  | settling .abandoned | settled .abandoned | merged .abandoned _ | discarded .abandoned =>
    d = .abandoned
  | settling _ | settled _ | merged _ _ | discarded _ => d = .accepted

/-- The patch that an end of the attempt leaves for the merge. -/
def AttemptEnd.Leaves (patch : Option Patch) : AttemptEnd → Prop
  | abandoned | lost _ => patch = some ⟨[]⟩
  | used (.ok r) => patch = some r.patch
  | used (.error e) => e.interrupt = false → patch = some ⟨[]⟩

/-- The decision, the channel and the commit agree with the positions of both programs. -/
structure HandOff.Ordered (s : HandOff) : Prop where
  agrees : s.scheduler.Agrees s.decision
  decided : s.worker.Decided → s.decision ≠ .pending
  accepted : ∀ r, s.worker = .accepted r → s.decision = .accepted
  channel : ∀ c, s.channel = some c → s.worker.Delivered c
  taken : ∀ c, s.scheduler.taken = some (.used c) → s.worker.Delivered c
  ready : ∀ c, s.worker.Delivered c → s.scheduler.taken = none → s.channel = some c
  returned : ∀ r, s.worker.holds = some r → s.body = some r
  committed : ∀ r, s.committed = some r →
    s.decision = .accepted ∧ s.worker.result = some (.ok r)
  kept : ∀ c, s.scheduler.taken ≠ some (.lost c)

/-- The collector agrees with the positions of both programs. -/
structure HandOff.Stored (base : Nat) (task : GraphTask) (s : HandOff) : Prop where
  alive : s.decision ≠ .abandoned → task.taskID ∉ s.collector.abandonedOf base
  holds : s.decision ≠ .abandoned → s.scheduler.Open →
    ∀ r, s.worker.holds = some r → s.collector.patchFor base task.taskID = some r.patch
  fenced : s.scheduler.taken = some .abandoned →
    task.taskID ∈ s.collector.abandonedOf base ∨ ∃ c, s.worker = .ended c
  empty : s.scheduler = .settling .abandoned ∨ s.scheduler = .settled .abandoned →
    s.collector.patchFor base task.taskID = some ⟨[]⟩
  failed : ∀ e, s.scheduler = .settled (.used (.error e)) → e.interrupt = false →
    s.collector.patchFor base task.taskID = some ⟨[]⟩
  merged : ∀ e patch, s.scheduler = .merged e patch → e.Leaves patch

section Steps

variable {base : Nat} {task : GraphTask} {s s' : HandOff}

theorem Decision.tryAccept_ne_pending (d : Decision) : d.tryAccept.2 ≠ .pending := by
  cases d <;> nofun

theorem Decision.tryAccept_abandoned_iff (d : Decision) :
    d.tryAccept.2 = .abandoned ↔ d = .abandoned := by
  cases d <;> simp [Decision.tryAccept]

variable {d : Decision} {w : Worker}

theorem Decision.tryAccept_of_accepted (h : d = .accepted) : d.tryAccept.2 = .accepted := by
  subst h
  rfl

theorem Decision.accepted_of_tryAccept (h : d.tryAccept.1 = true) : d.tryAccept.2 = .accepted := by
  cases d with
  | pending | accepted => rfl
  | abandoned => cases h

/-- An acceptance keeps the scheduler's position in agreement with the decision. -/
theorem Scheduler.Agrees.tryAccept {p : Scheduler} (h : p.Agrees d) : p.Agrees d.tryAccept.2 := by
  cases p with
  | waiting => exact fun hab => h ((Decision.tryAccept_abandoned_iff d).mp hab)
  | abandoning => exact (Decision.tryAccept_abandoned_iff d).mpr h
  | awaiting => exact Decision.tryAccept_of_accepted h
  | settling e | settled e | merged e _ | discarded e =>
    cases e with
    | abandoned => exact (Decision.tryAccept_abandoned_iff d).mpr h
    | used c | lost c => exact Decision.tryAccept_of_accepted h

/-- The context of an attempt ends: the scheduler abandons it or waits on. -/
theorem Scheduler.agrees_tryAbandon (h : d ≠ .abandoned) :
    (if d.tryAbandon.1 then Scheduler.abandoning else .awaiting).Agrees d.tryAbandon.2 := by
  cases d with
  | pending => rfl
  | accepted => rfl
  | abandoned => exact absurd rfl h

theorem Scheduler.taken_tryAbandon (d : Decision) :
    (if d.tryAbandon.1 then Scheduler.abandoning else .awaiting).taken = none := by
  split
  · rfl
  · rfl

theorem Decision.tryAbandon_of_ne_pending (h : d ≠ .pending) : d.tryAbandon.2 = d := by
  cases d with
  | pending => exact absurd rfl h
  | accepted | abandoned => rfl

/-- A step of the goroutine before it delivers: the channel is empty and nothing is taken. -/
theorem HandOff.Ordered.advance (h : s.Ordered) {c : CompilePatchCollector}
    {body committed : Option ExecutionResult} (hn : ∀ c, ¬ s.worker.Delivered c)
    (hw : ∀ c, ¬ w.Delivered c) (hd : d = s.decision ∨ d = s.decision.tryAccept.2)
    (hde : w.Decided → d ≠ .pending) (hac : ∀ r, w = .accepted r → d = .accepted)
    (hre : ∀ r, w.holds = some r → body = some r)
    (hco : ∀ r, committed = some r → d = .accepted ∧ w.result = some (.ok r)) :
    HandOff.Ordered ⟨d, c, s.channel, body, committed, w, s.scheduler⟩ where
  agrees := by
    rcases hd with rfl | rfl
    · exact h.agrees
    · exact h.agrees.tryAccept
  decided := hde
  accepted := hac
  channel c hc := absurd (h.channel c hc) (hn c)
  taken c hc := absurd (h.taken c hc) (hn c)
  ready c hc := absurd hc (hw c)
  returned := hre
  committed := hco
  kept := h.kept

/-- A commit is still ahead of a goroutine that has no result. -/
theorem HandOff.Ordered.uncommitted (h : s.Ordered) (hr : s.worker.result = none) :
    s.committed ≠ some r := by
  intro hc
  rw [(h.committed r hc).2] at hr
  cases hr

theorem HandOff.Ordered.worker (h : s.Ordered) (hs : WorkerStep base task s s') : s'.Ordered := by
  have hre := h.returned
  have hco := h.committed
  cases hs with
  | bodyReturns r hat | bodyFails e hat | bodyPanics e hat | recordsFailure e hat =>
    rw [hat] at hre hco
    refine h.advance (by simp [hat, Worker.Delivered]) (by simp [Worker.Delivered]) (.inl rfl)
      (fun h => False.elim h) (fun _ h => by cases h) ?_
      fun r hr => absurd hr (h.uncommitted (by rw [hat]; rfl))
    simp [Worker.holds, Except.toOption]
  | refuses r e hat | loses r e hat hl =>
    refine h.advance (by simp [hat, Worker.Delivered]) (by simp [Worker.Delivered]) (by simp)
      (fun h => False.elim h) (fun _ h => by cases h) (fun _ h => by cases h)
      fun r hr => absurd hr (h.uncommitted (by rw [hat]; rfl))
  | fails r e hat =>
    have hn : s.worker.result = none ∧ ∀ c, ¬ s.worker.Delivered c := by
      rcases hat with hat | hat <;> rw [hat] <;> exact ⟨rfl, by simp [Worker.Delivered]⟩
    exact h.advance hn.2 (by simp [Worker.Delivered]) (.inl rfl)
      (fun h => False.elim h) (fun _ h => by cases h) (fun _ h => by cases h)
      fun r hr => absurd hr (h.uncommitted hn.1)
  | skips r hat | conflicts r hat =>
    rw [hat] at hre
    exact h.advance (by simp [hat, Worker.Delivered]) (by simp [Worker.Delivered]) (.inl rfl)
      (fun h => False.elim h) (fun _ h => by cases h) hre
      fun r hr => absurd hr (h.uncommitted (by rw [hat]; rfl))
  | accepts r hat hw =>
    rw [hat] at hre
    exact h.advance (by simp [hat, Worker.Delivered]) (by simp [Worker.Delivered]) (.inr rfl)
      (fun _ => Decision.tryAccept_ne_pending _) (fun _ _ => Decision.accepted_of_tryAccept hw) hre
      fun r hr => absurd hr (h.uncommitted (by rw [hat]; rfl))
  | commits r hat =>
    rw [hat] at hre
    refine h.advance (by simp [hat, Worker.Delivered]) (by simp [Worker.Delivered]) (.inl rfl)
      (fun h => False.elim h) (fun _ h => by cases h) hre
      fun r' hr' => ?_
    cases hr'
    exact ⟨h.accepted r hat, rfl⟩
  | recordsPatch r hat =>
    rw [hat] at hre hco
    exact h.advance (by simp [hat, Worker.Delivered]) (by simp [Worker.Delivered]) (.inl rfl)
      (fun h => False.elim h) (fun _ h => by cases h) hre hco
  | decides c hat =>
    rw [hat] at hre hco
    exact h.advance (by simp [hat, Worker.Delivered]) (by simp [Worker.Delivered]) (.inr rfl)
      (fun _ => Decision.tryAccept_ne_pending _) (fun _ h => by cases h) hre
      fun r hr => ⟨Decision.tryAccept_of_accepted (hco r hr).1, (hco r hr).2⟩
  | sends c hat =>
    rw [hat] at hre hco
    have hn : ∀ c', ¬ s.worker.Delivered c' := by simp [hat, Worker.Delivered]
    refine ⟨h.agrees, fun _ => h.decided (by rw [hat]; trivial), (fun _ h => by cases h), ?_, ?_, ?_, hre,
      hco, h.kept⟩
    · rintro c' hc'
      cases hc'
      exact .inl rfl
    · exact fun c' hc' => absurd (h.taken c' hc') (hn c')
    · rintro c' (hc' | hc') -
      · cases hc'
        rfl
      · cases hc'
  | releases c hat =>
    rw [hat] at hre hco
    have hd : ∀ {c'}, s.worker.Delivered c' → c' = c := by
      rintro c' (hc' | hc')
      · exact (Worker.sent.inj (hat.symm.trans hc')).symm
      · cases hat.symm.trans hc'
    refine ⟨h.agrees, fun _ => h.decided (by rw [hat]; trivial), (fun _ h => by cases h), ?_, ?_, ?_, hre,
      hco, h.kept⟩
    · exact fun c' hc' => hd (h.channel c' hc') ▸ .inr rfl
    · exact fun c' hc' => hd (h.taken c' hc') ▸ .inr rfl
    · rintro c' (hc' | hc') ht
      · cases hc'
      · cases hc'
        exact h.ready c (.inl hat) ht

theorem Worker.Delivered.decided (h : w.Delivered c) : w.Decided := by
  rcases h with rfl | rfl
  · trivial
  · trivial

theorem HandOff.Ordered.scheduler (h : s.Ordered) (hs : SchedulerStep base task s s') :
    s'.Ordered := by
  obtain ⟨ha, hde, hac, hch, ht, hre, hrt, hco, hke⟩ := h
  cases hs with
  | receives c hat hf =>
    have hdl := hch c hf
    have hne := hde hdl.decided
    refine ⟨?_, hde, hac, nofun, ?_, nofun, hrt, hco, nofun⟩
    · -- the result was delivered after the decision, and the scheduler has not abandoned
      rcases hat with hat | hat
      · rw [hat] at ha
        revert ha hne
        cases s.decision <;> simp [Scheduler.Agrees]
      · rw [hat] at ha
        exact ha
    · intro c' hc'
      obtain rfl : c = c' := by
        simpa [Scheduler.taken] using hc'
      exact hdl
  | expires hat =>
    rw [hat] at ha
    have hk : ∀ {d}, d ≠ .pending → s.decision = d → s.decision.tryAbandon.2 = d := by
      rintro d hd rfl
      exact Decision.tryAbandon_of_ne_pending hd
    refine ⟨Scheduler.agrees_tryAbandon ha, ?_, ?_, hch, ?_, ?_, hrt, ?_, ?_⟩
    · intro hdc
      rw [Decision.tryAbandon_of_ne_pending (hde hdc)]
      exact hde hdc
    · exact fun r hr => hk nofun (hac r hr)
    · intro c hc
      rw [Scheduler.taken_tryAbandon] at hc
      cases hc
    · exact fun c hc _ => hre c hc (congrArg Scheduler.taken hat)
    · exact fun r hr => ⟨hk nofun (hco r hr).1, (hco r hr).2⟩
    · intro c hc
      rw [Scheduler.taken_tryAbandon] at hc
      cases hc
  | abandons hat =>
    rw [hat] at ha
    exact ⟨ha, hde, hac, hch, nofun, nofun, hrt, hco, nofun⟩
  | settles e hat | merges e hat | discards e hat =>
    rw [hat] at ha ht hke
    refine ⟨?_, hde, hac, hch, ht, nofun, hrt, hco, hke⟩
    cases e <;> exact ha

theorem HandOff.Ordered.step (h : s.Ordered) (hst : HandOffStep base task s s') : s'.Ordered := by
  cases hst with
  | worker hw => exact h.worker hw
  | scheduler hs => exact h.scheduler hs
  | other c hc =>
    exact ⟨h.agrees, h.decided, h.accepted, h.channel, h.taken, h.ready, h.returned, h.committed,
      h.kept⟩

/-- A step of the goroutine that leaves the collector alone. -/
theorem HandOff.Stored.move (h : s.Stored base task) (channel : Option AttemptResult)
    (body committed : Option ExecutionResult) (hd : d = .abandoned ↔ s.decision = .abandoned)
    (hh : ∀ r, w.holds = some r → s.worker.holds = some r) (he : ∀ c, s.worker ≠ .ended c) :
    HandOff.Stored base task ⟨d, s.collector, channel, body, committed, w, s.scheduler⟩ where
  alive hne := h.alive fun hab => hne (hd.mpr hab)
  holds hne ho r hr := h.holds (fun hab => hne (hd.mpr hab)) ho r (hh r hr)
  fenced ht := .inl ((h.fenced ht).resolve_right fun ⟨c, hc⟩ => he c hc)
  empty := h.empty
  failed := h.failed
  merged := h.merged

theorem Scheduler.taken_of_abandoned {p : Scheduler}
    (h : p = .settling .abandoned ∨ p = .settled .abandoned) : p.taken = some .abandoned := by
  rcases h with rfl | rfl
  · rfl
  · rfl

/-- A step of the goroutine, before it delivers, that records something.  For an abandoned
task nothing is recorded. -/
theorem HandOff.Stored.update (h : s.Stored base task) (ho : s.Ordered) {w : Worker}
    {c : CompilePatchCollector} {body : Option ExecutionResult}
    (ha : c.abandonedOf base = s.collector.abandonedOf base)
    (hk : task.taskID ∈ s.collector.abandonedOf base → c = s.collector)
    (hh : task.taskID ∉ s.collector.abandonedOf base → s.scheduler.Open →
      s.decision ≠ .abandoned → ∀ r, w.holds = some r → c.patchFor base task.taskID = some r.patch)
    (hs : ∀ c, ¬ s.worker.Delivered c) :
    HandOff.Stored base task ⟨s.decision, c, s.channel, body, s.committed, w, s.scheduler⟩ where
  alive hne := by
    rw [ha]
    exact h.alive hne
  holds hne hop := hh (h.alive hne) hop hne
  fenced ht := by
    rw [ha]
    exact .inl ((h.fenced ht).resolve_right fun ⟨c, hc⟩ => hs c (.inr hc))
  empty hem := by
    have hm := (h.fenced (Scheduler.taken_of_abandoned hem)).resolve_right fun ⟨c, hc⟩ => hs c (.inr hc)
    rw [hk hm]
    exact h.empty hem
  failed e he := absurd (ho.taken _ (congrArg Scheduler.taken he)) (hs _)
  merged := h.merged

theorem HandOff.Stored.worker (h : s.Stored base task) (ho : s.Ordered)
    (hs : WorkerStep base task s s') : s'.Stored base task := by
  cases hs with
  | bodyReturns r hat =>
    refine h.update ho abandonedOf_record record_of_abandoned ?_ (by simp [hat, Worker.Delivered])
    rintro ha - - r' hr'
    obtain rfl : r = r' := Option.some.inj hr'
    exact patchFor_record ha
  | recordsFailure e hat =>
    exact h.update ho (abandonedOf_recordFailed e)
      recordFailed_of_abandoned (fun _ _ _ => nofun) (by simp [hat, Worker.Delivered])
  | recordsPatch r hat =>
    have hst : s.decision ≠ .abandoned → s.scheduler.Open →
        s.collector.patchFor base task.taskID = some r.patch := fun hne hop =>
      h.holds hne hop r (congrArg Worker.holds hat)
    refine h.update ho ?_ ?_ ?_ (by simp [hat, Worker.Delivered])
    · split
      · rfl
      · exact abandonedOf_record
    · intro hm
      rw [record_of_abandoned hm, ite_self]
    · rintro - hop hne r' hr'
      obtain rfl : r = r' := Option.some.inj hr'
      rw [if_pos (hasPatch_of_patchFor (hst hne hop))]
      exact hst hne hop
  | releases c hat =>
    by_cases hab : s.decision = .abandoned
    · rw [if_pos hab]
      exact ⟨fun hne => absurd hab hne, fun hne => absurd hab hne, fun _ => .inr ⟨c, rfl⟩,
        h.empty, h.failed, h.merged⟩
    · rw [if_neg hab]
      refine ⟨h.alive, ?_, fun _ => .inr ⟨c, rfl⟩, h.empty, h.failed, h.merged⟩
      intro hne hop r hr
      refine h.holds hne hop r ?_
      rw [hat]
      exact hr
  | refuses r e hat | accepts r hat hw | decides c hat =>
    refine h.move _ _ _ (Decision.tryAccept_abandoned_iff _) ?_ ?_
    · rw [hat]
      grind [Worker.holds]
    · rw [hat]
      nofun
  | bodyFails e hat | bodyPanics e hat | loses r e hat hl =>
    refine h.move _ _ _ Iff.rfl nofun ?_
    rw [hat]
    nofun
  | skips r hat | commits r hat | conflicts r hat | sends c hat =>
    refine h.move _ _ _ Iff.rfl ?_ ?_
    · rw [hat]
      grind [Worker.holds]
    · rw [hat]
      nofun
  | fails r e hat =>
    refine h.move _ _ _ Iff.rfl nofun ?_
    rcases hat with hat | hat
    · rw [hat]
      nofun
    · rw [hat]
      nofun

theorem Worker.Delivered.holds (h : w.Delivered (.ok r)) : w.holds = some r := by
  rcases h with rfl | rfl
  · rfl
  · rfl

theorem Worker.Delivered.holds_none (h : w.Delivered (.error e)) : w.holds = none := by
  rcases h with rfl | rfl
  · rfl
  · rfl

/-- After the wave is settled its collector holds what the end of the attempt leaves. -/
theorem HandOff.Stored.leaves (h : s.Stored base task) (ho : s.Ordered)
    (hat : s.scheduler = .settled e) : e.Leaves (s.collector.patchFor base task.taskID) := by
  have ha := ho.agrees
  have ht := ho.taken
  rw [hat] at ha ht
  rcases e with _ | (e | r) | c
  · exact h.empty (.inr hat)
  · exact h.failed e hat
  · refine h.holds ?_ (by rw [hat]; trivial) r (ht _ rfl).holds
    rw [show s.decision = .accepted from ha]
    nofun
  · exact absurd (congrArg Scheduler.taken hat) (ho.kept c)

theorem HandOff.Stored.scheduler (h : s.Stored base task) (ho : s.Ordered)
    (hs : SchedulerStep base task s s') : s'.Stored base task := by
  have ha := ho.agrees
  cases hs with
  | receives c hat hre =>
    have hop : s.scheduler.Open := by
      rcases hat with hat | hat <;> rw [hat] <;> trivial
    exact ⟨h.alive, fun hne _ => h.holds hne hop, nofun,
      (fun hc => nomatch Scheduler.taken_of_abandoned hc), nofun, nofun⟩
  | expires hat =>
    rw [hat] at ha
    have hop : s.scheduler.Open := by
      rw [hat]
      trivial
    have hn := Scheduler.taken_tryAbandon s.decision
    exact ⟨fun _ => h.alive ha, fun _ _ => h.holds ha hop, (fun hc => nomatch hn.symm.trans hc),
      (fun hc => nomatch hn.symm.trans (Scheduler.taken_of_abandoned hc)),
      (fun _ hc => nomatch hn.symm.trans (congrArg Scheduler.taken hc)),
      (fun _ _ hc => nomatch hn.symm.trans (congrArg Scheduler.taken hc))⟩
  | abandons hat =>
    rw [hat] at ha
    exact ⟨fun hne => absurd ha hne, fun hne => absurd ha hne,
      fun _ => .inl mem_abandonedOf_abandonTask,
      fun _ => patchFor_abandonTask, nofun, nofun⟩
  | settles e hat =>
    have ht := ho.taken
    rw [hat] at ha ht
    rcases e with _ | (e | r) | c
    · refine ⟨fun hne => absurd ha hne, fun hne => absurd ha hne, fun _ => ?_,
        fun _ => ?_, nofun, nofun⟩
      · rw [AttemptEnd.recordEnd, abandonedOf_recordFailed]
        exact h.fenced (congrArg Scheduler.taken hat)
      · exact patchFor_recordFailed_empty (h.empty (.inl hat))
    · have hal : task.taskID ∉ s.collector.abandonedOf base := by
        refine h.alive ?_
        rw [show s.decision = .accepted from ha]
        nofun
      refine ⟨fun _ => ?_, ?_, nofun, (fun hc => nomatch Scheduler.taken_of_abandoned hc), ?_,
        nofun⟩
      · rw [AttemptEnd.recordEnd, abandonedOf_recordFailed]
        exact hal
      · intro _ _ r hr
        rw [(ht _ rfl).holds_none] at hr
        cases hr
      · intro e' he' hi
        cases he'
        exact patchFor_recordFailed hi hal
    · exact ⟨h.alive, fun hne _ => h.holds hne (by rw [hat]; trivial), nofun,
        (fun hc => nomatch Scheduler.taken_of_abandoned hc), nofun, nofun⟩
    · exact absurd (congrArg Scheduler.taken hat) (ho.kept c)
  | merges e hat =>
    refine ⟨h.alive, fun _ hop => hop.elim, ?_, (by rintro (hc | hc) <;> cases hc), nofun, ?_⟩
    · intro ht
      refine h.fenced ?_
      rw [hat]
      exact ht
    · intro e' patch hc
      cases hc
      exact h.leaves ho hat
  | discards e hat =>
    refine ⟨h.alive, fun _ hop => hop.elim, ?_, (by rintro (hc | hc) <;> cases hc), nofun, nofun⟩
    intro ht
    refine h.fenced ?_
    rw [hat]
    exact ht

theorem HandOff.Stored.step (h : s.Stored base task) (ho : s.Ordered)
    (hst : HandOffStep base task s s') : s'.Stored base task := by
  cases hst with
  | worker hw => exact h.worker ho hw
  | scheduler hs => exact h.scheduler ho hs
  | other c hc =>
    obtain ⟨hp, hm⟩ := keeps_of_otherStep hc
    refine ⟨?_, ?_, ?_, ?_, ?_, h.merged⟩
    · exact fun hne => fun hin => h.alive hne (hm.mp hin)
    · exact fun hne hop r hr => hp.trans (h.holds hne hop r hr)
    · exact fun ht => (h.fenced ht).imp_left hm.mpr
    · exact fun hem => hp.trans (h.empty hem)
    · exact fun e he hi => hp.trans (h.failed e he hi)

end Steps

/-- Both invariants hold in every state that is reached without losing steps. -/
theorem HandOffReached.invariant {task : GraphTask} {s : HandOff}
    (h : HandOffReached false base task s) : s.Ordered ∧ s.Stored base task := by
  induction h with
  | start c ha =>
    exact ⟨⟨nofun, nofun, nofun, nofun, nofun, (by rintro c (hc | hc) <;> cases hc), nofun, nofun,
      nofun⟩, ⟨fun _ => ha, fun _ _ => nofun, nofun,
        (fun hc => nomatch Scheduler.taken_of_abandoned hc), nofun, nofun⟩⟩
  | step _ hs ih => exact ⟨ih.1.step hs, ih.2.step ih.1 hs⟩
  | lose ha => cases ha

theorem HandOffReached.run (h : HandOffReached losing base task s)
    (hr : Relation.ReflTransGen (HandOffStep base task) s s') :
    HandOffReached losing base task s' := by
  induction hr with
  | refl => exact h
  | tail _ hs ih => exact ih.step hs

/-! ## The result -/

section Delivery

variable {base : Nat} {task : GraphTask} {s : HandOff}

theorem HandOff.Ordered.run (h : s.Ordered)
    (hr : Relation.ReflTransGen (HandOffStep base task) s s') : s'.Ordered := by
  induction hr with
  | refl => exact h
  | tail _ hs ih => exact ih.step hs

/-- A goroutine that has returned a result delivers it. -/
theorem HandOff.delivers (h : s.worker.result = some c) :
    ∃ s', Relation.ReflTransGen (HandOffStep base task) s s' ∧ s'.worker.Delivered c ∧
      s'.scheduler = s.scheduler ∧ s'.committed = s.committed := by
  have hc : ∀ s : HandOff, s.worker = .closing c → ∃ s',
      Relation.ReflTransGen (HandOffStep base task) s s' ∧ s'.worker.Delivered c ∧
        s'.scheduler = s.scheduler ∧ s'.committed = s.committed := fun s hat =>
    ⟨_, .tail (.single (.worker (.decides c hat))) (.worker (.sends c rfl)), .inl rfl, rfl, rfl⟩
  cases hw : s.worker with
  | running | recorded _ | accepted _ | failing _ =>
    rw [hw] at h
    cases h
  | returned r =>
    obtain rfl : .ok r = c := by
      rw [hw] at h
      exact Option.some.inj h
    obtain ⟨s', hr, hd⟩ := hc { s with
        collector :=
          if s.collector.hasPatch base task.taskID then s.collector
          else s.collector.record base task r.patch
        worker := .closing (.ok r) } rfl
    exact ⟨s', .head (.worker (.recordsPatch r hw)) hr, hd⟩
  | closing c' =>
    rw [hw] at h
    cases h
    exact hc s hw
  | sending c' =>
    rw [hw] at h
    cases h
    exact ⟨_, .single (.worker (.sends _ hw)), .inl rfl, rfl, rfl⟩
  | sent c' =>
    rw [hw] at h
    cases h
    exact ⟨s, .refl, .inl hw, rfl, rfl⟩
  | ended c' =>
    rw [hw] at h
    cases h
    exact ⟨s, .refl, .inr hw, rfl, rfl⟩

theorem Worker.Delivered.result {w : Worker} {c : AttemptResult} (h : w.Delivered c) :
    w.result = some c := by
  rcases h with rfl | rfl
  · rfl
  · rfl

/-- After a success commit the scheduler takes nothing but the committed result. -/
theorem HandOff.Ordered.taken_committed (h : s.Ordered) {r : ExecutionResult}
    (hco : s.committed = some r) {e : AttemptEnd} (he : s.scheduler.taken = some e) :
    e = .used (.ok r) := by
  obtain ⟨ha, hr⟩ := h.committed r hco
  have hag := h.agrees
  rw [ha] at hag
  cases e with
  | abandoned =>
    cases hs : s.scheduler with
    | waiting | abandoning | awaiting =>
      rw [hs] at he
      cases he
    | settling e | settled e | merged e _ | discarded e =>
      rw [hs] at he hag
      cases he
      cases hag
  | used c =>
    have hc := (h.taken c he).result
    rw [hr] at hc
    rw [Option.some.inj hc]
  | lost c => exact absurd he (h.kept c)

/-- After a success commit both programs can go on, until the scheduler has taken the
committed result. -/
theorem HandOff.Ordered.takes_committed (ho : s.Ordered) {r : ExecutionResult}
    (hc : s.committed = some r) :
    ∃ s', Relation.ReflTransGen (HandOffStep base task) s s' ∧
      s'.scheduler.taken = some (.used (.ok r)) := by
  cases ht : s.scheduler.taken with
  | some e => exact ⟨s, .refl, by rw [ht, ho.taken_committed hc ht]⟩
  | none =>
    obtain ⟨s₁, hr, hd, hs, hsa⟩ := HandOff.delivers (ho.committed r hc).2
    have hord₁ := ho.run hr
    have ha := (hord₁.committed r (hsa.trans hc)).1
    have hre := hord₁.ready _ hd (by rw [hs, ht])
    have hw : s₁.scheduler = .waiting ∨ s₁.scheduler = .awaiting := by
      have hag := hord₁.agrees
      rw [ha] at hag
      rw [← hs] at ht
      revert hag ht
      cases s₁.scheduler <;> simp [Scheduler.taken, Scheduler.Agrees]
    exact ⟨_, hr.tail (.scheduler (.receives _ hw hre)), rfl⟩

end Delivery

end WeaveFlow
