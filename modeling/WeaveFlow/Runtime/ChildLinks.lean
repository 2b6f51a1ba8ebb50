import WeaveFlow.Runtime.RunnerSteps

/-!
# Every child is linked once

The steps of `RunChild` are runner steps, whatever runs beside them, and a call
that gets as far as executing the child has seen it among the linked children of
the parent.  Both are read off the two functions that change the lists of a
parent; the loops around them only have to know that a record whose revision has
not changed is the record they have read.
-/

namespace WeaveFlow

open MemoryStore KeyedMap Bool Proc Outcome List

/-! ## Checks of ids -/

/-- What a reservation that passes its check looks like. -/
structure WellFormed (pending : PendingChildRun) : Prop where
  key : pending.requestKey ≠ ""
  childRunID : pending.childRunID = childRunIDForRequestKey pending.requestKey
  trimmed : trimSpace pending.childRunID = pending.childRunID
  parent : trimSpace pending.parentRunID ≠ ""

theorem wellFormed_of_valid (h : validatePendingChildRun pending = .ok ()) :
    WellFormed pending := by
  obtain ⟨_, hk, h⟩ := of_bind h
  simp only [bind_eq_ok] at h
  obtain ⟨_, ht, _, hid, _, hc, _, hf, -⟩ := h
  obtain ⟨_, hp, -⟩ := of_bind hf
  simp only [require_eq_ok, decide_eq_true_eq] at hk ht hc hp
  exact ⟨ht ▸ hk, hc, trimmed_of_storageID hid, hp⟩

/-- What a run has in common with its reservation. -/
theorem reserved_of_valid (h : validateReservedChildRun run reservation = .ok ()) :
    run.runID = reservation.childRunID ∧ run.childRequestKey = reservation.requestKey := by
  obtain ⟨_, -, h⟩ := of_bind h
  obtain ⟨_, hid, h⟩ := of_bind h
  obtain ⟨_, hk, -⟩ := of_bind h
  simp only [require_eq_ok, decide_eq_true_eq] at hid hk
  exact ⟨hid, hk⟩

/-! ## The lists of the parent -/

theorem pendingChildRunByKey_eq_some
    (h : pendingChildRunByKey pendingRuns requestKey = .ok (some matched)) :
    matched.requestKey = requestKey := by
  have hm : matched ∈ pendingRuns.filter (·.requestKey = requestKey) := by
    rw [pendingChildRunByKey] at h
    split at h
    · cases h
    next heq => cases h; rw [heq]; exact mem_cons_self
    · cases h
  simpa using (mem_filter.mp hm).2

/-- A reservation is the one that was there or the one that was proposed, and it
adds one child to the parent. -/
theorem reservePendingChildRun_eq_ok
    (hn : IsChildID digest proposed.parentRunID proposed.childRunID)
    (h : reservePendingChildRun parentRun proposed now = .ok (reservation, stored)) :
    (WellFormed reservation ∧ reservation.requestKey = proposed.requestKey) ∧
      ∀ updated ∈ stored, ParentChange digest parentRun updated := by
  obtain ⟨_, hv, h⟩ := of_bind h
  simp only [bind_eq_ok] at h
  obtain ⟨_, hp, _, hs, _, -, _, -, existing, he, h⟩ := h
  rw [require_eq_ok, decide_eq_true_eq] at hp
  rw [require_eq_ok] at hs
  cases existing with
  | some existing =>
    obtain ⟨_, hm, h⟩ := of_bind h
    obtain ⟨_, -, h⟩ := of_bind h
    cases h
    obtain ⟨_, -, hpe⟩ := of_bind hm
    exact ⟨⟨wellFormed_of_valid hpe, pendingChildRunByKey_eq_some he⟩,
      fun updated hu => by cases hu⟩
  | none =>
    have hpr := wellFormed_of_valid hv
    simp only at h
    split at h
    · cases h
      exact ⟨⟨hpr, rfl⟩, fun updated hu => by cases hu⟩
    · cases h
      refine ⟨⟨hpr, rfl⟩, fun updated hu => ?_⟩
      cases hu
      refine ⟨rfl, rfl, rfl, rfl, rfl, ?_, fun _ hc => hc, ?_, ?_⟩
      · intro child hc
        simp only [RunRecord.listed, map_append, mem_append] at hc ⊢
        rcases hc with hc | hc
        · exact .inl hc
        · exact .inr (.inl hc)
      · intro child hc
        simp only [RunRecord.listed, map_append, mem_append, map_cons,
          map_nil, mem_singleton] at hc
        rcases hc with hc | hc | rfl
        · exact .inl (mem_append_left _ hc)
        · exact .inl (mem_append_right _ hc)
        · exact .inr (hp.symm ▸ hn)
      · intro hen
        exfalso
        revert hs hen
        cases parentRun.status <;> decide

/-- The child that is finalized is linked, and the parent lists what it listed. -/
theorem finalizePendingChildRun_eq_ok {parentRun : RunRecord} {requestKey childRunID : String}
    {now : Time} {next : Option RunRecord}
    (h : finalizePendingChildRun parentRun requestKey childRunID now = .ok next) :
    (next = none → trimSpace childRunID ∈ parentRun.childRunIDs) ∧
      ∀ updated ∈ next, ParentChange digest parentRun updated ∧
        trimSpace childRunID ∈ updated.childRunIDs := by
  obtain ⟨_, -, h⟩ := of_bind h
  simp only [bind_eq_ok] at h
  obtain ⟨_, -, _, hd, _, hm, _, -, h⟩ := h
  rw [require_eq_ok, decide_eq_true_eq] at hd
  generalize hk : trimSpace requestKey = key at h hm
  generalize hch : trimSpace childRunID = child at h hm
  cases hf : parentRun.pendingChildRuns.find? (·.requestKey = key) with
  | none =>
    rw [hf] at h
    obtain ⟨_, hl, h⟩ := of_bind h
    cases h
    rw [require_eq_ok, contains_iff_mem] at hl
    exact ⟨fun _ => hl, fun updated hu => by cases hu⟩
  | some pending =>
    rw [hf] at h hm
    cases h
    refine ⟨(fun hn => by cases hn), fun updated hu => ?_⟩
    cases hu
    obtain ⟨_, hv, -⟩ := of_bind hm
    obtain ⟨_, hr, -⟩ := of_bind hv
    rw [require_eq_ok, decide_eq_true_eq] at hr
    have hp : pending ∈ parentRun.pendingChildRuns := mem_of_find?_eq_some hf
    have hpe : pending.requestKey = key := by simpa using List.find?_some hf
    have hl : child ∈ (linkChild parentRun key child now).childRunIDs := by
      simp only [linkChild]
      split
      next hco => exact contains_iff_mem.mp hco
      · exact mem_append_right _ mem_cons_self
    have hke : ∀ c ∈ parentRun.childRunIDs, c ∈ (linkChild parentRun key child now).childRunIDs := by
      intro c hc
      simp only [linkChild]
      split
      · exact hc
      · exact mem_append_left _ hc
    have hb : ∀ c ∈ (linkChild parentRun key child now).listed, c ∈ parentRun.listed := by
      intro c hc
      rcases RunRecord.mem_listed.mp hc with hc | ⟨other, ho, rfl⟩
      · simp only [linkChild] at hc
        split at hc
        · exact mem_append_left _ hc
        · rcases mem_append.mp hc with hc | hc
          · exact mem_append_left _ hc
          · rw [mem_singleton.mp hc, ← hr]
            exact mem_append_right _ (mem_map_of_mem hp)
      · exact mem_append_right _ (mem_map_of_mem (mem_filter.mp ho).1)
    refine ⟨⟨rfl, rfl, rfl, rfl, rfl, ?_, hke, fun c hc => .inl (hb c hc), fun he => ⟨he, hb⟩⟩, hl⟩
    intro c hc
    rcases RunRecord.mem_listed.mp hc with hc | ⟨other, ho, rfl⟩
    · exact mem_append_left _ (hke c hc)
    · by_cases hot : other.requestKey = key
      · have hs : other = pending := inj_on_of_nodup_map hd ho hp (hot.trans hpe.symm)
        rw [hs, hr]
        exact mem_append_left _ hl
      · refine mem_append_right _ (mem_map_of_mem ?_)
        exact mem_filter.mpr ⟨ho, by simpa using hot⟩

theorem parentChange_mergeControls : ParentChange digest run (mergeControls controls run) :=
  ⟨rfl, rfl, rfl, rfl, rfl, fun _ h => h, fun _ h => h, fun _ h => .inl h,
    fun h => ⟨h, fun _ h => h⟩⟩

/-! ## The steps of a call -/

/-- What a call may rely on, and what it may conclude from a record it has seen. -/
structure Beside (R : MemoryStore → MemoryStore → Prop)
    (Seen : RunRecord → MemoryStore → Prop) : Prop where
  evolves : ∀ s s', R s s' → Evolves s s'
  seen : ∀ run s, s.runs.get run.runID = some run → Seen run s
  stable : ∀ run, Stable R (Seen run)

/-- The end of a change of the parent: the answer fits a record of it that was seen. -/
def Settled {α : Type} (Seen : RunRecord → MemoryStore → Prop) (parentRunID : String)
    (Answer : α → RunRecord → Prop) (a : α) (s : MemoryStore) : Prop :=
  ∃ record, record.runID = parentRunID ∧ Answer a record ∧ Seen record s

/-- A change of the parent that a runner may make: the answer fits the record as it
is or as it becomes, whatever its revision. -/
structure Settles {α : Type} (digest : List String → String) (Answer : α → RunRecord → Prop)
    (update : ParentUpdate α) : Prop where
  same : ∀ run i a, update run i = .ok (a, none) → Answer a run
  changed : ∀ run i a next, update run i = .ok (a, some next) →
    ParentChange digest run next ∧ Answer a next
  bumped : ∀ a run, Answer a run → Answer a (MemoryStore.bumped run)

section

variable {digest : List String → String} {R : MemoryStore → MemoryStore → Prop}
  {Seen : RunRecord → MemoryStore → Prop} {α : Type} {Answer : α → RunRecord → Prop}

theorem Beside.settled (h : Beside R Seen) (parentRunID : String) (a : α) :
    Stable R (Settled Seen parentRunID Answer a) := by
  rintro s s' hr ⟨record, hid, ha, hs⟩
  exact ⟨record, hid, ha, h.stable record s s' hr hs⟩

/-- A record that was read. -/
def Loaded (Seen : RunRecord → MemoryStore → Prop) (runID : String) (r : Except RunError RunRecord)
    (s : MemoryStore) : Prop :=
  ∀ run, r = .ok run →
    (run.runID = runID ∧ trimSpace run.runID = run.runID) ∧ Tracks run s ∧ Seen run s

theorem Beside.loaded (h : Beside R Seen) (runID : String) (r : Except RunError RunRecord) :
    Stable R (Loaded Seen runID r) := by
  intro s s' hr hs run hru
  obtain ⟨hid, ht, hse⟩ := hs run hru
  exact ⟨hid, ht.evolves (h.evolves s s' hr), h.stable run s s' hr hse⟩

theorem meets_loadRun (h : Beside R Seen) {β : Type} {Q : β → MemoryStore → Prop} {runID : String}
    {f : Except RunError RunRecord → StoreProc β} {s : MemoryStore}
    (hf : ∀ loaded s, Loaded Seen runID loaded s →
      Meets R (RunnerStep digest) Q (fun _ => True) (f loaded) s) :
    Meets R (RunnerStep digest) Q (fun _ => True) (loadRun runID >>= f) s := by
  refine meets_load (.refl digest) stable_true trivial (h.loaded runID) ?_ hf
  intro s _ run hr
  obtain ⟨hg, hid, ht⟩ := getRun_eq_ok hr
  rw [← hid] at hg ht
  exact ⟨⟨hid, ht⟩, tracks_of_get hg, h.seen run s hg⟩

variable {call : ChildCall} {parentRunID : String} {update : ParentUpdate α}
  {guard : Option ExecutionLeaseGuard}

section

variable (h : Beside R Seen) (hupdate : Settles digest Answer update)
include h hupdate

/-- The loop without a controller. -/
theorem meets_swapParent :
    Meets R (RunnerStep digest) (Settled Seen parentRunID Answer) (fun _ => True)
      (swapParent guard parentRunID action update) s := by
  refine meets_swapRun h.evolves (.refl digest) ?_ stable_true (h.settled parentRunID) ?_ ?_ trivial
  · intro loaded i a next hn
    obtain ⟨run, rfl, hn⟩ := of_bind hn
    have hc := (hupdate.changed run i a next hn).1
    exact ⟨run, rfl, hc.runID, hc.revision⟩
  · intro s i a _ hno
    obtain ⟨run, hl, hno⟩ := of_bind hno
    obtain ⟨hg, hid, -⟩ := getRun_eq_ok hl
    rw [← hid] at hg
    exact ⟨run, hid, hupdate.same run i a hno, h.seen run s hg⟩
  · intro s i a copy next _ hs hid hn hsw
    obtain ⟨hc, ha⟩ := hupdate.changed copy i a next hn
    refine ⟨runnerStep_of_swaps hc rfl rfl hsw rfl rfl, ?_⟩
    exact ⟨MemoryStore.bumped next, hc.runID.trans hid, hupdate.bumped a next ha,
      h.seen _ _ (s.get_swapped_self next)⟩

omit h hupdate in
/-- A commit of the parent's record alone. -/
theorem commit_parent {guard : Option ExecutionLeaseGuard} {copy next : RunRecord}
    {transactionID : String} {result : CommitResult} {s s' : MemoryStore} (hc : Tracks copy s)
    (hch : ParentChange digest copy next)
    (h : (guardExecutionCommit guard
        { transactionID := transactionID, run := some ⟨.update, next⟩ } >>=
      s.commitGenerated {}) = .ok (result, s')) :
    RunnerStep digest s s' ∧ s'.runs.get next.runID = some (MemoryStore.bumped next) := by
  obtain ⟨commit, hg, h⟩ := of_bind h
  have hr : commit.run = some ⟨.update, next⟩ := by
    rw [guardExecutionCommit, if_neg (by simp)] at hg
    obtain ⟨_, -, hg⟩ := of_bind hg
    cases guard with
    | none => cases hg; rfl
    | some guard =>
      obtain ⟨_, -, hg⟩ := of_bind hg
      cases hg
      rfl
  have ha := commitGenerated_eq_ok h
  rcases commitRun_eq_ok ha.valid ha.run with
    ⟨-, hce⟩ | ⟨run, hcr, -⟩ | ⟨existing, run, hw, hwr, hs, -, -⟩
  · have := hce _ hr
    cases this
  · simp [hr] at hcr
  · rw [hr] at hw
    cases hw
    have hru := ha.runs
    rw [hwr] at hru
    have hst := hs.stored
    rw [hch.runID] at hst
    have hsa : existing = copy := hc.eq_of_revision hst (hs.revision.trans hch.revision)
    subst hsa
    refine ⟨runnerStep_of_swaps hch rfl rfl hs hru ha.fences, ?_⟩
    rw [hru]
    exact get_put_self _ (MemoryStore.bumped next)

/-- The loop through the execution of the parent. -/
theorem meets_persistRunChecked (conflicts : Nat) (s : MemoryStore) :
    Meets R (RunnerStep digest) (Settled Seen controller.runID Answer) (fun _ => True)
      (persistRunChecked controller guard transactionIDs update rounds conflicts) s := by
  induction rounds generalizing conflicts s with
  | zero => exact meets_throw stable_true trivial
  | succ rounds ih =>
    refine meets_loadRun h ?_
    intro loaded s hl
    refine meets_check (h.loaded controller.runID loaded) hl ?_
    rintro run s rfl hl
    refine meets_check (h.loaded controller.runID (.ok run)) hl ?_
    intro _ s _ hl
    refine meets_check (h.loaded controller.runID (.ok run)) hl ?_
    rintro ⟨a, updated⟩ s hc hl
    obtain ⟨⟨hid, -⟩, ht, hse⟩ := hl run rfl
    generalize hm : mergeControls (controller.controls (2 * rounds)) run = merged at hc ⊢
    have hme : ParentChange digest run merged := hm ▸ parentChange_mergeControls
    -- The record that is written, if one is, and the answer that fits it.
    have hn : ParentChange digest run (updated.getD merged) ∧ Answer a (updated.getD merged) := by
      cases updated with
      | none => exact ⟨hme, hupdate.same merged rounds a hc⟩
      | some next =>
        obtain ⟨hch, ha⟩ := hupdate.changed merged rounds a next hc
        exact ⟨hme.trans hch, ha⟩
    have hco : Meets R (RunnerStep digest)
        (fun r s => ∀ result, r = .ok result → Settled Seen controller.runID Answer a s)
        (fun _ => True)
        (commitRuntime guard
          { transactionID := transactionIDs rounds, run := some ⟨.update, updated.getD merged⟩ })
        s := by
      refine meets_attempt (stable_tracks h.evolves) ht ?_ ?_ ?_
      · intro s result s' ht hco
        obtain ⟨hst, hg⟩ := commit_parent ht hn.1 hco
        refine ⟨hst, fun _ _ => ?_⟩
        exact ⟨MemoryStore.bumped (updated.getD merged), hn.1.runID.trans hid,
          hupdate.bumped a _ hn.2, h.seen _ s' hg⟩
      · intro s e _ _
        exact ⟨.refl digest s, fun result hre => by cases hre⟩
      · intro r s s' hr hs result hre
        exact h.settled controller.runID a s s' hr (hs result hre)
    split
    next hsa =>
      rw [and_eq_true, decide_eq_true_eq] at hsa
      split
      · exact ih conflicts s
      · have hno : updated = none := Option.isNone_iff_eq_none.mp hsa.1
        subst hno
        exact meets_pure (h.settled controller.runID a) ⟨run, hid, hsa.2 ▸ hn.2, hse⟩
    · refine meets_bind stable_true hco ?_
      intro r s hr
      cases r with
      | ok result =>
        simp only
        split
        · exact ih conflicts s
        · exact meets_pure (h.settled controller.runID a) (hr result rfl)
      | error e =>
        simp only
        split
        · split
          · exact meets_throw stable_true trivial
          · exact ih (conflicts + 1) s
        · exact meets_throw stable_true trivial

theorem meets_updateParent :
    Meets R (RunnerStep digest) (Settled Seen parentRunID Answer) (fun _ => True)
      (updateParent call parentRunID action update) s := by
  rw [updateParent]
  cases call.controller with
  | none => exact meets_swapParent h hupdate
  | some controller =>
    refine meets_check stable_true trivial ?_
    intro _ s hid _
    rw [require_eq_ok, decide_eq_true_eq] at hid
    subst hid
    exact meets_persistRunChecked h hupdate 0 s

omit hupdate in
theorem meets_reserveChildRun (hn : IsChildID digest proposed.parentRunID proposed.childRunID) :
    Meets R (RunnerStep digest)
      (fun reservation _ => WellFormed reservation ∧ reservation.requestKey = proposed.requestKey)
      (fun _ => True) (reserveChildRun call parentRunID proposed) s := by
  have hupdate : Settles digest
      (fun reservation _ => WellFormed reservation ∧ reservation.requestKey = proposed.requestKey)
      fun parentRun i => reservePendingChildRun parentRun proposed (call.clock i) := by
    refine ⟨?_, ?_, fun _ _ ha => ha⟩
    · intro run i reservation hr
      exact (reservePendingChildRun_eq_ok hn hr).1
    · intro run i reservation next hr
      obtain ⟨hwf, hc⟩ := reservePendingChildRun_eq_ok hn hr
      exact ⟨hc next rfl, hwf⟩
  refine meets_mono ?_ (meets_updateParent h hupdate)
  rintro reservation s ⟨_, -, hwf, -⟩
  exact hwf

omit hupdate in
/-- After the finalization the parent was seen with the child among the linked ones. -/
theorem meets_finalizeChildRun (ht : trimSpace childRunID = childRunID) :
    Meets R (RunnerStep digest)
      (Settled Seen parentRunID fun (_ : Unit) record => childRunID ∈ record.childRunIDs)
      (fun _ => True) (finalizeChildRun call parentRunID requestKey childRunID) s := by
  refine meets_updateParent h ⟨?_, ?_, fun _ _ ha => ha⟩
  · intro run i _ hf
    obtain ⟨next, hn, heq⟩ := map_eq_ok hf
    cases heq
    have hl := (@finalizePendingChildRun_eq_ok digest _ _ _ _ _ hn).1 rfl
    rwa [ht] at hl
  · intro run i _ next hf
    obtain ⟨found, hn, heq⟩ := map_eq_ok hf
    cases heq
    obtain ⟨hc, hl⟩ := (@finalizePendingChildRun_eq_ok digest _ _ _ _ _ hn).2 next rfl
    rw [ht] at hl
    exact ⟨hc, hl⟩

end

/-! ## The call -/

/-- The child is created as the reservation says. -/
theorem create_child {call : ChildCall} {reservation : PendingChildRun} {rootRunID : String}
    {result : CommitResult} {s s' : MemoryStore} (hwf : WellFormed reservation)
    (h : (guardExecutionCommit none
        (preparedChildCommit call (preparedChildRun call reservation rootRunID)) >>=
      s.commitGenerated {}) = .ok (result, s')) : RunnerStep digest s s' := by
  obtain ⟨commit, hg, h⟩ := of_bind h
  cases hg
  have ha := commitGenerated_eq_ok h
  have hr := ha.runs
  rcases commitRun_eq_ok ha.valid ha.run with
    ⟨-, hc⟩ | ⟨run, hcr, hw, hac⟩ | ⟨existing, run, hwr, -⟩
  · have := hc _ rfl
    cases this
  · cases hcr
    rw [hw] at hr
    refine ⟨?_, ha.fences⟩
    rw [hr]
    refine .created _ hac rfl (fun _ => hwf.key) ?_
    intro hp
    exact absurd hp hwf.parent
  · cases hwr

theorem meets_startChildRun (hwf : WellFormed reservation) :
    Meets R (RunnerStep digest) (fun _ _ => True) (fun _ => True)
      (startChildRun call reservation rootRunID) s := by
  rw [startChildRun]
  split
  · exact meets_pure stable_true trivial
  · have hc : Meets R (RunnerStep digest) (fun _ _ => True) (fun _ => True) (commitRuntime none
          (preparedChildCommit call (preparedChildRun call reservation rootRunID))) s := by
      refine meets_attempt stable_true trivial ?_ ?_ fun _ => stable_true
      · intro s result s' _ hc
        exact ⟨create_child hwf hc, trivial⟩
      · intro s e _ _
        exact ⟨.refl digest s, trivial⟩
    exact meets_bind stable_true hc fun _ _ _ => meets_pure stable_true trivial

theorem meets_startOrLoadChild (h : Beside R Seen) (hwf : WellFormed reservation) :
    Meets R (RunnerStep digest) (fun _ _ => True) (fun _ => True)
      (startOrLoadChild call reservation rootRunID) s := by
  unfold startOrLoadChild
  refine meets_bind stable_true (meets_startChildRun hwf) ?_
  intro started s _
  cases started with
  | ok run => exact meets_pure stable_true trivial
  | error e =>
    refine meets_loadRun h ?_
    intro persisted s _
    cases persisted with
    | ok run => exact meets_pure stable_true trivial
    | error _ => exact meets_throw stable_true trivial

/-- The answer of a call: the child is the one of the request key, and the parent was
seen with it among the linked children. -/
structure Answered (Seen : RunRecord → MemoryStore → Prop) (parentRunID requestKey : String)
    (result : ChildRunResult) (s : MemoryStore) : Prop where
  key : result.run.childRequestKey = requestKey
  runID : result.run.runID = childRunIDForRequestKey requestKey
  linked : ∃ record, record.runID = parentRunID ∧ result.run.runID ∈ record.childRunIDs ∧
    Seen record s

section

variable (h : Beside R Seen)
include h

theorem Beside.answered (parentRunID requestKey : String) (result : ChildRunResult) :
    Stable R (Answered Seen parentRunID requestKey result) := by
  rintro s s' hr ⟨hk, hid, record, hre, hl, hs⟩
  exact ⟨hk, hid, record, hre, hl, h.stable record s s' hr hs⟩

theorem meets_resumeChild (ht : trimSpace existing.runID = existing.runID)
    (hid : proposed.childRunID = childRunIDForRequestKey proposed.requestKey) :
    Meets R (RunnerStep digest) (Answered Seen proposed.parentRunID proposed.requestKey)
      (fun _ => True) (resumeChild call proposed existing) s := by
  unfold resumeChild
  refine meets_check stable_true trivial ?_
  intro _ s _ _
  refine meets_check stable_true trivial ?_
  intro _ s hr _
  obtain ⟨hru, hk⟩ := reserved_of_valid hr
  refine meets_bind stable_true (meets_finalizeChildRun h ht) ?_
  rintro _ s ⟨record, hre, hl, hs⟩
  exact meets_pure (h.answered proposed.parentRunID proposed.requestKey _)
    ⟨hk, hru.trans hid, record, hre, hl, hs⟩

theorem meets_createChild (hn : IsChildID digest proposed.parentRunID proposed.childRunID) :
    Meets R (RunnerStep digest) (Answered Seen proposed.parentRunID proposed.requestKey)
      (fun _ => True) (createChild call proposed rootRunID) s := by
  unfold createChild
  refine meets_bind stable_true (meets_reserveChildRun h hn) ?_
  rintro reservation s ⟨hwf, hp⟩
  refine meets_bind stable_true (meets_startOrLoadChild h hwf) ?_
  intro run s _
  refine meets_check stable_true trivial ?_
  intro _ s hr _
  obtain ⟨hru, hk⟩ := reserved_of_valid hr
  have ht : trimSpace run.runID = run.runID := by
    rw [hru]
    exact hwf.trimmed
  refine meets_bind stable_true (meets_finalizeChildRun h ht) ?_
  rintro _ s ⟨record, hre, hl, hs⟩
  have hid : run.runID = childRunIDForRequestKey proposed.requestKey := by
    rw [hru, hwf.childRunID, hp]
  exact meets_pure (h.answered proposed.parentRunID proposed.requestKey _)
    ⟨hk.trans hp, hid, record, hre, hl, hs⟩

theorem meets_findChildRun : Meets R (RunnerStep digest)
      (fun found _ => ∀ run, found = some run → trimSpace run.runID = run.runID)
      (fun _ => True) (findChildRun request requestKey) s := by
  refine meets_loadRun h ?_
  intro loaded s hl
  cases loaded with
  | error e =>
    cases e with
    | recordNotFound _ => exact meets_pure stable_const fun run hr => by cases hr
    | _ => exact meets_throw stable_true trivial
  | ok run =>
    refine meets_check stable_true trivial ?_
    intro _ s _ _
    refine meets_pure stable_const ?_
    intro found hf
    cases hf
    exact (hl run rfl).1.2

theorem meets_runRequestedChild : Meets R (RunnerStep digest)
      (Answered Seen request.parentRunID (childRunRequestKey digest request)) (fun _ => True)
      (runRequestedChild digest call request rootRunID) s := by
  unfold runRequestedChild
  refine meets_check stable_true trivial ?_
  intro _ s _ _
  refine meets_bind stable_true (meets_findChildRun h) ?_
  intro existing s hf
  show Meets R (RunnerStep digest) (Answered Seen (proposedChildRun digest call request).parentRunID
      (proposedChildRun digest call request).requestKey) (fun _ => True) _ s
  have hid : (proposedChildRun digest call request).childRunID =
      childRunIDForRequestKey (proposedChildRun digest call request).requestKey := rfl
  have hn : IsChildID digest (proposedChildRun digest call request).parentRunID
      (proposedChildRun digest call request).childRunID := ⟨request, rfl, rfl⟩
  generalize proposedChildRun digest call request = proposed at hid hn ⊢
  cases existing with
  | some existing => exact meets_resumeChild h (hf existing rfl) hid
  | none => exact meets_createChild h hn

end

/-- The key of a call: a request without a namespace gets one from a record of its parent. -/
def ChildCall.Asks (digest : List String → String) (call : ChildCall) (requestKey : String) : Prop :=
  ∃ parentRun : RunRecord, parentRun.runID = call.request.normalize.parentRunID ∧
    requestKey = childRunRequestKey digest (call.request.normalize.withNamespace parentRun)

/-- Every step of a call is a runner step, and a call that succeeds has linked its
child. -/
theorem meets_runChild (h : Beside R Seen) : Meets R (RunnerStep digest)
      (fun result s => ∃ requestKey, call.Asks digest requestKey ∧
        Answered Seen call.request.normalize.parentRunID requestKey result s)
      (fun _ => True) (runChild digest call) s := by
  unfold runChild
  refine meets_check stable_true trivial ?_
  intro _ s _ _
  refine meets_loadRun h ?_
  intro loaded s hl
  refine meets_check stable_true trivial ?_
  intro parentRun s hc _
  have hid := (hl parentRun (mapError_eq_ok.mp hc)).1.1
  refine meets_check stable_true trivial ?_
  intro _ s _ _
  have hp : (call.request.normalize.withNamespace parentRun).parentRunID =
      call.request.normalize.parentRunID := by
    rw [ChildRunRequest.withNamespace]
    split <;> rfl
  rw [← hp]
  refine meets_mono ?_ (meets_runRequestedChild h)
  intro result s ha
  exact ⟨_, ⟨parentRun, hid, rfl⟩, ha⟩

end

/-! ## What the check of a record says about its children -/

theorem validateLinkedChildren_nodup (h : validateLinkedChildren runID linked children = .ok ()) :
    children.Nodup ∧ ∀ child ∈ children, child ∉ linked := by
  induction children generalizing linked with
  | nil => exact ⟨nodup_nil, fun child hc => by cases hc⟩
  | cons child rest ih =>
    obtain ⟨_, -, h⟩ := of_bind h
    obtain ⟨_, hn, h⟩ := of_bind h
    obtain ⟨hno, ha⟩ := ih h
    simp only [require_eq_ok, not_eq_true', contains_eq_mem, decide_eq_false_iff_not] at hn
    refine ⟨nodup_cons.mpr ⟨fun hm => ha child hm mem_cons_self, hno⟩, ?_⟩
    intro other ho
    rcases mem_cons.mp ho with rfl | ho
    · exact hn
    · exact fun hm => ha other ho (mem_cons_of_mem _ hm)

theorem validatePendingChildren_nodup
    (h : validatePendingChildren runID linked seen children = .ok ()) :
    (children.map (·.childRunID)).Nodup ∧ ∀ pending ∈ children,
      pending.childRunID ∉ linked ∧ ∀ other ∈ seen, other.childRunID ≠ pending.childRunID := by
  induction children generalizing seen with
  | nil => exact ⟨nodup_nil, fun child hc => by cases hc⟩
  | cons pending rest ih =>
    obtain ⟨_, -, h⟩ := of_bind h
    simp only [bind_eq_ok] at h
    obtain ⟨_, -, _, -, _, hs, _, hl, h⟩ := h
    obtain ⟨hn, ha⟩ := ih h
    simp only [require_eq_ok, all_eq_true, decide_eq_true_eq] at hs
    simp only [require_eq_ok, not_eq_true', contains_eq_mem, decide_eq_false_iff_not] at hl
    refine ⟨?_, ?_⟩
    · rw [map_cons, nodup_cons]
      refine ⟨fun hm => ?_, hn⟩
      obtain ⟨other, ho, heq⟩ := mem_map.mp hm
      exact (ha other ho).2 pending mem_cons_self heq.symm
    · intro other ho
      rcases mem_cons.mp ho with rfl | ho
      · exact ⟨hl, hs⟩
      · exact ⟨(ha other ho).1, fun earlier he =>
          (ha other ho).2 earlier (mem_cons_of_mem _ he)⟩

/-- A record that passes its check lists no child twice, linked or reserved. -/
theorem listed_nodup (h : validateRunChildState run = .ok ()) : run.listed.Nodup := by
  obtain ⟨_, -, h⟩ := of_bind h
  obtain ⟨_, hl, h⟩ := of_bind h
  obtain ⟨_, hpe, -⟩ := of_bind h
  have hp := validatePendingChildren_nodup hpe
  refine nodup_append.mpr ⟨(validateLinkedChildren_nodup hl).1, hp.1, ?_⟩
  intro child hc other ho heq
  obtain ⟨pending, hm, rfl⟩ := mem_map.mp ho
  exact (hp.2 pending hm).1 (heq ▸ hc)

/-- A record with a request key has the id of the key. -/
theorem runID_of_requestKey (h : validateRunChildState run = .ok ())
    (hk : run.childRequestKey ≠ "") :
    run.runID = childRunIDForRequestKey run.childRequestKey := by
  obtain ⟨_, -, h⟩ := of_bind h
  obtain ⟨_, -, h⟩ := of_bind h
  obtain ⟨_, -, h⟩ := of_bind h
  rw [if_neg (by simp [hk])] at h
  simp only [bind_eq_ok] at h
  obtain ⟨_, hb, _, ht, _, -, h⟩ := h
  simp only [require_eq_ok, and_eq_true, decide_eq_true_eq] at hb ht
  simp only [validateChildRunRecordIdentity, require_eq_ok, or_eq_true, decide_eq_true_eq] at h
  rcases h with h | h
  · exact absurd h hb.1
  · rw [h, ← ht]

/-! ## Interleavings -/

/-- What is done to the store beside the calls: records are kept or replaced by later
revisions that pass their check, and no linked child is dropped. -/
structure Orderly (store store' : MemoryStore) : Prop where
  evolves : Evolves store store'
  childStates : store.ChildStatesValid → store'.ChildStatesValid
  linked : ∀ runID child, store.LinkedChild runID child → store'.LinkedChild runID child

theorem RunnerStep.orderly (h : RunnerStep digest store store') : Orderly store store' :=
  ⟨h.evolves, h.childStatesValid, fun _ _ => h.linkedChild⟩

/-- The linked children of a record are still linked. -/
def StillLinked (record : RunRecord) (store : MemoryStore) : Prop :=
  ∀ child ∈ record.childRunIDs, store.LinkedChild record.runID child

theorem beside_orderly : Beside Orderly StillLinked where
  evolves _ _ h := h.evolves
  seen run _ hg _ hc := ⟨run, hg, hc⟩
  stable _ _ _ h hs child hc := h.linked _ child (hs child hc)

section

variable {ι : Type} [DecidableEq ι] (digest : List String → String)

def childPool (calls : ι → ChildCall) (i : ι) : Proc MemoryStore (Except RunError ChildRunResult) :=
  (runChild digest (calls i)).run

/-- The parent lists the child once, as a linked one. -/
def LinkedOnce (store : MemoryStore) (parentRunID childRunID : String) : Prop :=
  ∃ parent, store.runs.get parentRunID = some parent ∧
    parent.childRunIDs.count childRunID = 1 ∧
    ∀ pending ∈ parent.pendingChildRuns, pending.childRunID ≠ childRunID

theorem linkedOnce_of_linked (hv : store.ChildStatesValid)
    (h : store.LinkedChild parentRunID childRunID) : LinkedOnce store parentRunID childRunID := by
  obtain ⟨parent, hg, hc⟩ := h
  have hn := nodup_append.mp (listed_nodup (hv parentRunID parent hg))
  refine ⟨parent, hg, count_eq_one_of_mem hn.1 hc, ?_⟩
  intro pending hp heq
  exact hn.2.2 childRunID hc _ (mem_map_of_mem hp) heq.symm

variable {digest} {calls : ι → ChildCall} {store : MemoryStore}

/-- In every interleaving of any number of calls, each of them possibly stopped
anywhere, there is one run at most for each request key, no run lists a child
twice, and a call that has succeeded has its child linked once. -/
theorem child_linked_once (hvalid : store.ChildStatesValid)
    {c : (ι → Proc MemoryStore (Except RunError ChildRunResult)) × MemoryStore}
    (hruns : PoolRuns Orderly (childPool digest calls, store) c) :
    (∀ runID₁ runID₂ run₁ run₂, c.2.runs.get runID₁ = some run₁ →
        c.2.runs.get runID₂ = some run₂ → run₁.childRequestKey ≠ "" →
        run₁.childRequestKey = run₂.childRequestKey → runID₁ = runID₂) ∧
      (∀ runID run, c.2.runs.get runID = some run → run.listed.Nodup) ∧
      ∀ i result, c.1 i = .done (.ok result) → ∃ requestKey, (calls i).Asks digest requestKey ∧
          result.run.runID = childRunIDForRequestKey requestKey ∧
          LinkedOnce c.2 (calls i).request.normalize.parentRunID result.run.runID := by
  have hs : PoolSat (fun _ => Orderly) (fun _ => RunnerStep digest)
      (fun i => Either (fun result s => ∃ requestKey, (calls i).Asks digest requestKey ∧
        Answered StillLinked (calls i).request.normalize.parentRunID requestKey result s)
        fun _ => True)
      (childPool digest calls, store) :=
    fun i => (meets_runChild beside_orderly).sat
  have hE : ∀ (_ : ι) s s', Orderly s s' → Orderly s s' := fun _ _ _ h => h
  have hG : ∀ (i j : ι) s s', i ≠ j → RunnerStep digest s s' → Orderly s s' :=
    fun _ _ _ _ _ h => h.orderly
  have hv : c.2.ChildStatesValid :=
    pool_induction hE hG hs (fun _ _ h => h.childStates) (fun _ _ _ h => h.childStatesValid)
      hvalid hruns
  refine ⟨?_, fun runID run hg => listed_nodup (hv runID run hg), ?_⟩
  · intro runID₁ runID₂ run₁ run₂ hget₁ hget₂ hk hsa
    have hid₁ := runID_of_requestKey (hv _ _ hget₁) hk
    have hid₂ := runID_of_requestKey (hv _ _ hget₂) (hsa ▸ hk)
    have hk₁ : run₁.runID = runID₁ := key_of_get hget₁
    have hk₂ : run₂.runID = runID₂ := key_of_get hget₂
    rw [← hk₁, ← hk₂, hid₁, hid₂, hsa]
  · intro i result hd
    have hst := sat_pool hE hG hs hruns i
    rw [hd] at hst
    obtain ⟨requestKey, ha, han⟩ := sat_result hst
    obtain ⟨record, hr, hc, hse⟩ := han.linked
    have hl := hse _ hc
    rw [hr] at hl
    exact ⟨requestKey, ha, han.runID, linkedOnce_of_linked hv hl⟩

end

/-- A running parent without children. -/
def parentRun : RunRecord where
  runID := "parent"
  rootRunID := "parent"
  «namespace» := "parent"
  status := .running

def parentStore : MemoryStore := { runs := KeyedMap.empty.put parentRun }

def subgraphCall : ChildCall where
  request := ⟨"parent", "step", "task", "sub", "child"⟩
  metadata := some ("parent", "step", "task")
  graph := { graphID := "graph", graphVersion := "1", entryNodeID := "start" }
  inputHash := "input"
  owner := ⟨"runner", "token", 1, 10⟩
  reservedAt := 1
  clock _ := 1
  transactionIDs _ := "transaction"
  checkpointID := "checkpoint"
  eventIDs _ := "event"

/-- A digest that is enough for one request. -/
def oneKey (_ : List String) : String := "key"

/-- Two calls of one request, one after the other: the second resumes the child of the first. -/
theorem child_linked_once_twice : ∃ first second c,
    PoolRuns Orderly (childPool oneKey fun _ : Bool => subgraphCall, parentStore) c ∧
      c.1 false = done (.ok first) ∧ c.1 true = done (.ok second) ∧ second.resumed = true ∧
      first.run.runID = "child-key" ∧ second.run.runID = "child-key" ∧
      LinkedOnce c.2 "parent" "child-key" := by
  have hv : parentStore.ChildStatesValid := by
    intro runID run hg
    have hr : run = parentRun := by
      rw [parentStore, get_put] at hg
      split at hg
      · exact (Option.some.inj hg).symm
      · cases hg
    subst hr
    decide
  have hp : ∀ i, childPool oneKey (fun _ : Bool => subgraphCall) i =
      (runChild oneKey subgraphCall).run := fun _ => rfl
  obtain ⟨first, second, s₁, s₂, hf, hs, hr⟩ : ∃ first second s₁ s₂,
      (runChild oneKey subgraphCall).run.eval parentStore = (.ok first, s₁) ∧
      (runChild oneKey subgraphCall).run.eval s₁ = (.ok second, s₂) ∧
      second.resumed = true := ⟨_, _, _, _, rfl, rfl, rfl⟩
  have h₁ : PoolRuns Orderly _ _ :=
    poolRuns_eval (childPool oneKey fun _ : Bool => subgraphCall) false parentStore
  rw [hp, hf] at h₁
  have h₂ : PoolRuns Orderly _ _ := poolRuns_eval
    (Function.update (childPool oneKey fun _ : Bool => subgraphCall) false (done (.ok first)))
    true s₁
  rw [Function.update_of_ne (by decide), hp, hs] at h₂
  have hl := (child_linked_once hv (h₁.trans h₂)).2.2
  obtain ⟨key₁, ⟨_, -, hk₁⟩, hid₁, hl₁⟩ := hl false first rfl
  obtain ⟨key₂, ⟨_, -, hk₂⟩, hid₂, -⟩ := hl true second rfl
  have hid₁ : first.run.runID = "child-key" := by
    rw [hid₁, hk₁]
    rfl
  have hid₂ : second.run.runID = "child-key" := by
    rw [hid₂, hk₂]
    rfl
  exact ⟨first, second, _, h₁.trans h₂, rfl, rfl, hr, hid₁, hid₂, hid₁ ▸ hl₁⟩

end WeaveFlow
