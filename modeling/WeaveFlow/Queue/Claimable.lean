import WeaveFlow.Queue.Leases

/-!
# Which tasks can be claimed

A task that is queued or running, whose run is not fenced and which is due, is meant to
be returned by the next `Claim` of it.  The query of `Claim` leaves out a task whose
attempts are used up.  A queued task of this kind was enqueued so, but a running one is
the rest of a crash: only `Fail` makes a task dead, and `Fail` needs a lease that is not
expired.  So a task whose worker is lost in its last attempt stays running for ever.

`claim_returns_iff` says which due tasks a claim returns.
-/

namespace WeaveFlow

open KeyedMap Option Database Outcome List

namespace Database

/-! ## The ids of stored tasks -/

/-- The ids of stored tasks are portable record ids. -/
def ValidIDs (db : Database) : Prop :=
  ∀ id task, db.tasks.get id = some task → trimSpace id = id ∧ id ≠ ""

variable {db db' : Database} {task : Task}

/-- A table that has no other ids. -/
theorem ValidIDs.of_subset (h : db.ValidIDs)
    (hs : ∀ id, (db'.tasks.get id).isSome → (db.tasks.get id).isSome) : db'.ValidIDs := by
  intro id task hg
  obtain ⟨row, hr⟩ := isSome_iff_exists.mp (hs id (by rw [hg]; rfl))
  exact h id row hr

theorem ValidIDs.replace (h : db.ValidIDs) (hr : Replaces db db' task task') : db'.ValidIDs := by
  refine h.of_subset ?_
  intro id hs
  rw [hr.get] at hs
  split at hs
  next hid => rw [hid, hr.stored]; rfl
  · exact hs

end Database

theorem validIDs_rows (h : s.db.ValidIDs) (hr : RowStep admits allowed s s') : s'.db.ValidIDs := by
  induction hr with
  | same tasks => exact h.of_subset fun id hs => by rw [tasks] at hs; exact hs
  | enqueue enqueues =>
    intro id row hro
    rw [enqueues.tasks, get_put] at hro
    split at hro
    next hid => rw [hid]; exact enqueues.validID
    · exact h id row hro
  | claim claims =>
    refine h.of_subset ?_
    intro id hs
    rw [claims.get] at hs
    split at hs
    next hid => rw [hid, claims.stored]; rfl
    · exact hs
  | heartbeat renews => exact h.replace renews.toReplaces
  | complete completes => exact h.replace completes.toReplaces
  | fail fails =>
    obtain ⟨task, task', hu, -⟩ := fails
    exact h.replace hu.toReplaces
  | cancel cancels => exact h.replace cancels.toReplaces
  | trans _ _ ih₁ ih₂ => exact ih₂ (ih₁ h)

theorem validIDs_reached (h : QueueReached admits s) : s.db.ValidIDs := by
  induction h with
  | start => intro id task hg; cases hg
  | step _ hs ih => exact validIDs_rows ih hs.rows

namespace Database

/-! ## A claim of one task -/

section

variable {db : Database} {task : Task}

/-- The query for one task finds it if it is claimable, and nothing else. -/
theorem selectClaimableTask_of_id {id : String} (hv : trimSpace id = id ∧ id ≠ "")
    (hr : db.tasks.get id = some task) (hc : db.isClaimable id [] now task = true) :
    db.selectClaimableTask id [] now = .ok task := by
  have hm : task ∈ db.tasks.vals.filter (db.isClaimable id [] now) := by
    refine mem_filter.mpr ⟨mem_vals.mpr ?_, hc⟩
    rw [id_of_task hr]
    exact hr
  cases hs : db.selectClaimableTask id [] now with
  | error e =>
    unfold selectClaimableTask at hs
    dsimp only at hs
    split at hs
    next he =>
      rw [← mem_insertionSort (fun a b => claimKey a ≤ claimKey b), he] at hm
      cases hm
    · cases hs
  | ok other =>
    -- the row that was found has the id that was asked for
    obtain ⟨ho, hf⟩ := selectClaimableTask_eq_ok hs
    simp only [isClaimable, Bool.and_eq_true, Bool.or_eq_true, decide_eq_true_eq, hv.1] at hf
    have hid : other.id = id := hf.1.1.2.resolve_left hv.2
    rw [hid, hr] at ho
    cases ho
    rfl

/-- The attempts table takes the next attempt of a task: the one of the lease that is taken
over is there, and the next number is free. -/
def NextAttempt (db : Database) (task : Task) : Prop :=
  (task.lease.isSome → 0 < task.attemptCount →
    (db.attempts.get (toLex (task.id, task.attemptCount))).isSome) ∧
    db.attempts.get (toLex (task.id, task.attemptCount + 1)) = none

/-- Abandoning the attempt of an expired lease succeeds if the attempt is there. -/
theorem abandonLeased_of_nextAttempt (now : Instant) (h : db.NextAttempt task) :
    ∃ attempts, db.abandonLeased task now = .ok { db with attempts := attempts } ∧
      attempts.get (toLex (task.id, task.attemptCount + 1)) = none ∧
      ∀ attempt ∈ attempts.vals, ∃ attempt' ∈ db.attempts.vals, attempt'.id = attempt.id := by
  unfold abandonLeased
  split
  next hl =>
    unfold abandonRunningAttempt
    split
    · exact ⟨db.attempts, rfl, h.2, fun attempt hm => ⟨attempt, hm, rfl⟩⟩
    next hc =>
      obtain ⟨attempt, ha⟩ := isSome_iff_exists.mp (h.1 hl (not_le.mp hc))
      have hk : attempt.key = toLex (task.id, task.attemptCount) := key_of_get ha
      rw [loadAttempt_eq_ok.mpr ha]
      refine ⟨_, rfl, ?_, ?_⟩
      · rw [get_put_number (by exact hk), if_neg (by omega)]
        exact h.2
      · intro other hm
        rw [mem_vals, get_put] at hm
        split at hm
        · cases hm; exact ⟨attempt, mem_vals.mpr (hk ▸ ha), rfl⟩
        · exact ⟨other, mem_vals.mpr hm, rfl⟩
  · exact ⟨db.attempts, rfl, h.2, fun attempt hm => ⟨attempt, hm, rfl⟩⟩

theorem insertAttempt_of_free (hid : ∀ other ∈ db.attempts.vals, other.id ≠ attempt.id)
    (hf : db.attempts.get attempt.key = none) :
    db.insertAttempt attempt = .ok { db with attempts := db.attempts.put attempt } := by
  have hi : (db.attempts.vals.all (·.id ≠ attempt.id)) = true :=
    all_eq_true.mpr fun other hm => decide_eq_true (hid other hm)
  unfold insertAttempt
  rw [(requireTask_eq_ok (u := ())).mpr hi,
    (requireTask_eq_ok (u := ())).mpr (isNone_iff_eq_none.mpr hf)]
  rfl

/-- A claimable task is claimed when the attempts table takes the attempt. -/
theorem claimOnce_of_claimable (workerID token : String) {attemptID : String}
    (hv : trimSpace options.taskID = options.taskID ∧ options.taskID ≠ "")
    (hk : options.kinds = []) (hr : db.tasks.get options.taskID = some task)
    (hc : db.isClaimable options.taskID [] now task = true) (hn : db.NextAttempt task)
    (hf : ∀ attempt ∈ db.attempts.vals, attempt.id ≠ attemptID) :
    ∃ db' attempt, db.claimOnce workerID options now token attemptID =
      .ok (some (db', claimedTask task (newLease task workerID token now options.ttl) now,
        attempt)) := by
  obtain ⟨attempts, ha, hfr, hi⟩ := abandonLeased_of_nextAttempt now hn
  have hu : ({ db with attempts := attempts } : Database).updateTaskVersion task.version
      (claimedTask task (newLease task workerID token now options.ttl) now) =
      some { db with
        attempts := attempts
        tasks := db.tasks.put (claimedTask task (newLease task workerID token now options.ttl) now) } := by
    have hg : db.tasks.get task.id = some task := by rw [id_of_task hr]; exact hr
    unfold updateTaskVersion
    rw [show (claimedTask task (newLease task workerID token now options.ttl) now).id = task.id
      from rfl]
    simp only [hg, if_true]
  unfold claimOnce
  rw [hk, selectClaimableTask_of_id hv hr hc]
  simp only [bind, Except.bind, ha, hu]
  rw [insertAttempt_of_free]
  · exact ⟨_, _, rfl⟩
  · intro other hm heq
    obtain ⟨other', hme, hs⟩ := hi other hm
    exact hf other' hme (hs.trans heq)
  · exact hfr

/-- What a successful claim of a task has found. -/
theorem nextAttempt_of_claims (h : Claims db db' task claimed lease attempt) :
    db.NextAttempt task := by
  obtain ⟨attempts, ha, hn, -⟩ := h.attempts
  rw [h.key] at hn
  rcases ha.abandoned with ⟨rfl, hc⟩ | ⟨abandoned, hk, -, hs, rfl⟩
  · refine ⟨fun hl hp => ?_, hn⟩
    exact absurd (hc hl) (not_le.mpr hp)
  · refine ⟨fun _ _ => hs, ?_⟩
    rw [get_put_number hk, if_neg (by omega)] at hn
    exact hn

/-- The loop of a claim ends with its first transaction, if that one succeeds. -/
theorem claimTx_of_claimOnce {call : Call} {workerID : String} {options : ClaimOptions}
    {uuids : Nat → String × String} {db' : Database} {claimed : Task} {attempt : Attempt}
    {u : Unit} (hw : validateRunnerStorageID "worker ID" workerID = .ok u)
    (ht : 0 < options.ttl)
    (ho : db.claimOnce workerID options
      (if options.now = zeroInstant then call.now else options.now) (uuids 7).1 (uuids 7).2 =
        .ok (some (db', claimed, attempt))) :
    db.claimTx call workerID options uuids = .ok (.commit db' noResult (claimed, attempt)) := by
  unfold claimTx
  rw [hw, (requireTask_eq_ok (u := ())).mpr (decide_eq_true ht)]
  simp only [bind, Except.bind, claimLoop, ho]
  rfl

theorem claim_eq_ok {call : Call} {workerID : String} {uuids : Nat → String × String}
    (h : (db.claim call workerID options uuids).value = .ok (claimed, attempt)) :
    ∃ db', db.claimTx call workerID options uuids = .ok (.commit db' noResult (claimed, attempt)) := by
  have hok : (db.claim call workerID options uuids).value.isOk = true := by rw [h]; rfl
  obtain ⟨ending, htx⟩ := settle_isOk hok
  unfold claim settle at h
  rw [htx] at h
  obtain ⟨-, -, ht⟩ := of_bind htx
  obtain ⟨-, -, ht⟩ := of_bind ht
  obtain ⟨⟨db', task', attempt'⟩, -, ht⟩ := of_bind ht
  cases ht
  dsimp only at h
  split at h
  · cases h
    exact ⟨db', htx⟩
  · cases h

end

/-! ## Due tasks that are claimed -/

def claimNow (call : Call) (options : ClaimOptions) : Instant :=
  if options.now = zeroInstant then call.now else options.now

/-- A task that is meant to be claimable: it is queued or running, its run is not fenced,
and neither its availability nor the expiry of its lease is ahead. -/
structure IsWaiting (db : Database) (task : Task) (now : Instant) : Prop where
  status : task.status = .queued ∨ task.status = .running
  unfenced : db.fences.get task.runID = none
  available : unixNano task.availableAt ≤ unixNano now
  expired : ∀ lease, task.lease = some lease → unixNano lease.expiresAt ≤ unixNano now

theorem isDue_iff_of_isWaiting {db : Database} {task : Task} {now : Instant}
    (h : db.IsWaiting task now) :
    isDue task now = true ↔ (task.status = .running → 0 < taskLeaseExpiry task) := by
  rw [isDue_iff]
  constructor
  · rintro (⟨hq, -⟩ | ⟨-, hp, -⟩) hr
    · simp [hq] at hr
    · exact hp
  · intro hp
    rcases h.status with hq | hr
    · exact .inl ⟨hq, h.available⟩
    · refine .inr ⟨hr, hp hr, ?_⟩
      obtain ⟨lease, hl⟩ := isSome_iff_exists.mp (lease_of_expiry (hp hr))
      rw [taskLeaseExpiry, hl]
      exact h.expired lease hl

theorem isClaimable_iff_of_isWaiting {db : Database} {task : Task} {now : Instant}
    (h : db.IsWaiting task now) (hid : trimSpace task.id = task.id) :
    db.isClaimable task.id [] now task = true ↔
      attemptsLeft task = true ∧ (task.status = .running → 0 < taskLeaseExpiry task) := by
  rw [← isDue_iff_of_isWaiting h]
  simp [isClaimable, h.unfenced, hid, and_comm]

end Database

/-- A claim of a waiting task returns it exactly if its attempts are not used up, a lease
it holds expires after the zero of the clock column, and the attempts table takes its next
attempt, which it always does for a task that was enqueued without attempts. -/
theorem claim_returns_iff {admits : Task → Prop} {s : QueueHistory} {task : Task} {call : Call}
    {workerID : String} {options : ClaimOptions} {uuids : Nat → String × String}
    (h : QueueReached admits s) (hrow : s.db.tasks.get task.id = some task)
    (hwaiting : s.db.IsWaiting task (claimNow call options)) (htask : options.taskID = task.id)
    (hkinds : options.kinds = []) (httl : 0 < options.ttl)
    (hworker : validateRunnerStorageID "worker ID" workerID = .ok ())
    (huuid : ∀ attempt ∈ s.db.attempts.vals, attempt.id ≠ (uuids 7).2)
    (hfate : call.fate = .committed) :
    ((∃ claimed attempt, (s.db.claim call workerID options uuids).value = .ok (claimed, attempt) ∧
        claimed.id = task.id) ↔
      attemptsLeft task = true ∧ (task.status = .running → 0 < taskLeaseExpiry task) ∧
        s.db.NextAttempt task) ∧
    ((∀ enqueued, admits enqueued → enqueued.id = task.id → enqueued.attemptCount = 0) →
      s.db.NextAttempt task) := by
  have hv := validIDs_reached h task.id task hrow
  have hc := isClaimable_iff_of_isWaiting hwaiting hv.1
  refine ⟨⟨?_, ?_⟩, ?_⟩
  · rintro ⟨claimed, attempt, hva, hid⟩
    obtain ⟨db', htx⟩ := claim_eq_ok hva
    obtain ⟨task', lease, hcl, -⟩ := claimTx_eq_commit htx
    have hs : task' = task := by
      have hst := hcl.stored
      rw [← hcl.sameID, hid, hrow] at hst
      cases hst
      rfl
    subst hs
    exact ⟨hcl.left, hcl.expiry, nextAttempt_of_claims hcl⟩
  · rintro ⟨hl, he, hn⟩
    obtain ⟨db', attempt, ho⟩ := claimOnce_of_claimable workerID (uuids 7).1
      (htask ▸ hv) hkinds (htask ▸ hrow) (htask ▸ hc.mpr ⟨hl, he⟩) hn huuid
    have htx := claimTx_of_claimOnce hworker httl ho
    refine ⟨claimedTask task (newLease task workerID (uuids 7).1 (claimNow call options)
      options.ttl) (claimNow call options), attempt, ?_, rfl⟩
    unfold claim settle
    rw [htx, hfate]
    rfl
  · intro hf
    have hnu := Numbered.reached h hf
    have hnm := hnu.numbers task hrow
    refine ⟨fun _ hp => (hnm _).mpr ⟨by omega, le_refl _⟩, ?_⟩
    rw [← not_isSome_iff_eq_none, hnm]
    omega

/-- A task with a second attempt left is claimed again after its worker is lost. -/
theorem lost_worker_replaced : ∃ s claimed attempt,
    QueueReached (fun task => task.attemptCount = 0) s ∧
      (s.db.claim { now := 100 } "v" { taskID := "t", ttl := 5 } fun _ => ("b", "second")).value =
        .ok (claimed, attempt) ∧ claimed.id = "t" := by
  obtain ⟨s, task, hr, hro, hid, hw, hl, he, hu⟩ : ∃ s task,
      QueueReached (fun task => task.attemptCount = 0) s ∧ s.db.tasks.get "t" = some task ∧
        task.id = "t" ∧ s.db.IsWaiting task 100 ∧ attemptsLeft task = true ∧
        0 < taskLeaseExpiry task ∧ ∀ attempt ∈ s.db.attempts.vals, attempt.id ≠ "second" :=
    ⟨_, _, .step (.step .start
      (.enqueue { now := 10 } { id := "t", kind := "graph.node", maxAttempts := 2 } none rfl rfl))
      (.claim { now := 20 } "w" { ttl := 5 } (fun _ => ("a", "first")) rfl rfl
        (fun _ h => by cases h)),
      rfl, rfl, ⟨.inr rfl, rfl, by decide, fun _ h => by cases h; decide⟩, by decide, by decide,
      by decide⟩
  have hi := @claim_returns_iff _ s task { now := 100 } "v" { taskID := "t", ttl := 5 }
    (fun _ => ("b", "second")) hr (hid ▸ hro) hw hid.symm rfl (by decide) rfl hu rfl
  obtain ⟨claimed, attempt, hv, hc⟩ := hi.1.mpr ⟨hl, fun _ => he, hi.2 fun _ hco _ => hco⟩
  exact ⟨s, claimed, attempt, hr, hv, hc.trans hid⟩

/-- A task whose worker is lost in its only attempt: it is running and waiting, and no
claim ever returns it. -/
theorem lost_in_last_attempt : ∃ s task,
    QueueReached (fun task => task.attemptCount = 0) s ∧ s.db.tasks.get "t" = some task ∧
      s.db.IsWaiting task 100 ∧
      ∀ call workerID options uuids claimed attempt,
        (s.db.claim call workerID options uuids).value = .ok (claimed, attempt) →
          claimed.id ≠ "t" := by
  have hr : QueueReached (fun task => task.attemptCount = 0) _ := .step (.step .start
      (.enqueue { now := 10 } { id := "t", kind := "graph.node", maxAttempts := 1 } none rfl rfl))
      (.claim { now := 20 } "w" { ttl := 5 } (fun _ => ("a", "first")) rfl rfl
        (fun _ h => by cases h))
  refine ⟨_, _, hr, rfl, ⟨.inr rfl, rfl, by decide, fun _ h => by cases h; decide⟩, ?_⟩
  intro call workerID options uuids claimed attempt hv hid
  obtain ⟨db', htx⟩ := claim_eq_ok hv
  obtain ⟨task, lease, hc, -⟩ := claimTx_eq_commit htx
  have hs := hc.stored
  rw [← hc.sameID, hid] at hs
  cases hs
  exact absurd hc.left (by decide)

end WeaveFlow
