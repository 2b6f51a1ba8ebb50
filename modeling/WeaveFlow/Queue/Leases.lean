import WeaveFlow.Queue.Effects

/-!
# Leases and attempts of the queue

A history of the queue is the sequence of its durable transactions, by any number of
workers with any clocks.  A call whose transaction is not durable leaves the database
as it is, so it is no step of the history.

Two invariants hold along every history.  The first is about leases: the lease in the
row of a task carries the token of the last claim of the task, so every earlier lease
is refused.  The second is about attempts: the attempts of a task are numbered from
one to its attempt count, and only the last one of a running task is running.  The
second needs a task that was enqueued without attempts, since `Enqueue` stores the
attempt count it is given.
-/

namespace WeaveFlow

/-! ## Histories -/

/-- A history of the queue up to now. -/
structure QueueHistory where
  db : Database := {}
  /-- The leases that claims have issued, the last one first. -/
  issued : List TaskLease := []
  /-- The tasks of the completions. -/
  completed : List String := []

/-- A durable transaction.  The tasks that are enqueued are those the history admits,
the token of a claim was not issued before, and the other calls of the store leave the
queue alone. -/
inductive QueueStep (admits : Task → Prop) : QueueHistory → QueueHistory → Prop where
  | enqueue {s : QueueHistory} {db' : Database} {stored : Task} (call : Call) (task : Task)
      (commit : Option Commit)
      (durable : (s.db.enqueueTx call task commit).durable call.fate = some (db', stored))
      (admitted : admits stored) : QueueStep admits s { s with db := db' }
  | claim {s : QueueHistory} {db' : Database} {task : Task} {attempt : Attempt} {lease : TaskLease}
      (call : Call) (workerID : String) (options : Database.ClaimOptions)
      (uuids : Nat → String × String)
      (durable : (s.db.claimTx call workerID options uuids).durable call.fate =
        some (db', task, attempt))
      (issues : task.lease = some lease) (fresh : ∀ earlier ∈ s.issued, earlier.token ≠ lease.token) :
      QueueStep admits s { s with db := db', issued := lease :: s.issued }
  | heartbeat {s : QueueHistory} {db' : Database} {updated : TaskLease} (call : Call)
      (lease : TaskLease) (now : Instant) (ttl : Int)
      (durable : (s.db.heartbeatTx call lease now ttl).durable call.fate = some (db', updated)) :
      QueueStep admits s { s with db := db' }
  | complete {s : QueueHistory} {db' : Database} {task : Task} (call : Call) (lease : TaskLease)
      (result : TaskResult) (commit : Option Commit)
      (durable : (s.db.completeTx call lease result commit).durable call.fate = some (db', task)) :
      QueueStep admits s { s with db := db', completed := lease.taskID :: s.completed }
  | fail {s : QueueHistory} {db' : Database} {tasks : List Task} (call : Call)
      (failures : List TaskFailureTransition) (commit : Option Commit)
      (durable : (s.db.failTx call failures commit).durable call.fate = some (db', tasks)) :
      QueueStep admits s { s with db := db' }
  | cancel {s : QueueHistory} {db' : Database} {task : Task} (call : Call) (taskID : String)
      (version : Nat) (now : Instant)
      (durable : (s.db.cancelTx call taskID version now).durable call.fate = some (db', task)) :
      QueueStep admits s { s with db := db' }
  | other {s : QueueHistory} (db' : Database) (tasks : db'.tasks = s.db.tasks)
      (attempts : db'.attempts = s.db.attempts) : QueueStep admits s { s with db := db' }

/-- The histories of a queue that starts empty. -/
inductive QueueReached (admits : Task → Prop) : QueueHistory → Prop where
  | start : QueueReached admits {}
  | step {s s' : QueueHistory} : QueueReached admits s → QueueStep admits s s' →
      QueueReached admits s'

open KeyedMap Database Outcome List

/-- What a durable transaction does to the rows of the queue, one row after the other.  The
tasks it cancels are those that `allowed` tells. -/
inductive RowStep (admits : Task → Prop) (allowed : Database → Task → Prop) :
    QueueHistory → QueueHistory → Prop where
  | same (tasks : db'.tasks = s.db.tasks) (attempts : db'.attempts = s.db.attempts) :
      RowStep admits allowed s { s with db := db' }
  | enqueue (enqueues : Enqueues s.db db' task) (admitted : admits task) :
      RowStep admits allowed s { s with db := db' }
  | claim (claims : Claims s.db db' task claimed lease attempt)
      (continues : Continues s.db db' task lease attempt)
      (fresh : ∀ earlier ∈ s.issued, earlier.token ≠ lease.token) :
      RowStep admits allowed s { s with db := db', issued := lease :: s.issued }
  | heartbeat (renews : Renews s.db db' task task') : RowStep admits allowed s { s with db := db' }
  | complete (completes : Completes s.db db' task task') :
      RowStep admits allowed s { s with db := db', completed := task'.id :: s.completed }
  | fail (fails : Fails s.db db') : RowStep admits allowed s { s with db := db' }
  | cancel (cancels : CancelsOpen s.db db' task task') (allows : allowed s.db task) :
      RowStep admits allowed s { s with db := db' }
  | trans (first : RowStep admits allowed s₁ s₂) (second : RowStep admits allowed s₂ s₃) :
      RowStep admits allowed s₁ s₃

theorem QueueStep.rows_of_cancels (h : QueueStep admits s s')
    (hc : ∀ call taskID version now task canceled,
      (s.db.cancelTx call taskID version now).durable call.fate = some (s'.db, canceled) →
      s.db.tasks.get taskID = some task → allowed s.db task) : RowStep admits allowed s s' := by
  cases h with
  | enqueue call task commit durable admitted =>
    obtain ⟨result, htx⟩ := durable_eq_some durable
    exact .enqueue (enqueueTx_eq_commit htx) admitted
  | claim call workerID options uuids durable issues fresh =>
    obtain ⟨result, htx⟩ := durable_eq_some durable
    obtain ⟨task, lease, hcl, hco⟩ := claimTx_eq_commit htx
    cases hcl.lease_eq.symm.trans issues
    exact .claim hcl hco fresh
  | heartbeat call lease now ttl durable =>
    obtain ⟨result, htx⟩ := durable_eq_some durable
    obtain ⟨task, task', hr⟩ := heartbeatTx_eq_commit htx
    exact .heartbeat hr
  | complete call lease result commit durable =>
    obtain ⟨result, htx⟩ := durable_eq_some durable
    obtain ⟨task, hcm, hid⟩ := completeTx_eq_commit htx
    rw [← hid]
    exact .complete hcm
  | fail call failures commit durable =>
    obtain ⟨result, htx⟩ := durable_eq_some durable
    refine failTx_preserves (P := fun db => RowStep admits allowed s { s with db := db }) ?_ ?_ htx
      (.same rfl rfl)
    · intro db db' ht ha hro
      exact hro.trans (.same ht ha)
    · intro db db' hf hro
      exact hro.trans (.fail hf)
  | cancel call taskID version now durable =>
    obtain ⟨result, htx⟩ := durable_eq_some durable
    obtain ⟨task, hca, hid⟩ := cancelTx_eq_commit htx
    refine .cancel hca (hc call taskID version now task _ durable ?_)
    rw [← hid]
    exact hca.stored
  | other db' tasks attempts => exact .same tasks attempts

theorem QueueStep.rows (h : QueueStep admits s s') : RowStep admits (fun _ _ => True) s s' :=
  h.rows_of_cancels fun _ _ _ _ _ _ _ _ => trivial

/-! ## The invariant of leases -/

/-- The leases of a history: tokens are distinct, the lease in a row is the one of the
last claim, and a completed task stays completed. -/
structure LeaseInv (s : QueueHistory) : Prop where
  distinct : (s.issued.map (·.token)).Nodup
  known : ∀ lease ∈ s.issued, (s.db.tasks.get lease.taskID).isSome
  current : ∀ id task lease last, s.db.tasks.get id = some task → task.lease = some lease →
    s.issued.find? (·.taskID = id) = some last → lease.token = last.token
  once : s.completed.Nodup
  done : ∀ id ∈ s.completed, ∃ task, s.db.tasks.get id = some task ∧ task.status = .completed

theorem Database.Replaces.get (h : Replaces db db' task task') (id : String) :
    db'.tasks.get id = if id = task.id then some task' else db.tasks.get id := by
  rw [h.tasks, get_put, h.sameID]

theorem Database.Claims.get (h : Claims db db' task claimed lease attempt) (id : String) :
    db'.tasks.get id = if id = task.id then some claimed else db.tasks.get id := by
  rw [h.tasks, get_put, h.sameID]

/-- With it, the epochs: they begin at one, and the lease in a row has the one of the last
claim. -/
structure IssueInv (s : QueueHistory) : Prop extends LeaseInv s where
  positive : ∀ lease ∈ s.issued, 0 < lease.epoch
  epoch : ∀ id task lease last, s.db.tasks.get id = some task → task.lease = some lease →
    s.issued.find? (·.taskID = id) = some last → lease.epoch = last.epoch

theorem IssueInv.start : IssueInv {} :=
  ⟨⟨nodup_nil, (fun _ h => by cases h), (fun _ _ _ _ h => by cases h), nodup_nil,
    (fun _ h => by cases h)⟩, (fun _ h => by cases h), (fun _ _ _ _ h => by cases h)⟩

theorem IssueInv.same (h : IssueInv s) (ht : db'.tasks = s.db.tasks) :
    IssueInv { s with db := db' } := by
  refine ⟨⟨h.distinct, ?_, ?_, h.once, ?_⟩, h.positive, ?_⟩ <;> simp only [ht]
  exacts [h.known, h.current, h.done, h.epoch]

/-- A row is written that was not completed, and holds the token and the epoch of the last
lease issued for it. -/
theorem IssueInv.put (h : IssueInv s)
    (hg : ∀ id, db'.tasks.get id = if id = key then some row else s.db.tasks.get id)
    (ho : ∀ old, s.db.tasks.get key = some old → old.status ≠ .completed)
    (hd : (issued.map TaskLease.token).Nodup)
    (hk : ∀ lease ∈ issued, 0 < lease.epoch ∧ (lease.taskID = key ∨ lease ∈ s.issued))
    (hf : ∀ id ≠ key, issued.find? (·.taskID = id) = s.issued.find? (·.taskID = id))
    (hc : ∀ lease last, row.lease = some lease → issued.find? (·.taskID = key) = some last →
      lease.token = last.token ∧ lease.epoch = last.epoch) :
    IssueInv { s with db := db', issued := issued } where
  distinct := hd
  known lease hm := by
    rw [hg]
    split
    · rfl
    next hid => exact h.known lease ((hk lease hm).2.resolve_left hid)
  current id task lease last hr hl hla := by
    rw [hg] at hr
    split at hr
    next hid =>
      cases hr
      exact (hc lease last hl (hid ▸ hla)).1
    next hid => exact h.current id task lease last hr hl (hf id hid ▸ hla)
  once := h.once
  done id hid := by
    obtain ⟨old, hol, hco⟩ := h.done id hid
    refine ⟨old, ?_, hco⟩
    rw [hg, if_neg]
    · exact hol
    · rintro rfl
      exact ho old hol hco
  positive lease hm := (hk lease hm).1
  epoch id task lease last hr hl hla := by
    rw [hg] at hr
    split at hr
    next hid =>
      cases hr
      exact (hc lease last hl (hid ▸ hla)).2
    next hid => exact h.epoch id task lease last hr hl (hf id hid ▸ hla)

/-- An operation that keeps the token and the epoch of a row or clears its lease. -/
theorem IssueInv.replace (h : IssueInv s) (hr : Replaces s.db db' task task')
    (ho : task.status ≠ .completed)
    (hl : ∀ lease', task'.lease = some lease' → ∃ lease, task.lease = some lease ∧
      lease'.token = lease.token ∧ lease'.epoch = lease.epoch) : IssueInv { s with db := db' } := by
  refine h.put hr.get ?_ h.distinct (fun lease hm => ⟨h.positive lease hm, .inr hm⟩)
    (fun _ _ => rfl) ?_
  · intro old hol
    rw [hr.stored] at hol
    cases hol
    exact ho
  · intro lease' last hs hla
    obtain ⟨lease, hh, ht, he⟩ := hl lease' hs
    rw [ht, he]
    exact ⟨h.current task.id task lease last hr.stored hh hla,
      h.epoch task.id task lease last hr.stored hh hla⟩

theorem IssueInv.clear (h : IssueInv s) (hr : Replaces s.db db' task task')
    (ho : task.status ≠ .completed) (hl : task'.lease = none) :
    IssueInv { s with db := db' } := by
  refine h.replace hr ho ?_
  intro lease' hs
  simp [hl] at hs

theorem IssueInv.enqueue (h : IssueInv s) (he : Enqueues s.db db' task) :
    IssueInv { s with db := db' } := by
  refine h.put (he.tasks ▸ get_put s.db.tasks task) ?_ h.distinct
    (fun lease hm => ⟨h.positive lease hm, .inr hm⟩) (fun _ _ => rfl) ?_
  · intro old ho
    simp [he.new] at ho
  · intro lease last _ hl
    -- no lease was issued for a task without a row
    have ht := List.find?_some hl
    have hk := h.known last (mem_of_find?_eq_some hl)
    simp [of_decide_eq_true ht, he.new] at hk

theorem IssueInv.claim (h : IssueInv s) (hc : Claims s.db db' task claimed lease attempt)
    (he : 0 < lease.epoch) (hf : ∀ earlier ∈ s.issued, earlier.token ≠ lease.token) :
    IssueInv { s with db := db', issued := lease :: s.issued } := by
  refine h.put hc.get ?_ ?_ ?_ ?_ ?_
  · intro old ho
    rw [hc.stored] at ho
    cases ho
    rcases hc.due with hd | ⟨hd, -⟩ <;> rw [hd] <;> exact nofun
  · refine nodup_cons.mpr ⟨?_, h.distinct⟩
    intro hm
    obtain ⟨earlier, hea, ht⟩ := mem_map.mp hm
    exact hf earlier hea ht
  · intro other hm
    rcases mem_cons.mp hm with rfl | hm
    · exact ⟨he, .inl hc.leaseTask⟩
    · exact ⟨h.positive other hm, .inr hm⟩
  · intro id hid
    refine List.find?_cons_of_neg ?_
    rw [hc.leaseTask, decide_eq_true_eq]
    exact hid.symm
  · intro held last hh hl
    rw [hc.lease_eq] at hh
    rw [List.find?_cons_of_pos (by exact decide_eq_true hc.leaseTask)] at hl
    cases hh
    cases hl
    exact ⟨rfl, rfl⟩

theorem IssueInv.complete (h : IssueInv s) (hc : Completes s.db db' task task') :
    IssueInv { s with db := db', completed := task'.id :: s.completed } := by
  have ho : task.status ≠ .completed := by rw [hc.running]; exact nofun
  have hr := h.clear hc.toReplaces ho hc.lease
  refine ⟨⟨hr.distinct, hr.known, hr.current, ?_, ?_⟩, h.positive, hr.epoch⟩
  · refine nodup_cons.mpr ⟨?_, h.once⟩
    intro hm
    obtain ⟨row, hro, hco⟩ := h.done _ hm
    rw [hc.sameID, hc.stored] at hro
    cases hro
    exact ho hco
  · intro id hid
    rcases mem_cons.mp hid with rfl | hid
    · refine ⟨task', ?_, hc.status⟩
      rw [hc.get, if_pos hc.sameID]
    · exact hr.done id hid

/-- Every durable transaction keeps the invariant of leases. -/
theorem IssueInv.rows (h : IssueInv s) (hr : RowStep admits allowed s s') : IssueInv s' := by
  induction hr with
  | same tasks => exact h.same tasks
  | enqueue enqueues => exact h.enqueue enqueues
  | claim claims continues fresh =>
    exact h.claim claims (by rw [continues.epoch]; omega) fresh
  | heartbeat renews =>
    exact h.replace renews.toReplaces (by rw [renews.running]; exact nofun) renews.lease
  | complete completes => exact h.complete completes
  | fail fails =>
    obtain ⟨task, task', hu, hl, -⟩ := fails
    exact h.clear hu.toReplaces (by rw [hu.running]; exact nofun) hl
  | cancel cancels => exact h.clear cancels.toReplaces cancels.open_ cancels.lease
  | trans _ _ ih₁ ih₂ => exact ih₂ (ih₁ h)

theorem IssueInv.reached (h : QueueReached admits s) : IssueInv s := by
  induction h with
  | start => exact .start
  | step _ hs ih => exact ih.rows hs.rows

theorem LeaseInv.reached (h : QueueReached admits s) : LeaseInv s := (IssueInv.reached h).toLeaseInv

/-! ## The invariant of attempts -/

/-- The attempts of a task are numbered from one to its attempt count, and the running
one is the last one of a running task. -/
structure Numbered (db : Database) (id : String) : Prop where
  absent : db.tasks.get id = none → ∀ k, db.attempts.get (toLex (id, k)) = none
  count : ∀ task, db.tasks.get id = some task → 0 ≤ task.attemptCount
  numbers : ∀ task, db.tasks.get id = some task →
    ∀ k, (db.attempts.get (toLex (id, k))).isSome ↔ 1 ≤ k ∧ k ≤ task.attemptCount
  running : ∀ task, db.tasks.get id = some task →
    ∀ k attempt, db.attempts.get (toLex (id, k)) = some attempt →
      (attempt.status = .running ↔ k = task.attemptCount ∧ task.status = .running)

section

variable {db db' : Database} {id : String} {task task' : Task}

theorem Numbered.start : Numbered {} id :=
  ⟨fun _ _ => rfl, (fun _ h => by cases h), (fun _ h => by cases h), (fun _ h => by cases h)⟩

/-- The rows of a task are all its numbering depends on. -/
theorem Numbered.congr (h : Numbered db id) (ht : db'.tasks.get id = db.tasks.get id)
    (ha : ∀ k, db'.attempts.get (toLex (id, k)) = db.attempts.get (toLex (id, k))) :
    Numbered db' id := by
  constructor <;> simp only [ht, ha]
  exacts [h.absent, h.count, h.numbers, h.running]

theorem Numbered.of_row (hr : db.tasks.get id = some task) (hc : 0 ≤ task.attemptCount)
    (hn : ∀ k, (db.attempts.get (toLex (id, k))).isSome ↔ 1 ≤ k ∧ k ≤ task.attemptCount)
    (hru : ∀ k attempt, db.attempts.get (toLex (id, k)) = some attempt →
      (attempt.status = .running ↔ k = task.attemptCount ∧ task.status = .running)) :
    Numbered db id := by
  -- there is no other row, and there is one
  constructor <;> simp only [hr, Option.some.injEq, forall_eq', reduceCtorEq, false_implies]
  exacts [hc, hn, hru]

theorem Numbered.enqueue (h : Numbered db id) (he : Enqueues db db' task)
    (hf : task.id = id → task.attemptCount = 0) : Numbered db' id := by
  obtain ⟨hn, -, ht, ha⟩ := he
  by_cases hid : id = task.id
  · subst hid
    have hz := hf rfl
    have hem : ∀ k, db'.attempts.get (toLex (task.id, k)) = none := by
      intro k
      rw [ha]
      exact h.absent hn k
    refine .of_row (ht ▸ get_put_self db.tasks task) hz.ge ?_ ?_
    · intro k
      rw [hem, hz]
      constructor
      · intro hs; cases hs
      · intro hk; omega
    · intro k attempt hat
      simp [hem] at hat
  · refine h.congr ?_ (fun k => by rw [ha])
    rw [ht]
    exact get_put_ne hid db.tasks

section Put

variable {attempts : KeyedMap Attempt.key} {attempt : Attempt} {n : Int}

theorem get_put_number (hk : attempt.key = toLex (id, n)) :
    (attempts.put attempt).get (toLex (id, k)) =
      if k = n then some attempt else attempts.get (toLex (id, k)) := by
  rw [get_put, hk]
  simp

theorem get_put_other (hk : attempt.key = toLex (taskID, n)) (hid : id ≠ taskID) :
    (attempts.put attempt).get (toLex (id, k)) = attempts.get (toLex (id, k)) := by
  rw [get_put, hk, if_neg]
  intro heq
  exact hid (congrArg (fun key => (ofLex key).1) heq)

end Put

/-- An operation that replaces a row and marks its last attempt, running exactly if the
task is. -/
theorem Numbered.mark (h : Numbered db id) (hr : Replaces db db' task task')
    (hm : Marks db db' task status) (hs : status = .running ↔ task'.status = .running) :
    Numbered db' id := by
  obtain ⟨attempt, attempt', hg, hke, hma, ha⟩ := hm.marked
  by_cases hid : id = task.id
  · subst hid
    refine .of_row (by rw [hr.get, if_pos rfl]) ?_ ?_ ?_
    · rw [hr.sameCount]
      exact h.count task hr.stored
    · intro k
      rw [hr.sameCount, ← h.numbers task hr.stored k, ha, get_put_number hke]
      split
      next hk => rw [hk, hg]; exact Iff.rfl
      · exact Iff.rfl
    · intro k other ho
      rw [ha, get_put_number hke] at ho
      rw [hr.sameCount]
      split at ho
      next hk =>
        cases ho
        rw [hma, hs]
        exact ⟨fun hru => ⟨hk, hru⟩, And.right⟩
      next hk =>
        -- an earlier attempt is not the running one, before and after
        have hol := h.running task hr.stored k other ho
        exact ⟨fun hru => absurd (hol.mp hru).1 hk, fun hl => absurd hl.1 hk⟩
  · refine h.congr ?_ ?_
    · rw [hr.get, if_neg hid]
    · intro k
      rw [ha, get_put_other hke hid]

theorem Numbered.cancel (h : Numbered db id) (hc : Cancels db db' task task') :
    Numbered db' id := by
  rcases hc.attempts with ⟨hco, ha⟩ | hm
  · by_cases hid : id = task.id
    · subst hid
      -- the task has no attempts, so there is none to mark
      have hn : ∀ k, (db'.attempts.get (toLex (task.id, k))).isSome ↔
          1 ≤ k ∧ k ≤ task'.attemptCount := by
        intro k
        rw [ha, hc.sameCount]
        exact h.numbers task hc.stored k
      refine .of_row (by rw [hc.get, if_pos rfl]) ?_ hn ?_
      · rw [hc.sameCount]
        exact h.count task hc.stored
      · intro k attempt hat
        have hk := (hn k).mp (by rw [hat]; rfl)
        rw [hc.sameCount] at hk
        omega
    · refine h.congr ?_ (fun k => by rw [ha])
      rw [hc.get, if_neg hid]
  · refine h.mark hc.toReplaces hm ?_
    rw [hc.status]
    exact ⟨nofun, nofun⟩

/-- The attempts that a claim finds, after it has abandoned the running one. -/
theorem Numbered.abandon {attempts : KeyedMap Attempt.key} (h : Numbered db task.id)
    (hs : db.tasks.get task.id = some task)
    (hd : task.status = .queued ∨ task.status = .running ∧ task.lease.isSome)
    (ha : Abandons db task attempts) :
    (∀ k, (attempts.get (toLex (task.id, k))).isSome ↔ 1 ≤ k ∧ k ≤ task.attemptCount) ∧
      ∀ k attempt, attempts.get (toLex (task.id, k)) = some attempt → attempt.status ≠ .running := by
  rcases ha.abandoned with ⟨rfl, hc⟩ | ⟨attempt, hke, hst, hso, rfl⟩
  · refine ⟨h.numbers task hs, ?_⟩
    intro k attempt hat hr
    -- a running attempt belongs to a running task, which has a lease and an attempt
    obtain ⟨hk, ht⟩ := (h.running task hs k attempt hat).mp hr
    have hn := (h.numbers task hs k).mp (by rw [hat]; rfl)
    rcases hd with hq | ⟨-, hl⟩
    · simp [ht] at hq
    · have := hc hl
      omega
  · constructor
    · intro k
      rw [get_put_number hke]
      split
      next hk =>
        subst hk
        exact ⟨fun _ => (h.numbers task hs _).mp hso, fun _ => rfl⟩
      · exact h.numbers task hs k
    · intro k other ho hr
      rw [get_put_number hke] at ho
      split at ho
      · cases ho
        simp [hst] at hr
      next hk => exact hk ((h.running task hs k other ho).mp hr).1

theorem Numbered.claim (h : Numbered db id) (hc : Claims db db' task claimed lease attempt) :
    Numbered db' id := by
  obtain ⟨attempts, ha, hn, hat⟩ := hc.attempts
  by_cases hid : id = task.id
  · subst hid
    obtain ⟨hnu, hi⟩ := h.abandon hc.stored hc.due ha
    have hco := h.count task hc.stored
    refine .of_row (by rw [hc.get, if_pos rfl]) (by rw [hc.count]; omega) ?_ ?_
    · intro k
      rw [hat, get_put_number hc.key, hc.count]
      split
      next hk =>
        constructor
        · intro _; omega
        · intro _; rfl
      next hk =>
        rw [hnu]
        omega
    · intro k other ho
      rw [hat, get_put_number hc.key] at ho
      rw [hc.count, hc.status]
      split at ho
      next hk =>
        cases ho
        exact ⟨fun _ => ⟨hk, rfl⟩, fun _ => hc.running⟩
      next hk =>
        exact ⟨fun hr => absurd hr (hi k other ho), fun hl => absurd hl.1 hk⟩
  · refine h.congr ?_ ?_
    · rw [hc.get, if_neg hid]
    · intro k
      rw [hat, get_put_other hc.key hid]
      rcases ha.abandoned with ⟨rfl, -⟩ | ⟨abandoned, hke, -, -, rfl⟩
      · rfl
      · exact get_put_other hke hid

/-- Every durable transaction keeps the attempts of a task that is enqueued without
attempts numbered. -/
theorem Numbered.rows (h : Numbered s.db id)
    (hf : ∀ task, admits task → task.id = id → task.attemptCount = 0)
    (hr : RowStep admits allowed s s') : Numbered s'.db id := by
  induction hr with
  | same tasks attempts => exact h.congr (by rw [tasks]) (fun k => by rw [attempts])
  | enqueue enqueues admitted => exact h.enqueue enqueues (hf _ admitted)
  | claim claims => exact h.claim claims
  | heartbeat renews =>
    exact h.mark renews.toReplaces renews.toMarks ⟨fun _ => renews.status, fun _ => rfl⟩
  | complete completes =>
    refine h.mark completes.toReplaces completes.toMarks ?_
    rw [completes.status]
    exact ⟨nofun, nofun⟩
  | fail fails =>
    obtain ⟨task, task', hu, -, -, hi⟩ := fails
    exact h.mark hu.toReplaces hu.toMarks ⟨nofun, fun hru => absurd hru hi⟩
  | cancel cancels => exact h.cancel cancels.toCancels
  | trans _ _ ih₁ ih₂ => exact ih₂ (ih₁ h)

theorem Numbered.reached (h : QueueReached admits s)
    (hf : ∀ task, admits task → task.id = id → task.attemptCount = 0) : Numbered s.db id := by
  induction h with
  | start => exact .start
  | step _ hs ih => exact ih.rows hf hs.rows

end

/-! ## Exclusive leases -/

namespace Database

/-- A lease is accepted by `Heartbeat`, `Complete` or `Fail`, at some time. -/
def Accepts (db : Database) (lease : TaskLease) : Prop :=
  (∃ call now ttl, (db.heartbeat call lease now ttl).value.isOk = true) ∨
    (∃ call result, (db.completeWithCommit call lease result none).value.isOk = true) ∨
    ∃ call failure, (db.failWithCommit call [⟨lease, failure⟩] none).value.isOk = true

variable {db : Database} {lease : TaskLease}

theorem settle_isOk {α : Type} {fate : CommitFate} {commit : Option Commit} {tx : TxM (TxEnd α)}
    (h : (db.settle fate commit tx).value.isOk = true) : ∃ ending, tx = .ok ending := by
  cases tx with
  | error e => cases h
  | ok ending => exact ⟨ending, rfl⟩

/-- The row of a task whose lease is accepted holds that lease. -/
theorem Accepts.held (h : db.Accepts lease) :
    ∃ task current, db.tasks.get lease.taskID = some task ∧ task.lease = some current ∧
      current.token = lease.token := by
  have hh : ∃ task now current, db.tasks.get lease.taskID = some task ∧
      validateTaskLease task lease now = .ok current := by
    rcases h with ⟨call, now, ttl, h⟩ | ⟨call, result, h⟩ | ⟨call, failure, h⟩
    · obtain ⟨ending, h⟩ := settle_isOk h
      obtain ⟨-, -, h⟩ := of_bind h
      simp only [bind_eq_ok] at h
      obtain ⟨task, hl, -, -, current, hle, h⟩ := h
      rw [reporting_eq_ok] at hl hle
      exact ⟨task, _, current, loadTask_eq_ok.mp hl, hle⟩
    · obtain ⟨ending, h⟩ := settle_isOk h
      have h : db.completeNew call lease result none = .ok ending := h
      obtain ⟨task, hl, h⟩ := of_bind h
      obtain ⟨hl, current, hle⟩ := loadCompletable_eq_ok (reporting_eq_ok.mp hl)
      exact ⟨task, call.now, current, hl, hle⟩
    · obtain ⟨ending, h⟩ := settle_isOk h
      have h : db.failNew call [⟨lease, failure⟩] _ none = .ok ending := h
      obtain ⟨progress, h, -⟩ := of_bind h
      rw [foldlM_cons] at h
      obtain ⟨progress', h, -⟩ := of_bind h
      obtain ⟨-, -, h⟩ := of_bind h
      simp only [bind_eq_ok] at h
      obtain ⟨task, hl, -, -, current, hle, h⟩ := h
      rw [reporting_eq_ok] at hl hle
      exact ⟨task, call.now, current, loadTask_eq_ok.mp hl, hle⟩
  obtain ⟨task, now, current, hl, hle⟩ := hh
  obtain ⟨-, hc, hs, -⟩ := validateTaskLease_eq_ok hle
  simp only [TaskLease.sameIdentity, Bool.and_eq_true, decide_eq_true_eq] at hs
  exact ⟨task, current, hl, hc, hs.1.2⟩

theorem mem_listAttempts {id : String} {attempt : Attempt} : attempt ∈ db.listAttempts id ↔
      db.attempts.get (toLex (id, attempt.number)) = some attempt := by
  rw [listAttempts, mem_filter, mem_vals, decide_eq_true_eq]
  constructor
  · rintro ⟨hg, rfl⟩
    exact hg
  · intro hg
    have hk : attempt.taskID = id := congrArg (fun key => (ofLex key).1) (key_of_get hg)
    refine ⟨?_, hk⟩
    rw [Attempt.key, hk]
    exact hg

end Database

section

variable {s : QueueHistory}

theorem LeaseInv.last_of_accepts (h : LeaseInv s)
    (hl : s.issued.find? (·.taskID = lease.taskID) = some last) (hm : lease ∈ s.issued)
    (ha : s.db.Accepts lease) : lease = last := by
  obtain ⟨task, current, hr, hc, ht⟩ := ha.held
  have hs := h.current _ task current last hr hc hl
  exact inj_on_of_nodup_map h.distinct hm (mem_of_find?_eq_some hl) (ht.symm.trans hs)

theorem exists_last {issued : List TaskLease} {lease : TaskLease} (hm : lease ∈ issued) :
    ∃ last, issued.find? (·.taskID = lease.taskID) = some last := by
  rw [← Option.isSome_iff_exists, List.find?_isSome]
  exact ⟨lease, hm, decide_eq_true rfl⟩

/-- The queue in every history: at most one lease that was issued for a task is accepted,
a lease is refused from the next claim of its task on, a task is completed at most once,
and the attempts of a task that was enqueued without attempts are numbered without gaps,
with only the last one of a running task running. -/
theorem queue_leases_exclusive {admits : Task → Prop} (h : QueueReached admits s) :
    (∀ lease₁ ∈ s.issued, ∀ lease₂ ∈ s.issued, lease₁.taskID = lease₂.taskID →
      s.db.Accepts lease₁ → s.db.Accepts lease₂ → lease₁ = lease₂) ∧
    (∀ newer lease older, s.issued = newer ++ lease :: older →
      (∃ later ∈ newer, later.taskID = lease.taskID) → ¬ s.db.Accepts lease) ∧
    s.completed.Nodup ∧
    ∀ id task, (∀ enqueued, admits enqueued → enqueued.id = id → enqueued.attemptCount = 0) →
      s.db.tasks.get id = some task →
      (∀ k, (∃ attempt ∈ s.db.listAttempts id, attempt.number = k) ↔
        1 ≤ k ∧ k ≤ task.attemptCount) ∧
      (∀ attempt₁ ∈ s.db.listAttempts id, ∀ attempt₂ ∈ s.db.listAttempts id,
        attempt₁.number = attempt₂.number → attempt₁ = attempt₂) ∧
      ∀ attempt ∈ s.db.listAttempts id, attempt.status = .running ↔
        attempt.number = task.attemptCount ∧ task.status = .running := by
  have hi := LeaseInv.reached h
  refine ⟨?_, ?_, hi.once, ?_⟩
  · intro lease₁ hmem₁ lease₂ hmem₂ ht haccepts₁ haccepts₂
    obtain ⟨last, hl⟩ := exists_last hmem₁
    rw [hi.last_of_accepts hl hmem₁ haccepts₁]
    exact (hi.last_of_accepts (ht ▸ hl) hmem₂ haccepts₂).symm
  · rintro newer lease older his ⟨later, hla, ht⟩ ha
    have hm : lease ∈ s.issued := by
      rw [his]
      exact mem_append_right _ mem_cons_self
    -- the last lease of the task is among the newer ones, with another token
    obtain ⟨last, hl⟩ := exists_last hla
    rw [ht] at hl
    have hf : s.issued.find? (·.taskID = lease.taskID) = some last := by
      rw [his, List.find?_append, hl]
      rfl
    have heq := hi.last_of_accepts hf hm ha
    have hn := hi.distinct
    rw [his, map_append, map_cons] at hn
    refine (disjoint_of_nodup_append hn) ?_ mem_cons_self
    rw [heq]
    exact mem_map_of_mem (mem_of_find?_eq_some hl)
  · intro id task hfr hr
    have hnu := Numbered.reached h hfr
    refine ⟨?_, ?_, ?_⟩
    · intro k
      rw [← hnu.numbers task hr k, Option.isSome_iff_exists]
      constructor
      · rintro ⟨attempt, hat, rfl⟩
        exact ⟨attempt, mem_listAttempts.mp hat⟩
      · rintro ⟨attempt, hat⟩
        have hnm : attempt.number = k := congrArg (fun key => (ofLex key).2) (key_of_get hat)
        exact ⟨attempt, mem_listAttempts.mpr (hnm ▸ hat), hnm⟩
    · intro attempt₁ hattempt₁ attempt₂ hattempt₂ hnm
      rw [mem_listAttempts] at hattempt₁ hattempt₂
      rw [hnm, hattempt₂] at hattempt₁
      cases hattempt₁
      rfl
    · intro attempt hat
      exact hnu.running task hr attempt.number attempt (mem_listAttempts.mp hat)

/-- A task whose lease has run out is claimed again: the second lease is accepted and the
first one no longer. -/
theorem expired_lease_refused : ∃ s first second, QueueReached (fun _ => True) s ∧
    s.issued = [second, first] ∧ s.db.Accepts second ∧ ¬ s.db.Accepts first := by
  have hr : QueueReached (fun _ => True) _ := .step (.step (.step .start
      (.enqueue { now := 10 } { id := "t", kind := "graph.node" } none rfl trivial))
      (.claim { now := 20 } "w" { ttl := 5 } (fun _ => ("a", "first")) rfl rfl
        (fun _ h => by cases h)))
      (.claim { now := 30 } "v" { ttl := 5 } (fun _ => ("b", "second")) rfl rfl (by decide))
  refine ⟨_, _, _, hr, rfl, .inl ⟨{ now := 31 }, 31, 5, rfl⟩, ?_⟩
  exact (queue_leases_exclusive hr).2.1 [_] _ [] rfl ⟨_, mem_singleton_self _, rfl⟩

/-- `Enqueue` stores the attempt count it is given: a task may have a count without an
attempt. -/
theorem enqueued_count_without_attempt : ∃ s task, QueueReached (fun _ => True) s ∧
    s.db.tasks.get "t" = some task ∧ task.attemptCount = 1 ∧ s.db.listAttempts "t" = [] := by
  have hr : QueueReached (fun _ => True) _ := .step .start
      (.enqueue { now := 10 } { id := "t", kind := "graph.node", attemptCount := 1 } none rfl trivial)
  exact ⟨_, _, hr, rfl, rfl, rfl⟩

end

end WeaveFlow
