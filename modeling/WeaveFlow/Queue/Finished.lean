import WeaveFlow.Queue.Leases

/-!
# Epochs, and work that is finished

`Claim` takes the epoch of its lease from the one in the row of the task, and `Fail` puts
a task back into the queue without one.  So the epochs of a task begin again after a failure
that is retried: `epochs_increase_iff` says that they grow along a history exactly if no
claim finds a task without its lease that had one before.

`Cancel` leaves completed and canceled tasks as they are, and marks the last attempt of any
other task.  That task may be failed or dead, and its last attempt may have failed:
`finished_kept_iff` says that finished work changes exactly by such a cancellation.
-/

namespace WeaveFlow

open KeyedMap Database Outcome List

/-! ## Epochs -/

/-- The epochs of the leases of every task increase; the last lease comes first. -/
def EpochsIncrease (issued : List TaskLease) : Prop :=
  issued.Pairwise fun later earlier => later.taskID = earlier.taskID → earlier.epoch < later.epoch

/-- A task is claimed that was claimed before, and has no lease in its row. -/
def ClaimsUnleased (s s' : QueueHistory) : Prop :=
  ∃ lease task, s'.issued = lease :: s.issued ∧ s.db.tasks.get lease.taskID = some task ∧
    task.lease = none ∧ ∃ earlier ∈ s.issued, earlier.taskID = lease.taskID

theorem epochs_same (h : s'.issued = s.issued) :
    EpochsIncrease s'.issued ↔ EpochsIncrease s.issued ∧ ¬ ClaimsUnleased s s' := by
  rw [h, iff_self_and]
  rintro - ⟨lease, -, hi, -⟩
  rw [h] at hi
  exact absurd hi.symm (cons_ne_self _ _)

/-- The last lease of a task has its largest epoch. -/
theorem epoch_le_last (h : EpochsIncrease issued) (hm : lease ∈ issued)
    (hl : issued.find? (·.taskID = lease.taskID) = some last) : lease.epoch ≤ last.epoch := by
  obtain ⟨ht, newer, older, rfl, hn⟩ := List.find?_eq_some_iff_append.mp hl
  rcases mem_append.mp hm with hm | hm
  · have ho := hn lease hm
    simp at ho
  · rcases mem_cons.mp hm with rfl | hm
    · exact le_refl _
    · have hp := (pairwise_append.mp h).2.1
      exact ((pairwise_cons.mp hp).1 lease hm (of_decide_eq_true ht)).le

/-- One claim: its epoch is new exactly if the row of the task held the last lease, or there
was none. -/
theorem epochs_claim (hi : IssueInv s) (hc : Claims s.db db' task claimed lease attempt)
    (hco : Continues s.db db' task lease attempt) (h : EpochsIncrease s.issued) :
    (∀ earlier ∈ s.issued, lease.taskID = earlier.taskID → earlier.epoch < lease.epoch) ↔
      (task.lease = none → ∀ earlier ∈ s.issued, earlier.taskID ≠ lease.taskID) := by
  rw [hco.epoch]
  cases hh : task.lease with
  | none =>
    constructor
    · intro hl _ earlier hm ht
      have hp := hi.positive earlier hm
      have := hl earlier hm ht.symm
      simp at this
      omega
    · intro hn earlier hm ht
      exact absurd ht.symm (hn rfl earlier hm)
  | some current =>
    refine ⟨nofun, fun _ earlier hm ht => ?_⟩
    obtain ⟨last, hla⟩ := exists_last hm
    have hle := epoch_le_last h hm hla
    rw [← ht, hc.leaseTask] at hla
    have he := hi.epoch task.id task current last hc.stored hh hla
    simp only [Option.map_some, Option.getD_some]
    omega

theorem epochs_step (hi : IssueInv s) (hs : QueueStep admits s s') :
    EpochsIncrease s'.issued ↔ EpochsIncrease s.issued ∧ ¬ ClaimsUnleased s s' := by
  cases hs with
  | claim call workerID options uuids durable issues fresh =>
    obtain ⟨result, htx⟩ := durable_eq_some durable
    obtain ⟨task, lease, hc, hco⟩ := claimTx_eq_commit htx
    cases hc.lease_eq.symm.trans issues
    refine pairwise_cons.trans (and_comm.trans (and_congr_right fun h => ?_))
    rw [epochs_claim hi hc hco h]
    constructor
    · rintro hn ⟨other, row, his, hr, hno, earlier, hm, ht⟩
      cases (cons.inj his).1
      rw [hc.leaseTask, hc.stored] at hr
      cases hr
      exact hn hno earlier hm ht
    · intro hnt hno earlier hm ht
      refine hnt ⟨_, task, rfl, ?_, hno, earlier, hm, ht⟩
      rw [hc.leaseTask]
      exact hc.stored
  | enqueue | heartbeat | complete | fail | cancel | other => exact epochs_same rfl

theorem epochs_chain (hi : IssueInv s) (h : EpochsIncrease s.issued)
    (hs : (s :: states).IsChain (QueueStep admits)) :
    (∀ s' ∈ states, EpochsIncrease s'.issued) ↔
      (s :: states).IsChain fun s s' => ¬ ClaimsUnleased s s' := by
  induction states generalizing s with
  | nil => simp
  | cons next states ih =>
    obtain ⟨hst, hs⟩ := isChain_cons_cons.mp hs
    have hn := epochs_step hi hst
    rw [forall_mem_cons, isChain_cons_cons, hn, and_iff_right h]
    refine and_congr_right fun hu => ?_
    exact ih (hi.rows hst.rows) (hn.mpr ⟨h, hu⟩) hs

/-- Along a history, the epochs of the leases of every task increase exactly if no claim
finds a task without its lease that was claimed before. -/
theorem epochs_increase_iff (admits : Task → Prop) (states : List QueueHistory)
    (hsteps : ({} :: states).IsChain (QueueStep admits)) :
    (∀ s ∈ states, EpochsIncrease s.issued) ↔
      ({} :: states).IsChain fun s s' => ¬ ClaimsUnleased s s' :=
  epochs_chain .start Pairwise.nil hsteps

/-- A lease runs out, and the task is claimed again under the next epoch. -/
theorem expired_epochs_increase : ∃ states s,
    ({} :: states).IsChain (QueueStep fun _ => True) ∧ s ∈ states ∧
      s.issued.map (·.epoch) = [2, 1] ∧ EpochsIncrease s.issued := by
  have hs : ({} :: [_, _, _]).IsChain (QueueStep fun _ => True) :=
    .cons_cons (.enqueue { now := 10 } { id := "t", kind := "graph.node" } none rfl trivial)
      (.cons_cons (.claim { now := 20 } "w" { ttl := 5 } (fun _ => ("a", "first")) rfl rfl
        (fun _ h => by cases h))
      (.cons_cons (.claim { now := 30 } "v" { ttl := 5 } (fun _ => ("b", "second")) rfl rfl
        (by decide)) (.singleton _)))
  refine ⟨_, _, hs, mem_cons_of_mem _ (mem_cons_of_mem _ mem_cons_self), rfl, ?_⟩
  refine (epochs_increase_iff _ _ hs).mpr ?_ _ (mem_cons_of_mem _ (mem_cons_of_mem _ mem_cons_self))
  refine .cons_cons ?_ (.cons_cons ?_ (.cons_cons ?_ (.singleton _)))
  · rintro ⟨_, _, hi, -⟩
    cases hi
  · rintro ⟨_, _, -, -, -, _, hm, -⟩
    cases hm
  · rintro ⟨_, _, hi, hr, hn, -⟩
    cases hi
    cases hr
    cases hn

/-- A failure that is retried puts the task back without its lease: both claims have epoch
one. -/
theorem retried_epoch_repeats : ∃ s, QueueReached (fun _ => True) s ∧
    s.issued.map (fun lease => (lease.taskID, lease.epoch)) = [("t", 1), ("t", 1)] ∧
      ¬ EpochsIncrease s.issued := by
  have hr : QueueReached (fun _ => True) _ := .step (.step (.step (.step .start
      (.enqueue { now := 10 } { id := "t", kind := "graph.node" } none rfl trivial))
      (.claim { now := 20 } "w" { ttl := 5 } (fun _ => ("a", "first")) rfl rfl
        (fun _ h => by cases h)))
      (.fail { now := 21 } [⟨⟨"t", "w", "a", 1, 20, 20, 25⟩, { retryable := true }⟩] none rfl))
      (.claim { now := 30 } "v" { ttl := 5 } (fun _ => ("b", "second")) rfl rfl (by decide))
  refine ⟨_, hr, rfl, fun h => ?_⟩
  have hl := (pairwise_cons.mp h).1 _ mem_cons_self rfl
  exact absurd hl (by decide)

/-! ## Finished work -/

/-- Status, error and completion time of a task. -/
def Task.outcome (task : Task) : TaskStatus × String × Option Instant :=
  (task.status, task.lastError, task.completedAt)

/-- Status, error and finish time of an attempt. -/
def Attempt.outcome (attempt : Attempt) : AttemptStatus × String × Option Instant :=
  (attempt.status, attempt.error, attempt.finishedAt)

def TaskStatus.isFinished : TaskStatus → Bool
  | completed | failed | dead | canceled => true
  | unset | queued | running | other _ => false

def AttemptStatus.isFinished : AttemptStatus → Bool
  | completed | failed | abandoned | canceled => true
  | running => false

/-- Finished tasks and attempts keep their outcome. -/
structure KeepsFinished (db db' : Database) : Prop where
  tasks : db.tasks.Keeps (·.1.isFinished) Task.outcome db'.tasks
  attempts : db.attempts.Keeps (·.1.isFinished) Attempt.outcome db'.attempts

/-- A task is finished, or its last attempt is. -/
def HasFinished (db : Database) (task : Task) : Prop :=
  task.status.isFinished = true ∨ 0 < task.attemptCount ∧
    ∃ attempt, db.attempts.get (toLex (task.id, task.attemptCount)) = some attempt ∧
      attempt.status.isFinished = true

/-- A task is canceled that is finished, or whose last attempt is. -/
def CancelsFinished (s s' : QueueHistory) : Prop :=
  ∃ call taskID version now task canceled,
    (s.db.cancelTx call taskID version now).durable call.fate = some (s'.db, canceled) ∧
      s.db.tasks.get taskID = some task ∧ HasFinished s.db task

/-- The last attempt of a running or leased task is running, and only a canceled task has a
last attempt that is canceled. -/
def Fits (task : Task) (attempt : Attempt) : Prop :=
  (task.status = .running ∨ task.lease.isSome → attempt.status = .running) ∧
    (attempt.status = .canceled → task.status = .canceled)

structure LastAttempts (db : Database) : Prop where
  absent : ∀ id, db.tasks.get id = none → ∀ k, db.attempts.get (toLex (id, k)) = none
  fits : ∀ id task attempt, db.tasks.get id = some task →
    db.attempts.get (toLex (id, task.attemptCount)) = some attempt → Fits task attempt

section

variable {db db' : Database}

/-- One row is written, and attempts of no other task. -/
theorem LastAttempts.put (h : LastAttempts db)
    (hg : ∀ id, db'.tasks.get id = if id = key then some row else db.tasks.get id)
    (ho : ∀ id ≠ key, ∀ k, db'.attempts.get (toLex (id, k)) = db.attempts.get (toLex (id, k)))
    (hf : ∀ attempt, db'.attempts.get (toLex (key, row.attemptCount)) = some attempt →
      Fits row attempt) : LastAttempts db' := by
  constructor
  · intro id hn k
    rw [hg] at hn
    split at hn
    · cases hn
    next hid => rw [ho id hid]; exact h.absent id hn k
  · intro id task attempt hr ha
    rw [hg] at hr
    split at hr
    next hid =>
      cases hr
      exact hf attempt (hid ▸ ha)
    next hid => exact h.fits id task attempt hr (ho id hid _ ▸ ha)

theorem LastAttempts.mark (h : LastAttempts db) (hr : Replaces db db' task task')
    (hm : Marks db db' task status)
    (hf : ∀ attempt, attempt.status = status → Fits task' attempt) : LastAttempts db' := by
  obtain ⟨attempt, attempt', -, hk, hs, ha⟩ := hm.marked
  refine h.put hr.get ?_ ?_
  · intro id hid k
    rw [ha, get_put_other hk hid]
  · intro last hl
    rw [ha, hr.sameCount, get_put_number hk, if_pos rfl] at hl
    cases hl
    exact hf attempt' hs

theorem LastAttempts.claim (h : LastAttempts db)
    (hc : Claims db db' task claimed lease attempt) : LastAttempts db' := by
  obtain ⟨attempts, ha, -, hat⟩ := hc.attempts
  refine h.put hc.get ?_ ?_
  · intro id hid k
    rw [hat, get_put_other hc.key hid]
    rcases ha.abandoned with ⟨rfl, -⟩ | ⟨abandoned, hk, -, -, rfl⟩
    · rfl
    · exact get_put_other hk hid
  · intro last hl
    rw [hat, hc.count, get_put_number hc.key, if_pos rfl] at hl
    cases hl
    refine ⟨fun _ => hc.running, fun hca => ?_⟩
    simp [hc.running] at hca

/-- The row of a task that is neither running nor leased fits any attempt that is not
canceled. -/
theorem fits_of_idle (hs : task.status ≠ .running) (hl : task.lease = none)
    (hc : attempt.status = .canceled → task.status = .canceled) : Fits task attempt := by
  refine ⟨?_, hc⟩
  rintro (hr | hle)
  · exact absurd hr hs
  · simp [hl] at hle

theorem LastAttempts.rows (h : LastAttempts s.db) (hr : RowStep admits allowed s s') :
    LastAttempts s'.db := by
  induction hr with
  | same tasks attempts =>
    exact ⟨by rw [tasks, attempts]; exact h.1, by rw [tasks, attempts]; exact h.2⟩
  | enqueue enqueues =>
    refine h.put (enqueues.tasks ▸ get_put _ _) ?_ ?_
    · intro id _ k
      rw [enqueues.attempts]
    · intro attempt ha
      simp [enqueues.attempts, h.absent _ enqueues.new] at ha
  | claim claims => exact h.claim claims
  | heartbeat renews =>
    refine h.mark renews.toReplaces renews.toMarks fun attempt hru => ⟨fun _ => hru, ?_⟩
    rw [hru]
    exact nofun
  | complete completes =>
    refine h.mark completes.toReplaces completes.toMarks fun attempt hd => ?_
    refine fits_of_idle ?_ completes.lease ?_
    · rw [completes.status]; exact nofun
    · rw [hd]; exact nofun
  | fail fails =>
    obtain ⟨task, task', hu, hl, -, hi⟩ := fails
    refine h.mark hu.toReplaces hu.toMarks fun attempt hf => ?_
    exact fits_of_idle hi hl (by rw [hf]; exact nofun)
  | cancel cancels =>
    have hfi : ∀ attempt, Fits _ attempt := fun attempt => fits_of_idle
      (by rw [cancels.status]; exact nofun) cancels.lease fun _ => cancels.status
    rcases cancels.attempts with ⟨-, hat⟩ | hm
    · exact h.put cancels.get (fun _ _ _ => by rw [hat]) fun attempt _ => hfi attempt
    · exact h.mark cancels.toReplaces hm fun attempt _ => hfi attempt
  | trans _ _ ih₁ ih₂ => exact ih₂ (ih₁ h)

theorem LastAttempts.reached (h : QueueReached admits s) : LastAttempts s.db := by
  induction h with
  | start => exact ⟨fun _ _ _ => rfl, fun _ _ _ hr => by cases hr⟩
  | step _ hs ih => exact ih.rows hs.rows

/-! ## What keeps finished work -/

theorem keeps_replace (hr : Replaces db db' task task') (ho : task.status.isFinished = false) :
    db.tasks.Keeps (·.1.isFinished) Task.outcome db'.tasks := by
  rw [hr.tasks]
  refine .put fun old hol => ?_
  rw [hr.sameID, hr.stored] at hol
  cases hol
  exact ho

theorem keeps_mark (hm : Marks db db' task status)
    (ho : ∀ attempt, db.attempts.get (toLex (task.id, task.attemptCount)) = some attempt →
      attempt.status.isFinished = false) :
    db.attempts.Keeps (·.1.isFinished) Attempt.outcome db'.attempts := by
  obtain ⟨attempt, attempt', -, hk, -, ha⟩ := hm.marked
  rw [ha]
  refine .put fun old hol => ?_
  rw [hk] at hol
  exact ho old hol

/-- The operations of a worker end the running attempt of a running task. -/
theorem KeepsFinished.update (h : LastAttempts db) (hu : Updates db db' task task' status) :
    KeepsFinished db db' := by
  refine ⟨keeps_replace hu.toReplaces ?_, keeps_mark hu.toMarks ?_⟩
  · rw [hu.running]
    rfl
  · intro attempt ha
    rw [(h.fits _ task attempt hu.stored ha).1 (.inl hu.running)]
    rfl

/-- A claim abandons the running attempt of the lease it takes over. -/
theorem KeepsFinished.claim (h : LastAttempts db) (hc : Claims db db' task claimed lease attempt)
    (hco : Continues db db' task lease attempt) : KeepsFinished db db' := by
  obtain ⟨attempts, ha, hn, hat⟩ := hc.attempts
  have hi : attempts.Keeps (·.1.isFinished) Attempt.outcome (attempts.put attempt) :=
    .put fun old ho => by simp [hn] at ho
  constructor
  · rw [hc.tasks]
    refine .put fun old ho => ?_
    rw [hc.sameID, hc.stored] at ho
    cases ho
    rcases hc.due with hd | ⟨hd, -⟩ <;> simp only [Task.outcome, hd] <;> rfl
  · rcases ha.abandoned with ⟨rfl, -⟩ | ⟨abandoned, hk, -, -, rfl⟩
    · rw [hat]
      exact hi
    · cases hh : task.lease with
      | none =>
        rw [hco.unleased hh]
        refine .put fun old ho => ?_
        rw [get_put] at hn
        split at hn
        · cases hn
        · simp [hn] at ho
      | some current =>
        rw [hat]
        refine .trans (.put fun old ho => ?_) hi
        rw [hk] at ho
        have hf := (h.fits _ task old hc.stored ho).1 (.inr (by rw [hh]; rfl))
        simp only [Attempt.outcome, hf]
        rfl

theorem KeepsFinished.rows (h : LastAttempts s.db)
    (hr : RowStep admits (fun db task => ¬ HasFinished db task) s s') :
    KeepsFinished s.db s'.db := by
  induction hr with
  | same tasks attempts => exact ⟨tasks ▸ .refl, attempts ▸ .refl⟩
  | enqueue enqueues =>
    refine ⟨enqueues.tasks ▸ .put fun old ho => ?_, enqueues.attempts ▸ .refl⟩
    simp [enqueues.new] at ho
  | claim claims continues => exact .claim h claims continues
  | heartbeat renews => exact .update h renews.toUpdates
  | complete completes => exact .update h completes.toUpdates
  | fail fails =>
    obtain ⟨task, task', hu, -⟩ := fails
    exact .update h hu
  | @cancel _ _ task _ cancels allows =>
    obtain ⟨hop, hl⟩ := not_or.mp allows
    refine ⟨keeps_replace cancels.toReplaces (Bool.eq_false_iff.mpr hop), ?_⟩
    rcases cancels.counted with ha | hc
    · rw [ha]
      exact .refl
    · rcases cancels.attempts with ⟨hn, -⟩ | hm
      · exact absurd hc (not_lt.mpr hn)
      · refine keeps_mark hm fun attempt hat => Bool.eq_false_iff.mpr fun hf => ?_
        exact hl ⟨hc, attempt, hat, hf⟩
  | trans first _ ih₁ ih₂ =>
    have hfi := ih₁ h
    have hs := ih₂ (h.rows first)
    exact ⟨hfi.tasks.trans hs.tasks, hfi.attempts.trans hs.attempts⟩

/-- A cancellation of finished work changes it. -/
theorem not_keepsFinished (h : LastAttempts s.db) (hc : CancelsFinished s s') :
    ¬ KeepsFinished s.db s'.db := by
  obtain ⟨call, taskID, version, now, task, canceled, durable, hr, hf⟩ := hc
  obtain ⟨result, htx⟩ := durable_eq_some durable
  obtain ⟨row, hc, hid⟩ := cancelTx_eq_commit htx
  obtain rfl : row = task := by
    rw [← hid, hc.stored] at hr
    exact Option.some.inj hr
  intro hk
  rcases hf with hf | ⟨hco, attempt, ha, hf⟩
  · obtain ⟨row', hro, ho⟩ := hk.tasks _ row hc.stored hf
    rw [hc.get, if_pos rfl] at hro
    cases hro
    exact hc.uncanceled ((congrArg Prod.fst ho).symm.trans hc.status)
  · rcases hc.attempts with ⟨hn, -⟩ | hm
    · exact absurd hco (not_lt.mpr hn)
    · obtain ⟨last, last', hl, hke, hs, hat⟩ := hm.marked
      obtain ⟨attempt', hae, ho⟩ := hk.attempts _ attempt ha hf
      rw [hat, get_put_number hke, if_pos rfl] at hae
      cases hae
      refine hc.uncanceled ((h.fits _ row attempt hc.stored ha).2 ?_)
      exact (congrArg Prod.fst ho).symm.trans hs

end

/-- In every history, a transaction keeps the outcome of finished work exactly if it is not
the cancellation of a task that is finished or whose last attempt is; and so does every
sequence of such transactions. -/
theorem finished_kept_iff {admits : Task → Prop} {s : QueueHistory} (h : QueueReached admits s) :
    (∀ s', QueueStep admits s s' → (KeepsFinished s.db s'.db ↔ ¬ CancelsFinished s s')) ∧
    ∀ s', Relation.ReflTransGen (fun s s' => QueueStep admits s s' ∧ ¬ CancelsFinished s s') s s' →
      KeepsFinished s.db s'.db := by
  have hk : ∀ {s s'}, QueueReached admits s → QueueStep admits s s' → ¬ CancelsFinished s s' →
      KeepsFinished s.db s'.db := by
    intro s s' h hs ho
    refine .rows (LastAttempts.reached h) (hs.rows_of_cancels ?_)
    intro call taskID version now task canceled durable hr hf
    exact ho ⟨call, taskID, version, now, task, canceled, durable, hr, hf⟩
  refine ⟨fun s' hs => ⟨fun hke hc => ?_, hk h hs⟩, fun s' hst => ?_⟩
  · exact not_keepsFinished (LastAttempts.reached h) hc hke
  · have hru : QueueReached admits s' ∧ KeepsFinished s.db s'.db := by
      induction hst with
      | refl => exact ⟨h, .refl, .refl⟩
      | tail _ hs ih =>
        have hn := hk ih.1 hs.1 hs.2
        exact ⟨ih.1.step hs.1, ih.2.tasks.trans hn.tasks, ih.2.attempts.trans hn.attempts⟩
    exact hru.2

/-- A task is canceled while its only attempt runs. -/
theorem running_canceled_keeps : ∃ s s', QueueReached (fun _ => True) s ∧
    QueueStep (fun _ => True) s s' ∧
    (s'.db.tasks.get "t").map Task.outcome = some (.canceled, "", some 30) ∧
    KeepsFinished s.db s'.db := by
  have hr : QueueReached (fun _ => True) _ := .step (.step .start
      (.enqueue { now := 10 } { id := "t", kind := "graph.node" } none rfl trivial))
      (.claim { now := 20 } "w" { ttl := 5 } (fun _ => ("a", "first")) rfl rfl
        (fun _ h => by cases h))
  refine ⟨_, _, hr, .cancel { now := 30 } "t" 1 30 rfl, rfl, ?_⟩
  refine ((finished_kept_iff hr).1 _ (.cancel { now := 30 } "t" 1 30 rfl)).mpr ?_
  rintro ⟨_, taskID, _, _, task, _, -, hro, hf⟩
  obtain rfl := key_of_get hro
  obtain rfl := mem_singleton.mp (mem_vals.mpr hro)
  rcases hf with hf | ⟨-, _, ha, hf⟩
  · cases hf
  · cases ha
    cases hf

/-- A task that failed for good, and the failed attempt of a task that waits for its next
attempt, are canceled. -/
theorem canceled_after_failure :
    (∃ s s', QueueReached (fun _ => True) s ∧ QueueStep (fun _ => True) s s' ∧
      (s.db.tasks.get "t").map Task.outcome = some (.failed, "boom", some 21) ∧
      (s'.db.tasks.get "t").map Task.outcome = some (.canceled, "boom", some 30)) ∧
    ∃ s s', QueueReached (fun _ => True) s ∧ QueueStep (fun _ => True) s s' ∧
      (s.db.attempts.get (toLex ("t", 1))).map Attempt.outcome = some (.failed, "boom", some 21) ∧
      (s'.db.attempts.get (toLex ("t", 1))).map Attempt.outcome =
        some (.canceled, "task canceled", some 30) := by
  have hc : QueueReached (fun _ => True) _ := .step (.step .start
      (.enqueue { now := 10 } { id := "t", kind := "graph.node" } none rfl trivial))
      (.claim { now := 20 } "w" { ttl := 5 } (fun _ => ("a", "first")) rfl rfl
        (fun _ h => by cases h))
  constructor
  · exact ⟨_, _, .step hc (.fail { now := 21 }
      [⟨⟨"t", "w", "a", 1, 20, 20, 25⟩, { message := "boom" }⟩] none rfl),
      .cancel { now := 30 } "t" 2 30 rfl, rfl, rfl⟩
  · exact ⟨_, _, .step hc (.fail { now := 21 }
      [⟨⟨"t", "w", "a", 1, 20, 20, 25⟩, { message := "boom", retryable := true }⟩] none rfl),
      .cancel { now := 30 } "t" 2 30 rfl, rfl, rfl⟩

end WeaveFlow
