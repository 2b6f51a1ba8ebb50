import WeaveFlow.Runtime.MemoryStore

/-!
# Execution leases

A runner executes a run under a lease, and takes, prolongs and gives it up by
read-modify-write: it reads the record, computes the next lease from the copy and
swaps the record at the revision of the copy.  The loops around these attempts
read again after a revision conflict, so any interleaving of the loops is an
interleaving of reads and attempts, and an attempt may be made on any copy that
was ever read.

The rank of a lease counts its changes of hands: it is even while a lease is held
and odd once it is released.  No call lowers it, and a guard only passes while the
rank is the one it was handed out with.
-/

namespace WeaveFlow

open RunRecord KeyedMap Outcome List

/-! ## The attempts of a runner -/

def RunRecord.executionLeaseGuard (run : RunRecord) : Option ExecutionLeaseGuard :=
  match run.executionLease with
  | some lease => if lease.status = .active then some ⟨run.runID, lease.token, lease.epoch⟩ else none
  | none => none

/-- What a runner brings to a new lease: its name, a new token, its clock and how
long its leases last. -/
structure LeaseOwner where
  ownerID : String
  token : String
  now : Time
  ttl : Nat
  deriving DecidableEq, Repr

def newExecutionLease (owner : LeaseOwner) (previous : Option ExecutionLease) :
    ExecutionLease where
  ownerID := owner.ownerID
  token := owner.token
  epoch := match previous with
    | none => 1
    | some lease => lease.epoch + 1
  status := .active
  acquiredAt := owner.now
  heartbeatAt := owner.now
  expiresAt := owner.now + owner.ttl

/-- `withExecutionLeaseMutation`; only the lease functions build such a context. -/
def leaseContext (kind : ExecutionLeaseMutationKind) (now : Time) : Context where
  leaseMutation := some ⟨kind, now⟩

/-- `IsExecutionLeaseActive`. -/
def RunRecord.leaseHeldAt (run : RunRecord) (now : Time) : Bool :=
  match run.executionLease with
  | none => false
  | some lease => lease.status = .active && now < lease.expiresAt

def MemoryStore.swapLease (store : MemoryStore) (kind : ExecutionLeaseMutationKind) (now : Time)
    (copy : RunRecord) (lease : ExecutionLease) : Except RunError (Bool × MemoryStore) := do
  let swapped ← store.compareAndSwapRun (leaseContext kind now) copy.revision
    { copy with executionLease := some lease }
  return (true, swapped.2)

/-- One attempt of `acquireExecutionLease` on the copy it has read.  A run that has
ended is left as it is; the answer says whether the run was written. -/
def MemoryStore.acquireExecutionLease (store : MemoryStore) (copy : RunRecord)
    (owner : LeaseOwner) : Except RunError (Bool × MemoryStore) :=
  if copy.deletion.isSome then
    .error (.controlNotAllowed ("run " ++ quoted copy.runID ++ " is reserved for deletion"))
  else if copy.status.isTerminal then .ok (false, store)
  else if copy.leaseHeldAt owner.now then .error (.leaseHeld ("run " ++ quoted copy.runID))
  else store.swapLease .acquire owner.now copy (newExecutionLease owner copy.executionLease)

/-- The lease a guard shows, on a copy that is not reserved for deletion. -/
def guardedLease (copy : RunRecord) (guard : ExecutionLeaseGuard) :
    Except RunError ExecutionLease := do
  require copy.deletion.isNone
    (.leaseLost ("run " ++ quoted guard.runID ++ " is reserved for deletion"))
  validateExecutionLeaseGuard copy guard
  found copy.executionLease

/-- One attempt of `heartbeatExecutionLease`. -/
def MemoryStore.heartbeatExecutionLease (store : MemoryStore) (copy : RunRecord)
    (guard : ExecutionLeaseGuard) (now : Time) (ttl : Nat) :
    Except RunError (Bool × MemoryStore) := do
  let lease ← guardedLease copy guard
  store.swapLease .heartbeat now copy { lease with heartbeatAt := now, expiresAt := now + ttl }

/-- The lease a guard shows was given up. -/
def RunRecord.gaveUp (run : RunRecord) (guard : ExecutionLeaseGuard) : Bool :=
  match run.executionLease with
  | none => false
  | some lease =>
    lease.status = .released && lease.token = guard.token && lease.epoch = guard.epoch

/-- One attempt of `releaseExecutionLease`. -/
def MemoryStore.releaseExecutionLease (store : MemoryStore) (copy : RunRecord)
    (guard : ExecutionLeaseGuard) (now : Time) : Except RunError (Bool × MemoryStore) :=
  if copy.deletion.isNone && copy.gaveUp guard then .ok (false, store)
  else do
    let lease ← guardedLease copy guard
    store.swapLease .release now copy
      { lease with status := .released, heartbeatAt := now, expiresAt := now }

/-- The record `MarkRunExecutionLost` writes. -/
def lostRun (copy : RunRecord) (now : Time) : RunRecord :=
  { copy with
    status := .failed
    pauseRequested := false
    cancelRequested := false
    errorCode := "run_execution_lost"
    errorMessage := "run execution is no longer active in this server process"
    updatedAt := now
    finishedAt := some now }

/-- The commit of `MarkRunExecutionLost`. -/
def lostCommit (copy : RunRecord) (now : Time) (transactionID eventID : String) : Commit where
  transactionID := transactionID
  run := some ⟨.update, lostRun copy now⟩
  events := [{ id := eventID, runID := copy.runID, type := .other "run.failed", timestamp := now }]

/-- One attempt of `MarkRunExecutionLost`: an expired lease is released, and a run
without a lease fails. -/
def MemoryStore.markRunExecutionLost (store : MemoryStore) (copy : RunRecord) (now : Time)
    (transactionID eventID : String) : Except RunError (Bool × MemoryStore) :=
  if !copy.status.isActiveDelete then .ok (false, store)
  else if copy.leaseHeldAt now then
    .error (.controlNotAllowed ("run " ++ quoted copy.runID ++ " is owned by an execution lease"))
  else match copy.executionLease.filter (·.status = .active) with
    | some lease =>
      store.swapLease .release now copy
        { lease with status := .released, heartbeatAt := now, expiresAt := now }
    | none => do
        let committed ← store.commit {} (lostCommit copy now transactionID eventID)
        return (true, committed.2)

/-! ## Interleavings -/

/-- A call on the store, by any runner. -/
inductive LeaseCall where
  | create (run : RunRecord)
  | acquire (copy : RunRecord) (owner : LeaseOwner)
  | heartbeat (copy : RunRecord) (guard : ExecutionLeaseGuard) (now : Time) (ttl : Nat)
  | release (copy : RunRecord) (guard : ExecutionLeaseGuard) (now : Time)
  | markLost (copy : RunRecord) (now : Time) (transactionID eventID : String)
  | commit (ctx : Context) (commit : Commit)
  | swap (ctx : Context) (expectedRevision : Nat) (run : RunRecord)
  deriving DecidableEq, Repr

/-- A context as it comes from outside the lease functions. -/
def Context.withoutLeaseMutation (ctx : Context) : Context := { ctx with leaseMutation := none }

namespace LeaseCall

/-- Make the call.  The answer says whether the call got to its commit or swap. -/
def perform (store : MemoryStore) : LeaseCall → Except RunError (Bool × MemoryStore)
  | create run => (store.createRun run).map fun store' => (true, store')
  | acquire copy owner => store.acquireExecutionLease copy owner
  | heartbeat copy guard now ttl => store.heartbeatExecutionLease copy guard now ttl
  | release copy guard now => store.releaseExecutionLease copy guard now
  | markLost copy now transactionID eventID =>
    store.markRunExecutionLost copy now transactionID eventID
  | commit ctx c => (store.commit ctx c).map fun committed => (true, committed.2)
  | swap ctx expectedRevision run =>
    (store.compareAndSwapRun ctx.withoutLeaseMutation expectedRevision run).map
      fun swapped => (true, swapped.2)

/-- The copy an attempt is made on. -/
def copy : LeaseCall → Option RunRecord
  | acquire copy _ | heartbeat copy _ _ _ | release copy _ _ | markLost copy _ _ _ => some copy
  | create _ | commit _ _ | swap _ _ _ => none

def carried : LeaseCall → Option ExecutionLeaseGuard
  | heartbeat _ guard _ _ | release _ guard _ => some guard
  | commit _ c => c.lease
  | swap ctx _ _ => ctx.executionLeaseGuard
  | create _ | acquire _ _ | markLost _ _ _ _ => none

/-- The revision of the record a call means to replace. -/
def basis : LeaseCall → Option Nat
  | acquire copy _ | heartbeat copy _ _ _ | release copy _ _ | markLost copy _ _ _ =>
    some copy.revision
  | commit _ c => c.run.map (·.run.revision)
  | swap _ expectedRevision _ => some expectedRevision
  | create _ => none

/-- The change of the lease a call is made for. -/
def kind : LeaseCall → Option ExecutionLeaseMutationKind
  | acquire _ _ => some .acquire
  | heartbeat _ _ _ _ => some .heartbeat
  | release _ _ _ => some .release
  | markLost copy _ _ _ =>
    if (copy.executionLease.filter (·.status = .active)).isSome then some .release else none
  | create _ | commit _ _ | swap _ _ _ => none

end LeaseCall

/-- The store, and every copy of a run that some runner has read so far. -/
structure LeaseState where
  store : MemoryStore
  reads : List RunRecord := []

/-- One step of some runner: it reads a run, or it makes a call on a copy it has
read.  A failed call leaves the store as it is. -/
inductive LeaseStep : LeaseState → LeaseState → Prop
  | read {s : LeaseState} {runID : String} {run : RunRecord} :
      s.store.getRun runID = .ok run → LeaseStep s { s with reads := run :: s.reads }
  | call {s : LeaseState} {call : LeaseCall} {wrote : Bool} {store' : MemoryStore} :
      (∀ copy ∈ call.copy, copy ∈ s.reads) → call.perform s.store = .ok (wrote, store') →
        LeaseStep s { s with store := store' }

/-- An interleaving of the runners. -/
def LeaseRuns : LeaseState → LeaseState → Prop := Relation.ReflTransGen LeaseStep

/-! ## What a call does to the leases -/

/-- The epoch of a lease; a run that was never leased has epoch zero. -/
def RunRecord.leaseEpoch (run : RunRecord) : Nat :=
  match run.executionLease with
  | none => 0
  | some lease => lease.epoch

/-- How often the lease has changed hands: even while it is held. -/
def RunRecord.leaseRank (run : RunRecord) : Nat :=
  match run.executionLease with
  | none => 0
  | some lease => 2 * lease.epoch + if lease.status = .released then 1 else 0

theorem RunRecord.leaseEpoch_eq (run : RunRecord) : run.leaseEpoch = run.leaseRank / 2 := by
  rw [leaseEpoch, leaseRank]
  cases run.executionLease with
  | none => rfl
  | some lease =>
    show lease.epoch = (2 * lease.epoch + if lease.status = .released then 1 else 0) / 2
    split <;> omega

def RunRecord.leaseToken (run : RunRecord) : Option String := run.executionLease.map (·.token)

/-- A lease and the one that replaces it, by the change that was made. -/
structure LeaseMove (kind : Option ExecutionLeaseMutationKind) (previous next : RunRecord) :
    Prop where
  rank_le : previous.leaseRank ≤ next.leaseRank
  acquire : kind = some .acquire →
    next.leaseEpoch = previous.leaseEpoch + 1 ∧ next.leaseToken ≠ previous.leaseToken
  handover : kind = some .acquire ∨ kind = some .release → previous.leaseRank < next.leaseRank

variable {s s' : LeaseState} {next run : RunRecord} {runID : String} {call : LeaseCall}
  {store' : MemoryStore} {guard : ExecutionLeaseGuard}

theorem leaseMove_of_eq (h : previous.executionLease = next.executionLease) :
    LeaseMove none previous next := by
  refine ⟨?_, fun hk => by simp at hk, fun hk => by simp at hk⟩
  rw [leaseRank, leaseRank, h]

/-- A lease mutation that the validator lets through. -/
theorem leaseMove_of_mutation (h : validateExecutionLeaseMutation previous next mutation = .ok ()) :
    LeaseMove (some mutation.kind) previous next := by
  rw [validateExecutionLeaseMutation] at h
  split at h
  next lease hk hn =>
    obtain ⟨_, -, h⟩ := of_bind h
    cases hp : previous.executionLease with
    | none =>
      simp only [validateExecutionLeaseTakeover, hp, require_eq_ok, decide_eq_true_eq] at h
      constructor <;> simp [leaseRank, leaseEpoch, leaseToken, hn, hp, h]
    | some held =>
      rw [hp] at h
      obtain ⟨_, -, h⟩ := of_bind h
      obtain ⟨_, he, ht⟩ := of_bind h
      simp only [require_eq_ok, decide_eq_true_eq] at he ht
      have hlt : previous.leaseRank < next.leaseRank := by
        simp only [leaseRank, hn, hp, he]
        split <;> omega
      refine ⟨le_of_lt hlt, fun _ => ⟨?_, ?_⟩, fun _ => hlt⟩
      · simp only [leaseEpoch, hn, hp, he]
      · simpa [leaseToken, hn, hp] using ht
  · cases h
  next held lease hk hp hn =>
    obtain ⟨_, ha, h⟩ := of_bind h
    obtain ⟨_, hs, -⟩ := of_bind h
    simp only [require_eq_ok, Bool.and_eq_true, decide_eq_true_eq,
      ExecutionLease.sameIdentity] at ha hs
    refine ⟨?_, by simp [hk], by simp [hk]⟩
    simp [leaseRank, hn, hp, ha, hs]
  · cases h
  next held lease hk hp hn =>
    obtain ⟨_, ha, hs⟩ := of_bind h
    simp only [require_eq_ok, Bool.and_eq_true, decide_eq_true_eq,
      ExecutionLease.sameIdentity] at ha hs
    have hlt : previous.leaseRank < next.leaseRank := by
      simp [leaseRank, hn, hp, ha, hs]
    exact ⟨le_of_lt hlt, by simp [hk], fun _ => hlt⟩
  · cases h

/-- The lease of a swap under a lease mutation. -/
theorem leaseMove_of_swapLease
    (h : validateRunExecutionLeaseTransition (leaseContext kind now) previous next = .ok ()) :
    LeaseMove (some kind) previous next := by
  obtain ⟨_, -, h⟩ := of_bind h
  obtain ⟨_, -, h⟩ := of_bind h
  exact leaseMove_of_mutation h

/-- The lease of a swap without a lease mutation, and the guard it has to show. -/
theorem lease_of_swap {ctx : Context}
    (h : validateRunExecutionLeaseTransition ctx.withoutLeaseMutation previous next = .ok ()) :
    previous.executionLease = next.executionLease ∧
      (ctx.deletionMutation = none → previous.leaseActive = true →
        ∃ guard, ctx.executionLeaseGuard = some guard ∧
          validateExecutionLeaseGuard previous guard = .ok ()) := by
  obtain ⟨_, -, h⟩ := of_bind h
  obtain ⟨_, -, h⟩ := of_bind h
  split at h
  next hd =>
    rw [require_eq_ok, decide_eq_true_eq] at h
    refine ⟨h, fun hn => ?_⟩
    have hs : ctx.deletionMutation.isSome = true := hd
    simp [hn] at hs
  · obtain ⟨_, hl, h⟩ := of_bind h
    rw [require_eq_ok, decide_eq_true_eq] at hl
    refine ⟨hl, fun _ ha => ?_⟩
    rw [if_pos ha] at h
    have hg : ctx.withoutLeaseMutation.executionLeaseGuard = ctx.executionLeaseGuard := rfl
    rw [hg] at h
    cases hc : ctx.executionLeaseGuard with
    | none => simp [hc] at h
    | some guard => rw [hc] at h; exact ⟨guard, rfl, h⟩

/-- A guard passes on a held lease of its epoch only. -/
theorem rank_of_guard (h : validateExecutionLeaseGuard run guard = .ok ()) :
    run.runID = guard.runID ∧ run.leaseRank = 2 * guard.epoch := by
  obtain ⟨_, -, h⟩ := of_bind h
  obtain ⟨_, -, h⟩ := of_bind h
  obtain ⟨_, -, h⟩ := of_bind h
  rw [require_eq_ok, ExecutionLeaseGuard.matches, Bool.and_eq_true, decide_eq_true_eq] at h
  obtain ⟨hid, hl⟩ := h
  refine ⟨hid, ?_⟩
  cases hr : run.executionLease with
  | none => simp [hr] at hl
  | some lease =>
    rw [hr] at hl
    simp only [Bool.and_eq_true, decide_eq_true_eq] at hl
    simp [leaseRank, hr, hl]

theorem rank_of_held (h : run.executionLeaseGuard = some guard) :
    run.leaseRank = 2 * guard.epoch := by
  rw [executionLeaseGuard] at h
  cases hr : run.executionLease with
  | none => simp [hr] at h
  | some lease =>
    simp only [hr, Option.ite_none_right_eq_some, Option.some.injEq] at h
    obtain ⟨ha, rfl⟩ := h
    simp [leaseRank, hr, ha]

/-! ## What a call does to the store -/

/-- The runs before and after a successful call. -/
inductive StoreMove (call : LeaseCall) (store store' : MemoryStore) : Bool → Prop
  | same {wrote : Bool} :
      store'.runs = store.runs → (wrote = true → call.kind = none) → StoreMove call store store' wrote
  | created (run : RunRecord) :
      store.runs.get run.runID = none → store'.runs = store.runs.put run → call.kind = none →
        StoreMove call store store' true
  | updated (existing run : RunRecord) :
      store.runs.get run.runID = some existing → existing.revision = run.revision →
        call.basis = some existing.revision → (∀ copy ∈ call.copy, copy.runID = run.runID) →
        LeaseMove call.kind existing run → store'.runs = store.runs.put (MemoryStore.bumped run) →
        StoreMove call store store' true

section

variable {call : LeaseCall} {store store' : MemoryStore} {wrote : Bool}

variable {kind : ExecutionLeaseMutationKind} {now : Time} {copy : RunRecord}

theorem swapLease_eq_ok (h : store.swapLease kind now copy lease = .ok (wrote, store')) :
    wrote = true ∧ ∃ existing, store.runs.get copy.runID = some existing ∧
      existing.revision = copy.revision ∧
      LeaseMove (some kind) existing { copy with executionLease := some lease } ∧
      store'.runs =
        store.runs.put (MemoryStore.bumped { copy with executionLease := some lease }) := by
  obtain ⟨⟨written, swapped⟩, hs, h⟩ := of_bind h
  cases h
  obtain ⟨existing, hsw, hr, hl, -, rfl⟩ := MemoryStore.compareAndSwapRun_eq_ok hs
  exact ⟨rfl, existing, hsw.stored, hr, leaseMove_of_swapLease hl, rfl⟩

/-- A swap of the lease of a copy, by a call that is made on the copy. -/
theorem storeMove_of_swapLease (hco : call.copy = some copy) (hk : call.kind = some kind)
    (hb : call.basis = some copy.revision)
    (h : store.swapLease kind now copy lease = .ok (wrote, store')) :
    StoreMove call store store' wrote := by
  obtain ⟨rfl, existing, hg, hr, hm, hru⟩ := swapLease_eq_ok h
  refine .updated existing { copy with executionLease := some lease } hg hr ?_ ?_ ?_ hru
  · rw [hb, hr]
  · intro c hc
    rw [hco] at hc
    cases hc
    rfl
  · rw [hk]
    exact hm

/-- A commit, by a call that is made for no lease. -/
theorem storeMove_of_commit (hk : call.kind = none)
    (hb : call.basis = commit.run.map (·.run.revision))
    (hco : ∀ copy ∈ call.copy, ∀ write ∈ commit.run, copy.runID = write.run.runID)
    (h : store.commit ctx commit = .ok (result, store')) : StoreMove call store store' true := by
  rcases MemoryStore.commit_eq_ok h with ⟨rfl, -⟩ | ⟨-, ha⟩
  · exact .same rfl fun _ => hk
  have hr := ha.runs
  rcases MemoryStore.commitRun_eq_ok ha.valid ha.run with
    ⟨hn, -⟩ | ⟨run, -, hru, hac⟩ | ⟨existing, run, hw, hru, hs, -, hl⟩
  · rw [hn] at hr
    exact .same hr fun _ => hk
  · rw [hru] at hr
    exact .created run hac.free hr hk
  · rw [hru] at hr
    refine .updated existing run hs.stored hs.revision ?_ ?_ ?_ hr
    · rw [hb, hw, hs.revision]
      rfl
    · intro copy hc
      exact hco copy hc _ hw
    · rw [hk]
      exact leaseMove_of_eq hl

theorem storeMove_of_guarded {copy : RunRecord} {guard : ExecutionLeaseGuard}
    {kind : ExecutionLeaseMutationKind} {now : Time} {next : ExecutionLease → ExecutionLease}
    (hc : call.copy = some copy) (hk : call.kind = some kind)
    (hb : call.basis = some copy.revision)
    (h : (guardedLease copy guard >>= fun lease => store.swapLease kind now copy (next lease)) =
      .ok (wrote, store')) : StoreMove call store store' wrote := by
  obtain ⟨lease, -, h⟩ := of_bind h
  exact storeMove_of_swapLease hc hk hb h

/-- Everything a call can do to the runs. -/
theorem storeMove_of_perform (h : call.perform store = .ok (wrote, store')) :
    StoreMove call store store' wrote := by
  cases call with
  | create run =>
    obtain ⟨created, hcr, heq⟩ := map_eq_ok h
    cases heq
    obtain ⟨ha, rfl⟩ := MemoryStore.createRun_eq_ok hcr
    exact .created run ha.free rfl rfl
  | acquire copy owner =>
    rw [LeaseCall.perform, MemoryStore.acquireExecutionLease] at h
    split at h
    · cases h
    · split at h
      · cases h; exact .same rfl fun hw => by cases hw
      · split at h
        · cases h
        · exact storeMove_of_swapLease rfl rfl rfl h
  | heartbeat copy guard now ttl => exact storeMove_of_guarded rfl rfl rfl h
  | release copy guard now =>
    rw [LeaseCall.perform, MemoryStore.releaseExecutionLease] at h
    split at h
    · cases h; exact .same rfl fun hw => by cases hw
    · exact storeMove_of_guarded rfl rfl rfl h
  | markLost copy now transactionID eventID =>
    rw [LeaseCall.perform, MemoryStore.markRunExecutionLost] at h
    split at h
    · cases h; exact .same rfl fun hw => by cases hw
    · split at h
      · cases h
      · cases hl : copy.executionLease.filter (·.status = .active) with
        | some lease =>
          rw [hl] at h
          refine storeMove_of_swapLease rfl ?_ rfl h
          rw [LeaseCall.kind, hl]
          rfl
        | none =>
          rw [hl] at h
          obtain ⟨⟨result, committed⟩, hco, h⟩ := of_bind h
          cases h
          refine storeMove_of_commit ?_ rfl ?_ hco
          · rw [LeaseCall.kind, hl]
            rfl
          · intro c hc write hwr
            cases hc
            cases hwr
            rfl
  | commit ctx commit =>
    obtain ⟨⟨result, committed⟩, hco, heq⟩ := map_eq_ok h
    cases heq
    exact storeMove_of_commit rfl rfl (fun copy hc => by cases hc) hco
  | swap ctx expected run =>
    obtain ⟨⟨written, swapped⟩, hs, heq⟩ := map_eq_ok h
    cases heq
    obtain ⟨existing, hsw, hr, hl, -, rfl⟩ := MemoryStore.compareAndSwapRun_eq_ok hs
    refine .updated existing run hsw.stored hsw.revision ?_ (fun copy hc => by cases hc)
      (leaseMove_of_eq (lease_of_swap hl).1) rfl
    rw [LeaseCall.basis, hr]

end

/-! ## Copies and ranks -/

/-- A copy is an earlier version of the stored record, or the record itself. -/
structure Older (copy current : RunRecord) : Prop where
  revision_le : copy.revision ≤ current.revision
  rank_le : copy.leaseRank ≤ current.leaseRank
  same : copy.revision = current.revision → copy = current

/-- Every copy that was read is older than the stored record. -/
def LeaseState.Tracks (s : LeaseState) : Prop :=
  ∀ copy ∈ s.reads, ∃ current, s.store.runs.get copy.runID = some current ∧ Older copy current

/-- A stored run stays stored, and its lease keeps its rank or rises. -/
theorem StoreMove.rank (h : StoreMove call store store' wrote)
    (hg : store.runs.get runID = some run) :
    ∃ next, store'.runs.get runID = some next ∧ run.leaseRank ≤ next.leaseRank ∧
      run.revision ≤ next.revision ∧ (run.revision = next.revision → run = next) := by
  cases h with
  | same hr _ => exact ⟨run, by rw [hr, hg], le_refl _, le_refl _, fun _ => rfl⟩
  | created new hf hr _ =>
    refine ⟨run, ?_, le_refl _, le_refl _, fun _ => rfl⟩
    have hne : runID ≠ new.runID := by
      rintro rfl
      simp [hf] at hg
    rw [hr, get_put_ne hne, hg]
  | updated existing new hs hre hb hc hm hr =>
    by_cases hid : runID = new.runID
    · subst hid
      rw [hs] at hg
      cases hg
      have hn : store'.runs.get new.runID = some (MemoryStore.bumped new) := by
        rw [hr]
        exact get_put_self _ (MemoryStore.bumped new)
      have hlt : run.revision < (MemoryStore.bumped new).revision := by
        rw [hre]
        exact Nat.lt_succ_self _
      exact ⟨_, hn, hm.rank_le, le_of_lt hlt, fun heq => absurd heq (ne_of_lt hlt)⟩
    · refine ⟨run, ?_, le_refl _, le_refl _, fun _ => rfl⟩
      have hne : runID ≠ (MemoryStore.bumped new).runID := hid
      rw [hr, get_put_ne hne, hg]

theorem tracks_step (hs : s.Tracks) (h : LeaseStep s s') : s'.Tracks := by
  cases h with
  | @read runID run hg =>
    obtain ⟨_, -, hg⟩ := of_bind hg
    rw [found_eq_ok] at hg
    intro copy hc
    rcases mem_cons.mp hc with rfl | hc
    · have hk : copy.runID = runID := key_of_get hg
      exact ⟨copy, by rw [hk]; exact hg, le_refl _, le_refl _, fun _ => rfl⟩
    · exact hs copy hc
  | call _ hp =>
    intro copy hc
    obtain ⟨current, hg, ho⟩ := hs copy hc
    obtain ⟨next, hn, hr, hre, hsa⟩ := (storeMove_of_perform hp).rank hg
    refine ⟨next, hn, ho.revision_le.trans hre, ho.rank_le.trans hr, ?_⟩
    intro heq
    have h₁ : copy.revision = current.revision := by
      have := ho.revision_le
      omega
    rw [ho.same h₁]
    exact hsa (by omega)

theorem tracks_runs (hs : s.Tracks) (h : LeaseRuns s s') : s'.Tracks := by
  induction h with
  | refl => exact hs
  | tail _ hst ih => exact tracks_step ih hst

/-- A lower bound on the rank of a run's lease. -/
def MemoryStore.RankAtLeast (store : MemoryStore) (runID : String) (n : Nat) : Prop :=
  ∃ run, store.runs.get runID = some run ∧ n ≤ run.leaseRank

theorem rankAtLeast_runs (hs : s.store.RankAtLeast runID n) (h : LeaseRuns s s') :
    s'.store.RankAtLeast runID n := by
  induction h with
  | refl => exact hs
  | tail _ hst ih =>
    obtain ⟨run, hg, hr⟩ := ih
    cases hst with
    | read _ => exact ⟨run, hg, hr⟩
    | call _ hp =>
      obtain ⟨next, hn, hle, -, -⟩ := (storeMove_of_perform hp).rank hg
      exact ⟨next, hn, hr.trans hle⟩

/-! ## Fencing -/

/-- A lease of the run was taken over or given up in this step. -/
def Handover (runID : String) (s s' : LeaseState) : Prop :=
  ∃ call : LeaseCall, ∃ copy ∈ call.copy, copy ∈ s.reads ∧ copy.runID = runID ∧
    (call.kind = some .acquire ∨ call.kind = some .release) ∧
    ∃ store', call.perform s.store = .ok (true, store') ∧ s' = { s with store := store' }

/-- On the way to a state the run was leased under a guard, and later the lease
was taken over or given up. -/
def LeaseEnded (start : LeaseState) (guard : ExecutionLeaseGuard) (s : LeaseState) : Prop :=
  ∃ s₁ s₂ s₃, LeaseRuns start s₁ ∧
    (s₁.store.runs.get guard.runID).bind executionLeaseGuard = some guard ∧
    LeaseRuns s₁ s₂ ∧ Handover guard.runID s₂ s₃ ∧ LeaseRuns s₃ s

theorem handover_rank (h : Handover runID s s') (hs : s.store.RankAtLeast runID n) :
    s'.store.RankAtLeast runID (n + 1) := by
  obtain ⟨call, copy, hc, -, hid, hk, store', hp, rfl⟩ := h
  obtain ⟨run, hg, hr⟩ := hs
  cases storeMove_of_perform hp with
  | same _ hn => rw [hn rfl] at hk; simp at hk
  | created _ _ _ hn => rw [hn] at hk; simp at hk
  | updated existing new hst hre hb hne hm hru =>
    have hnw : runID = new.runID := hid.symm.trans (hne copy hc)
    subst hnw
    rw [hst] at hg
    cases hg
    refine ⟨MemoryStore.bumped new, ?_, ?_⟩
    · show store'.runs.get new.runID = _
      rw [hru]
      exact get_put_self _ (MemoryStore.bumped new)
    · exact Nat.succ_le_of_lt (lt_of_le_of_lt hr (hm.handover hk))

/-- The lease of the guard is over, and stays so. -/
theorem leaseEnded_rank {start : LeaseState} (h : LeaseEnded start guard s) :
    s.store.RankAtLeast guard.runID (2 * guard.epoch + 1) := by
  obtain ⟨s₁, s₂, s₃, -, hh, hr, he, hl⟩ := h
  obtain ⟨run, hg, hgu⟩ := Option.bind_eq_some_iff.mp hh
  have h₁ : s₁.store.RankAtLeast guard.runID (2 * guard.epoch) :=
    ⟨run, hg, le_of_eq (rank_of_held hgu).symm⟩
  exact rankAtLeast_runs (handover_rank he (rankAtLeast_runs h₁ hr)) hl

/-- A call that has its guard checked: a swap is made on a held lease and for no
deletion, and a commit is not the repetition of a stored transaction. -/
def LeaseCall.GuardChecked (store : MemoryStore) : LeaseCall → Prop
  | swap ctx _ run => ctx.deletionMutation = none ∧
      ∃ existing, store.runs.get run.runID = some existing ∧ existing.leaseActive = true
  | commit _ c => store.transactions.get c.transactionID = none
  | _ => True

/-- A guard that passes is the guard of the lease the run has. -/
theorem guard_current (hs : s.Tracks) (hr : ∀ copy ∈ call.copy, copy ∈ s.reads)
    (hc : call.carried = some guard) (hch : call.GuardChecked s.store)
    (h : call.perform s.store = .ok (true, store')) :
    ∃ run, s.store.runs.get guard.runID = some run ∧ run.leaseRank = 2 * guard.epoch := by
  -- An attempt on a copy: the guard passed on the copy, and the swap says the
  -- copy is the stored record.
  have ha : ∀ {copy : RunRecord} {kind now} {next : ExecutionLease → ExecutionLease},
      copy ∈ s.reads →
      (guardedLease copy guard >>= fun lease => s.store.swapLease kind now copy (next lease)) =
        .ok (true, store') →
      ∃ run, s.store.runs.get guard.runID = some run ∧ run.leaseRank = 2 * guard.epoch := by
    intro copy kind now next hco h
    obtain ⟨lease, hl, h⟩ := of_bind h
    obtain ⟨_, -, hl⟩ := of_bind hl
    obtain ⟨_, hg, -⟩ := of_bind hl
    obtain ⟨-, existing, hge, hre, -, -⟩ := swapLease_eq_ok h
    obtain ⟨current, hcu, ho⟩ := hs copy hco
    rw [hcu] at hge
    cases hge
    have hsa : copy = existing := ho.same hre.symm
    obtain ⟨hid, hra⟩ := rank_of_guard hg
    rw [hid] at hcu
    exact ⟨existing, hcu, hsa ▸ hra⟩
  cases call with
  | create run | acquire copy owner | markLost copy now transactionID eventID => cases hc
  | heartbeat copy shown now ttl =>
    cases hc
    exact ha (hr copy rfl) h
  | release copy shown now =>
    cases hc
    rw [LeaseCall.perform, MemoryStore.releaseExecutionLease] at h
    split at h
    · cases h
    · exact ha (hr copy rfl) h
  | commit ctx commit =>
    obtain ⟨⟨result, committed⟩, hcm, -⟩ := map_eq_ok h
    rcases MemoryStore.commit_eq_ok hcm with ⟨-, hst⟩ | ⟨-, hap⟩
    · have hn : s.store.transactions.get commit.transactionID = none := hch
      simp [hn] at hst
    · have hl := hap.lease
      have hg : commit.lease = some guard := hc
      rw [MemoryStore.checkCommitLease, hg] at hl
      obtain ⟨run, hge, hv⟩ := of_bind hl
      rw [found_eq_ok] at hge
      exact ⟨run, hge, (rank_of_guard hv).2⟩
  | swap ctx expected run =>
    obtain ⟨hd, existing, hge, hac⟩ := hch
    obtain ⟨⟨written, swapped⟩, hsw, -⟩ := map_eq_ok h
    obtain ⟨stored, hsp, -, hl, -, -⟩ := MemoryStore.compareAndSwapRun_eq_ok hsw
    have hst := hsp.stored
    rw [hge] at hst
    cases hst
    obtain ⟨shown, hsh, hv⟩ := (lease_of_swap hl).2 hd hac
    have hg : ctx.executionLeaseGuard = some guard := hc
    rw [hsh] at hg
    cases hg
    obtain ⟨hid, hra⟩ := rank_of_guard hv
    have hk : existing.runID = run.runID := key_of_get hge
    rw [← hid, hk]
    exact ⟨existing, hge, hra⟩

/-- The record of one run before and after a successful call. -/
inductive RunMove (reads : List RunRecord) (call : LeaseCall) :
    Option RunRecord → Option RunRecord → Prop
  | same (run : Option RunRecord) : RunMove reads call run run
  | created (run : RunRecord) : RunMove reads call none (some run)
  /-- The call was made for the revision it replaces, and whoever read that
  revision has read the very record that is replaced. -/
  | updated (existing next : RunRecord) :
      next.revision = existing.revision + 1 → call.basis = some existing.revision →
        (∀ copy ∈ reads, copy.runID = existing.runID → copy.revision = existing.revision →
          copy = existing) →
        existing.leaseEpoch ≤ next.leaseEpoch → RunMove reads call (some existing) (some next)

theorem runMove_of_perform (hs : s.Tracks) (h : call.perform s.store = .ok (wrote, store'))
    (runID : String) : RunMove s.reads call (s.store.runs.get runID) (store'.runs.get runID) := by
  cases storeMove_of_perform h with
  | same hr _ => rw [hr]; exact .same _
  | created new hf hr _ =>
    rw [hr, get_put]
    split
    next hid => rw [hid, hf]; exact .created new
    · exact .same _
  | updated existing new hst hre hb _ hm hr =>
    rw [hr, get_put]
    split
    next hid =>
      have hid : runID = new.runID := hid
      rw [hid, hst]
      refine .updated existing (MemoryStore.bumped new) ?_ hb ?_ ?_
      · rw [hre]
        rfl
      · intro copy hc hsa heq
        obtain ⟨current, hcu, ho⟩ := hs copy hc
        have hk : existing.runID = new.runID := key_of_get hst
        rw [hsa, hk, hst] at hcu
        cases hcu
        exact ho.same heq
      · have hbu : (MemoryStore.bumped new).leaseEpoch = new.leaseEpoch := rfl
        rw [hbu, leaseEpoch_eq, leaseEpoch_eq]
        exact Nat.div_le_div_right hm.rank_le
    · exact .same _

/-- A successful acquisition gives the run the next epoch and another token. -/
def Acquires (store store' : MemoryStore) (runID : String) : Prop :=
  ∃ existing next, store.runs.get runID = some existing ∧ store'.runs.get runID = some next ∧
    next.leaseEpoch = existing.leaseEpoch + 1 ∧ next.leaseToken ≠ existing.leaseToken

theorem acquires_of_perform (hc : call.copy = some copy) (hk : call.kind = some .acquire)
    (h : call.perform store = .ok (true, store')) : Acquires store store' copy.runID := by
  cases storeMove_of_perform h with
  | same _ hn => simp [hn rfl] at hk
  | created _ _ _ hn => simp [hn] at hk
  | updated existing new hs _ _ hne hm hr =>
    rw [hne copy hc]
    have hg : store'.runs.get new.runID = some (MemoryStore.bumped new) := by
      rw [hr]
      exact get_put_self _ (MemoryStore.bumped new)
    exact ⟨existing, _, hs, hg, hm.acquire hk⟩

/-- In every interleaving, a successful call leaves each run as it is, creates it
or replaces the record the call was made for by the next revision, and never
lowers an epoch; an acquisition gives the next epoch and another token.  A call
whose guard is checked does not get through with the guard of a lease that was
taken over or given up. -/
theorem lease_fencing {store : MemoryStore} {s : LeaseState} {call : LeaseCall} {wrote : Bool}
    {store' : MemoryStore} (hrun : LeaseRuns { store := store } s)
    (hread : ∀ copy ∈ call.copy, copy ∈ s.reads)
    (hcall : call.perform s.store = .ok (wrote, store')) :
    (∀ runID, RunMove s.reads call (s.store.runs.get runID) (store'.runs.get runID)) ∧
      (∀ copy ∈ call.copy, call.kind = some .acquire → wrote = true →
        Acquires s.store store' copy.runID) ∧
      ∀ guard, call.carried = some guard → call.GuardChecked s.store → wrote = true →
        ¬ LeaseEnded { store := store } guard s := by
  have hs : ({ store := store } : LeaseState).Tracks := by
    intro copy hc
    cases hc
  have ht := tracks_runs hs hrun
  refine ⟨runMove_of_perform ht hcall, ?_, ?_⟩
  · intro copy hc hk hw
    subst hw
    exact acquires_of_perform hc hk hcall
  · intro guard hca hch hw he
    subst hw
    obtain ⟨run, hg, hr⟩ := guard_current ht hread hca hch hcall
    obtain ⟨run', hge, hra⟩ := leaseEnded_rank he
    rw [hg] at hge
    cases hge
    omega

/-- A run under its first lease. -/
def leasedRun : RunRecord where
  runID := "run"
  rootRunID := "run"
  status := .running
  executionLease := some ⟨"first", "token-1", 1, .active, 1, 1, 10⟩

def leasedStore : MemoryStore := { runs := KeyedMap.empty.put leasedRun }

def leasedGuard : ExecutionLeaseGuard := ⟨"run", "token-1", 1⟩

/-- The run is read once. -/
def leasedState : LeaseState := { store := leasedStore, reads := [leasedRun] }

theorem leasedState_reached : LeaseRuns { store := leasedStore } leasedState := by
  have hg : leasedStore.getRun "run" = .ok leasedRun := rfl
  exact .single (.read hg)

/-- Another runner takes the lease over once it has run out. -/
def takeover : LeaseCall := .acquire leasedRun ⟨"second", "token-2", 20, 10⟩

def takenRun : RunRecord :=
  { leasedRun with
    revision := 1
    executionLease := some ⟨"second", "token-2", 2, .active, 20, 20, 30⟩ }

def takenStore : MemoryStore := { runs := KeyedMap.empty.put takenRun }

/-- A swap by the owner of the lease. -/
def ownSwap : LeaseCall := .swap { leaseGuard := some leasedGuard } 0 leasedRun

theorem lease_fencing_takeover : (takeover.perform leasedState.store = .ok (true, takenStore) ∧
      Acquires leasedState.store takenStore "run") ∧
    (∃ store', ownSwap.perform leasedState.store = .ok (true, store')) ∧
      ¬ LeaseEnded { store := leasedStore } leasedGuard leasedState := by
  have hc : takeover.perform leasedState.store = .ok (true, takenStore) := rfl
  have hr : ∀ copy ∈ takeover.copy, copy ∈ leasedState.reads := by
    intro copy hco
    cases hco
    exact mem_cons_self
  obtain ⟨store', hs⟩ : ∃ store', ownSwap.perform leasedState.store = .ok (true, store') :=
    ⟨_, rfl⟩
  have hno : ∀ copy ∈ ownSwap.copy, copy ∈ leasedState.reads := by
    intro copy hco
    cases hco
  exact ⟨⟨hc, (lease_fencing leasedState_reached hr hc).2.1 leasedRun rfl rfl rfl⟩, ⟨store', hs⟩,
    (lease_fencing leasedState_reached hno hs).2.2 leasedGuard rfl ⟨rfl, leasedRun, rfl, rfl⟩ rfl⟩

/-- The record after its owner has released the lease. -/
def releasedRun : RunRecord :=
  { leasedRun with
    revision := 1
    executionLease := some ⟨"first", "token-1", 1, .released, 1, 5, 5⟩ }

def releasedState : LeaseState :=
  { store := { runs := KeyedMap.empty.put releasedRun }, reads := [leasedRun] }

/-- A swap that still carries the guard of the released lease. -/
def staleSwap : LeaseCall :=
  .swap { leaseGuard := some leasedGuard } 1 { releasedRun with status := .completed }

/-- The guard of a released lease is not looked at by a swap. -/
theorem released_guard_accepted : LeaseEnded { store := leasedStore } leasedGuard releasedState ∧
      staleSwap.carried = some leasedGuard ∧
      ∃ store', staleSwap.perform releasedState.store = .ok (true, store') := by
  have hr : (LeaseCall.release leasedRun leasedGuard 5).perform leasedState.store =
      .ok (true, releasedState.store) := by
    rfl
  have hh : Handover "run" leasedState releasedState :=
    ⟨.release leasedRun leasedGuard 5, leasedRun, rfl, mem_cons_self, rfl, .inr rfl,
      releasedState.store, hr, rfl⟩
  refine ⟨⟨_, _, _, .refl, rfl, leasedState_reached, hh, .refl⟩, rfl, ?_⟩
  exact ⟨_, rfl⟩

end WeaveFlow
