import WeaveFlow.Lib.KeyedMap
import WeaveFlow.Runtime.Validation

/-!
# The memory store

`MemoryRuntimeStore` keeps all records in maps and guards every call by its
locks, so a call is one atomic step: it fails and changes nothing, or it succeeds
and gives the next store.  The execution store, the checkpoint store and the
event sink are fenced together, so one map of fences stands for theirs.

The `_eq_ok` lemmas say once what a successful call has checked and what it
wrote.  Everything later is derived from them.
-/

namespace WeaveFlow

open Outcome

/-! ## The store -/

structure MemoryCheckpoint where
  record : CheckpointRecord
  payload : List UInt8
  deriving DecidableEq, Repr

/-- `memoryTransactionResult`, with the transaction it is kept under. -/
structure MemoryTransaction where
  id : String
  fingerprint : Fingerprint
  result : CommitResult
  deriving DecidableEq, Repr

structure MemoryStore where
  runs : KeyedMap RunRecord.runID := .empty
  steps : KeyedMap StepRecord.stepID := .empty
  checkpoints : KeyedMap (fun checkpoint : MemoryCheckpoint => checkpoint.record.checkpointID) :=
    .empty
  /-- The events, by run. -/
  events : SortedMap String (List Event) := .empty
  /-- The deletion fences, by run. -/
  fences : SortedMap String String := .empty
  transactions : KeyedMap MemoryTransaction.id := .empty

/-- `ErrRunnerRecordNotFound`. -/
def recordNotFound : RunError := .recordNotFound "runner record not found"

/-- A lookup that must find something. -/
def found {α : Type} : Option α → Except RunError α
  | none => .error recordNotFound
  | some a => .ok a

@[simp] theorem found_eq_ok {α : Type} {o : Option α} {a : α} : found o = .ok a ↔ o = some a := by
  cases o <;> simp [found]

namespace MemoryStore

/-! ## Runs -/

/-- `ensureMemoryRunWritable`. -/
def ensureRunWritable (store : MemoryStore) (runID : String) : Except RunError Unit :=
  match store.fences.get runID with
  | none => .ok ()
  | some deletionID => .error (.controlNotAllowed ("run " ++ quoted runID ++
      " is fenced by deletion " ++ quoted deletionID))

@[simp] theorem ensureRunWritable_eq_ok {store : MemoryStore} {runID : String} {u : Unit} :
    store.ensureRunWritable runID = .ok u ↔ store.fences.get runID = none := by
  rw [ensureRunWritable]
  split <;> simp_all

def checkNewRunParent (store : MemoryStore) (run : RunRecord) : Except RunError Unit :=
  if run.parentRunID = "" then .ok ()
  else do
    store.ensureRunWritable run.parentRunID
    let parent ← (found (store.runs.get run.parentRunID)).mapError
      (.within ("parent run " ++ quoted run.parentRunID))
    validateNewRunParent run parent

def checkNewRunID (store : MemoryStore) (runID : String) : Except RunError Unit := do
  store.ensureRunWritable runID
  require (store.runs.get runID).isNone (.invalid ("run " ++ quoted runID ++ " already exists"))

def createRun (store : MemoryStore) (run : RunRecord) : Except RunError MemoryStore := do
  validateRunnerStorageID "run ID" run.runID
  validateNewRunDeletion run
  validateRunChildState run
  store.checkNewRunID run.runID
  store.checkNewRunParent run
  return { store with runs := store.runs.put run }

/-- A run with the revision after its own. -/
def bumped (run : RunRecord) : RunRecord := { run with revision := run.revision + 1 }

def compareAndSwapRun (store : MemoryStore) (ctx : Context) (expectedRevision : Nat)
    (run : RunRecord) : Except RunError (RunRecord × MemoryStore) := do
  validateRunnerStorageID "run ID" run.runID
  validateRunChildState run
  let existing ← found (store.runs.get run.runID)
  require (existing.revision = expectedRevision && run.revision = expectedRevision)
    (.revisionConflict run.runID expectedRevision existing.revision)
  validateRunDeletionTransition ctx existing run
  validateRunExecutionLeaseTransition ctx existing run
  return (bumped run, { store with runs := store.runs.put (bumped run) })

def getRun (store : MemoryStore) (runID : String) : Except RunError RunRecord := do
  validateRunnerStorageID "run ID" runID
  found (store.runs.get runID)

/-! ## Commits -/

/-- The checks of every record a commit writes for a run. -/
def ensureCommitRun (store : MemoryStore) (commit : Commit) (runID action : String) :
    Except RunError Unit := do
  let run ← found (store.runs.get runID)
  validateCommitExecutionLease run commit
  store.ensureRunWritable runID
  ensureRunNotDeleting run action

/-- The guard of a commit against the run it names. -/
def checkCommitLease (store : MemoryStore) (commit : Commit) : Except RunError Unit :=
  match commit.lease with
  | none => .ok ()
  | some guard => do
      let run ← found (store.runs.get guard.runID)
      validateExecutionLeaseGuard run guard

/-- The checks before a run is updated or relied on. -/
def checkRunUpdate (store : MemoryStore) (commit : Commit) (run : RunRecord) :
    Except RunError RunRecord := do
  let existing ← found (store.runs.get run.runID)
  require (existing.runID = run.runID)
    (.invalid ("run " ++ quoted run.runID ++ " metadata identity mismatch"))
  require (existing.revision = run.revision)
    (.revisionConflict run.runID run.revision existing.revision)
  validateCommitExecutionLease existing commit
  require (existing.executionLease = run.executionLease)
    (.controlNotAllowed ("runtime commit cannot change run " ++ quoted run.runID ++
      " execution lease"))
  return existing

/-- The run of a commit: the record as it is written, if it is. -/
def commitRun (store : MemoryStore) (ctx : Context) (commit : Commit) :
    Except RunError (Option RunRecord) :=
  match commit.run with
  | none => .ok none
  | some ⟨.create, run⟩ => do
      validateNewRunDeletion run
      store.checkNewRunID run.runID
      store.checkNewRunParent run
      return some run
  | some ⟨.check, run⟩ => do
      let existing ← store.checkRunUpdate commit run
      store.ensureRunWritable run.runID
      ensureRunNotDeleting existing "write runtime records"
      return none
  | some ⟨.update, run⟩ => do
      let existing ← store.checkRunUpdate commit run
      validateRunDeletionTransition ctx existing run
      return some (bumped run)

def putRun (store : MemoryStore) : Option RunRecord → MemoryStore
  | none => store
  | some run => { store with runs := store.runs.put run }

def checkStepWrite (step : StepRecord) : StepWriteMode → Option StepRecord → Except RunError Unit
  | .append, none => .ok ()
  | .append, some _ => .error (.invalid ("step " ++ quoted step.stepID ++ " already exists"))
  | .update, none => .error recordNotFound
  | .update, some existing => do
      require (existing.runID = step.runID) recordNotFound
      validateStepEffectTransition existing step

def commitStep (commit : Commit) (store : MemoryStore) (write : StepWrite) :
    Except RunError MemoryStore := do
  store.ensureCommitRun commit write.step.runID "write a step"
  checkStepWrite write.step write.mode (store.steps.get write.step.stepID)
  return { store with steps := store.steps.put write.step }

def commitCheckpoint (commit : Commit) (store : MemoryStore) (write : CheckpointWrite) :
    Except RunError MemoryStore := do
  store.ensureCommitRun commit write.record.runID "write a checkpoint"
  require (store.checkpoints.get write.record.checkpointID).isNone
    (.invalid ("checkpoint " ++ quoted write.record.checkpointID ++ " already exists"))
  let record := { write.record with payloadRef := "" }
  return { store with checkpoints := store.checkpoints.put ⟨record, write.payload⟩ }

/-- The events of a run with one more. -/
def appendEvent (store : MemoryStore) (event : Event) : MemoryStore :=
  { store with
    events := store.events.put event.runID
      ((store.events.get event.runID).getD [] ++ [event]) }

/-- An event of a commit; streaming events are not kept. -/
def commitEvent (commit : Commit) (store : MemoryStore) (event : Event) :
    Except RunError MemoryStore :=
  if event.type.isStreaming then .ok store
  else do
    store.ensureCommitRun commit event.runID "publish an event"
    return store.appendEvent event

/-- `applyMemoryCommit`, with the run it has written. -/
def applyMemoryCommit (store : MemoryStore) (ctx : Context) (commit : Commit) :
    Except RunError (Option RunRecord × MemoryStore) := do
  validateRuntimeCommit commit
  store.checkCommitLease commit
  let run ← store.commitRun ctx commit
  let store ← commit.steps.foldlM (commitStep commit) (store.putRun run)
  let store ← commit.checkpoints.foldlM (commitCheckpoint commit) store
  let store ← commit.events.foldlM (commitEvent commit) store
  commit.artifacts.forM fun stage =>
    store.ensureCommitRun commit stage.runID "finalize an artifact"
  return (run, store)

/-- The result of a transaction that was applied. -/
def committedResult (commit : Commit) (run : Option RunRecord) : CommitResult where
  transactionID := commit.transactionID
  outcome := .committed
  run := run
  artifacts := commit.artifacts

/-- A transaction that was not seen before. -/
def commitNew (store : MemoryStore) (ctx : Context) (commit : Commit) :
    Except RunError (CommitResult × MemoryStore) := do
  let applied ← store.applyMemoryCommit ctx commit
  let result := committedResult commit applied.1
  let transaction := ⟨commit.transactionID, commitFingerprint commit, result⟩
  return (result, { applied.2 with transactions := applied.2.transactions.put transaction })

/-- `Commit`.  A transaction that was committed before is answered from its
result. -/
def commit (store : MemoryStore) (ctx : Context) (commit : Commit) :
    Except RunError (CommitResult × MemoryStore) := do
  validateRuntimeCommit commit
  match store.transactions.get commit.transactionID with
  | none => store.commitNew ctx commit
  | some stored => do
      require (stored.fingerprint = commitFingerprint commit)
        (.invalid ("runtime transaction " ++ quoted commit.transactionID ++
          " fingerprint mismatch"))
      return (stored.result, store)

/-- `Commit` under an id that was just generated, so no transaction is stored under
it. -/
def commitGenerated (store : MemoryStore) (ctx : Context) (commit : Commit) :
    Except RunError (CommitResult × MemoryStore) := do
  validateRuntimeCommit commit
  store.commitNew ctx commit

/-! ## Deletion -/

/-! ## Successful calls -/

section

variable {store store' : MemoryStore} {ctx : Context} {run written : RunRecord}

theorem checkNewRunParent_eq_ok {u : Unit} (h : store.checkNewRunParent run = .ok u)
    (hp : run.parentRunID ≠ "") :
    ∃ parent, store.runs.get run.parentRunID = some parent ∧
      store.fences.get run.parentRunID = none ∧ validateNewRunParent run parent = .ok () := by
  rw [checkNewRunParent, if_neg hp] at h
  obtain ⟨_, hf, h⟩ := of_bind h
  obtain ⟨parent, hg, h⟩ := of_bind h
  rw [ensureRunWritable_eq_ok] at hf
  cases hr : store.runs.get run.parentRunID with
  | none => rw [hr] at hg; cases hg
  | some found =>
    rw [hr] at hg
    cases hg
    exact ⟨_, rfl, hf, h⟩

theorem checkNewRunID_eq_ok {runID : String} {u : Unit} (h : store.checkNewRunID runID = .ok u) :
    store.fences.get runID = none ∧ store.runs.get runID = none := by
  obtain ⟨_, hf, h⟩ := of_bind h
  rw [ensureRunWritable_eq_ok] at hf
  rw [require_eq_ok, Option.isNone_iff_eq_none] at h
  exact ⟨hf, h⟩

/-- A run that a store accepts as new. -/
structure AcceptsRun (store : MemoryStore) (run : RunRecord) : Prop where
  deletion : run.deletion = none
  childState : validateRunChildState run = .ok ()
  fence : store.fences.get run.runID = none
  free : store.runs.get run.runID = none
  parent : run.parentRunID ≠ "" → ∃ parent, store.runs.get run.parentRunID = some parent ∧
    store.fences.get run.parentRunID = none ∧ validateNewRunParent run parent = .ok ()

theorem createRun_eq_ok (h : store.createRun run = .ok store') :
    store.AcceptsRun run ∧ store' = { store with runs := store.runs.put run } := by
  obtain ⟨_, -, h⟩ := of_bind h
  simp only [bind_eq_ok] at h
  obtain ⟨_, hd, _, hc, _, hid, _, hp, h⟩ := h
  rw [validateNewRunDeletion, require_eq_ok, Option.isNone_iff_eq_none] at hd
  have hf := checkNewRunID_eq_ok hid
  cases h
  exact ⟨⟨hd, hc, hf.1, hf.2, checkNewRunParent_eq_ok hp⟩, rfl⟩

/-- A record that a store accepts in place of an existing one. -/
structure Swaps (store : MemoryStore) (ctx : Context) (existing run : RunRecord) : Prop where
  stored : store.runs.get run.runID = some existing
  revision : existing.revision = run.revision
  childState : validateRunChildState run = .ok ()
  deletion : validateRunDeletionTransition ctx existing run = .ok ()

theorem compareAndSwapRun_eq_ok
    (h : store.compareAndSwapRun ctx expected run = .ok (written, store')) :
    ∃ existing, store.Swaps ctx existing run ∧ existing.revision = expected ∧
      validateRunExecutionLeaseTransition ctx existing run = .ok () ∧
      written = bumped run ∧ store' = { store with runs := store.runs.put (bumped run) } := by
  obtain ⟨_, -, h⟩ := of_bind h
  simp only [bind_eq_ok] at h
  obtain ⟨_, hc, existing, hg, _, hr, _, hd, _, hl, h⟩ := h
  rw [found_eq_ok] at hg
  simp only [require_eq_ok, Bool.and_eq_true, decide_eq_true_eq] at hr
  cases h
  have heq : existing.revision = run.revision := hr.1.trans hr.2.symm
  exact ⟨existing, ⟨hg, heq, hc, hd⟩, hr.1, hl, rfl, rfl⟩

/-- The parts of a store that the records of a commit leave alone. -/
structure SameRuns (store store' : MemoryStore) : Prop where
  runs : store'.runs = store.runs
  fences : store'.fences = store.fences
  transactions : store'.transactions = store.transactions

theorem SameRuns.refl (store : MemoryStore) : store.SameRuns store := ⟨rfl, rfl, rfl⟩

theorem SameRuns.trans (h : store.SameRuns store') (h' : store'.SameRuns store'') :
    store.SameRuns store'' :=
  ⟨h'.runs.trans h.runs, h'.fences.trans h.fences, h'.transactions.trans h.transactions⟩

variable {commit : Commit}

theorem sameRuns_commitStep (h : commitStep commit store write = .ok store') :
    store.SameRuns store' := by
  obtain ⟨_, -, h⟩ := of_bind h
  obtain ⟨_, -, h⟩ := of_bind h
  cases h
  exact ⟨rfl, rfl, rfl⟩

theorem sameRuns_commitCheckpoint (h : commitCheckpoint commit store write = .ok store') :
    store.SameRuns store' := by
  obtain ⟨_, -, h⟩ := of_bind h
  obtain ⟨_, -, h⟩ := of_bind h
  cases h
  exact ⟨rfl, rfl, rfl⟩

theorem sameRuns_commitEvent (h : commitEvent commit store event = .ok store') :
    store.SameRuns store' := by
  rw [commitEvent] at h
  split at h
  · cases h; exact .refl store
  · obtain ⟨_, -, h⟩ := of_bind h
    cases h
    exact ⟨rfl, rfl, rfl⟩

/-- What a loop over records leaves alone when each of its steps does. -/
theorem sameRuns_foldlM {α : Type} {f : MemoryStore → α → Except RunError MemoryStore}
    (hf : ∀ store x store', f store x = .ok store' → store.SameRuns store') {xs : List α}
    (h : xs.foldlM f store = .ok store') : store.SameRuns store' :=
  foldlM_induction (fun s x s' _ hs hx => hs.trans (hf s x s' hx)) (.refl store) h

/-- The checks of a commit that was applied, and the runs it left. -/
structure Applied (store : MemoryStore) (ctx : Context) (commit : Commit)
    (written : Option RunRecord) (store' : MemoryStore) : Prop where
  valid : validateRuntimeCommit commit = .ok ()
  lease : store.checkCommitLease commit = .ok ()
  run : store.commitRun ctx commit = .ok written
  runs : store'.runs = (store.putRun written).runs
  fences : store'.fences = store.fences

theorem applyMemoryCommit_eq_ok {written : Option RunRecord}
    (h : store.applyMemoryCommit ctx commit = .ok (written, store')) :
    store.Applied ctx commit written store' := by
  obtain ⟨_, hv, h⟩ := of_bind h
  simp only [bind_eq_ok] at h
  obtain ⟨_, hl, run, hr, s₁, hs, s₂, hc, s₃, he, _, -, h⟩ := h
  cases h
  have h₁ := sameRuns_foldlM (fun _ _ _ => sameRuns_commitStep) hs
  have h₂ := sameRuns_foldlM (fun _ _ _ => sameRuns_commitCheckpoint) hc
  have h₃ := sameRuns_foldlM (fun _ _ _ => sameRuns_commitEvent) he
  have ha := (h₁.trans h₂).trans h₃
  have hp : (store.putRun written).fences = store.fences := by
    cases written <;> rfl
  exact ⟨hv, hl, hr, ha.runs, ha.fences.trans hp⟩

theorem commitNew_eq_ok (h : store.commitNew ctx commit = .ok (result, store')) :
    store.Applied ctx commit result.run store' := by
  obtain ⟨applied, ha, h⟩ := of_bind h
  cases h
  have hap := applyMemoryCommit_eq_ok ha
  exact ⟨hap.valid, hap.lease, hap.run, hap.runs, hap.fences⟩

theorem commitGenerated_eq_ok (h : store.commitGenerated ctx commit = .ok (result, store')) :
    store.Applied ctx commit result.run store' := by
  obtain ⟨_, -, h⟩ := of_bind h
  exact commitNew_eq_ok h

/-- A commit that succeeds is the replay of a stored transaction or is applied. -/
theorem commit_eq_ok (h : store.commit ctx commit = .ok (result, store')) :
    (store' = store ∧ (store.transactions.get commit.transactionID).isSome) ∨
      (store.transactions.get commit.transactionID = none ∧
        store.Applied ctx commit result.run store') := by
  obtain ⟨_, -, h⟩ := of_bind h
  cases hg : store.transactions.get commit.transactionID with
  | some stored =>
    rw [hg] at h
    obtain ⟨_, -, h⟩ := of_bind h
    cases h
    exact .inl ⟨rfl, rfl⟩
  | none =>
    rw [hg] at h
    exact .inr ⟨rfl, commitNew_eq_ok h⟩

theorem checkRunUpdate_eq_ok {existing : RunRecord}
    (h : store.checkRunUpdate commit run = .ok existing) :
    store.runs.get run.runID = some existing ∧ existing.revision = run.revision ∧
      validateCommitExecutionLease existing commit = .ok () ∧
      existing.executionLease = run.executionLease := by
  obtain ⟨existing, hg, h⟩ := of_bind h
  simp only [bind_eq_ok] at h
  obtain ⟨_, -, _, hr, _, hgu, _, hl, h⟩ := h
  cases h
  simp only [found_eq_ok, require_eq_ok, decide_eq_true_eq] at hg hr hl
  exact ⟨hg, hr, hgu, hl⟩

/-- A commit writes no run, a new one, or the next revision of an existing one. -/
theorem commitRun_eq_ok {commit : Commit} {written : Option RunRecord}
    (hv : validateRuntimeCommit commit = .ok ())
    (h : store.commitRun ctx commit = .ok written) :
    (written = none ∧ ∀ write ∈ commit.run, write.mode = .check) ∨
      (∃ run, commit.run = some ⟨.create, run⟩ ∧ written = some run ∧ store.AcceptsRun run) ∨
      ∃ existing run, commit.run = some ⟨.update, run⟩ ∧ written = some (bumped run) ∧
        store.Swaps ctx existing run ∧
        validateCommitExecutionLease existing commit = .ok () ∧
        existing.executionLease = run.executionLease := by
  have hc : ∀ mode run, commit.run = some ⟨mode, run⟩ → validateRunChildState run = .ok () := by
    intro mode run hr
    obtain ⟨_, -, hv⟩ := of_bind hv
    obtain ⟨_, -, hv⟩ := of_bind hv
    obtain ⟨_, hw, -⟩ := of_bind hv
    rw [hr] at hw
    obtain ⟨_, hw, -⟩ := of_bind hw
    obtain ⟨_, -, hw⟩ := of_bind hw
    exact hw
  cases hr : commit.run with
  | none =>
    rw [commitRun, hr] at h
    cases h
    exact .inl ⟨rfl, fun write hw => by cases hw⟩
  | some write =>
    obtain ⟨mode, run⟩ := write
    rw [commitRun, hr] at h
    cases mode with
    | create =>
      simp only [bind_eq_ok] at h
      obtain ⟨_, hd, _, hid, _, hp, h⟩ := h
      cases h
      rw [validateNewRunDeletion, require_eq_ok, Option.isNone_iff_eq_none] at hd
      have hf := checkNewRunID_eq_ok hid
      exact .inr (.inl ⟨run, rfl, rfl, hd, hc _ _ hr, hf.1, hf.2, checkNewRunParent_eq_ok hp⟩)
    | check =>
      simp only [bind_eq_ok] at h
      obtain ⟨_, -, _, -, _, -, h⟩ := h
      cases h
      exact .inl ⟨rfl, fun write hw => by cases hw; rfl⟩
    | update =>
      obtain ⟨existing, he, h⟩ := of_bind h
      obtain ⟨_, hd, h⟩ := of_bind h
      cases h
      obtain ⟨hg, hre, hgu, hl⟩ := checkRunUpdate_eq_ok he
      exact .inr (.inr ⟨existing, run, rfl, rfl, ⟨hg, hre, hc _ _ hr, hd⟩, hgu, hl⟩)

end

end MemoryStore

end WeaveFlow
