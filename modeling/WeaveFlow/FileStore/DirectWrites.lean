import WeaveFlow.FileStore.Outcomes

/-!
# Writes beside transactions

Beside `Commit` the file store has operations that write a record directly:
`CreateRun`, `CompareAndSwapRun`, `AppendStep`, `UpdateStep`, `Save` and
`Publish`.  They do not recover first.  A failed commit leaves its journal with
the images of its files, and a direct write to one of these files is lost when
the journal is recovered: the record goes back to the image.

While no direct write goes to a file of a journal that is left, and every
before-image a commit puts back arrives, each record agrees with the images of
the journals on disk (`Disk.Settled`).  Recovery then changes no record, and the
revision of a run only grows (`records_kept`).
-/

namespace WeaveFlow

open FileOp Overwrite Outcome Prog List

/-! ## The operations -/

/-- Write one record, if the checks give a content for it. -/
def writeChecked (path : RecordPath) (check : Disk → Except RunError Content) :
    FileProg (Except RunError Content) :=
  .look fun disk =>
    match check disk with
    | .error e => .done (.error e)
    | .ok content =>
      .act (.writeRecord path content) fun ok =>
        .done (if ok then .ok content else .error fileOperationFailed)

def createRun (run : RunRecord) : FileProg (Except RunError Content) :=
  writeChecked (.run run.runID) fun disk => do
    validateRunID run.runID
    validateNewRunDeletion run
    validateRunChildState run
    prepareRunCreate disk run
    return .run run

def Disk.existingRun (disk : Disk) (runID : String) : Except RunError RunRecord :=
  match disk.records (.run runID) with
  | none => .error (.recordNotFound ("run " ++ quoted runID ++ ": runner record not found"))
  | some (.run existing) => .ok existing
  | some _ => .error (.invalid ("run " ++ quoted runID ++ " does not decode"))

def Disk.existingStep (disk : Disk) (runID stepID : String) : Except RunError StepRecord :=
  match disk.records (.step runID stepID) with
  | none => .error (.recordNotFound ("step " ++ quoted stepID ++ ": runner record not found"))
  | some (.step existing) => .ok existing
  | some _ => .error (.invalid ("step " ++ quoted stepID ++ " does not decode"))

def compareAndSwapRun (ctx : Context) (expectedRevision : Nat) (run : RunRecord) :
    FileProg (Except RunError Content) :=
  writeChecked (.run run.runID) fun disk => do
    validateRunID run.runID
    validateRunChildState run
    let existing ← disk.existingRun run.runID
    require (existing.revision = expectedRevision && run.revision = expectedRevision)
      (.revisionConflict run.runID expectedRevision existing.revision)
    validateRunDeletionTransition ctx existing run
    validateRunExecutionLeaseTransition ctx existing run
    return .run { run with revision := expectedRevision + 1 }

def appendStep (step : StepRecord) : FileProg (Except RunError Content) :=
  writeChecked (.step step.runID step.stepID) fun disk => do
    validateRunID step.runID
    validateRunnerStorageID "step ID" step.stepID
    validateStepEffect step
    let run ← disk.readRun step.runID
    ensureRunNotDeleting run "append a step"
    disk.ensureRunNotDeleting step.runID "append a step"
    require (disk.records (.step step.runID step.stepID)).isNone
      (.invalid ("step " ++ quoted step.stepID ++ " already exists"))
    return .step step

def updateStep (step : StepRecord) : FileProg (Except RunError Content) :=
  writeChecked (.step step.runID step.stepID) fun disk => do
    validateRunID step.runID
    validateRunnerStorageID "step ID" step.stepID
    let run ← disk.readRun step.runID
    ensureRunNotDeleting run "update a step"
    disk.ensureRunNotDeleting step.runID "update a step"
    let existing ← disk.existingStep step.runID step.stepID
    validateStepEffectTransition existing step
    return .step step

/-- The checks of `Save`. -/
def validateSave (record : CheckpointRecord) (disk : Disk) : Except RunError Unit := do
  validateRunID record.runID
  validateRunnerStorageID "checkpoint ID" record.checkpointID
  disk.ensureRunNotDeleting record.runID "save a checkpoint"
  require (disk.records (.checkpoint record.runID record.checkpointID)).isNone
    (.invalid ("checkpoint " ++ quoted record.checkpointID ++ " already exists"))

/-- `Save`: the payload, then the metadata; the payload goes again when the
metadata cannot be written. -/
def save (record : CheckpointRecord) (payload : List UInt8) : FileProg (Except RunError Unit) :=
  let payloadPath := RecordPath.payload record.runID record.checkpointID
  let metadataPath := RecordPath.checkpoint record.runID record.checkpointID
  .look fun disk =>
    match validateSave record disk with
    | .error e => .done (.error e)
    | .ok _ =>
      .act .makeDirectory fun ok =>
        if ok then
          .act (.writeRecord payloadPath (.payload payload)) fun ok =>
            if ok then
              .act (.writeRecord metadataPath
                  (.checkpoint { record with payloadRef := payloadPath.text })) fun ok =>
                if ok then .done (.ok ())
                else .act (.removeRecord payloadPath) fun _ => .done (.error fileOperationFailed)
            else .done (.error fileOperationFailed)
        else .done (.error fileOperationFailed)

/-- `appendRunnerJSONLine`. -/
def appendEvent (event : Event) : FileProg (Except RunError Content) :=
  writeChecked (.events event.runID) fun disk =>
    .ok (.events ((disk.readEvents event.runID).toOption.getD [] ++ [event]))

/-- The loop of `PublishBatch`. -/
def appendEvents : List Event → FileProg (Except RunError Unit)
  | [] => .done (.ok ())
  | event :: rest =>
    (appendEvent event).bind fun
      | .error e => .done (.error e)
      | .ok _ => appendEvents rest

/-- The events a store keeps are appended, unless a run is fenced. -/
def publishEvents (action : String) (events : List Event) : FileProg (Except RunError Unit) :=
  let pending := events.filter fun event => !event.type.isStreaming
  match pending.forM fun event => validateRunID event.runID with
  | .error e => .done (.error e)
  | .ok _ =>
    .look fun disk =>
      match pending.forM fun event => disk.ensureRunNotDeleting event.runID action with
      | .error e => .done (.error e)
      | .ok _ => appendEvents pending

def publish (event : Event) : FileProg (Except RunError Unit) :=
  publishEvents "publish an event" [event]

def publishBatch (events : List Event) : FileProg (Except RunError Unit) :=
  publishEvents "publish events" events

/-! ## Calls -/

/-- The calls on an open store. -/
inductive StoreCall where
  | commit (ctx : Context) (commit : Commit)
  | resolveCommit (transactionID : String)
  /-- The recovery that `Open`, `DeleteRun` and `FenceRunDeletion` start with. -/
  | recover
  | createRun (run : RunRecord)
  | compareAndSwapRun (ctx : Context) (expectedRevision : Nat) (run : RunRecord)
  | appendStep (step : StepRecord)
  | updateStep (step : StepRecord)
  | save (record : CheckpointRecord) (payload : List UInt8)
  | publish (event : Event)
  | publishBatch (events : List Event)

/-- The error a result stands for. -/
def errorOf {α : Type} : Except RunError α → Option RunError
  | .error e => some e
  | .ok _ => none

/-- The program of a call; it returns the error of the call. -/
def StoreCall.program : StoreCall → FileProg (Option RunError)
  | commit ctx c => (commitFiles ctx c).bind fun result => .done result.2
  | resolveCommit id => (WeaveFlow.resolveCommit id).bind fun result => .done result.2
  | recover => recoverLocked.bind fun result => .done (errorOf result)
  | createRun run => (WeaveFlow.createRun run).bind fun result => .done (errorOf result)
  | compareAndSwapRun ctx expected run =>
    (WeaveFlow.compareAndSwapRun ctx expected run).bind fun result => .done (errorOf result)
  | appendStep step => (WeaveFlow.appendStep step).bind fun result => .done (errorOf result)
  | updateStep step => (WeaveFlow.updateStep step).bind fun result => .done (errorOf result)
  | save record payload => (WeaveFlow.save record payload).bind fun result => .done (errorOf result)
  | publish event => (WeaveFlow.publish event).bind fun result => .done (errorOf result)
  | publishBatch events =>
    (WeaveFlow.publishBatch events).bind fun result => .done (errorOf result)

/-- The files a call writes beside the journals. -/
def StoreCall.paths : StoreCall → List RecordPath
  | commit _ _ | resolveCommit _ | recover => []
  | createRun run | compareAndSwapRun _ _ run => [.run run.runID]
  | appendStep step | updateStep step => [.step step.runID step.stepID]
  | save record _ =>
    [.payload record.runID record.checkpointID, .checkpoint record.runID record.checkpointID]
  | publish event => [.events event.runID]
  | publishBatch events => events.map fun event => .events event.runID

/-- No write that marks a journal committed fails after taking effect, and every
before-image that is put back arrives. -/
def Contained (op : FileOp) (fault : Fault) : Prop :=
  MarkHonest op fault ∧ (op.isUndo = true → fault ≠ .before)

instance (op : FileOp) (fault : Fault) : Decidable (Contained op fault) :=
  inferInstanceAs (Decidable ((op.isMark = true → fault ≠ .after) ∧
    (op.isUndo = true → fault ≠ .before)))

/-- What keeps a call apart from the journals that are left: it writes none of
their files, and its own faults are contained. -/
structure StoreCall.Apart (call : StoreCall) (faults : Nat → Fault) (disk : Disk) : Prop where
  paths : ∀ entry ∈ disk.journals.entries, ∀ path ∈ call.paths, path ∉ entry.2.paths
  faults : Prog.Along FileOp.apply Contained faults call.program 0 disk

/-- One call on an open store. -/
def StoreStep (disk disk' : Disk) : Prop :=
  ∃ (call : StoreCall) (faults : Nat → Fault), call.Apart faults disk ∧
    disk' = (Prog.run FileOp.apply faults call.program 0 disk).2.2

/-- Any sequence of calls. -/
def StoreRun : Disk → Disk → Prop := Relation.ReflTransGen StoreStep

def revisionOf : Option Content → Nat
  | some (.run run) => run.revision
  | _ => 0

/-- The revision of a run as it is stored; a missing run has none. -/
def storedRevision (records : RecordPath → Option Content) (runID : String) : Nat :=
  revisionOf (records (.run runID))

/-! ## Recovery on a settled disk -/

/-- The records agree with the images that recovery puts in place. -/
def Disk.Settled (disk : Disk) : Prop :=
  ∀ entry ∈ disk.journals.entries, ∀ mutation ∈ entry.2.mutations,
    disk.records mutation.path = mutation.image (entry.2.phase = .committed)

/-- An operation that changes none of the records. -/
def FileOp.Idle (records : RecordPath → Option Content) : FileOp → Prop
  | writeRecord _ _ | removeRecord _ => False
  | putImage after mutation => records mutation.path = mutation.image after
  | _ => True

variable {d d' : Disk} {α : Type} {p : FileProg α} {paths : List RecordPath} {call : StoreCall}

theorem FileOp.Idle.records {op : FileOp} {disk : Disk} (h : op.Idle disk.records) :
    (op.apply disk).records = disk.records := by
  cases op with
  | putImage after mutation =>
    have hi : disk.records mutation.path = mutation.image after := h
    show Function.update disk.records mutation.path (mutation.image after) = disk.records
    rw [← hi, Function.update_eq_self]
  | writeRecord path content | removeRecord path => exact absurd h id
  | _ => rfl

/-- A recovery of a settled disk, stopped anywhere, changes no record. -/
theorem Disk.Settled.recovery_records (hse : d.Settled)
    (h : Reaches FileOp.apply recoverLocked d d') : d'.records = d.records := by
  have hu : Uses (FileOp.Idle d.records) (recoverJournals d.journals.entries) :=
    uses_recoverJournals (fun _ _ => trivial) (fun _ => trivial) hse
  refine reaches_induction (Q := fun s => s.records = d.records) ?_ hu rfl h
  intro op s hop hs
  rw [← hs] at hop
  exact hop.records.trans hs

theorem Disk.Settled.recovery (hs : d.Settled)
    (h : Reaches FileOp.apply recoverLocked d d') : d'.Settled := by
  intro entry he mutation hm
  rw [hs.recovery_records h]
  exact hs entry (mem_journals_of_reaches h entry he) mutation hm

theorem settled_of_empty (h : d.journals.entries = []) : d.Settled := by
  intro entry he
  rw [h] at he
  exact absurd he not_mem_nil

/-! ## Direct writes on a settled disk -/

/-- An operation that writes the given record files only. -/
def FileOp.WritesOnly (paths : List RecordPath) : FileOp → Prop
  | makeDirectory => True
  | writeRecord path _ | removeRecord path => path ∈ paths
  | _ => False

/-- What direct writes leave alone. -/
theorem reaches_writesOnly (hp : Uses (WritesOnly paths) p) (h : Reaches FileOp.apply p d d') :
    d'.journals = d.journals ∧ AgreeOff paths d'.records d.records := by
  refine reaches_induction
    (Q := fun s => s.journals = d.journals ∧ AgreeOff paths s.records d.records)
    ?_ hp ⟨rfl, .refl _ _⟩ h
  rintro op s hop ⟨hj, hr⟩
  cases op with
  | makeDirectory => exact ⟨hj, hr⟩
  | writeRecord path content | removeRecord path =>
    exact ⟨hj, (agreeOff_update hop).trans hr⟩
  | _ => exact absurd hop id

theorem Disk.Settled.writes (hs : d.Settled)
    (ha : ∀ entry ∈ d.journals.entries, ∀ path ∈ paths, path ∉ entry.2.paths)
    (hj : d'.journals = d.journals) (hr : AgreeOff paths d'.records d.records) :
    d'.Settled := by
  intro entry he mutation hm
  rw [hj] at he
  have hp : mutation.path ∉ paths := fun hp =>
    ha entry he _ hp (mem_map.mpr ⟨mutation, hm, rfl⟩)
  rw [hr _ hp]
  exact hs entry he mutation hm

theorem uses_writeChecked (hp : path ∈ paths) :
    Uses (WritesOnly paths) (writeChecked path check) := by
  intro disk
  dsimp only
  split
  · trivial
  · exact ⟨hp, fun _ => trivial⟩

theorem uses_save :
    Uses (WritesOnly (StoreCall.save record payload).paths) (save record payload) := by
  have hp : RecordPath.payload record.runID record.checkpointID ∈
      (StoreCall.save record payload).paths := mem_cons_self
  have hm : RecordPath.checkpoint record.runID record.checkpointID ∈
      (StoreCall.save record payload).paths := mem_cons_of_mem _ mem_cons_self
  intro disk
  dsimp only
  split
  · trivial
  · refine ⟨trivial, ?_⟩
    rintro (_ | _)
    · trivial
    · refine ⟨hp, ?_⟩
      rintro (_ | _)
      · trivial
      · refine ⟨hm, ?_⟩
        rintro (_ | _)
        · exact ⟨hp, fun _ => trivial⟩
        · trivial

theorem uses_publishEvents (h : ∀ event ∈ events, RecordPath.events event.runID ∈ paths) :
    Uses (WritesOnly paths) (publishEvents action events) := by
  have ha : ∀ pending : List Event, (∀ event ∈ pending, RecordPath.events event.runID ∈ paths) →
      Uses (WritesOnly paths) (appendEvents pending) := by
    intro pending hp
    induction pending with
    | nil => trivial
    | cons event rest ih =>
      refine uses_bind (uses_writeChecked (hp event mem_cons_self)) ?_
      rintro (e | u)
      · trivial
      · exact ih (forall_mem_cons.mp hp).2
  unfold publishEvents
  dsimp only
  split
  · trivial
  · intro disk
    dsimp only
    split
    · trivial
    · exact ha _ fun event he => h event (mem_filter.mp he).1

def StoreCall.isDirect : StoreCall → Bool
  | commit _ _ | resolveCommit _ | recover => false
  | _ => true

/-- A direct call writes its own files only. -/
theorem uses_direct (h : call.isDirect = true) :
    Uses (WritesOnly call.paths) call.program := by
  have ho : ∀ path check, path ∈ call.paths → Uses (WritesOnly call.paths)
        ((writeChecked path check).bind fun result => .done (errorOf result)) :=
    fun path check hp => uses_bind (uses_writeChecked hp) fun _ => trivial
  cases call with
  | commit ctx c | resolveCommit id | recover => cases h
  | createRun run | compareAndSwapRun ctx expected run | appendStep step | updateStep step =>
    exact ho _ _ mem_cons_self
  | save record payload => exact uses_bind uses_save fun _ => trivial
  | publish event =>
    refine uses_bind (uses_publishEvents fun e he => ?_) fun _ => trivial
    obtain rfl := mem_singleton.mp he
    exact mem_cons_self
  | publishBatch events =>
    exact uses_bind (uses_publishEvents fun e he => mem_map.mpr ⟨e, he, rfl⟩) fun _ => trivial

/-- A checked write is not made, or it writes what the check gives. -/
theorem writeChecked_cases (h : Reaches FileOp.apply (writeChecked path check) d d') :
    d' = d ∨ ∃ content, check d = .ok content ∧ d' = (writeRecord path content).apply d := by
  unfold writeChecked at h
  simp only [Reaches] at h
  split at h
  · exact .inl h
  next content hc =>
    exact (reaches_last h).imp_right fun hw => ⟨content, hc, hw⟩

/-- A checked write of a run whose revision does not decrease. -/
theorem storedRevision_writeChecked {runID : String} {check : Disk → Except RunError Content}
    (h : Reaches FileOp.apply (writeChecked (.run runID) check) d d')
    (hr : ∀ content, check d = .ok content →
      revisionOf (d.records (.run runID)) ≤ revisionOf (some content)) (id : String) :
    storedRevision d.records id ≤ storedRevision d'.records id := by
  obtain rfl | ⟨content, hc, rfl⟩ := writeChecked_cases h
  · exact le_refl _
  · show revisionOf (d.records (.run id)) ≤
      revisionOf (Function.update d.records (.run runID) (some content) (.run id))
    by_cases hid : id = runID
    · subst hid
      rw [Function.update_self]
      exact hr content hc
    · have hne : RecordPath.run id ≠ RecordPath.run runID := fun heq => hid (by cases heq; rfl)
      rw [Function.update_of_ne hne]

theorem prepareRunCreate_none {run : RunRecord} (h : prepareRunCreate disk run = .ok ()) :
    disk.records (.run run.runID) = none := by
  simp only [prepareRunCreate, bind_eq_ok, require_eq_ok] at h
  obtain ⟨_, -, _, -, _, hn, -⟩ := h
  exact Option.isNone_iff_eq_none.mp hn

theorem storedRevision_createRun {run : RunRecord}
    (h : Reaches FileOp.apply (createRun run) d d') (id : String) :
    storedRevision d.records id ≤ storedRevision d'.records id := by
  refine storedRevision_writeChecked h (fun content hc => ?_) id
  simp only [bind_eq_ok] at hc
  obtain ⟨_, -, _, -, _, -, _, hcr, -⟩ := hc
  rw [prepareRunCreate_none hcr]
  exact Nat.zero_le _

theorem storedRevision_compareAndSwapRun {expected : Nat} {run : RunRecord}
    (h : Reaches FileOp.apply (compareAndSwapRun ctx expected run) d d') (id : String) :
    storedRevision d.records id ≤ storedRevision d'.records id := by
  refine storedRevision_writeChecked h (fun content hc => ?_) id
  simp only [bind_eq_ok, require_eq_ok, Bool.and_eq_true, decide_eq_true_eq] at hc
  obtain ⟨_, -, _, -, existing, he, _, ⟨hr, -⟩, _, -, _, -, hd⟩ := hc
  cases hd
  unfold Disk.existingRun at he
  split at he
  · cases he
  next found hf =>
    cases he
    rw [hf]
    show existing.revision ≤ expected + 1
    omega
  · cases he

/-- A direct call never lowers the revision of a run. -/
theorem storedRevision_direct (hd : call.isDirect = true)
    (h : Reaches FileOp.apply call.program d d') (id : String) :
    storedRevision d.records id ≤ storedRevision d'.records id := by
  -- A call that writes no run file leaves every revision as it is.
  have ho : (RecordPath.run id ∉ call.paths) →
      storedRevision d.records id ≤ storedRevision d'.records id := by
    intro hp
    unfold storedRevision
    rw [(reaches_writesOnly (uses_direct hd) h).2 _ hp]
  cases call with
  | commit ctx c | resolveCommit id | recover => cases hd
  | createRun run => exact storedRevision_createRun (reaches_of_bind_done h) id
  | compareAndSwapRun ctx expected run =>
    exact storedRevision_compareAndSwapRun (reaches_of_bind_done h) id
  | appendStep step | updateStep step | save record payload | publish event | publishBatch events =>
    exact ho (by simp [StoreCall.paths])

/-! ## Commits on a settled disk -/

section

variable (h : prepareJournal disk ctx commit = .ok journal)
include h

/-- A commit writes each file once. -/
theorem nodup_prepareJournal : journal.paths.Nodup := by
  simp only [prepareJournal, bind_eq_ok] at h
  obtain ⟨_, -, run, -, mutations, hm, hj⟩ := h
  cases hj
  have hn : (mutations.map (·.path)).Nodup := by
    refine prepareMutations_induction (Q := fun ms => (ms.map (·.path)).Nodup) ?_ nodup_nil hm
    intro path after mutations mutations' _ hq ha
    obtain ⟨hne, rfl⟩ := addMutation_eq ha
    rw [map_append, nodup_append]
    refine ⟨hq, nodup_singleton _, ?_⟩
    rintro p hp q hq rfl
    obtain ⟨mutation, hmu, rfl⟩ := mem_map.mp hp
    exact hne mutation hmu (mem_singleton.mp hq)
  exact ((KeySort.perm_sort _ mutations).map _).nodup_iff.mpr hn

omit h in
/-- A commit writes its run with a revision that is not lower. -/
theorem prepareRun_rises {run : RunRecord} (h : prepareRun disk ctx commit = .ok (some run)) :
    revisionOf (disk.records (.run run.runID)) ≤ run.revision := by
  unfold prepareRun at h
  split at h
  · cases h
  · simp only [bind_eq_ok] at h
    obtain ⟨_, hc, hd⟩ := h
    cases hd
    rw [prepareRunCreate_none hc]
    exact Nat.zero_le _
  · simp only [bind_eq_ok] at h
    obtain ⟨_, -, _, -, _, -, hd⟩ := h
    cases hd
  next written hw =>
    simp only [bind_eq_ok, prepareRunUpdate, require_eq_ok, decide_eq_true_eq] at h
    obtain ⟨_, ⟨existing, hr, _, hre, -⟩, _, -, hd⟩ := h
    cases hd
    unfold Disk.readRun at hr
    split at hr
    · cases hr
    next found hf =>
      simp only [bind_eq_ok] at hr
      obtain ⟨_, -, hfo⟩ := hr
      cases hfo
      rw [hf]
      show existing.revision ≤ written.revision + 1
      omega
    · cases hr

/-- The mutation of a run file does not lower the revision. -/
theorem rises_prepareJournal : ∀ mutation ∈ journal.mutations, ∀ runID, mutation.path = .run runID →
      revisionOf mutation.before ≤ revisionOf mutation.after := by
  simp only [prepareJournal, bind_eq_ok] at h
  obtain ⟨_, -, run, hr, mutations, hmu, hj⟩ := h
  cases hj
  have hri : ∀ mutation ∈ mutations, ∀ runID, mutation.path = .run runID →
      revisionOf mutation.before ≤ revisionOf mutation.after := by
    refine prepareMutations_induction (Q := fun ms => ∀ mutation ∈ ms, ∀ runID,
      mutation.path = .run runID → revisionOf mutation.before ≤ revisionOf mutation.after) ?_
      (fun _ hm => absurd hm not_mem_nil) hmu
    intro path after mutations mutations' hp hq ha mutation hmt runID hma
    obtain ⟨-, rfl⟩ := addMutation_eq ha
    obtain ho | hn := mem_append.mp hmt
    · exact hq mutation ho runID hma
    · obtain rfl := mem_singleton.mp hn
      have hf : path = .run runID := hma
      obtain ⟨r, rfl, rfl, rfl⟩ := hp runID hf
      subst hf
      exact prepareRun_rises hr
  exact fun mutation hmt =>
    hri mutation ((KeySort.perm_sort _ mutations).mem_iff.mp hmt)

/-- The content of a file after the transaction that writes it. -/
theorem contentsAfter_of_mem (hm : mutation ∈ journal.mutations) :
    journal.contentsAfter disk.records mutation.path = mutation.after := by
  have hn : ((imageWrites true journal.mutations).map Prod.fst).Nodup := by
    rw [map_fst_imageWrites]
    exact nodup_prepareJournal h
  have hw : (mutation.path, mutation.after) ∈ imageWrites true journal.mutations :=
    mem_map.mpr ⟨mutation, hm, rfl⟩
  exact overwrite_of_mem hn hw disk.records

/-- A transaction does not lower the revision of a run. -/
theorem storedRevision_contentsAfter (id : String) :
    storedRevision disk.records id ≤ storedRevision (journal.contentsAfter disk.records) id := by
  unfold storedRevision
  by_cases hp : RecordPath.run id ∈ journal.paths
  · obtain ⟨mutation, hm, hmu⟩ := mem_map.mp hp
    have hb := (prepared_prepareJournal h).faithful mutation hm
    rw [← hmu, contentsAfter_of_mem h hm, ← hb]
    exact rises_prepareJournal h mutation hm id hmu
  · have hs : journal.contentsAfter disk.records (.run id) = disk.records (.run id) := by
      refine overwrite_of_notMem ?_
      rw [map_fst_imageWrites]
      exact hp
    rw [hs]

end

section Contained

variable {disk : Disk} {journal : TransactionJournal}

/-- A commit that did all or nothing to the records, and left its journal in the
phase that says which, or none. -/
def Undivided (disk : Disk) (journal : TransactionJournal) (d : Disk) : Prop :=
  (d.records = disk.records ∧ ∀ entry ∈ d.journals.entries, entry.2 = journal) ∨
    (d.records = journal.contentsAfter disk.records ∧
      ∀ entry ∈ d.journals.entries, entry.2 = journal.commit)

theorem undivided_of_empty (hempty : d.journals.entries = [])
    (hr : d.records = disk.records) : Undivided disk journal d := by
  refine .inl ⟨hr, fun entry he => ?_⟩
  rw [hempty] at he
  exact absurd he not_mem_nil

theorem run_putImages_arrive
    (h : Along FileOp.apply Contained faults (putImages false mutations ok) n s) :
    (run FileOp.apply faults (putImages false mutations ok) n s).2.2 =
      s.withRecords (overwrite (imageWrites false mutations) s.records) := by
  induction mutations generalizing ok n s with
  | nil => rfl
  | cons mutation rest ih =>
    obtain ⟨⟨-, ha⟩, hr⟩ := h
    have hd : (outcome FileOp.apply (.putImage false mutation) s (faults n)).2 =
        (putImage false mutation).apply s := by
      cases hf : faults n with
      | none => rfl
      | before => exact absurd hf (ha rfl)
      | after => rfl
    simp only [putImages, run]
    rw [ih hr, hd]
    rfl

/-- A rollback that is contained undoes what was written. -/
theorem undivided_rollback (hempty : disk.journals.entries = []) (hp : Prepared disk commit journal)
    (hn : (disk.withJournal journal).Near journal.paths s)
    (h : Along FileOp.apply Contained faults (rollback journal) n s) :
    Undivided disk journal (run FileOp.apply faults (rollback journal) n s).2.2 := by
  have ha := run_putImages_arrive (along_bind.mp h).1
  unfold rollback applyTransactionMutations
  rw [run_bind]
  show Undivided disk journal (run FileOp.apply faults (putImages false _ true) n s).2.2
  rw [ha]
  obtain ⟨records, rfl, hag⟩ := hn
  refine .inl ⟨?_, fun entry he => ?_⟩
  · show overwrite (imageWrites false journal.mutations.reverse) records = disk.records
    have hc : AgreeOff ((imageWrites false journal.mutations.reverse).map Prod.fst) records
        disk.records := by
      intro path hpa
      refine hag path fun hm => hpa ?_
      rw [map_fst_imageWrites, map_reverse, mem_reverse]
      exact hm
    rw [overwrite_congr hc]
    refine overwrite_eq_self fun write hw => ?_
    obtain ⟨mutation, hmu, rfl⟩ := mem_map.mp hw
    exact (hp.faithful mutation (mem_reverse.mp hmu)).symm
  · have ho : entry ∈ (disk.withJournal journal).journals.entries := he
    rw [entries_withJournal hempty journal] at ho
    obtain rfl := mem_singleton.mp ho
    rfl

/-- An operation that ends a transaction. -/
def FileOp.isClosing : FileOp → Prop
  | writeResult _ _ | removeJournal _ => True
  | _ => False

/-- The end of a transaction leaves the records alone and writes no journal. -/
theorem reaches_closing (hp : Uses isClosing p) (h : Reaches FileOp.apply p s d) :
    d.records = s.records ∧ ∀ entry ∈ d.journals.entries, entry ∈ s.journals.entries := by
  refine reaches_induction (Q := fun t => t.records = s.records ∧
    ∀ entry ∈ t.journals.entries, entry ∈ s.journals.entries) ?_ hp ⟨rfl, fun _ he => he⟩ h
  rintro op t hop ⟨hr, hj⟩
  cases op with
  | writeResult id record => exact ⟨hr, hj⟩
  | removeJournal name =>
    exact ⟨hr, fun entry hen => hj entry (Assoc.mem_del hen)⟩
  | _ => exact absurd hop id

section

variable (hempty : disk.journals.entries = [])
include hempty

theorem undivided_finishCommit {s : Disk}
    (hs : s = (disk.withRecords (journal.contentsAfter disk.records)).withJournal journal.commit) :
    Undivided disk journal (run FileOp.apply faults (finishCommit journal) n s).2.2 := by
  obtain ⟨hr, hj⟩ := reaches_closing
    (uses_finishCommit (fun _ _ => trivial) fun _ => trivial) reaches_run
  subst hs
  refine .inr ⟨hr, fun entry he => ?_⟩
  have hem : (disk.withRecords (journal.contentsAfter disk.records)).journals.entries = [] := hempty
  have ho := hj entry he
  rw [entries_withJournal hem journal.commit] at ho
  obtain rfl := mem_singleton.mp ho
  rfl

theorem undivided_commitNothing :
    Undivided disk journal (run FileOp.apply faults (commitNothing journal) n disk).2.2 := by
  obtain ⟨hr, hj⟩ := reaches_closing (uses_commitNothing fun _ _ => trivial) reaches_run
  refine .inl ⟨hr, fun entry he => ?_⟩
  have ho := hj entry he
  rw [hempty] at ho
  exact absurd ho not_mem_nil

theorem undivided_applyJournal (hp : Prepared disk commit journal) {n : Nat}
    (h : Along FileOp.apply Contained faults (applyJournal journal) n (disk.withJournal journal)) :
    Undivided disk journal
      (run FileOp.apply faults (applyJournal journal) n (disk.withJournal journal)).2.2 := by
  unfold applyJournal at h ⊢
  rw [run_bind]
  obtain ⟨-, h⟩ := along_bind.mp h
  obtain ⟨ok, n', s, hr, hre, he⟩ :=
    run_cases (strict_applyCommitMutations journal.mutations) faults n (disk.withJournal journal)
  have hn := near_of_reaches_applyCommitMutations hre
  rw [hr] at h ⊢
  cases ok with
  | false => exact undivided_rollback hempty hp hn h
  | true =>
    obtain rfl := congrArg Prod.snd ((eval_applyCommitMutations _ _).symm.trans (he rfl))
    have hm := apply_mark disk journal
    simp only [if_true, run, Along] at h ⊢
    obtain ⟨⟨hh, -⟩, h⟩ := h
    cases hf : faults n' with
    | none =>
      exact undivided_finishCommit hempty hm
    | before =>
      rw [hf] at h
      exact undivided_rollback hempty hp hn h
    | after => exact absurd hf (hh rfl)

theorem undivided_commitJournal (hp : Prepared disk commit journal)
    (h : Along FileOp.apply Contained faults (commitJournal journal) n disk) :
    Undivided disk journal (run FileOp.apply faults (commitJournal journal) n disk).2.2 := by
  have hu : Undivided disk journal disk := undivided_of_empty hempty rfl
  unfold commitJournal at h ⊢
  split
  next hn => exact undivided_commitNothing hempty
  next hm =>
    rw [if_neg hm] at h
    simp only [run, Along] at h ⊢
    obtain ⟨-, h⟩ := h
    have hd : (outcome FileOp.apply .makeDirectory disk (faults n)).2 = disk := by
      cases faults n <;> rfl
    rw [hd] at h ⊢
    generalize (outcome FileOp.apply .makeDirectory disk (faults n)).1 = made at h ⊢
    cases made with
    | false => exact hu
    | true =>
      simp only [if_true] at h ⊢
      split
      · exact hu
      next u hv =>
        simp only [hv, run, Along] at h ⊢
        obtain ⟨-, h⟩ := h
        cases hf : faults (n + 1) with
        | none =>
          rw [hf] at h
          exact undivided_applyJournal hempty hp h
        | before => exact hu
        | after =>
          refine .inl ⟨rfl, fun entry he => ?_⟩
          have ho : entry ∈ (disk.withJournal journal).journals.entries := he
          rw [entries_withJournal hempty journal] at ho
          obtain rfl := mem_singleton.mp ho
          rfl

end

/-- All or nothing, with the journal in the phase that says which, is settled. -/
theorem Undivided.settled (hj : prepareJournal disk ctx commit = .ok journal)
    (h : Undivided disk journal d) : d.Settled := by
  have hp := prepared_prepareJournal hj
  intro entry he mutation hm
  obtain ⟨hr, hjo⟩ | ⟨hr, hjo⟩ := h
  · rw [hjo entry he] at hm ⊢
    rw [hr, ← hp.faithful mutation hm]
    simp [TransactionMutation.image, hp.phase]
  · rw [hjo entry he] at hm ⊢
    rw [hr, contentsAfter_of_mem hj hm]
    rfl

theorem Undivided.storedRevision (hj : prepareJournal disk ctx commit = .ok journal)
    (h : Undivided disk journal d) (id : String) :
    storedRevision disk.records id ≤ storedRevision d.records id := by
  obtain ⟨hr, -⟩ | ⟨hr, -⟩ := h
  · rw [hr]
  · rw [hr]
    exact storedRevision_contentsAfter hj id

/-- A contained commit keeps the disk settled and lowers no revision. -/
theorem Disk.Settled.afterCommit (hse : disk.Settled)
    (h : Along FileOp.apply Contained faults (commitFiles ctx commit) 0 disk) :
    (run FileOp.apply faults (commitFiles ctx commit) 0 disk).2.2.Settled ∧
      ∀ id, storedRevision disk.records id ≤ storedRevision
        (run FileOp.apply faults (commitFiles ctx commit) 0 disk).2.2.records id := by
  unfold commitFiles at h ⊢
  split
  · exact ⟨hse, fun id => le_refl _⟩
  next u hv =>
    simp only [hv] at h
    rw [run_bind]
    obtain ⟨-, h⟩ := along_bind.mp h
    obtain ⟨result, n, s, hr, hre, he⟩ := run_cases strict_recoverLocked faults 0 disk
    have hrc : s.records = disk.records := hse.recovery_records hre
    have hs : s.Settled := hse.recovery hre
    rw [hr] at h ⊢
    rw [← hrc]
    cases result with
    | error e => exact ⟨hs, fun id => le_refl _⟩
    | ok u =>
      have he : disk.recover = (.ok (), s) := he rfl
      have hempty : s.journals.entries = [] := by
        have hd : Succeeded disk.recover.1 := by rw [he]; rfl
        have hj := recover_journals hd
        rw [he] at hj
        exact hj
      have hc : Along FileOp.apply Contained faults (commitRecovered ctx commit s) n s := h
      show (run FileOp.apply faults (commitRecovered ctx commit s) n s).2.2.Settled ∧ _
      show _ ∧ ∀ id, storedRevision s.records id ≤ storedRevision
        (run FileOp.apply faults (commitRecovered ctx commit s) n s).2.2.records id
      unfold commitRecovered at hc ⊢
      split
      · exact ⟨hs, fun id => le_refl _⟩
      · split <;> exact ⟨hs, fun id => le_refl _⟩
      next hl =>
        simp only [hl] at hc
        split
        · exact ⟨hs, fun id => le_refl _⟩
        next journal hjo =>
          simp only [hjo] at hc
          have hu := undivided_commitJournal hempty (prepared_prepareJournal hjo) hc
          exact ⟨hu.settled hjo, hu.storedRevision hjo⟩

end Contained

/-! ## Sequences of calls -/

theorem reaches_resolveCommit {id : String} (h : Reaches FileOp.apply (resolveCommit id) d d') :
    Reaches FileOp.apply recoverLocked d d' := by
  unfold resolveCommit at h
  split at h
  · exact h ▸ reaches_self
  · obtain h | ⟨result, s, hr, h⟩ := reaches_bind h
    · exact h
    · have hs : d' = s := by cases result <;> exact h
      exact hs ▸ reaches_ends hr

/-- One call keeps the disk settled and lowers no revision. -/
theorem Disk.Settled.step (hs : d.Settled) (h : StoreStep d d') :
    d'.Settled ∧ ∀ id, storedRevision d.records id ≤ storedRevision d'.records id := by
  obtain ⟨call, faults, ha, rfl⟩ := h
  have hr : Reaches FileOp.apply call.program d
      (run FileOp.apply faults call.program 0 d).2.2 := reaches_run
  have hre : ∀ d', Reaches FileOp.apply recoverLocked d d' →
      d'.Settled ∧ ∀ id, storedRevision d.records id ≤ storedRevision d'.records id := by
    intro d' hrc
    rw [hs.recovery_records hrc]
    exact ⟨hs.recovery hrc, fun id => le_refl _⟩
  have hd : call.isDirect = true → (run FileOp.apply faults call.program 0 d).2.2.Settled ∧
        ∀ id, storedRevision d.records id ≤
          storedRevision (run FileOp.apply faults call.program 0 d).2.2.records id := by
    intro hc
    obtain ⟨hj, hro⟩ := reaches_writesOnly (uses_direct hc) hr
    exact ⟨hs.writes ha.paths hj hro, storedRevision_direct hc hr⟩
  cases call with
  | commit ctx c =>
    have hco := hs.afterCommit (along_bind.mp ha.faults).1
    simp only [StoreCall.program, run_bind]
    exact hco
  | resolveCommit id =>
    exact hre _ (reaches_resolveCommit (reaches_of_bind_done hr))
  | recover => exact hre _ (reaches_of_bind_done hr)
  | createRun run | compareAndSwapRun ctx expected run | appendStep step | updateStep step
  | save record payload | publish event | publishBatch events => exact hd rfl

/-- Any sequence of calls keeps the disk settled and lowers no revision. -/
theorem Disk.Settled.run (hs : d.Settled) (h : StoreRun d d') :
    d'.Settled ∧ ∀ id, storedRevision d.records id ≤ storedRevision d'.records id := by
  induction h with
  | refl => exact ⟨hs, fun id => le_refl _⟩
  | tail _ hst ih =>
    obtain ⟨hse, hr⟩ := ih
    obtain ⟨hn, hri⟩ := hse.step hst
    exact ⟨hn, fun id => (hr id).trans (hri id)⟩

/-- **No recovery undoes a write.**  In every sequence of calls on an opened store
in which no direct write goes to a file of a journal that is left, every
before-image a commit puts back arrives and no mark fails after taking effect: a
recovery at any point, with any faults and stopped anywhere, leaves every record
as it is, and the stored revision of a run never decreases. -/
theorem records_kept {opened d : Disk} (hopened : opened.journals.entries = [])
    (hrun : StoreRun opened d) :
    (∀ recovered, Prog.Reaches FileOp.apply recoverLocked d recovered →
      recovered.records = d.records) ∧
    ∀ d', StoreRun d d' →
      ∀ runID, storedRevision d.records runID ≤ storedRevision d'.records runID := by
  obtain ⟨hs, -⟩ := (settled_of_empty hopened).run hrun
  exact ⟨fun recovered => hs.recovery_records, fun d' hl => (hs.run hl).2⟩

/-- The third operation of a commit of one file, the write of its content, fails. -/
def imageFault (n : Nat) : Fault := if n = 2 then .before else .none

def failedCommit (commit : Commit) : Disk :=
  (Prog.run FileOp.apply imageFault (StoreCall.commit {} commit).program 0 oneStepDisk).2.2

/-- The swap that raises the revision of the run to one. -/
def firstSwap : StoreCall := .compareAndSwapRun {} 0 { runID := "run" }

def swappedRun (disk : Disk) : Disk :=
  (Prog.run FileOp.apply (fun _ => .none) firstSwap.program 0 disk).2.2

theorem records_kept_step_journal :
    (failedCommit (stepCommit .append "next")).journals.entries ≠ [] ∧
      storedRevision (swappedRun (failedCommit (stepCommit .append "next"))).records "run" = 1 ∧
      (swappedRun (failedCommit (stepCommit .append "next"))).recover.2.records =
        (swappedRun (failedCommit (stepCommit .append "next"))).records := by
  have hc : StoreStep oneStepDisk (failedCommit (stepCommit .append "next")) := by
    refine ⟨_, imageFault, ⟨fun _ _ _ hp => absurd hp not_mem_nil, ?_⟩, rfl⟩
    decide +kernel
  have hs : StoreStep (failedCommit (stepCommit .append "next"))
      (swappedRun (failedCommit (stepCommit .append "next"))) := by
    refine ⟨firstSwap, fun _ => .none, ⟨?_, ?_⟩, rfl⟩
    · decide +kernel
    · decide +kernel
  have hr := (Relation.ReflTransGen.single hc).tail hs
  exact ⟨by decide +kernel, by decide +kernel, (records_kept rfl hr).1 _ (reaches_eval rfl)⟩

def runCommit : Commit :=
  { transactionID := "tx", run := some ⟨.update, { runID := "run" }⟩ }

/-- A swap that succeeds after a failed commit of the same run, and is undone by the
next recovery. -/
theorem acknowledged_swap_undone :
    (Prog.run FileOp.apply (fun _ => .none) firstSwap.program 0 (failedCommit runCommit)).1 = none ∧
      storedRevision (swappedRun (failedCommit runCommit)).records "run" = 1 ∧
      Succeeded (swappedRun (failedCommit runCommit)).recover.1 ∧
      storedRevision (swappedRun (failedCommit runCommit)).recover.2.records "run" = 0 := by
  refine ⟨by decide +kernel, by decide +kernel, ?_, by decide +kernel⟩
  show (swappedRun (failedCommit runCommit)).recover.1 = .ok ()
  rfl

end WeaveFlow
