import WeaveFlow.Lib.KeySort
import WeaveFlow.FileStore.Disk

/-!
# File transactions

`Commit` prepares a journal with the images of all files it changes, writes it,
applies the mutations, marks the journal committed, writes the result record and
removes the journal.  `recoverLocked` reads the journals that are left and undoes
the prepared ones and redoes the committed ones.

The preparation only reads the disk, so it is a function of it.  The rest is a
program of file operations, written once; crashes, faults and fault-free runs are
readings of the same program.
-/

namespace WeaveFlow

/-! ## Preparing a journal -/

/-- `readRunLocked`. -/
def Disk.readRun (disk : Disk) (runID : String) : Except RunError RunRecord :=
  match disk.records (.run runID) with
  | none => .error (.recordNotFound "runner record not found")
  | some (.run run) => do
      require (run.runID = runID)
        (.invalid ("run " ++ quoted runID ++ " metadata identity mismatch"))
      return run
  | some _ => .error (.invalid ("run " ++ quoted runID ++ " does not decode"))

/-- `ensureRunNotDeletingLocked`. -/
def Disk.ensureRunNotDeleting (disk : Disk) (runID action : String) : Except RunError Unit :=
  require (disk.fences runID).isNone
    (.controlNotAllowed ("run " ++ quoted runID ++ " is fenced for deletion and cannot " ++ action))

def addMutation (disk : Disk) (path : RecordPath) (after : Content)
    (mutations : List TransactionMutation) : Except RunError (List TransactionMutation) := do
  require (mutations.all fun mutation => mutation.path ≠ path)
    (.invalid ("runtime transaction writes path " ++ quoted path.text ++ " more than once"))
  return mutations ++ [⟨path, disk.records path, some after⟩]

/-- The checks before a new run is written. -/
def prepareRunCreate (disk : Disk) (run : RunRecord) : Except RunError Unit := do
  validateNewRunDeletion run
  disk.ensureRunNotDeleting run.runID "create a run"
  require (disk.records (.run run.runID)).isNone
    (.invalid ("run " ++ quoted run.runID ++ " already exists"))
  if run.parentRunID = "" then .ok ()
  else do
    validateRunID run.parentRunID
    disk.ensureRunNotDeleting run.parentRunID "create a child run"
    let parent ← (disk.readRun run.parentRunID).mapError
      (.within ("load parent run " ++ quoted run.parentRunID))
    validateNewRunParent run parent

/-- The checks before a run is updated or relied on. -/
def prepareRunUpdate (disk : Disk) (commit : Commit) (run : RunRecord) :
    Except RunError RunRecord := do
  let existing ← disk.readRun run.runID
  require (existing.revision = run.revision)
    (.revisionConflict run.runID run.revision existing.revision)
  validateCommitExecutionLease existing commit
  require (existing.executionLease = run.executionLease)
    (.controlNotAllowed ("runtime commit cannot change run " ++ quoted run.runID ++
      " execution lease"))
  return existing

/-- The run of a commit: the run record as it will be written, if it is. -/
def prepareRun (disk : Disk) (ctx : Context) (commit : Commit) :
    Except RunError (Option RunRecord) :=
  match commit.run with
  | none => .ok none
  | some ⟨.create, run⟩ => do
      prepareRunCreate disk run
      return some run
  | some ⟨.check, run⟩ => do
      let existing ← prepareRunUpdate disk commit run
      disk.ensureRunNotDeleting run.runID "write runtime records"
      ensureRunNotDeleting existing "write runtime records"
      return none
  | some ⟨.update, run⟩ => do
      let existing ← prepareRunUpdate disk commit run
      validateRunDeletionTransition ctx existing run
      return some { run with revision := run.revision + 1 }

/-- `ensureCommitRunLocked`. -/
def ensureCommitRun (disk : Disk) (commit : Commit) (runID action : String) :
    Except RunError Unit :=
  match commit.run.filter fun write => write.mode ≠ .check && write.run.runID = runID with
  | some write => do
      validateCommitExecutionLease write.run commit
      ensureRunNotDeleting write.run action
  | none => do
      let referenced ← disk.readRun runID
      disk.ensureRunNotDeleting runID action
      validateCommitExecutionLease referenced commit
      ensureRunNotDeleting referenced action

/-- A step write against the step file as it is. -/
def validateStepWrite (step : StepRecord) :
    StepWriteMode → Option Content → Except RunError Unit
  | .append, none => .ok ()
  | .append, some _ => .error (.invalid ("step " ++ quoted step.stepID ++ " already exists"))
  | .update, none => .error (.recordNotFound "runner record not found")
  | .update, some (.step existing) => do
      require (existing.runID = step.runID && existing.stepID = step.stepID)
        (.invalid ("step " ++ quoted step.stepID ++ " metadata identity mismatch"))
      validateStepEffectTransition existing step
  | .update, some _ => .error (.invalid ("step " ++ quoted step.stepID ++ " does not decode"))

def prepareStep (disk : Disk) (commit : Commit) (mutations : List TransactionMutation)
    (write : StepWrite) : Except RunError (List TransactionMutation) := do
  let path := RecordPath.step write.step.runID write.step.stepID
  ensureCommitRun disk commit write.step.runID "write a step"
  validateStepWrite write.step write.mode (disk.records path)
  addMutation disk path (.step write.step) mutations

def prepareCheckpoint (disk : Disk) (commit : Commit) (mutations : List TransactionMutation)
    (write : CheckpointWrite) : Except RunError (List TransactionMutation) := do
  let record := write.record
  let payloadPath := RecordPath.payload record.runID record.checkpointID
  let metadataPath := RecordPath.checkpoint record.runID record.checkpointID
  ensureCommitRun disk commit record.runID "write a checkpoint"
  require (disk.records metadataPath).isNone
    (.invalid ("checkpoint " ++ quoted record.checkpointID ++ " already exists"))
  let mutations ← addMutation disk payloadPath (.payload write.payload) mutations
  addMutation disk metadataPath (.checkpoint { record with payloadRef := payloadPath.text })
    mutations

/-- The events a store keeps. -/
def Commit.keptEvents (commit : Commit) : List Event :=
  commit.events.filter fun event => !event.type.isStreaming

/-- The events in a file; a missing file has none. -/
def Disk.readEvents (disk : Disk) (runID : String) : Except RunError (List Event) :=
  match disk.records (.events runID) with
  | none => .ok []
  | some (.events events) => .ok events
  | some _ => .error (.invalid ("events of run " ++ quoted runID ++ " do not decode"))

def prepareEvents (disk : Disk) (commit : Commit) (mutations : List TransactionMutation)
    (runID : String) : Except RunError (List TransactionMutation) := do
  let existing ← disk.readEvents runID
  addMutation disk (.events runID)
    (.events (existing ++ commit.keptEvents.filter (·.runID = runID))) mutations

/-- `sort.Strings` on the paths of mutations. -/
def sortMutations (mutations : List TransactionMutation) : List TransactionMutation :=
  KeySort.sort (fun a b => decide (a.path.text < b.path.text)) mutations

/-- The runs a commit publishes events of, in the order of their files. -/
def Commit.eventRunIDs (commit : Commit) : List String :=
  KeySort.sort (fun a b => decide ((RecordPath.events a).text < (RecordPath.events b).text))
    (commit.keptEvents.map (·.runID)).dedup

/-- The mutations of a commit, in the order of the source's checks. -/
def prepareMutations (disk : Disk) (commit : Commit) (run : Option RunRecord) :
    Except RunError (List TransactionMutation) := do
  let mutations ← run.toList.foldlM
    (fun mutations run => addMutation disk (.run run.runID) (.run run) mutations) []
  let mutations ← commit.steps.foldlM (prepareStep disk commit) mutations
  let mutations ← commit.checkpoints.foldlM (prepareCheckpoint disk commit) mutations
  commit.keptEvents.forM fun event => ensureCommitRun disk commit event.runID "publish an event"
  let mutations ← commit.eventRunIDs.foldlM (prepareEvents disk commit) mutations
  commit.artifacts.forM fun stage =>
    ensureCommitRun disk commit stage.runID "finalize an artifact"
  return mutations

/-- `prepareJournalLocked`, with the result `Commit` puts into the journal. -/
def prepareJournal (disk : Disk) (ctx : Context) (commit : Commit) :
    Except RunError TransactionJournal := do
  validateRuntimeCommit commit
  let run ← prepareRun disk ctx commit
  let mutations ← prepareMutations disk commit run
  return {
    id := commit.transactionID
    fingerprint := some (commitFingerprint commit)
    phase := .prepared
    result := {
      transactionID := commit.transactionID
      outcome := .notStarted
      run := run
      artifacts := commit.artifacts }
    mutations := sortMutations mutations }

/-! ## Applying images -/

/-- The loop of `applyTransactionMutations`: every image is tried, and the
result says whether all of them reported success. -/
def putImages (after : Bool) : List TransactionMutation → Bool → FileProg Bool
  | [], ok => .done ok
  | mutation :: rest, ok =>
    .act (.putImage after mutation) fun success => putImages after rest (ok && success)

/-- `applyTransactionMutations`; before-images are put back in reverse order. -/
def applyTransactionMutations (mutations : List TransactionMutation) (after : Bool) :
    FileProg Bool :=
  putImages after (if after then mutations else mutations.reverse) true

/-- `applyCommitMutations`: the first failing mutation ends it. -/
def applyCommitMutations : List TransactionMutation → FileProg Bool
  | [] => .done true
  | mutation :: rest =>
    .act (.putImage true mutation) fun ok =>
      if ok then applyCommitMutations rest else .done false

/-! ## Recovery -/

/-- What recovery does after the images: a committed journal leaves its result. -/
def finishRecovery (name : String) (journal : TransactionJournal) :
    FileProg (Except RunError Unit) :=
  let saved : FileProg (Except RunError Unit) :=
    if journal.phase = .committed then saveTransactionResult journal else .done (.ok ())
  saved.bind fun
    | .error e => .done (.error e)
    | .ok _ =>
      .act (.removeJournal name) fun ok =>
        .done (if ok then .ok () else .error fileOperationFailed)

/-- One journal of `recoverLocked`. -/
def recoverJournal (name : String) (journal : TransactionJournal) :
    FileProg (Except RunError Unit) :=
  match validateJournal name journal with
  | .error e => .done (.error e)
  | .ok _ =>
    (applyTransactionMutations journal.mutations (journal.phase = .committed)).bind fun ok =>
      if ok then finishRecovery name journal else .done (.error fileOperationFailed)

/-- The loop of `recoverLocked`. -/
def recoverJournals : List (String × TransactionJournal) → FileProg (Except RunError Unit)
  | [] => .done (.ok ())
  | entry :: rest =>
    (recoverJournal entry.1 entry.2).bind fun
      | .error e => .done (.error e)
      | .ok _ => recoverJournals rest

def recoverLocked : FileProg (Except RunError Unit) :=
  .look fun disk => recoverJournals disk.journals.entries

/-! ## Commit -/

/-- The result of a call: what it returns and the error beside it. -/
abbrev CommitReturn := CommitResult × Option RunError

/-- A result that only says how the transaction ended. -/
def bareResult (transactionID : String) (outcome : TransactionOutcome) : CommitResult :=
  { transactionID := transactionID, outcome := outcome }

def CommitResult.withOutcome (result : CommitResult) (outcome : TransactionOutcome) :
    CommitResult :=
  { result with outcome := outcome }

/-- The journal of the same transaction once it is committed. -/
def TransactionJournal.commit (journal : TransactionJournal) : TransactionJournal :=
  { journal with phase := .committed, result := journal.result.withOutcome .committed }

/-- Put the before-images back after a failed operation. -/
def rollback (journal : TransactionJournal) : FileProg CommitReturn :=
  (applyTransactionMutations journal.mutations false).bind fun ok =>
    .done (journal.result.withOutcome (if ok then .notStarted else .outcomeUnknown),
      some fileOperationFailed)

/-- The end of a transaction whose committed journal is written. -/
def finishCommit (journal : TransactionJournal) : FileProg CommitReturn :=
  (saveTransactionResult journal.commit).bind fun
    | .error e => .done (journal.result.withOutcome .outcomeUnknown, some e)
    | .ok _ =>
      .act (.removeJournal (journalName journal.id)) fun ok =>
        .done (journal.commit.result, if ok then none else some fileOperationFailed)

/-- The part of a transaction whose prepared journal is written. -/
def applyJournal (journal : TransactionJournal) : FileProg CommitReturn :=
  (applyCommitMutations journal.mutations).bind fun ok =>
    if ok then
      .act (.writeJournal journal.commit) fun ok =>
        if ok then finishCommit journal else rollback journal
    else rollback journal

/-- A transaction that changes no file only leaves its result. -/
def commitNothing (journal : TransactionJournal) : FileProg CommitReturn :=
  (saveTransactionResult journal.commit).bind fun
    | .error e => .done (journal.result.withOutcome .outcomeUnknown, some e)
    | .ok _ => .done (journal.commit.result, none)

def commitJournal (journal : TransactionJournal) : FileProg CommitReturn :=
  if journal.mutations = [] then commitNothing journal
  else
    .act .makeDirectory fun ok =>
      if ok then
        match validateJournal (journalName journal.id) journal with
        | .error e => .done (bareResult "" .unset, some e)
        | .ok _ =>
          .act (.writeJournal journal) fun ok =>
            if ok then applyJournal journal
            else .done (journal.result, some fileOperationFailed)
      else .done (journal.result, some fileOperationFailed)

/-- `Commit` on a store without journals. -/
def commitRecovered (ctx : Context) (commit : Commit) (disk : Disk) : FileProg CommitReturn :=
  match loadTransactionResult disk commit.transactionID with
  | .error e => .done (bareResult commit.transactionID .outcomeUnknown, some e)
  | .ok (some stored) =>
    if stored.fingerprint = some (commitFingerprint commit) then .done (stored.result, none)
    else .done (bareResult commit.transactionID .notStarted,
      some (.invalid ("runtime transaction " ++ quoted commit.transactionID ++
        " fingerprint mismatch")))
  | .ok none =>
    match prepareJournal disk ctx commit with
    | .error e => .done (bareResult commit.transactionID .notStarted, some e)
    | .ok journal => commitJournal journal

/-- `Store.Commit`. -/
def commitFiles (ctx : Context) (commit : Commit) : FileProg CommitReturn :=
  match validateRuntimeCommit commit with
  | .error e => .done (bareResult commit.transactionID .notStarted, some e)
  | .ok _ =>
    recoverLocked.bind fun
      | .error e => .done (bareResult commit.transactionID .outcomeUnknown, some e)
      | .ok _ => .look (commitRecovered ctx commit)

/-- What `ResolveCommit` reports on a recovered store. -/
def resolveRecovered (transactionID : String) (disk : Disk) : CommitReturn :=
  match loadTransactionResult disk transactionID with
  | .error e => (bareResult transactionID .outcomeUnknown, some e)
  | .ok none => (bareResult transactionID .notStarted, none)
  | .ok (some stored) => (stored.result, none)

def resolveCommit (transactionID : String) : FileProg CommitReturn :=
  match validateRunnerStorageID "transaction ID" transactionID with
  | .error e => .done (bareResult transactionID .notStarted, some e)
  | .ok _ =>
    recoverLocked.bind fun
      | .error e => .done (bareResult transactionID .outcomeUnknown, some e)
      | .ok _ => .look fun disk => .done (resolveRecovered transactionID disk)

end WeaveFlow
