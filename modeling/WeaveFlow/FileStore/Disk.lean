import WeaveFlow.Lib.Assoc
import WeaveFlow.Lib.FaultProg
import WeaveFlow.Lib.Overwrite
import WeaveFlow.Runtime.Validation

/-!
# The disk of the file store

The file store keeps every run, step and checkpoint in a file of its own and the
events of a run in one file.  Beside them it keeps the journals of the
transactions in flight and one result record for each committed transaction.  A
file is given by what it decodes to.

A file operation writes one file through a temporary file and a rename, or
removes one, so it is atomic.  The operations of a transaction put the before- or
the after-image of a mutation in place.
-/

namespace WeaveFlow

/-! ## Record files -/

/-- The files of the runtime records. -/
inductive RecordPath where
  | run (runID : String)
  | step (runID stepID : String)
  | checkpoint (runID checkpointID : String)
  | payload (runID checkpointID : String)
  | events (runID : String)
  deriving DecidableEq, Repr

/-- The path of a file below the base directory. -/
def RecordPath.text : RecordPath → String
  | run runID => "execution/runs/" ++ runID ++ ".json"
  | step runID stepID => "execution/steps/" ++ runID ++ "/" ++ stepID ++ ".json"
  | checkpoint runID checkpointID => "checkpoints/" ++ runID ++ "/" ++ checkpointID ++ ".json"
  | payload runID checkpointID =>
    "checkpoints/" ++ runID ++ "/payloads/" ++ checkpointID ++ ".bin"
  | events runID => "events/" ++ runID ++ ".jsonl"

/-- What a record file holds. -/
inductive Content where
  | run (record : RunRecord)
  | step (record : StepRecord)
  | checkpoint (record : CheckpointRecord)
  | payload (bytes : List UInt8)
  | events (events : List Event)
  deriving DecidableEq, Repr

/-! ## Journals -/

/-- The change of one file, with the content before it. -/
structure TransactionMutation where
  path : RecordPath
  before : Option Content
  after : Option Content
  deriving DecidableEq, Repr

/-- The content a mutation puts in place. -/
def TransactionMutation.image (mutation : TransactionMutation) (after : Bool) : Option Content :=
  if after then mutation.after else mutation.before

inductive TransactionPhase where
  | prepared
  | committed
  deriving DecidableEq, Repr

structure TransactionJournal where
  id : String
  /-- A missing fingerprint is a blank one. -/
  fingerprint : Option Fingerprint
  phase : TransactionPhase
  result : CommitResult
  mutations : List TransactionMutation
  deriving DecidableEq, Repr

structure TransactionResultRecord where
  fingerprint : Option Fingerprint
  result : CommitResult
  deriving DecidableEq, Repr

/-- The files a journal names. -/
def TransactionJournal.paths (journal : TransactionJournal) : List RecordPath :=
  journal.mutations.map (·.path)

/-- The file a journal is kept in. -/
def journalName (id : String) : String := id ++ ".json"

/-- The directory tree below the base directory. -/
@[ext] structure Disk where
  records : RecordPath → Option Content
  /-- The deletion fences, by run. -/
  fences : String → Option String
  /-- The journals, by file name. -/
  journals : SortedMap String TransactionJournal
  /-- The result records, by transaction. -/
  results : String → Option TransactionResultRecord

/-! ## File operations -/

inductive FileOp where
  /-- Create a directory. -/
  | makeDirectory
  | writeRecord (path : RecordPath) (content : Content)
  | removeRecord (path : RecordPath)
  /-- Put the before- or after-image of a mutation in place. -/
  | putImage (after : Bool) (mutation : TransactionMutation)
  | writeJournal (journal : TransactionJournal)
  | removeJournal (name : String)
  | writeResult (transactionID : String) (record : TransactionResultRecord)
  deriving DecidableEq, Repr

/-- The disk after an operation that took effect. -/
def FileOp.apply : FileOp → Disk → Disk
  | makeDirectory, disk => disk
  | writeRecord path content, disk =>
    { disk with records := Function.update disk.records path (some content) }
  | removeRecord path, disk => { disk with records := Function.update disk.records path none }
  | putImage after mutation, disk =>
    { disk with records := Function.update disk.records mutation.path (mutation.image after) }
  | writeJournal journal, disk =>
    { disk with journals := disk.journals.put (journalName journal.id) journal }
  | removeJournal name, disk => { disk with journals := disk.journals.del name }
  | writeResult transactionID record, disk =>
    { disk with results := Function.update disk.results transactionID (some record) }

/-- A program of the file store. -/
abbrev FileProg (α : Type) := Prog FileOp Disk α

def fileOperationFailed : RunError := .invalid "file operation failed"

/-! ## Journal checks -/

/-- The content of a record file belongs to the file. -/
def validateContent : RecordPath → Content → Except RunError Unit
  | .run runID, .run record => do
      require (record.runID = runID)
        (.invalid ("run " ++ quoted runID ++ " metadata identity mismatch"))
      validateRunChildState record
  | .step runID stepID, .step record => do
      require (record.runID = runID && record.stepID = stepID)
        (.invalid ("step " ++ quoted stepID ++ " metadata identity mismatch"))
      validateStepEffect record
  | .checkpoint runID checkpointID, .checkpoint record => do
      require (record.runID = runID && record.checkpointID = checkpointID)
        (.invalid ("checkpoint " ++ quoted checkpointID ++ " metadata identity mismatch"))
      require (record.payloadRef = (RecordPath.payload runID checkpointID).text)
        (.invalid ("checkpoint " ++ quoted checkpointID ++ " payload identity mismatch"))
  | .payload _ _, .payload _ => .ok ()
  | .events runID, .events events =>
    events.forM fun event =>
      require (event.runID = runID)
        (.invalid ("event " ++ quoted event.id ++ " metadata identity mismatch"))
  | path, _ => .error (.invalid ("mutation " ++ quoted path.text ++ " does not decode"))

/-- `validateRunID`; a portable id has only letters whose case folds within ASCII. -/
def validateRunID (runID : String) : Except RunError Unit := do
  validateRunnerStorageID "run ID" runID
  require (runID.toList.map Char.toLower ≠ ".deletions".toList)
    (.invalid ("run ID " ++ quoted runID ++ " is reserved by file storage"))

def validateRecordPath : RecordPath → Except RunError Unit
  | .run runID | .events runID => validateRunID runID
  | .step runID stepID => do
      validateRunID runID
      validateRunnerStorageID "step ID" stepID
  | .checkpoint runID checkpointID | .payload runID checkpointID => do
      validateRunID runID
      validateRunnerStorageID "checkpoint ID" checkpointID

def validateJournalMutation (mutation : TransactionMutation) : Except RunError Unit := do
  require mutation.after.isSome
    (.invalid ("mutation " ++ quoted mutation.path.text ++ " has no after-state"))
  validateRecordPath mutation.path
  mutation.before.toList.forM fun content =>
    (validateContent mutation.path content).mapError
      (.within ("mutation " ++ quoted mutation.path.text ++ " before-state"))
  mutation.after.toList.forM fun content =>
    (validateContent mutation.path content).mapError
      (.within ("mutation " ++ quoted mutation.path.text ++ " after-state"))

/-- The outcome a journal records in its phase. -/
def TransactionPhase.outcome : TransactionPhase → TransactionOutcome
  | prepared => .notStarted
  | committed => .committed

/-- The loop of `validateJournal`; `seen` are the files before. -/
def validateJournalMutations (id : String) :
    List RecordPath → List TransactionMutation → Except RunError Unit
  | _, [] => .ok ()
  | seen, mutation :: rest => do
      require (!seen.contains mutation.path)
        (.invalid ("transaction journal " ++ quoted id ++ " repeats mutation path " ++
          quoted mutation.path.text))
      (validateJournalMutation mutation).mapError (.within ("transaction journal " ++ quoted id))
      validateJournalMutations id (mutation.path :: seen) rest

def validateJournal (name : String) (journal : TransactionJournal) : Except RunError Unit := do
  validateRunnerStorageID "transaction ID" journal.id
  require (name = journalName journal.id)
    (.invalid ("transaction journal " ++ quoted name ++ " identity mismatch"))
  require journal.fingerprint.isSome
    (.invalid ("transaction journal " ++ quoted journal.id ++ " has no fingerprint"))
  require (journal.result.transactionID = journal.id)
    (.invalid ("transaction journal " ++ quoted journal.id ++ " result identity mismatch"))
  require (journal.result.outcome = journal.phase.outcome)
    (.invalid ("transaction journal " ++ quoted journal.id ++ " outcome mismatch"))
  validateJournalMutations journal.id [] journal.mutations

/-! ## Result records -/

/-- `loadTransactionResultLocked`. -/
def loadTransactionResult (disk : Disk) (transactionID : String) :
    Except RunError (Option TransactionResultRecord) :=
  match disk.results transactionID with
  | none => .ok none
  | some record => do
      require record.fingerprint.isSome
        (.invalid ("runtime transaction " ++ quoted transactionID ++ " result has no fingerprint"))
      require
        (record.result.transactionID = transactionID && record.result.outcome = .committed)
        (.invalid ("runtime transaction " ++ quoted transactionID ++
          " result identity mismatch"))
      (validateArtifactStages transactionID record.result.artifacts).mapError
        (.within ("runtime transaction " ++ quoted transactionID ++ " result artifacts"))
      return some record

/-- `saveTransactionResultLocked`. -/
def saveTransactionResult (journal : TransactionJournal) : FileProg (Except RunError Unit) :=
  .look fun disk =>
    match loadTransactionResult disk journal.id with
    | .error e => .done (.error e)
    | .ok (some existing) =>
      .done (require (existing.fingerprint = journal.fingerprint)
        (.invalid ("runtime transaction " ++ quoted journal.id ++
          " result fingerprint mismatch")))
    | .ok none =>
      .act (.writeResult journal.id ⟨journal.fingerprint, journal.result⟩) fun ok =>
        .done (if ok then .ok () else .error fileOperationFailed)

end WeaveFlow
