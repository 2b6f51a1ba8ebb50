import WeaveFlow.Lib.Assoc
import WeaveFlow.Lib.FaultProg
import WeaveFlow.Lib.Outcome
import WeaveFlow.Runtime.EventPages

/-!
# The memory store and its file

A `VersionedStore` keeps memory records in a map and in a JSON file.  A call that
changes the map writes all records to a temporary file and renames it.  If the
rename fails, the old file is removed and the rename tried once more, so that a
second failure leaves no file, while the call takes its change back.

A file is given by the records it decodes to, without the fields that no operation
reads.  Each operation takes effect and succeeds or fails without effect, as a
pattern of failures says.
-/

namespace WeaveFlow.Memory

open List Prog Outcome

structure MemoryRecord where
  nameSpace : String
  key : String
  version : String := ""
  content : String := ""
  text : String := ""
  createdAt : Time := 0
  updatedAt : Time := 0
  retainUntil : Option Time := none
  deletedAt : Option Time := none

inductive Refusal where
  | context (text : String)
  | recordNotFound
  | versionConflict
  | invalidRecord (text : String)

/-- `retryErr` is the error of the second rename, `err` any other of `persistLocked`. -/
inductive StoreError where
  | refused (reason : Refusal)
  | err
  | retryErr

abbrev Records := SortedMap String MemoryRecord

def normalizeRecord (record : MemoryRecord) : MemoryRecord :=
  let createdAt := if record.createdAt = 0 then record.updatedAt else record.createdAt
  { record with
    nameSpace := trimSpace record.nameSpace
    key := trimSpace record.key
    content := trimSpace record.content
    text := trimSpace record.text
    createdAt
    updatedAt := if record.updatedAt = 0 then createdAt else record.updatedAt }

def normalizeIdentity (nameSpace key : String) : Except Refusal (String × String) :=
  let nameSpace := trimSpace nameSpace
  let key := trimSpace key
  if nameSpace = "" ∨ key = "" then .error (.invalidRecord "namespace and key are required")
  else if '\\' ∈ nameSpace.toList ∨ '\\' ∈ key.toList then
    .error (.invalidRecord "namespace and key cannot contain path separators")
  else .ok (nameSpace, key)

def recordKey (nameSpace key : String) : String := trimSpace nameSpace ++ "\x00" ++ key

def versionMatches (record : MemoryRecord) (expected : String) : Bool :=
  expected = "*" || trimSpace expected = record.version

def nextVersion : Option MemoryRecord → String
  | none => "1"
  | some record =>
    match (decimal record.version.toList).filter (· < 2 ^ 64) with
    | some version => toString ((version + 1) % 2 ^ 64)
    | none => record.version ++ ".next"

def load (records : List MemoryRecord) : Except Refusal Records :=
  records.foldlM (fun (loaded : Records) record => do
    let normalized := normalizeRecord record
    let _ ← normalizeIdentity normalized.nameSpace normalized.key
    if normalized.version = "" then
      .error (.invalidRecord ("record " ++ quoted normalized.key ++ " has no version"))
    else .ok (loaded.put (recordKey normalized.nameSpace normalized.key) normalized)) .empty

/-! ## Writing the file -/

structure Files where
  file : Option (List MemoryRecord)
  temporary : Option (List MemoryRecord) := none

def Files.held (files : Files) : List MemoryRecord := files.file.getD []

inductive FileOp where
  | mkdirAll
  | marshalIndent
  | createTemp
  | write (records : List MemoryRecord)
  | sync
  | close
  | rename
  /-- Remove the file, where a missing file is no failure. -/
  | remove
  | removeTemp

def FileOp.apply : FileOp → Files → Files
  | createTemp, files => { files with temporary := some [] }
  | write records, files => { files with temporary := some records }
  | rename, ⟨_, some records⟩ => ⟨some records, none⟩
  | remove, files => { files with file := none }
  | removeTemp, files => { files with temporary := none }
  | _, files => files

abbrev MemoryProg (α : Type) := Prog FileOp Files α

def attempt (op : FileOp) (next : MemoryProg (Option StoreError)) :
    MemoryProg (Option StoreError) :=
  .act op fun ok => if ok then next else .done (some .err)

def renameTemporary : MemoryProg (Option StoreError) :=
  .act .rename fun ok =>
    if ok then .done none
    else attempt .remove (.act .rename fun ok => .done (if ok then none else some .retryErr))

def persistLocked (records : Records) : MemoryProg (Option StoreError) :=
  attempt .mkdirAll <| attempt .marshalIndent <| attempt .createTemp <|
    (attempt (.write records.vals) <| attempt .sync <| attempt .close renameTemporary).bind
      -- the deferred function
      fun e => .act .close fun _ => .act .removeTemp fun _ => .done e

/-- A call that is not refused has a result, the changed records and the records with
the change taken back. -/
def save (records : Records) : Except Refusal (α × Records × Records) →
    MemoryProg (Except StoreError α × Records)
  | .error reason => .done (.error (.refused reason), records)
  | .ok (result, changed, rolledBack) =>
    (persistLocked changed).bind fun
      | none => .done (.ok result, changed)
      | some e => .done (.error e, rolledBack)

/-! ## The calls -/

def checkContext (ctx : Option String) : Except Refusal Unit :=
  ctx.elim (.ok ()) fun text => .error (.context text)

def putConflicts (expectedVersion : String) : Option MemoryRecord → Bool
  | some current =>
    !versionMatches current expectedVersion || current.deletedAt = none && expectedVersion = ""
  | none => expectedVersion ≠ "" && expectedVersion ≠ "*"

def markDeleted (now : Time) (record : MemoryRecord) : MemoryRecord :=
  { record with version := nextVersion (some record), updatedAt := now, deletedAt := some now }

/-- The first of the expired records up to the limit, by their keys. -/
def expiredKeys (now : Time) (limit : Int) (records : Records) : List (String × MemoryRecord) :=
  let keys := records.entries.filter fun p =>
    p.2.deletedAt = none && p.2.retainUntil.any (· ≤ now)
  keys.take (if limit > 0 then limit.toNat else keys.length)

section

variable (ctx : Option String) (clock : Time)

def put (nameSpace : String) (incoming : MemoryRecord) (expectedVersion : String)
    (records : Records) : MemoryProg (Except StoreError MemoryRecord × Records) :=
  save records do
    checkContext ctx
    let (nameSpace, key) ← normalizeIdentity nameSpace incoming.key
    let content :=
      if trimSpace incoming.content = "" then trimSpace incoming.text else incoming.content
    let identity := recordKey nameSpace key
    let current := records.get identity
    if putConflicts expectedVersion current then .error .versionConflict
    else
      let record := { normalizeRecord { incoming with content } with
        nameSpace, key
        version := nextVersion current
        createdAt := ((current.map (·.createdAt)).filter (· ≠ 0)).getD clock
        updatedAt := clock
        deletedAt := none }
      let changed := records.put identity record
      .ok (record, changed, current.elim (changed.del identity) (changed.put identity))

def delete (nameSpace key expectedVersion : String) (records : Records) :
    MemoryProg (Except StoreError Unit × Records) :=
  save records do
    checkContext ctx
    let (nameSpace, key) ← normalizeIdentity nameSpace key
    let identity := recordKey nameSpace key
    match records.get identity with
    | none => .error .recordNotFound
    | some current =>
      if current.deletedAt ≠ none then .error .recordNotFound
      else if !versionMatches current expectedVersion then .error .versionConflict
      else
        let changed := records.put identity (markDeleted clock current)
        .ok ((), changed, changed.put identity current)

def purgeExpired (now : Time) (limit : Int) (records : Records) :
    MemoryProg (Except StoreError Nat × Records) :=
  let now := if now = 0 then clock else now
  let keys := expiredKeys now limit records
  let changed := keys.foldl (fun records p => records.put p.1 (markDeleted now p.2)) records
  if ctx = none ∧ keys.isEmpty then .done (.ok 0, records)
  else save records do
    checkContext ctx
    .ok (keys.length, changed, keys.foldl (fun records p => records.put p.1 p.2) changed)

end

/-! ## Runs -/

structure VersionedStore where
  records : Records
  files : Files

def execute (fails : Nat → Bool) (p : MemoryProg α) (n : Nat) (files : Files) : α × Nat × Files :=
  run FileOp.apply (fun n => if fails n then .before else .none) p n files

/-- A call with its result and the store after it. -/
inductive Performs (s : VersionedStore) : {α : Type} → Except StoreError α → VersionedStore → Prop
  | put fails ctx clock nameSpace incoming expectedVersion :
      execute fails (put ctx clock nameSpace incoming expectedVersion s.records) 0 s.files =
        ((r, records), n, files) → Performs s r ⟨records, files⟩
  | delete fails ctx clock nameSpace key expectedVersion :
      execute fails (delete ctx clock nameSpace key expectedVersion s.records) 0 s.files =
        ((r, records), n, files) → Performs s r ⟨records, files⟩
  | purgeExpired fails ctx clock now limit :
      execute fails (purgeExpired ctx clock now limit s.records) 0 s.files =
        ((r, records), n, files) → Performs s r ⟨records, files⟩

/-- The file holds the records in memory: it lists them, or they are read from it. -/
def Holds (s : VersionedStore) : Prop :=
  s.files.held = s.records.vals ∨ load s.files.held = .ok s.records

/-- After an error the file holds what it held, otherwise the records in memory. -/
def FileKept (s s' : VersionedStore) : Except StoreError α → Prop
  | .ok _ => Holds s'
  | .error _ => s'.files.held = s.files.held

/-- The first rename of `persistLocked` is reached and fails, as the second one does. -/
def RetryFails (fails : Nat → Bool) : Prop :=
  (∀ i < 6, fails i = false) ∧ fails 6 = true ∧ fails 7 = false ∧ fails 8 = true

/-- The second rename does not fail (`save_retryErr_iff`), or there is no record to lose. -/
def NoneLost (s : VersionedStore) (r : Except StoreError α) : Prop :=
  r = .error .retryErr → s.files.held = []

inductive Reached : VersionedStore → Prop
  | opened : load files.held = .ok records → Reached ⟨records, files⟩
  | call {r : Except StoreError α} : Reached s → Performs s r s' → NoneLost s r → Reached s'

/-! ## What a call does -/

variable {s s' : VersionedStore}

/-- The error of a program that writes the records, and the file after it. -/
inductive Written (records : List MemoryRecord) (file : Option (List MemoryRecord)) :
    Option StoreError × Nat × Files → Prop
  | done : Written records file (none, n, ⟨some records, t⟩)
  | lost : Written records file (some .retryErr, n, ⟨none, t⟩)
  | kept : e ≠ .retryErr → Written records file (some e, n, ⟨file, t⟩)

theorem execute_act (next : Bool → MemoryProg α) : execute fails (.act op next) n files =
    if fails n then execute fails (next false) (n + 1) files
    else execute fails (next true) (n + 1) (op.apply files) := by
  rw [execute, run]
  split <;> rfl

theorem written_attempt {next : MemoryProg (Option StoreError)}
    (h : Written records file (execute fails next (n + 1) (op.apply ⟨file, t⟩))) :
    Written records file (execute fails (attempt op next) n ⟨file, t⟩) := by
  rw [attempt, execute_act]
  split
  · exact .kept nofun
  · exact h

theorem written_renameTemporary :
    Written records file (execute fails renameTemporary n ⟨file, some records⟩) := by
  rw [renameTemporary, execute_act]
  split
  · refine written_attempt ?_
    rw [execute_act]
    split
    · exact .lost
    · exact .done
  · exact .done

/-- The deferred function does not touch the file. -/
theorem written_deferred (h : Written records file w) : Written records file
    (execute fails (.act .close fun _ => .act .removeTemp fun _ => .done w.1) w.2.1 w.2.2) := by
  rw [execute_act, execute_act, execute_act]
  cases h <;> split_ifs <;> constructor <;> assumption

theorem written_persistLocked (records : Records) :
    Written records.vals file (execute fails (persistLocked records) n ⟨file, t⟩) := by
  refine written_attempt (written_attempt (written_attempt ?_))
  rw [execute, run_bind]
  refine written_deferred (written_attempt (written_attempt (written_attempt ?_)))
  exact written_renameTemporary

theorem attempt_retryErr_iff {next : MemoryProg (Option StoreError)} :
    (execute fails (attempt op next) n files).1 = some .retryErr ↔
      fails n = false ∧ (execute fails next (n + 1) (op.apply files)).1 = some .retryErr := by
  rw [attempt, execute_act]
  cases fails n with
  | true => exact iff_of_false (by rintro ⟨⟩) (by rintro ⟨⟨⟩, -⟩)
  | false => exact (and_iff_right rfl).symm

theorem renameTemporary_retryErr_iff :
    (execute fails renameTemporary n files).1 = some .retryErr ↔
      fails n = true ∧ fails (n + 1) = false ∧ fails (n + 2) = true := by
  rw [renameTemporary, execute_act]
  cases fails n with
  | false => exact iff_of_false (by rintro ⟨⟩) (by rintro ⟨⟨⟩, -⟩)
  | true =>
    refine attempt_retryErr_iff.trans ?_
    rw [execute_act]
    cases fails (n + 2) <;> simp [execute, run]

theorem persistLocked_retryErr_iff {records : Records} :
    (execute fails (persistLocked records) 0 files).1 = some .retryErr ↔ RetryFails fails := by
  -- the deferred function keeps the error
  have hd : ∀ (p : MemoryProg (Option StoreError)) n files, (execute fails (p.bind fun e =>
      .act .close fun _ => .act .removeTemp fun _ => .done e) n files).1 =
        (execute fails p n files).1 := fun p n files => by rw [execute, run_bind]; rfl
  simp only [persistLocked, attempt_retryErr_iff, hd, renameTemporary_retryErr_iff, RetryFails]
  grind

/-- The failures that `NoneLost` excludes when the file has a record. -/
theorem save_retryErr_iff {checked : Except Refusal (α × Records × Records)} :
    (execute fails (save records checked) 0 files).1.1 = .error .retryErr ↔
      (∃ c, checked = .ok c) ∧ RetryFails fails := by
  cases checked with
  | error reason => exact iff_of_false (by rintro ⟨⟩) (by rintro ⟨⟨c, ⟨⟩⟩, -⟩)
  | ok c =>
    rw [← @persistLocked_retryErr_iff fails files c.2.1, save, execute, run_bind, execute]
    generalize run _ _ (persistLocked c.2.1) 0 files = w
    obtain ⟨e, w⟩ := w
    cases e with
    | none => exact iff_of_false (by rintro ⟨⟩) (by rintro ⟨-, ⟨⟩⟩)
    | some e => simp [run]

/-- What a call reports and leaves. -/
inductive Effect (s : VersionedStore) : Except StoreError α × Records → Files → Prop
  | written : Effect s (.ok result, records) ⟨some records.vals, t⟩
  | lost : Effect s (.error .retryErr, s.records) ⟨none, t⟩
  | left : r ≠ .error .retryErr → Effect s (r, s.records) ⟨s.files.file, t⟩

theorem effect_save {checked : Except Refusal (α × Records × Records)}
    (hb : ∀ c, checked = .ok c → c.2.2 = s.records)
    (h : execute fails (save s.records checked) 0 s.files = (r, n, files)) : Effect s r files := by
  cases checked with
  | error reason =>
    cases h
    exact .left nofun
  | ok c =>
    rw [save, execute, run_bind] at h
    have hw : Written c.2.1.vals s.files.file (execute fails (persistLocked c.2.1) 0 s.files) :=
      written_persistLocked _
    have hc := hb c rfl
    rw [execute] at hw
    generalize run FileOp.apply _ (persistLocked c.2.1) 0 s.files = w at h hw
    cases hw with
    | done => cases h; exact .written
    | lost => cases h; exact hc ▸ .lost
    | kept he => cases h; exact hc ▸ .left fun h => he (Except.error.inj h)

variable {r : Except StoreError α}

theorem Performs.effect (h : Performs s r s') : Effect s (r, s'.records) s'.files := by
  cases h with
  | put _ _ _ _ _ _ h =>
    refine effect_save (fun c hc => ?_) h
    obtain ⟨-, -, hc⟩ := of_bind hc
    obtain ⟨⟨nameSpace, key⟩, -, hc⟩ := of_bind hc
    dsimp only at hc
    split at hc <;> cases hc
    cases hg : s.records.get (recordKey nameSpace key) with
    | none => exact SortedMap.del_put hg _
    | some current => exact SortedMap.put_back hg _
  | delete _ _ _ _ _ _ h =>
    refine effect_save (fun c hc => ?_) h
    obtain ⟨-, -, hc⟩ := of_bind hc
    obtain ⟨⟨nameSpace, key⟩, -, hc⟩ := of_bind hc
    dsimp only at hc
    split at hc
    · cases hc
    next current hg =>
      split_ifs at hc
      cases hc
      exact SortedMap.put_back hg _
  | purgeExpired _ _ clock now _ h =>
    simp only [Memory.purgeExpired] at h
    generalize (if now = 0 then clock else now) = now at h
    split at h
    · cases h
      exact .left nofun
    · refine effect_save (fun c hc => ?_) h
      obtain ⟨-, -, hc⟩ := of_bind hc
      cases hc
      refine SortedMap.foldl_put_back (fun p hp => ?_) (markDeleted now)
      exact (Assoc.get_eq_some_iff s.records.sorted).mpr (mem_filter.mp (mem_of_mem_take hp)).1

theorem fileKept_iff (hs : Holds s) (h : Effect s (r, records) files) :
    (FileKept s ⟨records, files⟩ r ↔ NoneLost s r) ∧ (NoneLost s r → Holds ⟨records, files⟩) := by
  cases h with
  | written => exact ⟨iff_of_true (.inl rfl) nofun, fun _ => .inl rfl⟩
  | lost =>
    refine ⟨⟨fun h _ => h.symm, fun h => (h rfl).symm⟩, fun h => ?_⟩
    rw [Holds, h rfl] at hs
    exact hs
  | left hr =>
    refine ⟨iff_of_true ?_ fun h => absurd h hr, fun _ => hs⟩
    cases r with
    | ok a => exact hs
    | error e => rfl

theorem Reached.holds (h : Reached s) : Holds s := by
  induction h with
  | opened h => exact .inr h
  | call _ hp hn ih => exact (fileKept_iff ih hp.effect).2 hn

/-- A call keeps what the file holds exactly if the second rename does not fail or
there was nothing to lose.  In a run whose calls all meet this, every call does. -/
theorem memory_file_kept_iff (hs : Reached s) (h : Performs s r s') :
    FileKept s s' r ↔ NoneLost s r :=
  (fileKept_iff hs.holds h.effect).1

def note : MemoryRecord := { nameSpace := "n", key := "k", version := "1" }

/-- A store that was opened on a file with one record. -/
def noteStore : VersionedStore :=
  ⟨SortedMap.empty.put (recordKey "n" "k") note, { file := some [note] }⟩

theorem failed_sync_keeps_note :
    FileKept noteStore noteStore (.error .err : Except StoreError Unit) :=
  (memory_file_kept_iff (.opened rfl) (.delete (· = 4) none 1 "n" "k" "1" rfl)).mpr nofun

/-- A rename fails, the remove succeeds and the other rename fails: the record is lost. -/
theorem failed_retry_loses_note : Reached noteStore ∧ ∃ s',
    Performs noteStore (.error .retryErr : Except StoreError Unit) s' ∧ s'.files.file = none :=
  ⟨.opened rfl, _, .delete (fun n => n = 6 ∨ n = 8) none 1 "n" "k" "1" rfl, rfl⟩

/-- A call that returns an error has taken all its changes back. -/
theorem failed_call_undone (h : Performs s (.error e : Except StoreError α) s') :
    s'.records = s.records := by
  obtain ⟨records, files⟩ := s'
  have he : Effect s (.error e, records) files := h.effect
  cases he with
  | lost => rfl
  | left => rfl

theorem failed_sync_undone : ∃ s', Performs noteStore (.error .err : Except StoreError Unit) s' ∧
    s'.records = noteStore.records :=
  have h := .delete (· = 4) none 1 "n" "k" "1" rfl
  ⟨noteStore, h, failed_call_undone h⟩

end WeaveFlow.Memory
