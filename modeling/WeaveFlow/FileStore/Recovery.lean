import WeaveFlow.FileStore.Transaction

/-!
# What recovery does

Recovery overwrites the files a journal names, and nothing it does before the
journal is gone depends on what these files held.  So a recovery that is stopped
or fails anywhere leaves a disk from which recovery gives the same disk
(`recover_of_reaches`), and any number of attempts can be made.

There is one exception.  A committed journal whose result names invalid artifact
stages is accepted, but its result record is not read back once it is written.
`Commit` checks the stages before it writes a journal, so such a journal does not
come from a commit.
-/

namespace WeaveFlow

open TransactionJournal Disk FileOp Overwrite Prog List

/-! ## Recovery without faults -/

/-- Recovery without faults: its result and the disk after it. -/
def Disk.recover (disk : Disk) : Except RunError Unit × Disk :=
  Prog.eval FileOp.apply recoverLocked disk

def Disk.withRecords (disk : Disk) (records : RecordPath → Option Content) : Disk :=
  { disk with records := records }

section

variable (disk : Disk) (records : RecordPath → Option Content)
include disk records

@[simp] theorem Disk.withRecords_records : (disk.withRecords records).records = records := rfl

end

@[simp] theorem Disk.withRecords_withRecords (disk : Disk)
    (records records' : RecordPath → Option Content) :
    (disk.withRecords records).withRecords records' = disk.withRecords records' := rfl

@[simp] theorem Disk.withRecords_self (disk : Disk) : disk.withRecords disk.records = disk := rfl

/-- The second disk differs from the first in the contents of the given files only. -/
def Disk.Near (paths : List RecordPath) (disk disk' : Disk) : Prop :=
  ∃ records, disk' = disk.withRecords records ∧ AgreeOff paths records disk.records

theorem Disk.Near.refl (paths : List RecordPath) (disk : Disk) : disk.Near paths disk :=
  ⟨disk.records, rfl, .refl _ _⟩

variable {journal : TransactionJournal} {d d' disk : Disk} {name : String}
  {rest : List (String × TransactionJournal)} {paths : List RecordPath}

theorem Disk.Near.trans (h : d.Near paths d') (h' : d'.Near paths d'') : d.Near paths d'' := by
  obtain ⟨r, rfl, hr⟩ := h
  obtain ⟨r', rfl, hr'⟩ := h'
  exact ⟨r', rfl, hr'.trans hr⟩

/-- An image put in place changes its own file only. -/
theorem Disk.near_putImage (h : mutation.path ∈ paths) (after : Bool) (disk : Disk) :
    disk.Near paths ((putImage after mutation).apply disk) :=
  ⟨_, rfl, agreeOff_update h⟩

/-! ## Images -/

def imageWrites (after : Bool) (mutations : List TransactionMutation) :
    List (RecordPath × Option Content) :=
  mutations.map fun mutation => (mutation.path, mutation.image after)

theorem map_fst_imageWrites (after : Bool) (mutations : List TransactionMutation) :
    (imageWrites after mutations).map Prod.fst = mutations.map (·.path) := by
  simp [imageWrites, Function.comp_def]

theorem eval_putImages (after : Bool) (mutations : List TransactionMutation) (ok : Bool)
    (disk : Disk) :
    eval FileOp.apply (putImages after mutations ok) disk =
      (ok, disk.withRecords (overwrite (imageWrites after mutations) disk.records)) := by
  induction mutations generalizing ok disk with
  | nil => rfl
  | cons mutation rest ih =>
    show eval FileOp.apply (putImages after rest (ok && true)) _ = _
    rw [Bool.and_true, ih]
    rfl

theorem uses_putImages {P : FileOp → Prop} {after : Bool} {mutations : List TransactionMutation}
    (h : ∀ mutation ∈ mutations, P (.putImage after mutation)) (ok : Bool) :
    Uses P (putImages after mutations ok) := by
  induction mutations generalizing ok with
  | nil => trivial
  | cons mutation rest ih =>
    refine ⟨h mutation mem_cons_self, fun success => ih (fun m hm => ?_) _⟩
    exact h m (mem_cons_of_mem _ hm)

/-- A program whose operations change the given files only. -/
theorem near_of_uses {α : Type} {p : FileProg α}
    (hp : Uses (fun op => ∀ disk : Disk, disk.Near paths (op.apply disk)) p)
    (h : Reaches FileOp.apply p d d') : d.Near paths d' :=
  reaches_induction (fun _ s hop hs => hs.trans (hop s)) hp (.refl _ _) h

theorem near_of_reaches_putImages {after : Bool} {mutations : List TransactionMutation} {ok : Bool}
    (h : Reaches FileOp.apply (putImages after mutations ok) d d')
    (hp : ∀ mutation ∈ mutations, mutation.path ∈ paths) : d.Near paths d' :=
  near_of_uses (uses_putImages (fun mutation hm => near_putImage (hp mutation hm) after) ok) h

/-- Images that all report success were all put in place. -/
theorem strict_putImages (after : Bool) (mutations : List TransactionMutation) (ok : Bool) :
    Strict FileOp.apply (· = true) (putImages after mutations ok) := by
  have hn : ∀ mutations : List TransactionMutation,
      Never FileOp.apply (· = true) (putImages after mutations false) := by
    intro mutations
    induction mutations with
    | nil => exact never_done (by simp)
    | cons mutation rest ih => exact never_act fun success => ih
  induction mutations generalizing ok with
  | nil => trivial
  | cons mutation rest ih =>
    refine ⟨ih _, ?_⟩
    show Never FileOp.apply (· = true) (putImages after rest (ok && false))
    rw [Bool.and_false]
    exact hn rest

/-! ## One journal -/

/-- The mutations in the order in which recovery puts their images in place. -/
def TransactionJournal.replay (journal : TransactionJournal) : List TransactionMutation :=
  if journal.phase = .committed then journal.mutations else journal.mutations.reverse

def TransactionJournal.writes (journal : TransactionJournal) : List (RecordPath × Option Content) :=
  imageWrites (journal.phase = .committed) journal.replay

theorem TransactionJournal.mem_replay : m ∈ journal.replay ↔ m ∈ journal.mutations := by
  unfold replay
  split <;> simp

theorem TransactionJournal.mem_writes :
    path ∈ journal.writes.map Prod.fst ↔ path ∈ journal.paths := by
  simp only [writes, map_fst_imageWrites, paths, mem_map, mem_replay]

/-- The disk with the images of a journal in place. -/
def Disk.replayed (disk : Disk) (journal : TransactionJournal) : Disk :=
  disk.withRecords (overwrite journal.writes disk.records)

/-- What stood in the files of the journal does not matter. -/
theorem Disk.Near.replayed (h : d.Near journal.paths d') :
    d'.replayed journal = d.replayed journal := by
  obtain ⟨records, rfl, ha⟩ := h
  unfold replayed
  rw [withRecords_records, withRecords_withRecords]
  congr 1
  exact overwrite_congr fun path hpa =>
    ha path fun hp => hpa (mem_writes.mpr hp)

theorem Disk.near_replayed (disk : Disk) (journal : TransactionJournal) :
    disk.Near journal.paths (disk.replayed journal) :=
  ⟨_, rfl, fun _ hpa =>
    overwrite_of_notMem fun hp => hpa (mem_writes.mp hp)⟩

/-- The images of a journal as `recoverJournal` puts them in place. -/
theorem applyTransactionMutations_eq :
    applyTransactionMutations journal.mutations (journal.phase = .committed) =
      putImages (journal.phase = .committed) journal.replay true := by
  unfold applyTransactionMutations TransactionJournal.replay
  by_cases hp : journal.phase = .committed <;> simp [hp]

/-- A recovery of one journal without faults, once the journal is accepted. -/
theorem eval_recoverJournal (hv : validateJournal name journal = .ok ()) :
    eval FileOp.apply (recoverJournal name journal) disk =
      eval FileOp.apply (finishRecovery name journal) (disk.replayed journal) := by
  unfold recoverJournal
  simp only [hv]
  rw [applyTransactionMutations_eq, eval_bind, eval_putImages]
  rfl

/-! ## Result records -/

/-- The result record a committed journal leaves. -/
def TransactionJournal.resultRecord (journal : TransactionJournal) : TransactionResultRecord :=
  ⟨journal.fingerprint, journal.result⟩

/-- The disk with the result record of a journal. -/
def Disk.withResult (disk : Disk) (journal : TransactionJournal) : Disk :=
  (writeResult journal.id journal.resultRecord).apply disk

/-- A save either finds a result record and changes nothing or writes one. -/
theorem saveTransactionResult_cases
    (h : Reaches FileOp.apply (saveTransactionResult journal) d d') :
    d' = d ∨ (loadTransactionResult d journal.id = .ok none ∧ d' = d.withResult journal) := by
  unfold saveTransactionResult at h
  simp only [Reaches] at h
  split at h
  · exact .inl h
  · exact .inl h
  next hl => exact (reaches_last h).imp_right fun hw => ⟨hl, hw⟩

/-- The result of a computation that succeeded. -/
def Succeeded (result : Except RunError Unit) : Prop := result = .ok ()

/-- An operation that ends a program with the report it gave. -/
theorem strict_lastOperation : Strict FileOp.apply Succeeded
      (.act op fun ok => .done (if ok then .ok () else .error fileOperationFailed)) :=
  ⟨trivial, never_done nofun⟩

/-- A save that reports success met no fault. -/
theorem strict_saveTransactionResult :
    Strict FileOp.apply Succeeded (saveTransactionResult journal) := by
  intro disk
  dsimp only
  split
  · trivial
  · trivial
  · exact strict_lastOperation

/-- A save without faults on a disk that has the record already. -/
theorem eval_saveTransactionResult_again
    (hl : loadTransactionResult disk journal.id = .ok (some journal.resultRecord)) :
    eval FileOp.apply (saveTransactionResult journal) disk = (.ok (), disk) := by
  simp [saveTransactionResult, eval, hl, resultRecord, require]

/-- A save without faults on a disk without the record. -/
theorem eval_saveTransactionResult_new (hl : loadTransactionResult disk journal.id = .ok none) :
    eval FileOp.apply (saveTransactionResult journal) disk = (.ok (), disk.withResult journal) := by
  simp [saveTransactionResult, eval, hl, resultRecord, withResult]

/-! ## After the images -/

def Disk.withoutJournal (disk : Disk) (name : String) : Disk :=
  (removeJournal name).apply disk

/-- The end of a recovery is stopped before the journal is removed, with or
without its result record, or after it. -/
theorem finishRecovery_cases (h : Reaches FileOp.apply (finishRecovery name journal) d d') :
    d' = d ∨ (journal.phase = .committed ∧ loadTransactionResult d journal.id = .ok none ∧
        d' = d.withResult journal) ∨
      eval FileOp.apply (finishRecovery name journal) d = (.ok (), d') := by
  unfold finishRecovery at h ⊢
  by_cases hp : journal.phase = .committed
  · simp only [hp, if_true] at h ⊢
    obtain h | ⟨_, s, rfl, he, h⟩ := reaches_bind_strict strict_saveTransactionResult h
      fun | .error _ => .inr ⟨_, rfl⟩ | .ok _ => .inl rfl
    · obtain rfl | hw := saveTransactionResult_cases h
      · exact .inl rfl
      · exact .inr (.inl ⟨trivial, hw⟩)
    · -- The removal of the journal is tried on the disk the save ends with.
      obtain rfl | rfl := reaches_last h
      · obtain rfl | hw := saveTransactionResult_cases (reaches_eval he)
        · exact .inl rfl
        · exact .inr (.inl ⟨trivial, hw⟩)
      · refine .inr (.inr ?_)
        rw [eval_bind, he]
        rfl
  · simp only [hp, if_false, bind_done] at h ⊢
    obtain rfl | rfl := reaches_last h
    · exact .inl rfl
    · exact .inr (.inr rfl)

/-- The end of a recovery that reports success met no fault. -/
theorem strict_finishRecovery : Strict FileOp.apply Succeeded (finishRecovery name journal) := by
  have hs : Strict FileOp.apply Succeeded
      (if journal.phase = .committed then saveTransactionResult journal else .done (.ok ())) := by
    split
    · exact strict_saveTransactionResult
    · trivial
  refine strict_bind hs ?_ ?_
  · rintro _ rfl
    exact strict_lastOperation
  · rintro (e | u) h
    · exact ⟨_, rfl, nofun⟩
    · exact absurd rfl h

/-- What remains of a recovery once the end of one journal was evaluated. -/
def continueRecovery (rest : List (String × TransactionJournal)) :
    Except RunError Unit × Disk → Except RunError Unit × Disk
  | (.error e, disk) => (.error e, disk)
  | (.ok _, disk) => Prog.eval FileOp.apply (recoverJournals rest) disk

/-- Recovery starts with the first journal, whose images do not depend on what
its files held. -/
theorem recover_head (he : disk.journals.entries = (name, journal) :: rest)
    (hv : validateJournal name journal = .ok ()) :
    disk.recover = continueRecovery rest
      (eval FileOp.apply (finishRecovery name journal) (disk.replayed journal)) := by
  have hr : disk.recover = eval FileOp.apply (recoverJournals ((name, journal) :: rest)) disk := by
    rw [← he]
    rfl
  rw [hr, recoverJournals, eval_bind, eval_recoverJournal hv]
  cases h : eval FileOp.apply (finishRecovery name journal) (disk.replayed journal) with
  | mk result s => cases result <;> rfl

/-- A finished recovery of one journal removed its file. -/
theorem finishRecovery_journals
    (h : eval FileOp.apply (finishRecovery name journal) d = (.ok (), d')) :
    d'.journals = d.journals.del name := by
  unfold finishRecovery at h
  by_cases hp : journal.phase = .committed
  · simp only [hp, if_true, eval_bind] at h
    generalize hs : eval FileOp.apply (saveTransactionResult journal) d = saved at h
    obtain ⟨_ | _, s⟩ := saved
    · cases h
    · cases h
      obtain rfl | ⟨-, rfl⟩ := saveTransactionResult_cases (reaches_eval hs) <;> rfl
  · simp only [hp, if_false, bind_done, eval] at h
    cases h
    rfl

/-! ## Stopped recoveries -/

/-- The result of every journal can be read back once it is recorded. -/
def Disk.ResultsValid (disk : Disk) : Prop :=
  ∀ entry ∈ disk.journals.entries,
    validateArtifactStages entry.2.id entry.2.result.artifacts = .ok ()

/-- What an accepted journal says about its own identity. -/
theorem validateJournal_identity (h : validateJournal name journal = .ok ()) :
    name = journalName journal.id ∧ journal.fingerprint.isSome ∧
      journal.result.transactionID = journal.id ∧
      journal.result.outcome = journal.phase.outcome := by
  simp only [validateJournal, Outcome.bind_eq_ok, require_eq_ok, decide_eq_true_eq] at h
  obtain ⟨_, -, _, hn, _, hf, _, hid, _, ho, -⟩ := h
  exact ⟨hn, hf, hid, ho⟩

/-- The record of a committed journal is read back, unless its stages are invalid. -/
theorem load_withResult (hv : validateJournal name journal = .ok ())
    (hp : journal.phase = .committed) :
    loadTransactionResult (disk.withResult journal) journal.id = .ok (some journal.resultRecord) ∨
      ∃ e, loadTransactionResult (disk.withResult journal) journal.id = .error e ∧
        validateArtifactStages journal.id journal.result.artifacts ≠ .ok () := by
  obtain ⟨-, hf, hid, ho⟩ := validateJournal_identity hv
  rw [hp] at ho
  have hs : (disk.withResult journal).results journal.id = some journal.resultRecord := by
    simp [withResult, FileOp.apply]
  unfold loadTransactionResult
  simp only [hs, resultRecord, hf, hid, ho, TransactionPhase.outcome, require]
  cases hst : validateArtifactStages journal.id journal.result.artifacts with
  | error e => exact .inr ⟨_, rfl, by rintro ⟨⟩⟩
  | ok u => exact .inl rfl

/-- Two disks that differ in the files of their first journal only recover alike. -/
theorem Disk.Near.recover (he : d.journals.entries = (name, journal) :: rest)
    (hv : validateJournal name journal = .ok ()) (h : d.Near journal.paths d') :
    d'.recover = d.recover := by
  have hen : d'.journals.entries = (name, journal) :: rest := by
    obtain ⟨records, rfl, -⟩ := h
    exact he
  rw [recover_head he hv, recover_head hen hv, h.replayed]

/-- Once the first journal is done, recovery goes on with the others. -/
theorem recover_of_finished {d s : Disk} {name : String} {journal : TransactionJournal}
    {rest : List (String × TransactionJournal)}
    (he : d.journals.entries = (name, journal) :: rest)
    (hv : validateJournal name journal = .ok ())
    (hd : eval FileOp.apply (finishRecovery name journal) (d.replayed journal) =
      (.ok (), s)) : s.journals.entries = rest ∧ s.recover = d.recover := by
  have hr : s.journals.entries = rest := by
    rw [finishRecovery_journals hd]
    exact SortedMap.entries_del_head he
  refine ⟨hr, ?_⟩
  rw [recover_head he hv, hd]
  show eval FileOp.apply (recoverJournals s.journals.entries) s = _
  rw [hr]
  rfl

/-- A recovery of its first journal that is stopped before the end leaves a disk
that recovers alike, provided that the result can be read back. -/
theorem recover_of_reaches_head (he : d.journals.entries = (name, journal) :: rest)
    (h : Reaches FileOp.apply (recoverJournal name journal) d d')
    (hok : Succeeded d'.recover.1 ∨ d.ResultsValid) : d'.recover = d.recover := by
  unfold recoverJournal at h
  split at h
  next e hi => exact h ▸ rfl
  next u hv =>
    rw [applyTransactionMutations_eq] at h
    have hp : ∀ mutation ∈ journal.replay, mutation.path ∈ journal.paths := fun mutation hm =>
      mem_map.mpr ⟨mutation, mem_replay.mp hm, rfl⟩
    obtain him | ⟨_, s, rfl, hev, hf⟩ := reaches_bind_strict (strict_putImages _ _ _) h
      fun | false => .inr ⟨_, rfl⟩ | true => .inl rfl
    · exact (near_of_reaches_putImages him hp).recover he hv
    · rw [eval_putImages] at hev
      obtain rfl : d.replayed journal = s := congrArg Prod.snd hev
      obtain rfl | ⟨hph, hl, rfl⟩ | hd := finishRecovery_cases hf
      · exact (d.near_replayed journal).recover he hv
      · -- The result record was written before the stop, and is found again.
        have ha : ((d.replayed journal).withResult journal).replayed journal =
            (d.replayed journal).withResult journal :=
          congrArg (·.withResult journal) (d.near_replayed journal).replayed
        have hen : ((d.replayed journal).withResult journal).journals.entries =
            (name, journal) :: rest := he
        have hs : ∀ result, loadTransactionResult
            ((d.replayed journal).withResult journal) journal.id = .ok (some result) →
            result = journal.resultRecord →
            ((d.replayed journal).withResult journal).recover = d.recover := by
          rintro result hag rfl
          rw [recover_head he hv, recover_head hen hv, ha]
          unfold finishRecovery
          simp only [hph, if_true, eval_bind,
            eval_saveTransactionResult_again hag, eval_saveTransactionResult_new hl]
        obtain hfo | ⟨e, her, hst⟩ := load_withResult hv hph
        · exact hs _ hfo rfl
        · obtain hok | hok := hok
          · rw [recover_head hen hv, ha] at hok
            simp [finishRecovery, hph, saveTransactionResult, eval, her,
              continueRecovery, Succeeded] at hok
          · exact absurd (hok (name, journal) (he ▸ mem_cons_self)) hst
      · exact (recover_of_finished he hv hd).2

/-- A recovery of one journal that reports success met no fault. -/
theorem strict_recoverJournal : Strict FileOp.apply Succeeded (recoverJournal name journal) := by
  unfold recoverJournal
  split
  · trivial
  · refine strict_bind (strict_putImages _ _ _) ?_ ?_
    · rintro _ rfl
      exact strict_finishRecovery
    · rintro (_ | _) h
      · exact ⟨_, rfl, nofun⟩
      · exact absurd rfl h

/-- A recovery that reports success met no fault. -/
theorem strict_recoverLocked : Strict FileOp.apply Succeeded recoverLocked := by
  intro disk
  dsimp only
  induction disk.journals.entries with
  | nil => trivial
  | cons entry rest ih =>
    refine strict_bind strict_recoverJournal ?_ ?_
    · rintro _ rfl
      exact ih
    · rintro (e | u) h
      · exact ⟨_, rfl, nofun⟩
      · exact absurd rfl h

/-- **Recovery may be stopped anywhere.**  From a disk that a recovery passes
through, with any faults and stopped at any point, recovery gives what it gives
from the disk it started with. -/
theorem recover_of_reaches (h : Reaches FileOp.apply recoverLocked d d')
    (hok : Succeeded d'.recover.1 ∨ d.ResultsValid) : d'.recover = d.recover := by
  have hl : ∀ (journals : List (String × TransactionJournal)) (d : Disk),
      d.journals.entries = journals →
      Reaches FileOp.apply (recoverJournals journals) d d' →
      Succeeded d'.recover.1 ∨ d.ResultsValid → d'.recover = d.recover := by
    intro journals
    induction journals with
    | nil => rintro d - rfl -; rfl
    | cons entry rest ih =>
      obtain ⟨name, journal⟩ := entry
      intro d he h hok
      obtain h | ⟨_, s, rfl, hev, h⟩ := reaches_bind_strict strict_recoverJournal h
        fun | .error _ => .inr ⟨_, rfl⟩ | .ok _ => .inl rfl
      · exact recover_of_reaches_head he h hok
      · cases hv : validateJournal name journal with
        | error e =>
          simp only [recoverJournal, hv, eval] at hev
          cases hev
        | ok u =>
          rw [eval_recoverJournal hv] at hev
          obtain ⟨hr, hs⟩ := recover_of_finished he hv hev
          rw [← hs]
          refine ih s hr h (hok.imp_right fun hre entry hen => ?_)
          rw [hr] at hen
          exact hre entry (he ▸ mem_cons_of_mem _ hen)
  exact hl _ d rfl h hok

/-! ## Finished recoveries and repeated attempts -/

/-- Without journals there is nothing to recover. -/
theorem recover_of_empty (h : d.journals.entries = []) : d.recover = (.ok (), d) := by
  show eval FileOp.apply (recoverJournals d.journals.entries) d = _
  rw [h]
  rfl

/-- A finished recovery leaves no journal. -/
theorem recover_journals (h : Succeeded d.recover.1) : d.recover.2.journals.entries = [] := by
  have hl : ∀ (journals : List (String × TransactionJournal)) (d : Disk),
      d.journals.entries = journals → Succeeded d.recover.1 →
      d.recover.2.journals.entries = [] := by
    intro journals
    induction journals with
    | nil =>
      intro d he _
      rw [recover_of_empty he]
      exact he
    | cons entry rest ih =>
      obtain ⟨name, journal⟩ := entry
      intro d he h
      cases hv : validateJournal name journal with
      | error e =>
        have her : d.recover = (.error e, d) := by
          show eval FileOp.apply (recoverJournals d.journals.entries) d = _
          rw [he]
          simp [recoverJournals, recoverJournal, hv, eval]
        rw [her] at h
        cases h
      | ok u =>
        cases hd : eval FileOp.apply (finishRecovery name journal) (d.replayed journal) with
        | mk result s =>
          cases result with
          | error e =>
            rw [recover_head he hv, hd] at h
            cases h
          | ok u =>
            obtain ⟨hr, hs⟩ := recover_of_finished he hv hd
            rw [← hs] at h ⊢
            exact ih s hr h
  exact hl _ d rfl h

/-- The operations of a recovery: it writes no journal. -/
def FileOp.isRecovery : FileOp → Prop
  | putImage _ _ => True
  | writeResult _ _ => True
  | removeJournal _ => True
  | _ => False

section Uses

variable {P : FileOp → Prop} (hresult : ∀ id record, P (.writeResult id record))
  (hremove : ∀ name, P (.removeJournal name))

include hresult in
theorem uses_saveTransactionResult (journal : TransactionJournal) :
    Uses P (saveTransactionResult journal) := by
  intro disk
  dsimp only
  split
  · trivial
  · trivial
  · exact ⟨hresult _ _, fun _ => trivial⟩

include hresult in
theorem uses_commitNothing : Uses P (commitNothing journal) := by
  refine uses_bind (uses_saveTransactionResult hresult journal.commit) ?_
  rintro (e | u) <;> trivial

include hresult hremove in
theorem uses_finishCommit : Uses P (finishCommit journal) := by
  refine uses_bind (uses_saveTransactionResult hresult journal.commit) ?_
  rintro (e | u)
  · trivial
  · exact ⟨hremove _, fun _ => trivial⟩

include hresult hremove in
/-- A recovery puts images in place, writes result records and removes journals. -/
theorem uses_recoverJournals {journals : List (String × TransactionJournal)}
    (hi : ∀ entry ∈ journals, ∀ mutation ∈ entry.2.mutations,
      P (.putImage (entry.2.phase = .committed) mutation)) :
    Uses P (recoverJournals journals) := by
  have hf : ∀ name journal, Uses P (finishRecovery name journal) := by
    intro name journal
    refine uses_bind ?_ ?_
    · split
      · exact uses_saveTransactionResult hresult journal
      · trivial
    · rintro (e | u)
      · trivial
      · exact ⟨hremove _, fun _ => trivial⟩
  induction journals with
  | nil => trivial
  | cons entry rest ih =>
    refine uses_bind ?_ ?_
    · unfold recoverJournal
      split
      · trivial
      · rw [applyTransactionMutations_eq]
        refine uses_bind (uses_putImages (fun m hm => ?_) _) ?_
        · exact hi entry mem_cons_self m (mem_replay.mp hm)
        · rintro (_ | _)
          · trivial
          · exact hf entry.1 entry.2
    · rintro (e | u)
      · trivial
      · exact ih (forall_mem_cons.mp hi).2

end Uses

theorem uses_recoverLocked : Uses isRecovery recoverLocked :=
  fun _ => uses_recoverJournals (fun _ _ => trivial) (fun _ => trivial) fun _ _ _ _ => trivial

/-- A recovery only removes journals. -/
theorem mem_journals_of_reaches (h : Reaches FileOp.apply recoverLocked d d') :
    ∀ entry ∈ d'.journals.entries, entry ∈ d.journals.entries := by
  refine reaches_induction
    (Q := fun disk => ∀ entry ∈ disk.journals.entries, entry ∈ d.journals.entries)
    ?_ uses_recoverLocked (fun entry he => he) h
  intro op s hop hs entry he
  cases op with
  | putImage after mutation | writeResult id record => exact hs entry he
  | removeJournal name => exact hs entry (Assoc.mem_del he)
  | _ => cases hop

/-- Any number of recoveries, each with any faults and stopped at any point. -/
def RecoveryAttempts : Disk → Disk → Prop :=
  Relation.ReflTransGen (Prog.Reaches FileOp.apply recoverLocked)

/-- After any number of attempts recovery gives what it gives at once. -/
theorem recover_of_attempts (h : RecoveryAttempts d d')
    (hok : Succeeded d'.recover.1 ∨ d.ResultsValid) : d'.recover = d.recover := by
  induction h using Relation.ReflTransGen.head_induction_on with
  | refl => rfl
  | @head d s hst hr ih =>
    have hs : Succeeded d'.recover.1 ∨ s.ResultsValid := hok.imp_right fun hre entry he =>
        hre entry (mem_journals_of_reaches hst entry he)
    have hsa := ih hs
    rw [hsa]
    exact recover_of_reaches hst (hok.imp_left fun hsu => hsa ▸ hsu)

end WeaveFlow
