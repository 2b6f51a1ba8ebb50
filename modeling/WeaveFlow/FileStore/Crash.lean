import WeaveFlow.FileStore.Recovery

/-!
# Crashes during a commit

A commit starts with a recovery, so it works on a disk without journals, and it
leaves at most its own.  Wherever it is stopped, and whatever operations failed
before, the disk is in one of five stages (`CommitStage`), and recovery takes each
stage either back to the disk before the transaction or on to the disk with all
its files and its result record.

So after a crash the contents are the ones before the commit or the ones after
it, and the result record tells which.  It cannot tell where both are the same: a
commit that rewrites a file with its own content, stopped before its journal is
marked committed, leaves the contents of after and no result record.
-/

namespace WeaveFlow

open FileOp Disk Overwrite Outcome Prog List

/-! ## Prepared journals -/

/-- The before-images of a list of mutations are the contents of the disk. -/
def Faithful (disk : Disk) (mutations : List TransactionMutation) : Prop :=
  ∀ mutation ∈ mutations, mutation.before = disk.records mutation.path

variable {disk d post : Disk} {commit : Commit} {ctx : Context} {journal : TransactionJournal}
  {result : CommitResult}

/-- A mutation is added at the end, for a file that has none yet. -/
theorem addMutation_eq {after : Content} {mutations mutations' : List TransactionMutation}
    (h : addMutation disk path after mutations = .ok mutations') :
    (∀ mutation ∈ mutations, mutation.path ≠ path) ∧
      mutations' = mutations ++ [⟨path, disk.records path, some after⟩] := by
  simp only [addMutation, bind_eq_ok, require_eq_ok, all_eq_true, decide_eq_true_eq] at h
  obtain ⟨_, hn, hadd⟩ := h
  cases hadd
  exact ⟨hn, rfl⟩

section Preparing

variable {disk : Disk} {run : Option RunRecord} {Q : List TransactionMutation → Prop}

/-- The property is kept when the mutation of a file is added; a run file gets the
run of the commit. -/
def KeptByAdding (disk : Disk) (run : Option RunRecord) (Q : List TransactionMutation → Prop) :
    Prop :=
  ∀ path after mutations mutations',
    (∀ runID, path = .run runID → ∃ r, run = some r ∧ runID = r.runID ∧ after = .run r) →
    Q mutations → addMutation disk path after mutations = .ok mutations' → Q mutations'

section

variable (hadd : KeptByAdding disk run Q)
include hadd

theorem prepareStep_induction (h : Q mutations)
    (hs : prepareStep disk commit mutations write = .ok mutations') : Q mutations' := by
  simp only [prepareStep, bind_eq_ok] at hs
  obtain ⟨_, -, _, -, hs⟩ := hs
  exact hadd _ _ _ _ (fun _ hp => by cases hp) h hs

theorem prepareCheckpoint_induction (h : Q mutations)
    (hw : prepareCheckpoint disk commit mutations write = .ok mutations') : Q mutations' := by
  simp only [prepareCheckpoint, bind_eq_ok] at hw
  obtain ⟨_, -, _, -, _, hp, hm⟩ := hw
  have h₁ := hadd _ _ _ _ (fun _ hpa => by cases hpa) h hp
  exact hadd _ _ _ _ (fun _ hpa => by cases hpa) h₁ hm

theorem prepareEvents_induction {runID : String} (h : Q mutations)
    (he : prepareEvents disk commit mutations runID = .ok mutations') : Q mutations' := by
  simp only [prepareEvents, bind_eq_ok] at he
  obtain ⟨_, -, he⟩ := he
  exact hadd _ _ _ _ (fun _ hp => by cases hp) h he

/-- The mutations of a commit are added one after the other. -/
theorem prepareMutations_induction (he : Q [])
    (h : prepareMutations disk commit run = .ok mutations) : Q mutations := by
  simp only [prepareMutations, bind_eq_ok] at h
  obtain ⟨_, hru, _, hs, _, hc, _, -, _, hev, _, -, hd⟩ := h
  cases hd
  have h₁ := foldlM_induction (P := Q) (fun _ r _ hr hq hst =>
    hadd _ _ _ _ (fun _ hp => ⟨r, Option.mem_toList.mp hr, by cases hp; rfl, rfl⟩) hq hst)
    he hru
  have h₂ := foldlM_induction (fun _ _ _ _ => prepareStep_induction hadd) h₁ hs
  have h₃ := foldlM_induction (fun _ _ _ _ => prepareCheckpoint_induction hadd) h₂ hc
  exact foldlM_induction (fun _ _ _ _ => prepareEvents_induction hadd) h₃ hev

end

theorem faithful_prepareMutations (h : prepareMutations disk commit run = .ok mutations) :
    Faithful disk mutations := by
  refine prepareMutations_induction ?_ (fun _ hm => absurd hm not_mem_nil) h
  intro path after mutations mutations' _ hf hadd mutation hmu
  obtain ⟨-, rfl⟩ := addMutation_eq hadd
  obtain ho | hn := mem_append.mp hmu
  · exact hf mutation ho
  · obtain rfl := mem_singleton.mp hn
    rfl

end Preparing

/-- What a prepared journal holds. -/
structure Prepared (disk : Disk) (commit : Commit) (journal : TransactionJournal) : Prop where
  id : journal.id = commit.transactionID
  fingerprint : journal.fingerprint = some (commitFingerprint commit)
  phase : journal.phase = .prepared
  identity : journal.result.transactionID = commit.transactionID
  outcome : journal.result.outcome = .notStarted
  stages : validateArtifactStages journal.id journal.result.artifacts = .ok ()
  faithful : Faithful disk journal.mutations

theorem prepared_prepareJournal (h : prepareJournal disk ctx commit = .ok journal) :
    Prepared disk commit journal := by
  simp only [prepareJournal, bind_eq_ok] at h
  obtain ⟨_, hc, run, -, mutations, hm, hj⟩ := h
  cases hj
  refine ⟨rfl, rfl, rfl, rfl, rfl, ?_, ?_⟩
  · simp only [validateRuntimeCommit, bind_eq_ok] at hc
    obtain ⟨_, -, _, -, _, -, _, -, _, -, _, -, hs⟩ := hc
    exact hs
  · intro mutation hmu
    exact faithful_prepareMutations hm mutation ((KeySort.perm_sort _ _).mem_iff.mp hmu)

/-- The committed journal of an accepted prepared one is accepted. -/
theorem validateJournal_commit (h : validateJournal name journal = .ok ()) :
    validateJournal name journal.commit = .ok () := by
  simp only [validateJournal, bind_eq_ok, require_eq_ok, decide_eq_true_eq] at h ⊢
  obtain ⟨_, hid, _, hn, _, hf, _, hi, _, -, hm⟩ := h
  exact ⟨(), hid, (), hn, (), hf, (), hi, (), rfl, hm⟩

/-! ## Stages of a commit -/

def Disk.withJournal (disk : Disk) (journal : TransactionJournal) : Disk :=
  (writeJournal journal).apply disk

def TransactionJournal.contentsAfter (journal : TransactionJournal)
    (records : RecordPath → Option Content) : RecordPath → Option Content :=
  overwrite (imageWrites true journal.mutations) records

/-- The disk after a transaction: its contents and its result record. -/
def Disk.committed (disk : Disk) (journal : TransactionJournal) : Disk :=
  (disk.withRecords (journal.contentsAfter disk.records)).withResult journal.commit

/-- Where a commit can be stopped, on a disk without journals. -/
inductive CommitStage (disk : Disk) (journal : TransactionJournal) : Disk → Prop where
  /-- Nothing was written. -/
  | untouched : CommitStage disk journal disk
  /-- The journal is prepared, and its files may have changed. -/
  | prepared {d : Disk} (valid : validateJournal (journalName journal.id) journal = .ok ())
      (near : (disk.withJournal journal).Near journal.paths d) : CommitStage disk journal d
  /-- The journal is marked committed, and a rollback may have been tried. -/
  | marked {d : Disk} (valid : validateJournal (journalName journal.id) journal = .ok ())
      (near : (disk.withJournal journal.commit).Near journal.paths d) : CommitStage disk journal d
  /-- The result is recorded. -/
  | recorded (valid : validateJournal (journalName journal.id) journal = .ok ()) :
      CommitStage disk journal ((disk.committed journal).withJournal journal.commit)
  /-- The journal is gone. -/
  | finished : CommitStage disk journal (disk.committed journal)

theorem uses_applyCommitMutations {P : FileOp → Prop} {mutations : List TransactionMutation}
    (h : ∀ mutation ∈ mutations, P (.putImage true mutation)) :
    Uses P (applyCommitMutations mutations) := by
  induction mutations with
  | nil => trivial
  | cons mutation rest ih =>
    refine ⟨h mutation mem_cons_self, ?_⟩
    rintro (_ | _)
    · trivial
    · exact ih (forall_mem_cons.mp h).2

theorem near_of_reaches_applyCommitMutations
    (h : Reaches FileOp.apply (applyCommitMutations journal.mutations) d d') :
    d.Near journal.paths d' :=
  near_of_uses (uses_applyCommitMutations fun mutation hm =>
    near_putImage (mem_map.mpr ⟨mutation, hm, rfl⟩) true) h

theorem strict_applyCommitMutations (mutations : List TransactionMutation) :
    Strict FileOp.apply (· = true) (applyCommitMutations mutations) := by
  induction mutations with
  | nil => trivial
  | cons mutation rest ih => exact ⟨ih, never_done (by simp)⟩

theorem eval_applyCommitMutations (mutations : List TransactionMutation) (disk : Disk) :
    eval FileOp.apply (applyCommitMutations mutations) disk =
      (true, disk.withRecords (overwrite (imageWrites true mutations) disk.records)) := by
  induction mutations generalizing disk with
  | nil => rfl
  | cons mutation rest ih =>
    show eval FileOp.apply (applyCommitMutations rest) _ = _
    rw [ih]
    rfl

theorem near_of_reaches_rollback (h : Reaches FileOp.apply (rollback journal) d d') :
    d.Near journal.paths d' := by
  have hp : ∀ mutation ∈ journal.mutations.reverse, mutation.path ∈ journal.paths :=
    fun mutation hm => mem_map.mpr ⟨mutation, mem_reverse.mp hm, rfl⟩
  exact near_of_reaches_putImages (reaches_of_bind_done h) hp

/-- The journal file is replaced when the journal is marked. -/
theorem withJournal_commit (disk : Disk) (journal : TransactionJournal) :
    (disk.withJournal journal).withJournal journal.commit = disk.withJournal journal.commit :=
  congrArg (fun journals => { disk with journals := journals }) SortedMap.put_put

section Stages

variable (he : disk.journals.entries = []) (hl : loadTransactionResult disk journal.id = .ok none)
  (hp : Prepared disk commit journal)
  (hv : validateJournal (journalName journal.id) journal = .ok ())

include he in
/-- The journal file is gone again. -/
theorem withoutJournal_withJournal
    (marked : TransactionJournal) (hid : marked.id = journal.id) :
    (disk.withJournal marked).withoutJournal (journalName journal.id) = disk := by
  have hg : disk.journals.get (journalName journal.id) = none := by
    rw [SortedMap.get, he]
    rfl
  have hd := SortedMap.del_put hg marked
  refine Disk.ext rfl rfl ?_ rfl
  show (disk.journals.put (journalName marked.id) marked).del (journalName journal.id) = _
  rw [hid]
  exact hd

/-- The marked disk differs from the one before in the files of the transaction. -/
theorem near_marked (disk : Disk) (journal : TransactionJournal) :
    (disk.withJournal journal.commit).Near journal.paths
      ((disk.withRecords (journal.contentsAfter disk.records)).withJournal journal.commit) := by
  refine ⟨journal.contentsAfter disk.records, rfl, ?_⟩
  intro path hpa
  refine overwrite_of_notMem fun hp => hpa ?_
  rwa [map_fst_imageWrites] at hp

/-- The journal is marked once its files are written. -/
theorem apply_mark (disk : Disk) (journal : TransactionJournal) :
    (writeJournal journal.commit).apply ((disk.withJournal journal).withRecords
        (overwrite (imageWrites true journal.mutations) (disk.withJournal journal).records)) =
      (disk.withRecords (journal.contentsAfter disk.records)).withJournal journal.commit :=
  withJournal_commit (disk.withRecords (journal.contentsAfter disk.records)) journal

/-- The journal is removed once its result is recorded. -/
theorem apply_removeJournal (he : disk.journals.entries = []) :
    (removeJournal (journalName journal.id)).apply
      (((disk.withRecords (journal.contentsAfter disk.records)).withJournal
        journal.commit).withResult journal.commit) = disk.committed journal := by
  have hem : (disk.committed journal).journals.entries = [] := he
  exact withoutJournal_withJournal hem journal.commit rfl

include he hl hv in
theorem stage_finishCommit {d : Disk}
    (h : Reaches FileOp.apply (finishCommit journal)
      ((disk.withRecords (journal.contentsAfter disk.records)).withJournal journal.commit) d) :
    CommitStage disk journal d := by
  have hm : CommitStage disk journal
      ((disk.withRecords (journal.contentsAfter disk.records)).withJournal journal.commit) :=
    .marked hv (near_marked disk journal)
  have hlo : loadTransactionResult
      ((disk.withRecords (journal.contentsAfter disk.records)).withJournal journal.commit)
      journal.commit.id = .ok none := hl
  obtain h | ⟨_, s, rfl, hev, h⟩ := reaches_bind_strict strict_saveTransactionResult h
    fun | .error _ => .inr ⟨_, rfl⟩ | .ok _ => .inl rfl
  · obtain rfl | ⟨-, rfl⟩ := saveTransactionResult_cases h
    · exact hm
    · exact .recorded hv
  · rw [eval_saveTransactionResult_new hlo] at hev
    cases hev
    -- The removal takes effect or it does not.
    obtain rfl | h := reaches_last h
    · exact .recorded hv
    · exact (h.trans (apply_removeJournal he)) ▸ .finished

include he hl hv in
theorem stage_applyJournal
    (h : Reaches FileOp.apply (applyJournal journal) (disk.withJournal journal) d) :
    CommitStage disk journal d := by
  obtain h | ⟨ok, s, ha, h⟩ := reaches_bind h
  · exact .prepared hv (near_of_reaches_applyCommitMutations h)
  · have hn := near_of_reaches_applyCommitMutations (reaches_ends ha)
    cases ok with
    | false => exact .prepared hv (hn.trans (near_of_reaches_rollback h))
    | true =>
      obtain rfl | ⟨fault, h⟩ := h
      · exact .prepared hv hn
      · have hev := honest_of_strict (strict_applyCommitMutations _) _ _ _ ha rfl
        rw [eval_applyCommitMutations] at hev
        obtain rfl := (congrArg Prod.snd hev).symm
        have hm := apply_mark disk journal
        cases fault with
        | none =>
          have h' : Reaches FileOp.apply (finishCommit journal)
              ((writeJournal journal.commit).apply _) d := h
          rw [hm] at h'
          exact stage_finishCommit he hl hv h'
        | before => exact .prepared hv (hn.trans (near_of_reaches_rollback h))
        | after =>
          have h' : Reaches FileOp.apply (rollback journal)
              ((writeJournal journal.commit).apply _) d := h
          rw [hm] at h'
          exact .marked hv ((near_marked disk journal).trans (near_of_reaches_rollback h'))

include he hl in
theorem stage_commitJournal
    (h : Reaches FileOp.apply (commitJournal journal) disk d) :
    CommitStage disk journal d := by
  unfold commitJournal at h
  split at h
  next hn =>
    have hf : disk.withResult journal.commit = disk.committed journal := by
      simp [committed, TransactionJournal.contentsAfter, hn, imageWrites]
    have hs : Reaches FileOp.apply (saveTransactionResult journal.commit) disk d := by
      obtain h | ⟨_, s, rfl, hev, h⟩ := reaches_bind_strict strict_saveTransactionResult h
        fun r => by cases r <;> [exact .inr ⟨_, rfl⟩; exact .inl rfl]
      · exact h
      · exact h ▸ reaches_eval hev
    obtain rfl | ⟨-, rfl⟩ := saveTransactionResult_cases hs
    · exact .untouched
    · exact hf ▸ .finished
  next hm =>
    obtain rfl | ⟨fault, h⟩ := h
    · exact .untouched
    · have hd : (outcome FileOp.apply makeDirectory disk fault).2 = disk := by
        cases fault <;> rfl
      rw [hd] at h
      generalize (outcome FileOp.apply makeDirectory disk fault).1 = ok at h
      cases ok with
      | false =>
        have hsa : d = disk := h
        exact hsa ▸ .untouched
      | true =>
        split at h
        · exact h ▸ .untouched
        next u hv =>
          obtain rfl | ⟨fault, h⟩ := h
          · exact .untouched
          · cases fault with
            | none => exact stage_applyJournal he hl hv h
            | before =>
              have hsa : d = disk := h
              exact hsa ▸ .untouched
            | after =>
              have hsa : d = disk.withJournal journal := h
              exact hsa ▸ .prepared hv (.refl _ _)

/-! ## Recovery from a stage -/

include he in
theorem entries_withJournal (marked : TransactionJournal) :
    (disk.withJournal marked).journals.entries = [(journalName marked.id, marked)] := by
  show Assoc.put _ _ disk.journals.entries = _
  rw [he]
  rfl

include he hp hv in
/-- A prepared journal is undone. -/
theorem recover_prepared :
    (disk.withJournal journal).recover = (.ok (), disk) := by
  have hu : (disk.withJournal journal).replayed journal = disk.withJournal journal := by
    have hr : overwrite journal.writes disk.records = disk.records := by
      refine overwrite_eq_self fun write hw => ?_
      obtain ⟨mutation, hm, rfl⟩ := mem_map.mp hw
      have hb := hp.faithful mutation (TransactionJournal.mem_replay.mp hm)
      simp [TransactionMutation.image, hp.phase, hb]
    exact congrArg (disk.withJournal journal).withRecords hr
  rw [recover_head (entries_withJournal he journal) hv, hu]
  have hf : eval FileOp.apply (finishRecovery (journalName journal.id) journal)
      (disk.withJournal journal) =
        (.ok (), (disk.withJournal journal).withoutJournal (journalName journal.id)) := by
    simp [finishRecovery, hp.phase, eval, withoutJournal]
  rw [hf, withoutJournal_withJournal he journal rfl]
  rfl

include he hv in
/-- A committed journal is redone, and its result is recorded or found. -/
theorem recover_marked {d s : Disk}
    (hen : d.journals.entries = [(journalName journal.id, journal.commit)])
    (hsa : eval FileOp.apply (saveTransactionResult journal.commit)
      (d.replayed journal.commit) = (.ok (), s))
    (hs : s = (disk.committed journal).withJournal journal.commit) :
    d.recover = (.ok (), disk.committed journal) := by
  rw [recover_head hen (validateJournal_commit hv)]
  have hp : journal.commit.phase = .committed := rfl
  have hem : (disk.committed journal).journals.entries = [] := he
  unfold finishRecovery
  simp only [hp, if_true, eval_bind, hsa, eval]
  show (Except.ok (), s.withoutJournal (journalName journal.id)) = _
  rw [hs]
  exact congrArg _ (withoutJournal_withJournal hem journal.commit rfl)

include he hl hv in
/-- A marked journal is redone, whatever its files hold. -/
theorem recover_of_marked
    (hn : (disk.withJournal journal.commit).Near journal.paths d) :
    d.recover = (.ok (), disk.committed journal) := by
  have hen := entries_withJournal he journal.commit
  rw [hn.recover hen (validateJournal_commit hv)]
  have hlo : loadTransactionResult
      ((disk.withJournal journal.commit).replayed journal.commit) journal.commit.id = .ok none := hl
  exact recover_marked he hv hen (eval_saveTransactionResult_new hlo) rfl

include he hp hv in
/-- A marked journal whose result is recorded is redone, and the result is found. -/
theorem recover_of_recorded :
    ((disk.committed journal).withJournal journal.commit).recover =
      (.ok (), disk.committed journal) := by
  have hem : (disk.committed journal).journals.entries = [] := he
  have ha : ((disk.committed journal).withJournal journal.commit).replayed
      journal.commit = (disk.committed journal).withJournal journal.commit := by
    have hr : overwrite journal.commit.writes (journal.contentsAfter disk.records) =
        journal.contentsAfter disk.records :=
      overwrite_congr agreeOff_overwrite
    exact congrArg ((disk.committed journal).withJournal journal.commit).withRecords hr
  have hf : loadTransactionResult
      ((disk.committed journal).withJournal journal.commit) journal.commit.id =
        .ok (some journal.commit.resultRecord) := by
    obtain hf | ⟨e, -, hs⟩ := load_withResult (validateJournal_commit hv) rfl
    · exact hf
    · exact absurd hp.stages hs
  refine recover_marked he hv (entries_withJournal hem journal.commit) ?_ rfl
  rw [ha]
  exact eval_saveTransactionResult_again hf

include he hl hp in
/-- Recovery takes every stage back to the disk before or on to the disk after. -/
theorem recover_of_stage (h : CommitStage disk journal d) :
    d.recover = (.ok (), disk) ∨ d.recover = (.ok (), disk.committed journal) := by
  cases h with
  | untouched => exact .inl (recover_of_empty he)
  | prepared hv hn =>
    rw [hn.recover (entries_withJournal he journal) hv]
    exact .inl (recover_prepared he hp hv)
  | marked hv hn => exact .inr (recover_of_marked he hl hv hn)
  | recorded hv => exact .inr (recover_of_recorded he hp hv)
  | finished => exact .inr (recover_of_empty he)

/-! ## Commits as a whole -/

/-- A commit is stopped in the recovery it starts with, or at a stage of its
transaction on the recovered disk. -/
theorem commitFiles_cases (h : Reaches FileOp.apply (commitFiles ctx commit) disk d) :
    Reaches FileOp.apply recoverLocked disk d ∨ (Succeeded disk.recover.1 ∧ d = disk.recover.2) ∨
      ∃ journal, Succeeded disk.recover.1 ∧ prepareJournal disk.recover.2 ctx commit = .ok journal ∧
        loadTransactionResult disk.recover.2 journal.id = .ok none ∧
        CommitStage disk.recover.2 journal d := by
  unfold commitFiles at h
  split at h
  · exact .inl (h ▸ reaches_self)
  obtain h | ⟨_, s, rfl, he, h⟩ := reaches_bind_strict strict_recoverLocked h
    fun | .error _ => .inr ⟨_, rfl⟩ | .ok _ => .inl rfl
  · exact .inl h
  · have hok : Succeeded disk.recover.1 := congrArg Prod.fst he
    obtain rfl : disk.recover.2 = s := congrArg Prod.snd he
    refine .inr ?_
    have hc : Reaches FileOp.apply (commitRecovered ctx commit disk.recover.2) disk.recover.2 d := h
    unfold commitRecovered at hc
    split at hc
    · exact .inl ⟨hok, hc⟩
    · split at hc
      · exact .inl ⟨hok, hc⟩
      · exact .inl ⟨hok, hc⟩
    next hl =>
      split at hc
      · exact .inl ⟨hok, hc⟩
      next journal hj =>
        rw [← (prepared_prepareJournal hj).id] at hl
        exact .inr ⟨journal, hok, hj, hl, stage_commitJournal (recover_journals hok) hl hc⟩

include he hl in
/-- Without faults, a prepared journal is carried through. -/
theorem eval_applyJournal :
    eval FileOp.apply (applyJournal journal) (disk.withJournal journal) =
      ((journal.commit.result, none), disk.committed journal) := by
  have hm : ((disk.withJournal journal).withRecords
      (journal.contentsAfter disk.records)).withJournal journal.commit =
        (disk.withRecords (journal.contentsAfter disk.records)).withJournal journal.commit :=
    withJournal_commit (disk.withRecords (journal.contentsAfter disk.records)) journal
  have hlo : loadTransactionResult
      ((disk.withRecords (journal.contentsAfter disk.records)).withJournal journal.commit)
      journal.commit.id = .ok none := hl
  have hem : (disk.committed journal).journals.entries = [] := he
  rw [applyJournal, eval_bind, eval_applyCommitMutations]
  show eval FileOp.apply (finishCommit journal) (((disk.withJournal journal).withRecords
      (journal.contentsAfter disk.records)).withJournal journal.commit) = _
  rw [hm, finishCommit, eval_bind, eval_saveTransactionResult_new hlo]
  exact congrArg (Prod.mk _) (withoutJournal_withJournal hem journal.commit rfl)

include he hl in
/-- A transaction that returns without an error is complete. -/
theorem eval_commitJournal
    (h : eval FileOp.apply (commitJournal journal) disk = ((result, none), post)) :
    post = disk.committed journal := by
  unfold commitJournal at h
  split at h
  next hn =>
    have hlo : loadTransactionResult disk journal.commit.id = .ok none := hl
    rw [commitNothing, eval_bind, eval_saveTransactionResult_new hlo] at h
    have hp : disk.withResult journal.commit = post := congrArg Prod.snd h
    rw [← hp]
    simp [committed, TransactionJournal.contentsAfter, hn, imageWrites]
  next hm =>
    split at h
    · cases congrArg (fun r => r.1.2) h
    · have hd := eval_applyJournal he hl
      have ha : eval FileOp.apply (applyJournal journal) (disk.withJournal journal) =
          ((result, none), post) := h
      rw [hd] at ha
      exact (congrArg Prod.snd ha).symm

end Stages

/-- A valid commit: the contents it leaves, and where they come from. -/
theorem eval_commitFiles
    (h : eval FileOp.apply (commitFiles ctx commit) disk = ((result, none), post)) :
    Succeeded disk.recover.1 ∧ ((post = disk.recover.2 ∧
          ∃ stored, loadTransactionResult disk.recover.2 commit.transactionID = .ok (some stored)) ∨
        ∃ journal, prepareJournal disk.recover.2 ctx commit = .ok journal ∧
          post = disk.recover.2.committed journal) := by
  unfold commitFiles at h
  split at h
  · cases congrArg (fun r => r.1.2) h
  rw [eval_bind] at h
  cases hr : eval FileOp.apply recoverLocked disk with
  | mk outcome s =>
    rw [hr] at h
    cases outcome with
    | error e => cases congrArg (fun r => r.1.2) h
    | ok u =>
      have hok : Succeeded disk.recover.1 := congrArg Prod.fst hr
      have hs : s = disk.recover.2 := (congrArg Prod.snd hr).symm
      subst hs
      refine ⟨hok, ?_⟩
      have hc : eval FileOp.apply (commitRecovered ctx commit disk.recover.2)
          disk.recover.2 = ((result, none), post) := h
      unfold commitRecovered at hc
      split at hc
      · cases congrArg (fun r => r.1.2) hc
      next stored hl =>
        split at hc
        · exact .inl ⟨(congrArg Prod.snd hc).symm, stored, hl⟩
        · cases congrArg (fun r => r.1.2) hc
      next hl =>
        split at hc
        · cases congrArg (fun r => r.1.2) hc
        next journal hj =>
          rw [← (prepared_prepareJournal hj).id] at hl
          exact .inr ⟨journal, hj, eval_commitJournal (recover_journals hok) hl hc⟩

/-! ## Crash atomicity -/

/-- The outcome `ResolveCommit` reports. -/
def Disk.reported (disk : Disk) (transactionID : String) : TransactionOutcome :=
  (Prog.eval FileOp.apply (resolveCommit transactionID) disk).1.1.outcome

/-- On a recovered disk the report is read off the result record. -/
theorem reported_of_empty (hid : validateRunnerStorageID "transaction ID" transactionID = .ok ())
    (he : disk.journals.entries = []) :
    disk.reported transactionID = (resolveRecovered transactionID disk).1.outcome := by
  have hr : eval FileOp.apply recoverLocked disk = (.ok (), disk) := recover_of_empty he
  unfold reported resolveCommit
  simp only [hid, eval_bind, hr, eval]

theorem validTransactionID_of_prepared (hj : prepareJournal disk ctx commit = .ok journal) :
    validateRunnerStorageID "transaction ID" commit.transactionID = .ok () := by
  simp only [prepareJournal, validateRuntimeCommit, bind_eq_ok] at hj
  obtain ⟨_, ⟨_, hid, -⟩, -⟩ := hj
  exact hid

theorem reported_committed (he : disk.journals.entries = [])
    (hj : prepareJournal disk ctx commit = .ok journal) :
    (disk.committed journal).reported commit.transactionID = .committed := by
  have hp := prepared_prepareJournal hj
  have hid := validTransactionID_of_prepared hj
  have hem : (disk.committed journal).journals.entries = [] := he
  have hs : (disk.committed journal).results commit.transactionID =
      some journal.commit.resultRecord := by
    rw [← hp.id]
    exact Function.update_self _ _ _
  have hst : validateArtifactStages commit.transactionID journal.commit.result.artifacts =
      .ok () := hp.id ▸ hp.stages
  have hl : loadTransactionResult (disk.committed journal) commit.transactionID =
      .ok (some journal.commit.resultRecord) := by
    have hi : journal.commit.result.transactionID = commit.transactionID := hp.identity
    have hf : journal.commit.fingerprint = some (commitFingerprint commit) := hp.fingerprint
    have ho : journal.commit.result.outcome = .committed := rfl
    unfold loadTransactionResult
    simp only [hs, TransactionJournal.resultRecord, hi, hf, ho, hst, require]
    rfl
  rw [reported_of_empty hid hem, resolveRecovered, hl]
  rfl

/-- The journal of a commit has a result that can be read back. -/
theorem resultsValid_of_stage (he : disk.journals.entries = [])
    (hp : Prepared disk commit journal) (h : CommitStage disk journal d) :
    d.ResultsValid := by
  have hn : ∀ d : Disk, d.journals.entries = [] → d.ResultsValid := by
    intro d hd entry hen
    rw [hd] at hen
    exact absurd hen not_mem_nil
  have ho : ∀ (d : Disk) (marked : TransactionJournal), d.journals.entries = [] →
      validateArtifactStages marked.id marked.result.artifacts = .ok () →
      (d.withJournal marked).ResultsValid := by
    intro d marked hd hs entry hen
    rw [entries_withJournal hd marked] at hen
    obtain rfl := mem_singleton.mp hen
    exact hs
  cases h with
  | untouched => exact hn disk he
  | prepared _ hne =>
    obtain ⟨records, rfl, -⟩ := hne
    exact ho disk journal he hp.stages
  | marked _ hne =>
    obtain ⟨records, rfl, -⟩ := hne
    exact ho disk journal.commit he hp.stages
  | recorded _ => exact ho (disk.committed journal) journal.commit he hp.stages
  | finished => exact hn _ he

/-- What a commit leaves has results that can be read back if they could before. -/
theorem resultsValid_of_commit (h : Reaches FileOp.apply (commitFiles ctx commit) disk d)
    (hd : disk.ResultsValid) : d.ResultsValid := by
  obtain h | ⟨hok, rfl⟩ | ⟨journal, hok, hj, -, hs⟩ := commitFiles_cases h
  · exact fun entry he => hd entry (mem_journals_of_reaches h entry he)
  · intro entry he
    rw [recover_journals hok] at he
    exact absurd he not_mem_nil
  · exact resultsValid_of_stage (recover_journals hok) (prepared_prepareJournal hj) hs

/-- The disk a crash of a valid commit leaves recovers to the disk before the
commit or to the disk after it. -/
theorem recover_of_crash
    (hv : eval FileOp.apply (commitFiles ctx commit) disk = ((result, none), post))
    (hc : Reaches FileOp.apply (commitFiles ctx commit) disk crashed)
    (hr : Succeeded crashed.recover.1 ∨ disk.ResultsValid) :
    crashed.recover = disk.recover ∨
      (crashed.recover = (.ok (), post) ∧ post.reported commit.transactionID = .committed) := by
  obtain ⟨hok, hp⟩ := eval_commitFiles hv
  have he := recover_journals hok
  obtain h | ⟨-, rfl⟩ | ⟨journal, -, hj, hl, hs⟩ := commitFiles_cases hc
  · exact .inl (recover_of_reaches h hr)
  · rw [recover_of_empty he]
    exact .inl (Prod.ext hok.symm rfl)
  · have hpr := prepared_prepareJournal hj
    obtain hb | ha := recover_of_stage he hl hpr hs
    · exact .inl (hb.trans (Prod.ext hok.symm rfl))
    · obtain ⟨-, stored, hst⟩ | ⟨journal', hjo, rfl⟩ := hp
      · simp [hpr.id, hst] at hl
      · rw [hj] at hjo
        cases hjo
        exact .inr ⟨ha, reported_committed he hj⟩

/-- **Crash atomicity.**  A valid commit is stopped anywhere, whatever operations
of it failed before, and recovery is attempted any number of times.  Once a
recovery finishes, no journal is left, and either the contents are the ones
before the commit and the transaction is reported as before the commit, or they
are the ones after it and the transaction is reported committed.  So where the
two contents differ, a new transaction is reported committed exactly when the
contents are the ones after it.  And a recovery does finish, unless a journal
with an unreadable result was there before. -/
theorem commit_crash_atomic {ctx : Context} {commit : Commit} {disk post crashed d : Disk}
    {result : CommitResult}
    (hvalid : Prog.eval FileOp.apply (commitFiles ctx commit) disk = ((result, none), post))
    (hcrash : Prog.Reaches FileOp.apply (commitFiles ctx commit) disk crashed)
    (hattempts : RecoveryAttempts crashed d) :
    (Succeeded d.recover.1 → d.recover.2.journals.entries = [] ∧
      ((d.recover.2.records = disk.recover.2.records ∧ d.recover.2.reported commit.transactionID =
            disk.recover.2.reported commit.transactionID) ∨
        (d.recover.2.records = post.records ∧
          d.recover.2.reported commit.transactionID = .committed)) ∧
      (disk.recover.2.reported commit.transactionID = .notStarted →
        disk.recover.2.records ≠ post.records →
        (d.recover.2.reported commit.transactionID = .committed ↔
          d.recover.2.records = post.records))) ∧
    (disk.ResultsValid → Succeeded d.recover.1) := by
  have hs : Succeeded d.recover.1 ∨ disk.ResultsValid → d.recover = disk.recover ∨
        (d.recover = (.ok (), post) ∧ post.reported commit.transactionID = .committed) := by
    intro hr
    have hsa : d.recover = crashed.recover :=
      recover_of_attempts hattempts (hr.imp_right (resultsValid_of_commit hcrash))
    rw [hsa] at hr ⊢
    exact recover_of_crash hvalid hcrash hr
  constructor
  · intro hd
    obtain hb | ⟨ha, hre⟩ := hs (.inl hd)
    · rw [hb] at hd ⊢
      refine ⟨recover_journals hd, .inl ⟨rfl, rfl⟩, fun hn hdi => ?_⟩
      rw [hn]
      exact ⟨nofun, fun h => absurd h hdi⟩
    · have he := recover_journals hd
      rw [ha] at he ⊢
      exact ⟨he, .inr ⟨rfl, hre⟩, fun _ _ => ⟨fun _ => rfl, fun _ => hre⟩⟩
  · intro hrs
    obtain hb | ⟨ha, -⟩ := hs (.inr hrs)
    · rw [hb]
      exact (eval_commitFiles hvalid).1
    · rw [ha]
      rfl

def oneStepDisk : Disk where
  records
    | .run runID => if runID = "run" then some (.run { runID := "run" }) else none
    | .step runID stepID =>
      if runID = "run" ∧ stepID = "step" then some (.step { runID := "run", stepID := "step" })
      else none
    | _ => none
  fences := fun _ => none
  journals := .empty
  results := fun _ => none

def stepCommit (mode : StepWriteMode) (stepID : String) : Commit :=
  { transactionID := "tx", steps := [⟨mode, { runID := "run", stepID := stepID }⟩] }

/-- The second operation of a commit, the write of the prepared journal, takes
effect and fails. -/
def journalFault (n : Nat) : Fault := if n = 1 then .after else .none

/-- The disk a commit leaves when it gets no further than its prepared journal. -/
def stoppedCommit (commit : Commit) : Disk :=
  (Prog.run FileOp.apply journalFault (commitFiles {} commit) 0 oneStepDisk).2.2

/-- The disk a commit leaves when nothing fails. -/
def finishedCommit (commit : Commit) : Disk :=
  (Prog.eval FileOp.apply (commitFiles {} commit) oneStepDisk).2

theorem stoppedCommit_reached :
    Reaches FileOp.apply (commitFiles {} commit) oneStepDisk (stoppedCommit commit) :=
  reaches_ends (ends_run journalFault _ 0 _)

theorem commit_crash_atomic_append :
    (stoppedCommit (stepCommit .append "next")).recover.2.journals.entries = [] ∧
      ((stoppedCommit (stepCommit .append "next")).recover.2.reported "tx" = .committed ↔
        (stoppedCommit (stepCommit .append "next")).recover.2.records =
          (finishedCommit (stepCommit .append "next")).records) := by
  have hv : eval FileOp.apply (commitFiles {} (stepCommit .append "next")) oneStepDisk =
      ((bareResult "tx" .committed, none), finishedCommit (stepCommit .append "next")) :=
    Prod.ext (by decide +kernel) rfl
  obtain ⟨hs, hf⟩ := commit_crash_atomic hv stoppedCommit_reached Relation.ReflTransGen.refl
  have hd := hs (hf fun entry he => absurd he not_mem_nil)
  refine ⟨hd.1, hd.2.2 (by decide +kernel) fun hsa => ?_⟩
  exact absurd (congrFun hsa (.step "run" "next")) (by decide +kernel)

/-- A commit that rewrites a step with its own content, stopped after its prepared
journal: the contents are the ones after the commit, and it is not reported
committed. -/
theorem rewrite_not_reported :
    Prog.Reaches FileOp.apply (commitFiles {} (stepCommit .update "step")) oneStepDisk
        (stoppedCommit (stepCommit .update "step")) ∧
      (Prog.eval FileOp.apply (commitFiles {} (stepCommit .update "step")) oneStepDisk).1 =
        (bareResult "tx" .committed, none) ∧
      Succeeded (stoppedCommit (stepCommit .update "step")).recover.1 ∧
      (stoppedCommit (stepCommit .update "step")).recover.2.records =
        (finishedCommit (stepCommit .update "step")).records ∧
      (stoppedCommit (stepCommit .update "step")).recover.2.reported "tx" = .notStarted := by
  have hs : (stoppedCommit (stepCommit .update "step")).recover.2.records =
      Function.update oneStepDisk.records (.step "run" "step")
        (some (.step { runID := "run", stepID := "step" })) := rfl
  have hf : (finishedCommit (stepCommit .update "step")).records =
      Function.update oneStepDisk.records (.step "run" "step")
        (some (.step { runID := "run", stepID := "step" })) := rfl
  have hok : (stoppedCommit (stepCommit .update "step")).recover.1 = .ok () := rfl
  exact ⟨stoppedCommit_reached, by decide +kernel, hok, by rw [hs, hf], by decide +kernel⟩

end WeaveFlow
