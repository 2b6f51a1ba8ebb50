import WeaveFlow.FileStore.Crash

/-!
# Reported outcomes

A file operation can report an error although it took effect: the rename is done
and the sync of the directory fails.  `Commit` reads every error as a failure.
Where the failed operation is the write that marks the journal committed, this is
wrong: the before-images are put back and the transaction is reported as not
started, but the journal on disk is the committed one, and the next recovery
carries it out.

This is the only case.  An outcome is truthful unless that write took effect and
failed, and then it is truthful exactly when the rollback fails as well, because
the outcome is then reported as unknown (`outcome_truthful_iff`).
-/

namespace WeaveFlow

open Overwrite Outcome Prog

/-! ## The operations that decide -/

def FileOp.isMark : FileOp → Bool
  | writeJournal journal => journal.phase = .committed
  | _ => false

/-- A write that puts a before-image back. -/
def FileOp.isUndo : FileOp → Bool
  | putImage after _ => !after
  | _ => false

/-- A write that marks a journal committed does not fail after taking effect. -/
def MarkHonest (op : FileOp) (fault : Fault) : Prop := op.isMark = true → fault ≠ .after

/-- A write that puts a before-image back succeeds. -/
def UndoSucceeds (op : FileOp) (fault : Fault) : Prop := op.isUndo = true → fault = .none

/-- A recovery marks no journal. -/
theorem markHonest_of_isRecovery (h : op.isRecovery) (fault : Fault) : MarkHonest op fault := by
  cases op with
  | putImage after mutation | writeResult id record | removeJournal name => exact nofun
  | _ => cases h

/-- Without a result that can be loaded there is no result record. -/
theorem results_of_load {disk : Disk} {id : String}
    (hl : loadTransactionResult disk id = .ok none) : disk.results id = none := by
  cases hr : disk.results id with
  | none => rfl
  | some record =>
    simp only [loadTransactionResult, hr, bind_eq_ok] at hl
    obtain ⟨_, -, _, -, _, -, hd⟩ := hl
    cases hd

theorem stored_of_load {disk : Disk} {id : String} {stored : TransactionResultRecord}
    (hl : loadTransactionResult disk id = .ok (some stored)) :
    disk.results id = some stored := by
  cases hr : disk.results id with
  | none => simp [loadTransactionResult, hr] at hl
  | some record =>
    simp only [loadTransactionResult, hr, bind_eq_ok] at hl
    obtain ⟨_, -, _, -, _, -, hd⟩ := hl
    cases hd
    rfl

section Runs

variable (faults : Nat → Fault)

theorem along_markHonest {α : Type} {p : FileProg α} (h : Uses FileOp.isRecovery p)
    (n : Nat) (s : Disk) : Along FileOp.apply MarkHonest faults p n s :=
  along_of_uses (uses_mono (fun _ hop => markHonest_of_isRecovery hop) h) faults n s

/-- The mutations of a transaction mark no journal and put no before-image back. -/
theorem along_applyCommitMutations {P : FileOp → Fault → Prop}
    (hP : ∀ mutation fault, P (.putImage true mutation) fault)
    (mutations : List TransactionMutation) (n : Nat) (s : Disk) :
    Along FileOp.apply P faults (applyCommitMutations mutations) n s :=
  along_of_uses (uses_applyCommitMutations fun mutation _ => hP mutation) faults n s

/-- The before-images are reported as put back exactly when every write succeeded. -/
theorem run_putImages_undo (mutations : List TransactionMutation) (ok : Bool) (n : Nat) (s : Disk) :
    (run FileOp.apply faults (putImages false mutations ok) n s).1 = true ↔ ok = true ∧
        Along FileOp.apply UndoSucceeds faults (putImages false mutations ok) n s := by
  induction mutations generalizing ok n s with
  | nil => simp [putImages, run, Along]
  | cons mutation rest ih =>
    simp only [putImages, run, Along]
    rw [ih]
    cases hf : faults n <;> simp [UndoSucceeds, FileOp.isUndo, outcome]

/-- A rollback reports that the transaction did not start exactly when every
before-image was put back. -/
theorem outcome_rollback (journal : TransactionJournal) (n : Nat) (s : Disk) :
    (run FileOp.apply faults (rollback journal) n s).1.1.outcome ≠ .committed ∧
      ((run FileOp.apply faults (rollback journal) n s).1.1.outcome = .notStarted ↔
        Along FileOp.apply UndoSucceeds faults (rollback journal) n s) := by
  unfold rollback applyTransactionMutations
  rw [run_bind, along_bind]
  have hu := run_putImages_undo faults journal.mutations.reverse true n s
  simp only [true_and] at hu
  simp only [Bool.false_eq_true, if_false, ← hu, run, Along, and_true]
  cases (run FileOp.apply faults (putImages false journal.mutations.reverse true) n s).1 <;>
    simp [CommitResult.withOutcome]

/-! ## Outcomes of a prepared transaction -/

/-- The outcome tells what recovery makes of the disk. -/
def Tells (disk : Disk) (journal : TransactionJournal) (outcome : TransactionOutcome) (d : Disk) :
    Prop :=
  (outcome = .notStarted → d.recover = (.ok (), disk)) ∧
    (outcome = .committed → d.recover = (.ok (), disk.committed journal))

/-- The disk before and the disk after a transaction differ: only the second has
the result record. -/
theorem committed_ne (hl : loadTransactionResult disk journal.id = .ok none) :
    disk.committed journal ≠ disk := by
  intro hs
  have hst : disk.results journal.id = some journal.commit.resultRecord := by
    rw [← hs]
    exact Function.update_self _ _ _
  rw [results_of_load hl] at hst
  cases hst

variable (he : disk.journals.entries = []) (hl : loadTransactionResult disk journal.id = .ok none)
  (hp : Prepared disk commit journal)
  (hv : validateJournal (journalName journal.id) journal = .ok ())

/-- A rollback changes the files of its journal only. -/
theorem near_run_rollback (n : Nat) (s : Disk) :
    s.Near journal.paths (run FileOp.apply faults (rollback journal) n s).2.2 :=
  near_of_reaches_rollback (reaches_ends (ends_run faults (rollback journal) n s))

include he hp hv in
/-- A rollback before the journal is marked. -/
theorem tells_rollback_prepared
    (hn : (disk.withJournal journal).Near journal.paths s) (n : Nat) :
    Tells disk journal (run FileOp.apply faults (rollback journal) n s).1.1.outcome
      (run FileOp.apply faults (rollback journal) n s).2.2 := by
  constructor
  · intro _
    rw [(hn.trans (near_run_rollback faults n s)).recover (entries_withJournal he journal) hv]
    exact recover_prepared he hp hv
  · intro hc
    exact absurd hc (outcome_rollback faults journal n s).1

include he hl hv in
/-- A rollback after the journal is marked: recovery carries the transaction out. -/
theorem tells_rollback_marked
    (hn : (disk.withJournal journal.commit).Near journal.paths s) (n : Nat) :
    Tells disk journal (run FileOp.apply faults (rollback journal) n s).1.1.outcome
        (run FileOp.apply faults (rollback journal) n s).2.2 ↔
      ¬ Along FileOp.apply UndoSucceeds faults (rollback journal) n s := by
  obtain ⟨hno, hi⟩ := outcome_rollback faults journal n s
  rw [← hi]
  constructor
  · intro ht ho
    have hb := ht.1 ho
    rw [recover_of_marked he hl hv (hn.trans (near_run_rollback faults n s))] at hb
    exact committed_ne hl (congrArg Prod.snd hb)
  · intro ho
    exact ⟨fun h => absurd h ho, fun h => absurd h hno⟩

include he hl hp hv in
/-- The end of a transaction: an outcome is reported once the result is recorded. -/
theorem tells_finishCommit {s : Disk}
    (hs : s = (disk.withRecords (journal.contentsAfter disk.records)).withJournal journal.commit)
    (n : Nat) :
    Tells disk journal (run FileOp.apply faults (finishCommit journal) n s).1.1.outcome
      (run FileOp.apply faults (finishCommit journal) n s).2.2 := by
  have hlo : loadTransactionResult s journal.commit.id = .ok none := hs ▸ hl
  unfold finishCommit
  rw [run_bind]
  obtain ⟨result, n', s', hr, -, hev⟩ := run_cases strict_saveTransactionResult faults n s
  rw [hr]
  cases result with
  | error e => exact ⟨nofun, nofun⟩
  | ok u =>
    obtain rfl := congrArg Prod.snd ((eval_saveTransactionResult_new hlo).symm.trans (hev rfl))
    subst hs
    refine ⟨nofun, fun _ => ?_⟩
    -- The removal takes effect or it does not.
    obtain hk | hg := reaches_last reaches_run
    · rw [hk]
      exact recover_of_recorded he hp hv
    · rw [hg, apply_removeJournal he]
      exact recover_of_empty he

theorem uses_rollback (journal : TransactionJournal) : Uses FileOp.isRecovery (rollback journal) :=
  uses_bind (uses_putImages (fun _ _ => trivial) _) fun _ => trivial

/-- The condition under which the outcome of a run tells what recovery makes of it. -/
def Condition {α : Type} (p : FileProg α) (n : Nat) (s : Disk) : Prop :=
  Prog.Along FileOp.apply MarkHonest faults p n s ∨
    ¬ Prog.Along FileOp.apply UndoSucceeds faults p n s

include he hl hp hv in
/-- The part of a transaction whose prepared journal is written. -/
theorem tells_applyJournal_iff (n : Nat) :
    Tells disk journal (run FileOp.apply faults (applyJournal journal) n
          (disk.withJournal journal)).1.1.outcome
        (run FileOp.apply faults (applyJournal journal) n (disk.withJournal journal)).2.2 ↔
      Condition faults (applyJournal journal) n (disk.withJournal journal) := by
  unfold applyJournal Condition
  rw [run_bind, along_bind, along_bind]
  simp only [along_applyCommitMutations faults (P := MarkHonest) (fun _ _ => by rintro ⟨⟩),
    along_applyCommitMutations faults (P := UndoSucceeds) (fun _ _ => by rintro ⟨⟩), true_and]
  obtain ⟨ok, n', s, hr, hre, hev⟩ :=
    run_cases (strict_applyCommitMutations journal.mutations) faults n (disk.withJournal journal)
  have hn := near_of_reaches_applyCommitMutations hre
  rw [hr]
  have hro : ∀ n s, Along FileOp.apply MarkHonest faults (rollback journal) n s :=
    along_markHonest faults (uses_rollback journal)
  cases ok with
  | false =>
    exact iff_of_true (tells_rollback_prepared faults he hp hv hn n') (.inl (hro n' s))
  | true =>
    obtain rfl := congrArg Prod.snd ((eval_applyCommitMutations _ _).symm.trans (hev rfl))
    have hm := apply_mark disk journal
    simp only [if_true, run, Along]
    cases hf : faults n' with
    | none =>
      refine iff_of_true (tells_finishCommit faults he hl hp hv hm _)
        (.inl ⟨fun _ => by rintro ⟨⟩, ?_⟩)
      exact along_markHonest faults (uses_finishCommit (fun _ _ => trivial) fun _ => trivial) _ _
    | before =>
      exact iff_of_true (tells_rollback_prepared faults he hp hv hn _)
        (.inl ⟨fun _ => by rintro ⟨⟩, hro _ _⟩)
    | after =>
      have hne : (disk.withJournal journal.commit).Near journal.paths
          ((FileOp.writeJournal journal.commit).apply
            ((disk.withJournal journal).withRecords (overwrite
              (imageWrites true journal.mutations) (disk.withJournal journal).records))) :=
        hm ▸ near_marked disk journal
      have hno : ¬ MarkHonest (.writeJournal journal.commit) .after := fun h => h rfl rfl
      have hu : UndoSucceeds (.writeJournal journal.commit) .after := by rintro ⟨⟩
      simp only [hno, hu, false_and, true_and, false_or]
      exact tells_rollback_marked faults he hl hv hne _

include he hl in
/-- A transaction that changes no file. -/
theorem tells_commitNothing
    (hn : journal.mutations = []) (n : Nat) :
    Tells disk journal (run FileOp.apply faults (commitNothing journal) n disk).1.1.outcome
      (run FileOp.apply faults (commitNothing journal) n disk).2.2 := by
  have hlo : loadTransactionResult disk journal.commit.id = .ok none := hl
  have hf : disk.withResult journal.commit = disk.committed journal := by
    simp [Disk.committed, TransactionJournal.contentsAfter, hn, imageWrites]
  unfold commitNothing
  rw [run_bind]
  obtain ⟨result, n', s, hr, -, hev⟩ := run_cases strict_saveTransactionResult faults n disk
  rw [hr]
  cases result with
  | error e => exact ⟨by rintro ⟨⟩, by rintro ⟨⟩⟩
  | ok u =>
    obtain rfl := congrArg Prod.snd ((eval_saveTransactionResult_new hlo).symm.trans (hev rfl))
    rw [hf]
    exact ⟨by rintro ⟨⟩, fun _ => recover_of_empty he⟩

include he hl hp in
theorem tells_commitJournal_iff (n : Nat) :
    Tells disk journal (run FileOp.apply faults (commitJournal journal) n disk).1.1.outcome
        (run FileOp.apply faults (commitJournal journal) n disk).2.2 ↔
      Condition faults (commitJournal journal) n disk := by
  -- A transaction that ends before its journal is applied leaves nothing to redo.
  have hu : ∀ outcome : TransactionOutcome, outcome ≠ .committed →
      Tells disk journal outcome disk :=
    fun outcome ho => ⟨fun _ => recover_of_empty he, fun h => absurd h ho⟩
  have hn : journal.result.outcome ≠ .committed := by
    rw [hp.outcome]
    rintro ⟨⟩
  unfold commitJournal
  split
  next hno =>
    refine iff_of_true (tells_commitNothing faults he hl hno n) (.inl ?_)
    exact along_markHonest faults (uses_commitNothing fun _ _ => trivial) n disk
  next hm =>
    have hma : MarkHonest .makeDirectory (faults n) := by rintro ⟨⟩
    have hun : UndoSucceeds .makeDirectory (faults n) := by rintro ⟨⟩
    simp only [Condition, run, Along, hma, hun, true_and]
    have hd : (outcome FileOp.apply .makeDirectory disk (faults n)).2 = disk := by
      cases faults n <;> rfl
    rw [hd]
    generalize (outcome FileOp.apply .makeDirectory disk (faults n)).1 = made
    cases made with
    | false => exact iff_of_true (hu _ hn) (.inl trivial)
    | true =>
      simp only [if_true]
      split
      · exact iff_of_true (hu _ (by rintro ⟨⟩)) (.inl trivial)
      next u hv =>
        have hh : ∀ fault, MarkHonest (.writeJournal journal) fault := by
          intro fault hph
          simp [FileOp.isMark, hp.phase] at hph
        have hun : ∀ fault, UndoSucceeds (.writeJournal journal) fault := fun _ => by rintro ⟨⟩
        simp only [run, Along, hh, hun, true_and]
        cases faults (n + 1) with
        | none => exact tells_applyJournal_iff faults he hl hp hv (n + 1 + 1)
        | before => exact iff_of_true (hu _ hn) (.inl trivial)
        | after =>
          refine iff_of_true ⟨fun _ => ?_, fun h => absurd h hn⟩ (.inl trivial)
          exact recover_prepared he hp hv

end Runs

/-! ## Truthful outcomes -/

/-- The contents a commit stands for on a recovered disk: the ones after its
transaction, or the ones there are where its result was recorded before. -/
def afterState (ctx : Context) (commit : Commit) (disk : Disk) : RecordPath → Option Content :=
  match loadTransactionResult disk commit.transactionID, prepareJournal disk ctx commit with
  | .ok none, .ok journal => journal.contentsAfter disk.records
  | _, _ => disk.records

/-- What the outcome of a commit says about the disk it left: whenever a recovery
finishes, after any number of attempts, a commit that did not start left no trace,
and a committed one left its contents and is reported committed. -/
def OutcomeTruthful (ctx : Context) (commit : Commit) (disk : Disk)
    (outcome : TransactionOutcome) (left : Disk) : Prop :=
  ∀ d, RecoveryAttempts left d → Succeeded d.recover.1 →
    (outcome = .notStarted →
      d.recover.2 = disk.recover.2 ∧
      (validateRuntimeCommit commit = .ok () →
        ∀ record, d.recover.2.results commit.transactionID = some record →
          record.fingerprint ≠ some (commitFingerprint commit))) ∧
    (outcome = .committed →
      d.recover.2.records = afterState ctx commit disk.recover.2 ∧
      d.recover.2.reported commit.transactionID = .committed)

/-- An outcome that makes no statement. -/
theorem truthful_of_silent {outcome : TransactionOutcome} {left : Disk}
    (hn : outcome ≠ .notStarted) (hc : outcome ≠ .committed) :
    OutcomeTruthful ctx commit disk outcome left :=
  fun _ _ _ => ⟨fun h => absurd h hn, fun h => absurd h hc⟩

/-- A commit that did not start and left what recovery makes of the disk. -/
theorem truthful_of_untouched {left : Disk} (hl : left.recover = disk.recover)
    (hf : validateRuntimeCommit commit = .ok () →
      ∀ record, disk.recover.2.results commit.transactionID = some record →
        record.fingerprint ≠ some (commitFingerprint commit)) :
    OutcomeTruthful ctx commit disk .notStarted left := by
  intro d ha hd
  have hs := (recover_of_attempts ha (.inl hd)).trans hl
  rw [hs]
  exact ⟨fun _ => ⟨rfl, hf⟩, nofun⟩

/-- A commit whose result was recorded before. -/
theorem truthful_of_stored
    (hid : validateRunnerStorageID "transaction ID" commit.transactionID = .ok ())
    (hok : Succeeded disk.recover.1)
    (hl : loadTransactionResult disk.recover.2 commit.transactionID = .ok (some stored)) :
    OutcomeTruthful ctx commit disk stored.result.outcome disk.recover.2 := by
  have hc : stored.result.outcome = .committed := by
    unfold loadTransactionResult at hl
    split at hl
    · cases hl
    · simp only [bind_eq_ok, require_eq_ok, Bool.and_eq_true, decide_eq_true_eq] at hl
      obtain ⟨_, -, _, ⟨-, ho⟩, _, -, hd⟩ := hl
      cases hd
      exact ho
  have he := recover_journals hok
  intro d ha hd
  have hs := (recover_of_attempts ha (.inl hd)).trans (recover_of_empty he)
  rw [hs, hc]
  refine ⟨by rintro ⟨⟩, fun _ => ⟨?_, ?_⟩⟩
  · simp only [afterState, hl]
  · rw [reported_of_empty hid he, resolveRecovered, hl]
    exact hc

theorem truthful_iff_tells (hok : Succeeded disk.recover.1)
    (hj : prepareJournal disk.recover.2 ctx commit = .ok journal)
    (hl : loadTransactionResult disk.recover.2 journal.id = .ok none)
    {outcome : TransactionOutcome} {left : Disk}
    (hs : CommitStage disk.recover.2 journal left) :
    OutcomeTruthful ctx commit disk outcome left ↔ Tells disk.recover.2 journal outcome left := by
  have he := recover_journals hok
  have hp := prepared_prepareJournal hj
  have hlo : loadTransactionResult disk.recover.2 commit.transactionID = .ok none := hp.id ▸ hl
  have hse := recover_of_stage he hl hp hs
  constructor
  · intro ht
    have hd : Succeeded left.recover.1 := by
      obtain h | h := hse <;> rw [h] <;> rfl
    obtain ⟨hn, hc⟩ := ht left .refl hd
    constructor
    · intro ho
      exact Prod.ext hd (hn ho).1
    · intro ho
      obtain hb | ha := hse
      · have hr := (hc ho).2
        have hid := validTransactionID_of_prepared hj
        rw [hb, reported_of_empty hid he, resolveRecovered, hlo] at hr
        cases hr
      · exact ha
  · rintro ⟨hn, hc⟩ d hat hd
    have hsa := recover_of_attempts hat (.inl hd)
    rw [hsa]
    constructor
    · intro ho
      rw [hn ho]
      refine ⟨rfl, fun _ record hre => ?_⟩
      rw [results_of_load hlo] at hre
      cases hre
    · intro ho
      rw [hc ho]
      refine ⟨?_, reported_committed he hj⟩
      simp only [afterState, hlo, hj]
      rfl

/-- A transaction on a recovered disk. -/
theorem truthful_commitRecovered_iff (faults : Nat → Fault)
    (hv : validateRuntimeCommit commit = .ok ()) (hok : Succeeded disk.recover.1) (n : Nat) :
    OutcomeTruthful ctx commit disk
        (run FileOp.apply faults (commitRecovered ctx commit disk.recover.2) n
          disk.recover.2).1.1.outcome
        (run FileOp.apply faults (commitRecovered ctx commit disk.recover.2) n disk.recover.2).2.2 ↔
      Condition faults (commitRecovered ctx commit disk.recover.2) n disk.recover.2 := by
  have he := recover_journals hok
  have hs : disk.recover.2.recover = disk.recover :=
    (recover_of_empty he).trans (Prod.ext hok.symm rfl)
  have hid : validateRunnerStorageID "transaction ID" commit.transactionID = .ok () := by
    simp only [validateRuntimeCommit, bind_eq_ok] at hv
    obtain ⟨_, hid, -⟩ := hv
    exact hid
  unfold commitRecovered
  split
  · exact iff_of_true (truthful_of_silent (by rintro ⟨⟩) (by rintro ⟨⟩)) (.inl trivial)
  next stored hl =>
    split
    · exact iff_of_true (truthful_of_stored hid hok hl) (.inl trivial)
    next hm =>
      refine iff_of_true (truthful_of_untouched hs fun _ record hr => ?_) (.inl trivial)
      rw [stored_of_load hl] at hr
      cases hr
      exact hm
  next hl =>
    split
    next e her =>
      refine iff_of_true (truthful_of_untouched hs fun _ record hr => ?_) (.inl trivial)
      rw [results_of_load hl] at hr
      cases hr
    next journal hj =>
      have hp := prepared_prepareJournal hj
      rw [← hp.id] at hl
      have hst := stage_commitJournal he hl
        (reaches_ends (ends_run faults (commitJournal journal) n disk.recover.2))
      rw [truthful_iff_tells hok hj hl hst]
      exact tells_commitJournal_iff faults he hl hp n

/-- **Outcomes are truthful but for one case.**  On every disk, for every commit
and all faults, the outcome a commit returns is truthful exactly when the write
that marks its journal committed did not take effect and fail, or a before-image
could not be put back. -/
theorem outcome_truthful_iff (ctx : Context) (commit : Commit) (disk : Disk)
    (faults : Nat → Fault) :
    OutcomeTruthful ctx commit disk
        (Prog.run FileOp.apply faults (commitFiles ctx commit) 0 disk).1.1.outcome
        (Prog.run FileOp.apply faults (commitFiles ctx commit) 0 disk).2.2 ↔
      Prog.Along FileOp.apply MarkHonest faults (commitFiles ctx commit) 0 disk ∨
        ¬ Prog.Along FileOp.apply UndoSucceeds faults (commitFiles ctx commit) 0 disk := by
  unfold commitFiles
  split
  next e hi =>
    refine iff_of_true (truthful_of_untouched rfl fun hv => ?_) (.inl trivial)
    rw [hi] at hv
    cases hv
  next u hv =>
    rw [run_bind, along_bind, along_bind]
    have hm := along_markHonest faults uses_recoverLocked 0 disk
    have hu : Succeeded (run FileOp.apply faults recoverLocked 0 disk).1 →
        Along FileOp.apply UndoSucceeds faults recoverLocked 0 disk := by
      intro hok
      have hn : ∀ op fault, fault = .none → UndoSucceeds op fault := fun _ _ h _ => h
      exact along_mono hn (along_of_strict strict_recoverLocked hok)
    obtain ⟨result, n, s, hr, -, he⟩ := run_cases strict_recoverLocked faults 0 disk
    rw [hr] at hu ⊢
    cases result with
    | error e => exact iff_of_true (truthful_of_silent nofun nofun) (.inl ⟨hm, trivial⟩)
    | ok u =>
      have he : disk.recover = (.ok (), s) := he rfl
      have hok : Succeeded disk.recover.1 := by rw [he]; rfl
      have hs : s = disk.recover.2 := by rw [he]
      subst hs
      simp only [hm, hu rfl, true_and]
      exact truthful_commitRecovered_iff faults hv hok n

/-- The write that marks the journal committed, the fourth operation of a commit of
one step, takes effect and fails. -/
def markFault (n : Nat) : Fault := if n = 3 then .after else .none

/-- The disk such a commit leaves. -/
def markedCommit : Disk :=
  (Prog.run FileOp.apply markFault (commitFiles {} (stepCommit .append "next")) 0
    oneStepDisk).2.2

/-- A commit that is reported as not started and is carried out by the next
recovery: the step is there and the commit is reported committed. -/
theorem not_started_then_committed :
    (Prog.run FileOp.apply markFault (commitFiles {} (stepCommit .append "next")) 0
        oneStepDisk).1.1.outcome = .notStarted ∧
      oneStepDisk.records (.step "run" "next") = none ∧
      Succeeded markedCommit.recover.1 ∧
      markedCommit.recover.2.records (.step "run" "next") =
        some (.step { runID := "run", stepID := "next" }) ∧
      markedCommit.recover.2.reported "tx" = .committed := by
  refine ⟨by decide +kernel, rfl, ?_, by decide +kernel, by decide +kernel⟩
  show markedCommit.recover.1 = .ok ()
  rfl

end WeaveFlow
