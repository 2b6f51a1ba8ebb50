import WeaveFlow.Lib.Interleave
import WeaveFlow.Runtime.MemoryStore

/-!
# Programs on the memory store

The functions of the runtime that read a run, compute its next record and swap it
in are programs of atomic store operations.  Between the read and the swap others
may have written the run; the swap is then refused and the loop reads again.

`Evolves` is all such a loop has to know about the others: a run is kept, or it
gets a later revision, or it is deleted for good.  A swap that succeeds has then
replaced the very record that was read, so `meets_swapRun` treats the loop as one
atomic update of the stored record.
-/

namespace WeaveFlow

open Proc

/-! ## Programs -/

/-- A program on the memory store. -/
abbrev StoreProc (α : Type) := Fallible RunError MemoryStore α

def loadRun (runID : String) : StoreProc (Except RunError RunRecord) :=
  attempt fun store => (store.getRun runID).map fun run => (run, store)

/-- A computation without an effect. -/
def compute {α : Type} (x : Except RunError α) : StoreProc α := ExceptT.mk (pure x)

/-- A change of a run, from what was read: an answer and, if the run changes, its
record.  The number tells the attempts apart. -/
abbrev RunUpdate (α : Type) := Except RunError RunRecord → Nat → Except RunError (α × Option RunRecord)

/-- The loops that read a run and swap it, again after a revision conflict. -/
def swapRun {α : Type} (ctx : Context) (runID action : String) (wrap : RunError → RunError)
    (update : RunUpdate α) : Nat → StoreProc α
  | 0 => throw (.retriesExceeded action)
  | attempts + 1 => do
      let loaded ← loadRun runID
      let updated ← compute (update loaded attempts)
      match updated.2 with
      | none => return updated.1
      | some next =>
        let swapped ← attempt fun store => store.compareAndSwapRun ctx next.revision next
        match swapped with
        | .ok _ => return updated.1
        | .error e =>
          if e.isRevisionConflict then swapRun ctx runID action wrap update attempts
          else throw (wrap e)

/-! ## Revisions -/

/-- Runs keep their record or get a later revision.  A run that is gone is fenced
and does not come back. -/
structure Evolves (store store' : MemoryStore) : Prop where
  fenced : ∀ runID, store.fences.get runID ≠ none → store'.fences.get runID ≠ none
  kept : ∀ runID run, store.runs.get runID = some run →
    (∃ next, store'.runs.get runID = some next ∧ (next = run ∨ run.revision < next.revision)) ∨
      (store'.runs.get runID = none ∧ store'.fences.get runID ≠ none)
  gone : ∀ runID, store.runs.get runID = none → store.fences.get runID ≠ none →
    store'.runs.get runID = none

/-- The record that was read is the stored one, or the stored one is later, or the
run is gone. -/
def Tracks (copy : RunRecord) (store : MemoryStore) : Prop :=
  (∃ current, store.runs.get copy.runID = some current ∧
      (current = copy ∨ copy.revision < current.revision)) ∨
    (store.runs.get copy.runID = none ∧ store.fences.get copy.runID ≠ none)

variable {store : MemoryStore} {copy : RunRecord}

theorem tracks_of_get (h : store.runs.get copy.runID = some copy) : Tracks copy store :=
  .inl ⟨copy, h, .inl rfl⟩

theorem Tracks.evolves (h : Tracks copy store) (he : Evolves store store') :
    Tracks copy store' := by
  rcases h with ⟨current, hg, hc⟩ | ⟨hg, hf⟩
  · rcases he.kept copy.runID current hg with ⟨next, hn, hle⟩ | hgo
    · refine .inl ⟨next, hn, ?_⟩
      rcases hle with rfl | hlt
      · exact hc
      · rcases hc with rfl | hl
        · exact .inr hlt
        · exact .inr (hl.trans hlt)
    · exact .inr hgo
  · exact .inr ⟨he.gone _ hg hf, he.fenced _ hf⟩

/-- A stored record with the revision that was read is the record that was read. -/
theorem Tracks.eq_of_revision {copy current : RunRecord} {store : MemoryStore}
    (h : Tracks copy store) (hg : store.runs.get copy.runID = some current)
    (hr : current.revision = copy.revision) : current = copy := by
  rcases h with ⟨stored, hs, hc⟩ | ⟨hn, -⟩
  · rw [hg] at hs
    cases hs
    rcases hc with h | h
    · exact h
    · omega
  · simp [hg] at hn

/-! ## Rules -/

theorem trimmed_of_storageID (h : validateRunnerStorageID name value = .ok ()) :
    trimSpace value = value := by
  simp only [validateRunnerStorageID, require_eq_ok, Bool.and_eq_true, decide_eq_true_eq] at h
  exact h.1.1.1.1.2

theorem getRun_eq_ok (h : store.getRun runID = .ok run) :
    store.runs.get runID = some run ∧ run.runID = runID ∧ trimSpace runID = runID := by
  obtain ⟨_, hv, hg⟩ := Outcome.of_bind h
  rw [found_eq_ok] at hg
  exact ⟨hg, KeyedMap.key_of_get hg, trimmed_of_storageID hv⟩

section

variable {R G : MemoryStore → MemoryStore → Prop} {P : MemoryStore → Prop} {α β : Type}
  {s : MemoryStore}

theorem stable_true : Stable R fun _ => True := fun _ _ _ _ => trivial

theorem stable_const : Stable R fun _ => p := fun _ _ _ h => h

theorem stable_tracks (hR : ∀ s s', R s s' → Evolves s s') : Stable R (Tracks copy) :=
  fun s s' hr hs => hs.evolves (hR s s' hr)

/-- A check before the rest of a program. -/
theorem meets_check {x : Except RunError α} {f : α → StoreProc β} {Q : β → MemoryStore → Prop}
    (hP : Stable R P) (hs : P s)
    (hf : ∀ a s, x = .ok a → P s → Meets R G Q (fun _ => True) (f a) s) :
    Meets R G Q (fun _ => True) (compute x >>= f) s := by
  have hx : Meets R G (fun a s => x = .ok a ∧ P s) (fun _ => True) (compute x) s := by
    cases x with
    | ok a =>
      have hst : Stable R fun s => (Except.ok a : Except RunError α) = .ok a ∧ P s :=
        stable_const.and hP
      exact meets_pure hst ⟨rfl, hs⟩
    | error e => exact meets_throw stable_true trivial
  exact meets_bind stable_true hx fun a s ha => hf a s ha.1 ha.2

/-- A read before the rest of a program: what holds of the record as it is read must
be kept by the others. -/
theorem meets_load {runID : String} {f : Except RunError RunRecord → StoreProc β}
    {Seen : Except RunError RunRecord → MemoryStore → Prop} {Q : β → MemoryStore → Prop}
    (hr : ∀ s, G s s) (hP : Stable R P) (hs : P s) (hSeen : ∀ loaded, Stable R (Seen loaded))
    (hre : ∀ s, P s → Seen (s.getRun runID) s)
    (hf : ∀ loaded s, Seen loaded s → Meets R G Q (fun _ => True) (f loaded) s) :
    Meets R G Q (fun _ => True) (loadRun runID >>= f) s := by
  have hl : Meets R G Seen (fun _ => True) (loadRun runID) s := by
    refine meets_attempt hP hs ?_ ?_ hSeen
    · intro s run s' hs hl
      obtain ⟨loaded, hg, heq⟩ := Outcome.map_eq_ok hl
      cases heq
      exact ⟨hr s, hg ▸ hre s hs⟩
    · intro s e hs he
      have hg : s.getRun runID = .error e := by
        cases hg : s.getRun runID with
        | ok run => rw [hg] at he; cases he
        | error e' => rw [hg] at he; cases he; rfl
      exact ⟨hr s, hg ▸ hre s hs⟩
  exact meets_bind stable_true hl hf

/-- An update computes the next record from the one that was read. -/
def RunUpdate.FromRead (update : RunUpdate α) : Prop :=
  ∀ loaded i a next, update loaded i = .ok (a, some next) →
    ∃ copy, loaded = .ok copy ∧ next.runID = copy.runID ∧ next.revision = copy.revision

def MemoryStore.swapped (store : MemoryStore) (next : RunRecord) : MemoryStore :=
  { store with runs := store.runs.put (MemoryStore.bumped next) }

theorem MemoryStore.get_swapped_self (store : MemoryStore) (next : RunRecord) :
    (store.swapped next).runs.get next.runID = some (MemoryStore.bumped next) :=
  KeyedMap.get_put_self _ (MemoryStore.bumped next)

variable {ctx : Context} {runID action : String} {wrap : RunError → RunError}
  {update : RunUpdate α} {Q : α → MemoryStore → Prop}

/-- A loop of reads and swaps is one update of the stored record: it finds that
nothing has to change, or it replaces the stored record by the one computed from it. -/
theorem meets_swapRun (hR : ∀ s s', R s s' → Evolves s s') (hre : ∀ s, G s s)
    (hu : update.FromRead) (hP : Stable R P) (hQ : ∀ a, Stable R (Q a))
    (hsa : ∀ s i a, P s → update (s.getRun runID) i = .ok (a, none) → Q a s)
    (hsw : ∀ s i a copy next, P s → s.runs.get next.runID = some copy → copy.runID = runID →
      update (.ok copy) i = .ok (a, some next) → s.Swaps ctx copy next →
      G s (s.swapped next) ∧ Q a (s.swapped next))
    (hs : P s) : Meets R G Q (fun _ => True) (swapRun ctx runID action wrap update attempts) s := by
  induction attempts generalizing s with
  | zero => exact meets_throw stable_true trivial
  | succ attempts ih =>
    -- What the read leaves: the answer if nothing changes, else the record that was read.
    let Seen : Except RunError RunRecord → MemoryStore → Prop := fun loaded s =>
      P s ∧ (∀ a, update loaded attempts = .ok (a, none) → Q a s) ∧
        ∀ copy, loaded = .ok copy → copy.runID = runID ∧ Tracks copy s
    have hSeen : ∀ loaded, Stable R (Seen loaded) := by
      rintro loaded s s' hr ⟨hs, hn, hco⟩
      refine ⟨hP s s' hr hs, fun a ha => hQ a s s' hr (hn a ha), fun copy hc => ?_⟩
      exact ⟨(hco copy hc).1, (hco copy hc).2.evolves (hR s s' hr)⟩
    have hra : ∀ s, P s → Seen (s.getRun runID) s := by
      intro s hs
      refine ⟨hs, fun a ha => hsa s attempts a hs ha, fun copy hc => ?_⟩
      obtain ⟨hg, hid, -⟩ := getRun_eq_ok hc
      exact ⟨hid, tracks_of_get (hid.symm ▸ hg)⟩
    refine meets_load hre hP hs hSeen hra ?_
    intro loaded s hse
    refine meets_check (hSeen loaded) hse ?_
    rintro ⟨a, next⟩ s hcm ⟨hs, hn, hco⟩
    cases next with
    | none => exact meets_pure (hQ a) (hn a hcm)
    | some next =>
      obtain ⟨copy, rfl, hid, hrv⟩ := hu loaded attempts a next hcm
      obtain ⟨hcp, ht⟩ := hco copy rfl
      have hat : Meets R G
          (fun r s => (∀ written, r = .ok written → Q a s) ∧ ∀ e, r = .error e → P s)
          (fun _ => True)
          (attempt fun store => store.compareAndSwapRun ctx next.revision next) s := by
        refine meets_attempt (hP.and (stable_tracks hR)) ⟨hs, ht⟩ ?_ ?_ ?_
        · rintro s written s' ⟨hs, ht⟩ hca
          obtain ⟨existing, hsp, -, -, -, rfl⟩ := MemoryStore.compareAndSwapRun_eq_ok hca
          have hst := hsp.stored
          rw [hid] at hst
          have hex : existing = copy := ht.eq_of_revision hst (hsp.revision.trans hrv)
          subst hex
          obtain ⟨hs', han⟩ := hsw s attempts a existing next hs hsp.stored hcp hcm hsp
          exact ⟨hs', fun _ _ => han, fun e he => by cases he⟩
        · rintro s e ⟨hs, -⟩ -
          exact ⟨hre s, (fun written hw => by cases hw), fun _ _ => hs⟩
        · rintro r s s' hr ⟨hok, her⟩
          exact ⟨fun written hw => hQ a s s' hr (hok written hw), fun e he => hP s s' hr (her e he)⟩
      refine meets_bind stable_true hat ?_
      rintro r s ⟨hok, her⟩
      cases r with
      | ok written => exact meets_pure (hQ a) (hok written rfl)
      | error e =>
        show Meets R G Q (fun _ => True)
          (if e.isRevisionConflict then swapRun ctx runID action wrap update attempts
            else throw (wrap e)) s
        split
        · exact ih (her e rfl)
        · exact meets_throw stable_true trivial

end

end WeaveFlow
