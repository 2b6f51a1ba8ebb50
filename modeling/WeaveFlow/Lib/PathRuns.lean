import WeaveFlow.Lib.Steps
import WeaveFlow.Lib.MapTree

/-!
# Runs of edits seen from one path

A run of edits, each at its own path, is read at a path that no edit of the run stands
strictly above.  There the run is the run of the edits below the path, applied to the slot
of the path alone (`runUnder_of_run`); a leaf above the path stays where it is
(`blockedAt_apply`).  When every edit lies below one of a family of such paths the run
succeeds as soon as it succeeds at every path of the family (`run_isSome`).
-/

namespace MapTree

open List

variable {κ α : Type} [LinearOrder κ]

/-! ## Blocked paths -/

variable {f : SlotUpdate κ α} {p : List κ} {o : Slot κ α} {c : Bool}

/-- An edit moves no leaf above a path, unless it is made strictly above that path. -/
theorem blockedAt_editAt (hp : p <+: t → t <+: p) (h : editAt c f p o = some r) :
    blockedAt t r = blockedAt t o :=
  read_editAt (fun _ _ _ => rfl) (fun _ _ => blockedAt_none.symm) hp (fun _ _ _ => rfl) h

/-- After an edit the slot holds what the update returned. -/
theorem lookAt_editAt (hf : Passive c f) (h : editAt c f p o = some r) :
    f (lookAt p o) = some (lookAt p r) := by
  rcases lookAt_editAt_cases h with h | ⟨hc, ho, hr⟩
  · exact h
  · rw [ho, hr]
    exact hf hc

/-- Below a leaf, an edit that creates fails. -/
theorem editAt_true_blocked (h : blockedAt p o = true) : editAt true f p o = none := by
  rw [← Option.not_isSome_iff_eq_none, editAt_true_isSome, h]
  rintro ⟨h, -⟩
  cases h

/-- An edit that does not create does nothing to an absent slot. -/
theorem editAt_false_lookAt_none (hf : blockedAt p o = false → f none = some none)
    (ho : SlotAll WF o) (h : lookAt p o = none) : editAt false f p o = some o := by
  induction p generalizing o with
  | nil =>
    subst h
    exact hf rfl
  | cons k p ih =>
    match o with
    | none => rfl
    | some (leaf a) => rfl
    | some (node kids) =>
      have hw := slotAll_some.mp ho
      rw [editAt_cons_node, ih hf (wf_hereditary.get hw k) h, Option.map_some,
        Assoc.place_get (wf_hereditary.sorted hw)]

/-- Below a leaf, an edit that does not create does nothing. -/
theorem editAt_false_blocked (ho : SlotAll WF o) (h : blockedAt p o = true) :
    editAt false f p o = some o :=
  editAt_false_lookAt_none (fun hb => nomatch hb.symm.trans h) ho (lookAt_of_blocked h)

theorem Passive.editAt (hf : Passive c f) (p : List κ) : Passive c (editAt c f p) := by
  rintro rfl
  exact editAt_false_none (hf rfl)

/-! ## Edits with their paths -/

/-- An update with the path it is made at. -/
structure Edit (κ α : Type) where
  create : Bool
  update : SlotUpdate κ α
  path : List κ
  passive : Passive create update

namespace Edit

def apply (e : Edit κ α) : SlotUpdate κ α := editAt e.create e.update e.path

/-- The edit as an update of the slot at a path above it. -/
def under (t : List κ) (e : Edit κ α) : SlotUpdate κ α :=
  editAt e.create e.update (e.path.drop t.length)

/-- The edit is not made strictly above the path. -/
def Clear (t : List κ) (e : Edit κ α) : Prop := e.path <+: t → t <+: e.path

variable {o r : Slot κ α} {t : List κ} {e : Edit κ α} {es : List (Edit κ α)}

theorem apply_eq_under (h : t <+: e.path) :
    e.apply o = MapTree.editAt e.create (e.under t) t o := by
  obtain ⟨s, hs⟩ := h
  rw [under, ← editAt_append, ← hs, drop_left, hs, apply]

theorem under_self (h : e.path = t) : e.under t = e.update := by
  rw [under, h, drop_length]
  rfl

theorem under_passive (t : List κ) (e : Edit κ α) : Passive e.create (e.under t) :=
  e.passive.editAt _

theorem lookAt_apply_under (ht : t <+: e.path) (h : e.apply o = some r) :
    e.under t (lookAt t o) = some (lookAt t r) := by
  rw [apply_eq_under ht] at h
  exact lookAt_editAt (e.under_passive t) h

theorem lookAt_apply_clear (hc : e.Clear t) (ht : ¬ t <+: e.path) (h : e.apply o = some r) :
    lookAt t r = lookAt t o :=
  lookAt_editAt_disjoint ⟨fun hp => ht (hc hp), ht⟩ h

theorem blockedAt_apply (hc : e.Clear t) (h : e.apply o = some r) : blockedAt t r = blockedAt t o :=
  blockedAt_editAt hc h

theorem apply_isSome (ht : t <+: e.path) (o : Slot κ α) : (e.apply o).isSome ↔
      (e.create = true → blockedAt t o = false) ∧ (e.under t (lookAt t o)).isSome := by
  rw [apply_eq_under ht]
  exact MapTree.editAt_isSome (e.under_passive t) o

/-! ## Runs -/

def run (es : List (Edit κ α)) (o : Slot κ α) : Option (Slot κ α) :=
  Steps.run (fun o e => apply e o) o es

/-- The edits below a path as a run on the slot of the path. -/
def runUnder (t : List κ) (es : List (Edit κ α)) (o : Slot κ α) : Option (Slot κ α) :=
  Steps.run (fun o e => under t e o) o (es.filter fun e => decide (t <+: e.path))

theorem runUnder_cons_below (h : t <+: e.path) :
    runUnder t (e :: es) o = (e.under t o).bind (runUnder t es) := by
  rw [runUnder, filter_cons_of_pos (by simpa using h), Steps.run_cons]
  rfl

theorem runUnder_cons_aside (h : ¬ t <+: e.path) : runUnder t (e :: es) o = runUnder t es o := by
  rw [runUnder, filter_cons_of_neg (by simpa using h), runUnder]

/-- One edit of a run, seen from a path. -/
theorem runUnder_cons (hc : e.Clear t) (h : e.apply o = some r) :
    runUnder t (e :: es) (lookAt t o) = runUnder t es (lookAt t r) := by
  by_cases ht : t <+: e.path
  · rw [runUnder_cons_below ht, lookAt_apply_under ht h, Option.bind_some]
  · rw [runUnder_cons_aside ht, lookAt_apply_clear hc ht h]

/-- A run leaves a path alone that all its edits are disjoint from. -/
theorem lookAt_run_disjoint (hd : ∀ e ∈ es, Disjoint e.path t) (h : run es o = some r) :
    lookAt t r = lookAt t o := by
  induction es generalizing o with
  | nil => cases h; rfl
  | cons e es ih =>
    obtain ⟨o', ho', h⟩ := Option.bind_eq_some_iff.mp h
    rw [ih (forall_mem_cons.mp hd).2 h]
    exact lookAt_editAt_disjoint (hd e mem_cons_self) ho'

/-- A run, seen from a path. -/
theorem runUnder_of_run (hc : ∀ e ∈ es, e.Clear t) (h : run es o = some r) :
    runUnder t es (lookAt t o) = some (lookAt t r) := by
  induction es generalizing o with
  | nil => cases h; rfl
  | cons e es ih =>
    obtain ⟨o', ho', h⟩ := Option.bind_eq_some_iff.mp h
    rw [runUnder_cons (hc e mem_cons_self) ho']
    exact ih (forall_mem_cons.mp hc).2 h

/-- A run fails below no leaf. -/
theorem blockedAt_of_run (hc : ∀ e ∈ es, e.Clear t) (h : run es o = some r) (he : e ∈ es)
    (ht : t <+: e.path) (hcr : e.create = true) : blockedAt t o = false := by
  induction es generalizing o with
  | nil => cases he
  | cons x es ih =>
    rw [run, Steps.run_cons] at h
    obtain ⟨o', ho', h⟩ := Option.bind_eq_some_iff.mp h
    rcases mem_cons.mp he with rfl | he
    · exact ((apply_isSome ht o).mp (by rw [ho']; rfl)).1 hcr
    · rw [← blockedAt_apply (hc x mem_cons_self) ho']
      exact ih (forall_mem_cons.mp hc).2 h he

/-- A run succeeds when it does at every path of a family that covers its edits. -/
theorem run_isSome {T : List κ → Prop} (hco : ∀ e ∈ es, ∃ t, T t ∧ t <+: e.path)
    (hc : ∀ t, T t → ∀ e ∈ es, e.Clear t)
    (hb : ∀ t, T t → ∀ e ∈ es, t <+: e.path → e.create = true → blockedAt t o = false)
    (hr : ∀ t, T t → (runUnder t es (lookAt t o)).isSome) : (run es o).isSome := by
  induction es generalizing o with
  | nil => rfl
  | cons e es ih =>
    have hm := mem_cons_self (a := e) (l := es)
    obtain ⟨t, hT, ht⟩ := hco e hm
    have hs : (e.apply o).isSome := by
      refine (apply_isSome ht o).mpr ⟨hb t hT e hm ht, ?_⟩
      have hh := hr t hT
      rw [runUnder_cons_below ht] at hh
      exact Option.isSome_of_isSome_bind hh
    obtain ⟨o', ho'⟩ := Option.isSome_iff_exists.mp hs
    rw [run, Steps.run_cons, ho']
    refine ih (forall_mem_cons.mp hco).2
      (fun t hT x hx => hc t hT x (mem_cons_of_mem _ hx)) ?_ ?_
    · intro t hT x hx htx hcr
      rw [blockedAt_apply (hc t hT e hm) ho']
      exact hb t hT x (mem_cons_of_mem _ hx) htx hcr
    · intro t hT
      rw [← runUnder_cons (hc t hT e hm) ho']
      exact hr t hT

end Edit

/-! ## The shortest paths of a set -/

/-- A path of the set with no other path of the set above it. -/
def Top (W : List κ → Prop) (t : List κ) : Prop := W t ∧ ∀ u, W u → u <+: t → u = t

omit [LinearOrder κ] in
theorem exists_top (W : List κ → Prop) (hq : W q) : ∃ t, Top W t ∧ t <+: q := by
  induction hn : q.length using Nat.strongRecOn generalizing q with
  | ind n ih =>
    by_cases h : ∀ u, W u → u <+: q → u = q
    · exact ⟨q, ⟨hq, h⟩, prefix_rfl⟩
    · simp only [not_forall] at h
      obtain ⟨u, hu, huq, hne⟩ := h
      have hlt : u.length < n := by
        rcases Nat.lt_or_ge u.length n with hlt | hge
        · exact hlt
        · exact absurd (huq.eq_of_length_le (by omega)) hne
      obtain ⟨t, ht, htu⟩ := ih u.length hlt hu rfl
      exact ⟨t, ht, htu.trans huq⟩

omit [LinearOrder κ] in
theorem Top.clear {W : List κ → Prop} {t : List κ} (ht : Top W t) {e : Edit κ α}
    (he : W e.path) : e.Clear t := by
  intro h
  simp [ht.2 _ he h]

end MapTree
