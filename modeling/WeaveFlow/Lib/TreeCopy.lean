import WeaveFlow.Lib.PathRuns

/-!
# What edits leave alone, and copies of parts of a tree

An edit changes nothing at a path that is disjoint from its own.  At a path above its own it
cannot do much: a leaf stays as it is, since nothing is edited below a leaf, and a map stays a
map (`StaysAbove`).

A tree can be copied in part by copying the slots of a list of paths, one after the other, into
another tree.  The paths may nest in any way.  Copying a slot below one that was copied before
changes nothing, and copying one above replaces the parts by the whole, so that in the end the
two trees agree at and below all these paths (`CopiedFrom`).
-/

namespace MapTree

open List MapTree

variable {κ α : Type} [LinearOrder κ]

/-! ## Above an edit -/

/-- A leaf stays as it is, and a map stays a map. -/
structure StaysAbove (o r : Slot κ α) : Prop where
  leaf : ∀ a, o = some (.leaf a) → r = some (.leaf a)
  node : ∀ kids, o = some (.node kids) → ∃ kids', r = some (.node kids')

variable {c : Bool} {f : SlotUpdate κ α} {p t : List κ} {o r : Slot κ α} {v : MapTree κ α}

omit [LinearOrder κ] in
theorem StaysAbove.refl (o : Slot κ α) : StaysAbove o o := ⟨fun _ h => h, fun kids h => ⟨kids, h⟩⟩

omit [LinearOrder κ] in
theorem StaysAbove.trans {o' : Slot κ α} (h : StaysAbove o o') (h' : StaysAbove o' r) :
    StaysAbove o r := by
  refine ⟨fun a ha => h'.leaf a (h.leaf a ha), fun kids hk => ?_⟩
  obtain ⟨kids', hki⟩ := h.node kids hk
  exact h'.node kids' hki

theorem staysAbove_editAt (hp : p ≠ []) (h : editAt c f p o = some r) : StaysAbove o r := by
  constructor
  · rintro a rfl
    rw [editAt_leaf c f a hp] at h
    cases c with
    | true => cases h
    | false => exact (Option.some.inj h).symm
  · rintro kids rfl
    cases p with
    | nil => exact absurd rfl hp
    | cons k p =>
      obtain ⟨r', -, rfl⟩ := editAt_cons_node_some h
      exact ⟨_, rfl⟩

/-- An edit that creates leaves a map above its slot. -/
theorem ne_leaf_of_editAt_true (hp : p ≠ [])
    (h : editAt true f p o = some r) : r ≠ some (.leaf a) := by
  cases p with
  | nil => exact absurd rfl hp
  | cons k p =>
    match o with
    | none =>
      obtain ⟨r', -, rfl⟩ := editAt_cons_node_some (editAt_true_cons_none k p ▸ h)
      nofun
    | some (.leaf b) => cases h
    | some (.node kids) =>
      obtain ⟨r', -, rfl⟩ := editAt_cons_node_some h
      nofun

/-- An edit strictly below a path. -/
theorem staysAbove_lookAt {rest : List κ} (hr : rest ≠ []) (h : editAt c f (t ++ rest) o = some r) :
    StaysAbove (lookAt t o) (lookAt t r) := by
  rw [editAt_append] at h
  rcases lookAt_editAt_cases h with he | ⟨-, ho, hr⟩
  · exact staysAbove_editAt hr he
  · rw [ho, hr]
    exact .refl _

/-- A run of edits that are strictly below a path or disjoint from it. -/
theorem staysAbove_run {es : List (Edit κ α)}
    (hes : ∀ e ∈ es, Disjoint e.path t ∨ ∃ rest, rest ≠ [] ∧ e.path = t ++ rest)
    (h : Edit.run es o = some r) : StaysAbove (lookAt t o) (lookAt t r) := by
  induction es generalizing o with
  | nil =>
    cases h
    exact .refl _
  | cons e es ih =>
    rw [Edit.run, Steps.run_cons] at h
    obtain ⟨o', ho', h⟩ := Option.bind_eq_some_iff.mp h
    have hr := ih (forall_mem_cons.mp hes).2 h
    refine StaysAbove.trans ?_ hr
    rcases hes e mem_cons_self with hd | ⟨rest, hne, hp⟩
    · rw [lookAt_editAt_disjoint hd ho']
      exact .refl _
    · rw [Edit.apply, hp] at ho'
      exact staysAbove_lookAt hne ho'

/-! ## Copying slots -/

/-- A leaf stands above a blocked path. -/
theorem exists_leaf_of_blockedAt (h : blockedAt p o = true) :
    ∃ t rest a, p = t ++ rest ∧ rest ≠ [] ∧ lookAt t o = some (leaf a) := by
  induction p generalizing o with
  | nil => cases h
  | cons k p ih =>
    match o with
    | none => cases h
    | some (.leaf a) => exact ⟨[], k :: p, a, rfl, cons_ne_nil k p, rfl⟩
    | some (.node kids) =>
      obtain ⟨t, rest, a, rfl, hne, hat⟩ := ih h
      exact ⟨k :: t, rest, a, rfl, hne, hat⟩

/-- Putting into a slot what it holds changes nothing. -/
theorem editAt_same (ho : SlotAll WF o)
    (h : lookAt p o = some v) : editAt true (fun _ => some (some v)) p o = some o := by
  induction p generalizing o with
  | nil => exact congrArg some h.symm
  | cons k p ih =>
    match o with
    | none => cases h
    | some (.leaf a) => cases h
    | some (.node kids) =>
      have hwf := ho _ rfl
      rw [editAt_cons_node, ih (wf_hereditary.get hwf k) h, Option.map_some,
        Assoc.place_get (wf_hereditary.sorted hwf)]

/-- Copy the slot at a path, if it holds anything and the path is not blocked. -/
def copyAt (full projected : Slot κ α) (p : List κ) : Slot κ α :=
  match lookAt p full with
  | none => projected
  | some v => (editAt true (fun _ => some (some v)) p projected).getD projected

/-- The slots at the paths were copied from one tree into another, which began as `start`. -/
structure CopiedFrom (full start : Slot κ α) (paths : List (List κ)) (projected : Slot κ α) :
    Prop where
  wf : SlotAll WF projected
  /-- At and below the paths the trees agree. -/
  within : ∀ p ∈ paths, ∀ q, p <+: q → lookAt q projected = lookAt q full
  /-- Elsewhere nothing was copied. -/
  aside : ∀ q, (∀ p ∈ paths, Disjoint p q) → lookAt q projected = lookAt q start
  /-- A leaf was copied. -/
  leaves : ∀ q a, lookAt q projected = some (leaf a) → ∃ p ∈ paths, p <+: q
  /-- Nothing is held that the first tree does not hold. -/
  held : ∀ q, lookAt q full = none → lookAt q projected = none

section

variable {full start projected : Slot κ α} {paths : List (List κ)}

/-- A path that the first tree holds is not blocked. -/
theorem CopiedFrom.not_blocked (h : CopiedFrom full start paths projected)
    (hv : lookAt p full = some v) : blockedAt p projected = false := by
  cases hb : blockedAt p projected with
  | false => rfl
  | true =>
    obtain ⟨t, rest, a, rfl, hne, hat⟩ := exists_leaf_of_blockedAt hb
    obtain ⟨p', hp', hp⟩ := h.leaves t a hat
    rw [h.within p' hp' t hp] at hat
    rw [lookAt_append, hat] at hv
    cases rest with
    | nil => exact absurd rfl hne
    | cons k rest => cases hv

/-- Copying one more slot. -/
theorem CopiedFrom.copyAt (hf : SlotAll WF full) (h : CopiedFrom full start paths projected)
    (p : List κ) : CopiedFrom full start (p :: paths) (copyAt full projected p) := by
  cases hv : lookAt p full with
  | none =>
    have hs : MapTree.copyAt full projected p = projected := by rw [MapTree.copyAt, hv]
    rw [hs]
    refine ⟨h.wf, ?_, fun q hq => h.aside q (forall_mem_cons.mp hq).2,
      fun q a hq => ?_, h.held⟩
    · refine forall_mem_cons.mpr ⟨?_, h.within⟩
      rintro _ ⟨t, rfl⟩
      rw [lookAt_append, lookAt_append, h.held p hv, hv]
    · obtain ⟨p', hp', hpr⟩ := h.leaves q a hq
      exact ⟨p', mem_cons_of_mem _ hp', hpr⟩
  | some v =>
    have hso : (editAt true (fun _ => some (some v)) p projected).isSome :=
      (editAt_true_isSome _ p projected).mpr ⟨h.not_blocked hv, rfl⟩
    obtain ⟨r, hr⟩ := Option.isSome_iff_exists.mp hso
    have hc : MapTree.copyAt full projected p = r := by
      rw [MapTree.copyAt, hv]
      show (editAt true (fun _ => some (some v)) p projected).getD projected = r
      rw [hr]
      rfl
    have hse : some (some v) = some (lookAt p r) := lookAt_editAt_true hr
    have hat : lookAt p r = some v := (Option.some.inj hse).symm
    have hb : ∀ q, p <+: q → lookAt q r = lookAt q full := by
      rintro _ ⟨t, rfl⟩
      rw [lookAt_append, lookAt_append, hat, hv]
    have hvw : SlotAll WF (some v) := hv ▸ wf_hereditary.lookAt p hf
    rw [hc]
    refine ⟨wf_hereditary.editAt h.wf ?_ hr, ?_, fun q hq => ?_, fun q a hq => ?_, fun q hq => ?_⟩
    · rintro _ ⟨⟩
      exact hvw
    · refine forall_mem_cons.mpr ⟨hb, fun p' hp' q hq => ?_⟩
      by_cases hpq : p <+: q
      · exact hb q hpq
      · by_cases hqp : q <+: p
        · -- the slot at `q` was copied before, and what is copied now is a part of it
          obtain ⟨t, rfl⟩ := hqp
          have ho := h.within p' hp' q hq
          rw [editAt_append] at hr
          have he := lookAt_editAt_true hr
          rw [lookAt_append] at hv
          rw [ho, editAt_same (wf_hereditary.lookAt q hf) hv] at he
          exact (Option.some.inj he).symm
        · rw [lookAt_editAt_disjoint ⟨hpq, hqp⟩ hr]
          exact h.within p' hp' q hq
    · obtain ⟨hp, hpa⟩ := forall_mem_cons.mp hq
      rw [lookAt_editAt_disjoint hp hr]
      exact h.aside q hpa
    · by_cases hpq : p <+: q
      · exact ⟨p, mem_cons_self, hpq⟩
      · by_cases hqp : q <+: p
        · obtain ⟨t, rfl⟩ := hqp
          have ht : t ≠ [] := by
            rintro rfl
            rw [append_nil] at hpq
            exact hpq prefix_rfl
          rw [editAt_append] at hr
          exact absurd hq (ne_leaf_of_editAt_true ht (lookAt_editAt_true hr))
        · rw [lookAt_editAt_disjoint ⟨hpq, hqp⟩ hr] at hq
          obtain ⟨p', hp', hpr⟩ := h.leaves q a hq
          exact ⟨p', mem_cons_of_mem _ hp', hpr⟩
    · by_cases hpq : p <+: q
      · rw [hb q hpq, hq]
      · by_cases hqp : q <+: p
        · obtain ⟨t, rfl⟩ := hqp
          simp [lookAt_append, hq, lookAt_none] at hv
        · rw [lookAt_editAt_disjoint ⟨hpq, hqp⟩ hr]
          exact h.held q hq

/-- Copying the slots of a list of paths. -/
theorem copiedFrom_foldl (hf : SlotAll WF full) (h : CopiedFrom full start [] start) :
    CopiedFrom full start paths.reverse (paths.foldl (copyAt full) start) := by
  have hr : ∀ (done : List (List κ)) (projected : Slot κ α), CopiedFrom full start done projected →
      CopiedFrom full start (paths.reverse ++ done) (paths.foldl (copyAt full) projected) := by
    induction paths with
    | nil => exact fun _ _ h => h
    | cons p paths ih =>
      intro done projected hd
      rw [reverse_cons, append_assoc]
      exact ih (p :: done) _ (hd.copyAt hf p)
  have ha := hr [] start h
  rwa [append_nil] at ha

end

end MapTree
