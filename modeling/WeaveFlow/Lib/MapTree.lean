import WeaveFlow.Lib.Assoc

/-!
# Nested maps and updates at a path

A tree is a leaf with a label or a finite map of trees.  A slot is a place of a
map that may be empty.  `lookAt` reads the slot at a path and `editAt` applies a
partial function to it: with `create` the missing maps above the slot are made
and a leaf above it is an error, without it both leave the tree alone.

The laws are those of a store whose locations nest.  An edit leaves every
disjoint path alone (`lookAt_editAt_disjoint`), edits at disjoint paths commute
(`editAt_comm`), edits at one path compose (`editAt_comp`), and what happens
below a path is decided by the slot at that path (`editAt_append`).
-/

/-- Nested maps with keys `κ` and labels `α` at the leaves. -/
inductive MapTree (κ α : Type) where
  | leaf (a : α)
  | node (kids : List (κ × MapTree κ α))

namespace MapTree

open List

/-- A place that may hold a tree. -/
abbrev Slot (κ α : Type) := Option (MapTree κ α)

/-- An update of a slot that may fail. -/
abbrev SlotUpdate (κ α : Type) := Slot κ α → Option (Slot κ α)

variable {κ α β : Type} [LinearOrder κ]

/-! ## Well-formed trees -/

mutual

/-- Every map of the tree has ascending keys. -/
def WF : MapTree κ α → Prop
  | leaf _ => True
  | node kids => Assoc.Sorted kids ∧ WFKids kids

/-- `WF` for the values of a map. -/
def WFKids : List (κ × MapTree κ α) → Prop
  | [] => True
  | (_, t) :: rest => WF t ∧ WFKids rest

end

/-- A property of trees that a map has when its keys ascend and its values have it. -/
def Hereditary (P : MapTree κ α → Prop) : Prop :=
  ∀ kids, P (node kids) ↔ Assoc.Sorted kids ∧ ∀ e ∈ kids, P e.2

theorem wfKids_iff (kids : List (κ × MapTree κ α)) : WFKids kids ↔ ∀ e ∈ kids, WF e.2 := by
  induction kids with
  | nil => simp [WFKids]
  | cons e kids ih =>
    simp only [WFKids, ih, forall_mem_cons]

theorem wf_hereditary : Hereditary (WF : MapTree κ α → Prop) := by
  intro kids
  rw [WF, wfKids_iff]

/-- A slot whose tree, if any, has the property. -/
def SlotAll (P : MapTree κ α → Prop) (o : Slot κ α) : Prop := ∀ t, o = some t → P t

omit [LinearOrder κ] in
theorem slotAll_none (P : MapTree κ α → Prop) : SlotAll P none := fun _ h => nomatch h

variable {p q : List κ} {k : κ} {f : SlotUpdate κ α} {kids : List (κ × MapTree κ α)}
  {P : MapTree κ α → Prop}

omit [LinearOrder κ] in
theorem slotAll_some : SlotAll P (some t) ↔ P t :=
  ⟨fun h => h t rfl, fun h _ he => Option.some.inj he ▸ h⟩

theorem Hereditary.sorted (hP : Hereditary P) (h : P (node kids)) :
    Assoc.Sorted kids := ((hP kids).mp h).1

theorem Hereditary.nil (hP : Hereditary P) : P (node []) := (hP []).mpr ⟨Assoc.sorted_nil, by simp⟩

theorem Hereditary.get (hP : Hereditary P) (h : P (node kids)) (k : κ) :
    SlotAll P (Assoc.get k kids) := by
  intro t ht
  exact ((hP kids).mp h).2 (k, t) (Assoc.mem_of_get ht)

theorem Hereditary.place (hP : Hereditary P) (h : P (node kids)) (k : κ) (hr : SlotAll P r) :
    P (node (Assoc.place k r kids)) := by
  refine (hP _).mpr ⟨(hP.sorted h).place k r, fun e he => ?_⟩
  rcases Assoc.mem_place he with ⟨v, rfl, rfl⟩ | hm
  · exact hr v rfl
  · exact ((hP kids).mp h).2 e hm

/-! ## Reading and editing at a path -/

def lookAt : List κ → Slot κ α → Slot κ α
  | [], o => o
  | k :: ks, some (node kids) => lookAt ks (Assoc.get k kids)
  | _ :: _, _ => none

/-- A leaf stands above the slot at the path. -/
def blockedAt : List κ → Slot κ α → Bool
  | [], _ => false
  | k :: ks, some (node kids) => blockedAt ks (Assoc.get k kids)
  | _ :: _, some (leaf _) => true
  | _ :: _, none => false

/-- Edit the slot at a path, making the maps above it when `create` is set. -/
def editAt (create : Bool) (f : SlotUpdate κ α) : List κ → SlotUpdate κ α
  | [], o => f o
  | k :: ks, some (node kids) =>
    (editAt create f ks (Assoc.get k kids)).map fun r => some (node (Assoc.place k r kids))
  | _ :: _, some (leaf a) => if create then none else some (some (leaf a))
  | k :: ks, none =>
    if create then
      (editAt create f ks none).map fun r => some (node (Assoc.place k r []))
    else some none

/-- Neither path leads to the other. -/
def Disjoint (p q : List κ) : Prop := ¬ p <+: q ∧ ¬ q <+: p

omit [LinearOrder κ] in
theorem Disjoint.symm (h : Disjoint p q) : Disjoint q p := ⟨h.2, h.1⟩

omit [LinearOrder κ] in
theorem disjoint_cons : Disjoint (k :: p) (k :: q) ↔ Disjoint p q := by
  simp [Disjoint]

omit [LinearOrder κ] in
theorem not_disjoint_nil : ¬ Disjoint [] q := fun h => h.1 q.nil_prefix

omit [LinearOrder κ] in
theorem not_disjoint_nil_right : ¬ Disjoint p [] := fun h => h.2 p.nil_prefix

@[simp] theorem lookAt_nil (o : Slot κ α) : lookAt [] o = o := by rw [lookAt]

@[simp] theorem lookAt_none : lookAt p (none : Slot κ α) = none := by
  cases p <;> rfl

theorem lookAt_cons_node (k : κ) (ks : List κ) (kids : List (κ × MapTree κ α)) :
    lookAt (k :: ks) (some (node kids)) = lookAt ks (Assoc.get k kids) := rfl

theorem lookAt_cons_leaf (k : κ) (ks : List κ) (a : α) :
    lookAt (k :: ks) (some (leaf a)) = none := rfl

theorem lookAt_append (p q : List κ) (o : Slot κ α) :
    lookAt (p ++ q) o = lookAt q (lookAt p o) := by
  induction p generalizing o with
  | nil => rfl
  | cons k p ih =>
    match o with
    | none => simp
    | some (leaf a) => rw [cons_append, lookAt_cons_leaf, lookAt_cons_leaf, lookAt_none]
    | some (node kids) => rw [cons_append, lookAt_cons_node, lookAt_cons_node, ih]

theorem blockedAt_none : blockedAt p (none : Slot κ α) = false := by
  cases p <;> rfl

theorem Hereditary.lookAt (hP : Hereditary P) (p : List κ) (h : SlotAll P o) :
    SlotAll P (lookAt p o) := by
  induction p generalizing o with
  | nil => exact h
  | cons k p ih =>
    match o with
    | none | some (leaf a) => exact slotAll_none P
    | some (node kids) => exact ih (hP.get (h _ rfl) k)

/-- Below a blocked path nothing is read. -/
theorem lookAt_of_blocked {p : List κ} {o : Slot κ α} (h : blockedAt p o = true) :
    lookAt p o = none := by
  induction p generalizing o with
  | nil => cases h
  | cons k p ih =>
    match o with
    | none => rfl
    | some (leaf a) => rfl
    | some (node kids) => exact ih h

/-! ## What an edit does -/

theorem editAt_cons_node (c : Bool) (f : SlotUpdate κ α) (k : κ) (ks : List κ)
    (kids : List (κ × MapTree κ α)) :
    editAt c f (k :: ks) (some (node kids)) =
      (editAt c f ks (Assoc.get k kids)).map fun r => some (node (Assoc.place k r kids)) := rfl

/-- An edit below a key of a map replaces the slot of that key. -/
theorem editAt_cons_node_some (h : editAt c f (k :: ks) (some (node kids)) = some r) :
    ∃ r', editAt c f ks (Assoc.get k kids) = some r' ∧ r = some (node (Assoc.place k r' kids)) := by
  obtain ⟨r', hr', rfl⟩ := Option.map_eq_some_iff.mp h
  exact ⟨r', hr', rfl⟩

/-- An edit that creates treats a missing map as an empty one. -/
theorem editAt_true_cons_none (k : κ) (ks : List κ) :
    editAt true f (k :: ks) none = editAt true f (k :: ks) (some (node [])) := rfl

/-- An update that removes nothing and adds nothing where it may not create. -/
def Passive (c : Bool) (f : SlotUpdate κ α) : Prop := c = false → f none = some none

/-- An edit succeeds where its update does, unless it has to create below a leaf. -/
theorem editAt_isSome (hf : Passive c f) (o : Slot κ α) :
    (editAt c f p o).isSome ↔ (c = true → blockedAt p o = false) ∧ (f (lookAt p o)).isSome := by
  induction p generalizing o with
  | nil => simp [editAt, blockedAt]
  | cons k p ih =>
    match o with
    | none =>
      cases c with
      | true => simpa [editAt, blockedAt, blockedAt_none] using ih none
      | false => simp [editAt, hf rfl]
    | some (leaf a) =>
      cases c with
      | true => simp [editAt, blockedAt]
      | false => simp [editAt, lookAt, hf rfl]
    | some (node kids) =>
      rw [editAt_cons_node, Option.isSome_map]
      exact ih (Assoc.get k kids)

/-- An edit that creates is decided by the slot it reaches, unless it is blocked. -/
theorem editAt_true_isSome (f : SlotUpdate κ α) (p : List κ) (o : Slot κ α) :
    (editAt true f p o).isSome ↔ blockedAt p o = false ∧ (f (lookAt p o)).isSome := by
  have hp : Passive true f := nofun
  simpa using editAt_isSome hp o

/-- The slot of an edit holds what the update returned, unless the edit did not get there. -/
theorem lookAt_editAt_cases (h : editAt c f p o = some r) :
    f (lookAt p o) = some (lookAt p r) ∨ c = false ∧ lookAt p o = none ∧ lookAt p r = none := by
  induction p generalizing o r with
  | nil => exact .inl h
  | cons k p ih =>
    match o with
    | none =>
      cases c with
      | true =>
        obtain ⟨r', hr', rfl⟩ := editAt_cons_node_some (editAt_true_cons_none k p ▸ h)
        simpa [lookAt_cons_node, Assoc.get_place] using ih hr'
      | false => cases h; exact .inr ⟨rfl, rfl, rfl⟩
    | some (leaf a) =>
      cases c with
      | true => cases h
      | false => cases h; exact .inr ⟨rfl, rfl, rfl⟩
    | some (node kids) =>
      obtain ⟨r', hr', rfl⟩ := editAt_cons_node_some h
      rw [lookAt_cons_node, lookAt_cons_node, Assoc.get_place, if_pos rfl]
      exact ih hr'

/-- After an edit that creates, the slot holds what the update returned. -/
theorem lookAt_editAt_true (h : editAt true f p o = some r) :
    f (lookAt p o) = some (lookAt p r) :=
  (lookAt_editAt_cases h).resolve_right nofun

/-- Unless it is blocked, an edit that creates writes what the update returns. -/
theorem map_lookAt_editAt_true (hb : blockedAt p o = false) :
    (editAt true f p o).map (lookAt p) = f (lookAt p o) := by
  cases h : editAt true f p o with
  | some r => exact (lookAt_editAt_true h).symm
  | none =>
    have hi := editAt_true_isSome f p o
    rw [h, hb] at hi
    exact (Option.not_isSome_iff_eq_none.mp fun hs => nomatch hi.mpr ⟨rfl, hs⟩).symm

/-- What is read along a path and ends on it is left alone by an edit beside the path or
below its end. -/
theorem read_editAt {β : Type} {g : List κ → Slot κ α → β}
    (hn : ∀ k t kids, g (k :: t) (some (node kids)) = g t (Assoc.get k kids))
    (ha : ∀ k t, g (k :: t) none = g t none) (hp : p <+: t → t <+: p)
    (hg : t <+: p → ∀ o o', g [] o = g [] o') (h : editAt c f p o = some r) : g t r = g t o := by
  induction p generalizing t o r with
  | nil =>
    cases prefix_nil.mp (hp t.nil_prefix)
    exact hg nil_prefix r o
  | cons k p ih =>
    cases t with
    | nil => exact hg nil_prefix r o
    | cons j t =>
      -- The edited map differs from the old one only under `k`.
      have key : ∀ (kids : List (κ × MapTree κ α)) (r' : Slot κ α),
          editAt c f p (Assoc.get k kids) = some r' →
          g t (Assoc.get j (Assoc.place k r' kids)) = g t (Assoc.get j kids) := by
        intro kids r' hr'
        rw [Assoc.get_place]
        by_cases hjk : j = k
        · subst hjk
          rw [if_pos rfl]
          exact ih (fun h => (cons_prefix_cons.mp (hp (cons_prefix_cons.mpr ⟨rfl, h⟩))).2)
            (fun h => hg (cons_prefix_cons.mpr ⟨rfl, h⟩)) hr'
        · rw [if_neg hjk]
      match o with
      | none =>
        cases c with
        | false => cases h; rfl
        | true =>
          obtain ⟨r', hr', rfl⟩ := editAt_cons_node_some (editAt_true_cons_none k p ▸ h)
          rw [hn, ha, key [] r' hr', Assoc.get_nil]
      | some (leaf a) =>
        cases c with
        | false => cases h; rfl
        | true => cases h
      | some (node kids) =>
        obtain ⟨r', hr', rfl⟩ := editAt_cons_node_some h
        rw [hn, hn]
        exact key kids r' hr'

/-- An edit leaves disjoint paths alone. -/
theorem lookAt_editAt_disjoint (hd : Disjoint p q) (h : editAt c f p o = some r) :
    lookAt q r = lookAt q o :=
  read_editAt lookAt_cons_node (fun _ _ => by simp) (fun hp => absurd hp hd.1)
    (fun hq => absurd hq hd.2) h

/-- An edit keeps a hereditary property that the update keeps. -/
theorem Hereditary.editAt (hP : Hereditary P) (ho : SlotAll P o)
    (hf : ∀ r, f (MapTree.lookAt p o) = some r → SlotAll P r) (h : editAt c f p o = some r) :
    SlotAll P r := by
  induction p generalizing o r with
  | nil => exact hf r h
  | cons k p ih =>
    match o with
    | none =>
      cases c with
      | false => cases h; exact slotAll_none P
      | true =>
        obtain ⟨r', hr', rfl⟩ := editAt_cons_node_some (editAt_true_cons_none k p ▸ h)
        refine slotAll_some.mpr (hP.place hP.nil k (ih (slotAll_none P) ?_ hr'))
        simpa using hf
    | some (leaf a) =>
      cases c with
      | false => cases h; exact ho
      | true => cases h
    | some (node kids) =>
      obtain ⟨r', hr', rfl⟩ := editAt_cons_node_some h
      exact slotAll_some.mpr (hP.place (ho _ rfl) k (ih (hP.get (ho _ rfl) k) hf hr'))

/-- What an edit below a path does is decided by the slot at that path. -/
theorem editAt_append : editAt c f (p ++ q) o = editAt c (editAt c f q) p o := by
  induction p generalizing o with
  | nil => rfl
  | cons k p ih =>
    match o with
    | none =>
      cases c with
      | false => rfl
      | true => simp only [cons_append, editAt, ih]
    | some (leaf a) => rfl
    | some (node kids) => rw [cons_append, editAt_cons_node, editAt_cons_node, ih]

/-- Only the value of the update at the slot matters. -/
theorem editAt_congr (h : f (lookAt p o) = g (lookAt p o)) : editAt c f p o = editAt c g p o := by
  induction p generalizing o with
  | nil => exact h
  | cons k p ih =>
    match o with
    | none =>
      cases c with
      | false => rfl
      | true =>
        have : f (lookAt p none) = g (lookAt p none) := by simpa using h
        simp only [editAt, ih this]
    | some (leaf a) => rfl
    | some (node kids) => rw [editAt_cons_node, editAt_cons_node, ih h]

/-- Without `create`, an edit of a missing slot does nothing. -/
theorem editAt_false_none (hf : f none = some none) : editAt false f p none = some none := by
  cases p with
  | nil => exact hf
  | cons k p => rfl

theorem editAt_true_none (f : SlotUpdate κ α) (hp : p ≠ []) :
    editAt true f p none = editAt true f p (some (node [])) := by
  cases p with
  | nil => exact absurd rfl hp
  | cons k ks => exact editAt_true_cons_none k ks

theorem editAt_false_absent (f : SlotUpdate κ α) (hp : p ≠ []) :
    editAt false f p none = some none := by
  cases p with
  | nil => exact absurd rfl hp
  | cons k ks => rfl

theorem editAt_leaf (c : Bool) (f : SlotUpdate κ α) (a : α) (hp : p ≠ []) :
    editAt c f p (some (leaf a)) = if c then none else some (some (leaf a)) := by
  cases p with
  | nil => exact absurd rfl hp
  | cons k ks => rfl

/-! ## Editing below a key of a map -/

def editMap (create : Bool) (f : SlotUpdate κ α) (k : κ) (ks : List κ)
    (kids : List (κ × MapTree κ α)) : Option (List (κ × MapTree κ α)) :=
  (editAt create f ks (Assoc.get k kids)).map fun r => Assoc.place k r kids

theorem editAt_node_eq_editMap (f : SlotUpdate κ α) (k : κ) (ks : List κ)
    (kids : List (κ × MapTree κ α)) :
    editAt c f (k :: ks) (some (node kids)) =
      (editMap c f k ks kids).map fun m => some (node m) := by
  rw [editAt_cons_node, editMap, Option.map_map]
  rfl

/-- A map edit as an edit of the slot that holds the map. -/
theorem editMap_eq_some : editMap c f k ks kids = some kids' ↔
      editAt c f (k :: ks) (some (node kids)) = some (some (node kids')) := by
  rw [editAt_node_eq_editMap, Option.map_eq_some_iff]
  constructor
  · intro h
    exact ⟨kids', h, rfl⟩
  · rintro ⟨m, hm, he⟩
    cases he
    exact hm

/-! ## Composing edits -/

/-- Edits at one path compose. -/
theorem editAt_comp (ho : SlotAll WF o) :
    (editAt c f p o).bind (editAt c g p) = editAt c (fun s => (f s).bind g) p o := by
  induction p generalizing o with
  | nil => rfl
  | cons k p ih =>
    have key : ∀ kids : List (κ × MapTree κ α), SlotAll WF (some (node kids)) →
        ((editAt c f p (Assoc.get k kids)).map fun r =>
            some (node (Assoc.place k r kids))).bind (editAt c g (k :: p)) =
          (editAt c (fun s => (f s).bind g) p (Assoc.get k kids)).map fun r =>
            some (node (Assoc.place k r kids)) := by
      intro kids hk
      have hw := slotAll_some.mp hk
      rw [← ih (wf_hereditary.get hw k)]
      cases editAt c f p (Assoc.get k kids) with
      | none => rfl
      | some r =>
        have hg : Assoc.get k (Assoc.place k r kids) = r := by
          rw [Assoc.get_place, if_pos rfl]
        simp only [Option.map_some, Option.bind_some, editAt_cons_node, hg,
          Assoc.place_place (wf_hereditary.sorted hw)]
    match o with
    | none =>
      cases c with
      | false => rfl
      | true => exact key [] (slotAll_some.mpr wf_hereditary.nil)
    | some (leaf a) =>
      cases c with
      | false => rfl
      | true => rfl
    | some (node kids) => exact key kids ho

/-- Edits of the maps under two different keys commute. -/
theorem bind_place_comm (F G : SlotUpdate κ α) (hkj : k ≠ j) (hs : Assoc.Sorted kids) :
    ((F (Assoc.get k kids)).bind fun r => (G (Assoc.get j (Assoc.place k r kids))).map fun r' =>
        some (node (Assoc.place j r' (Assoc.place k r kids)))) =
      (G (Assoc.get j kids)).bind fun r' => (F (Assoc.get k (Assoc.place j r' kids))).map fun r =>
        some (node (Assoc.place k r (Assoc.place j r' kids))) := by
  have hj : ∀ r, Assoc.get j (Assoc.place k r kids) = Assoc.get j kids := fun r => by
    rw [Assoc.get_place, if_neg hkj.symm]
  have hk : ∀ r, Assoc.get k (Assoc.place j r kids) = Assoc.get k kids := fun r => by
    rw [Assoc.get_place, if_neg hkj]
  simp only [hj, hk]
  cases F (Assoc.get k kids) with
  | none =>
    cases G (Assoc.get j kids) with
    | none => rfl
    | some r' => rfl
  | some r =>
    cases G (Assoc.get j kids) with
    | none => rfl
    | some r' => simp [Assoc.place_comm hs hkj r']

/-- Edits of the map under one key commute when they commute on its slot. -/
theorem bind_place_same (G : SlotUpdate κ α) (k : κ) (hs : Assoc.Sorted kids)
    (h : (F (Assoc.get k kids)).bind G = (G (Assoc.get k kids)).bind F) :
    ((F (Assoc.get k kids)).bind fun r => (G (Assoc.get k (Assoc.place k r kids))).map fun r' =>
        some (node (Assoc.place k r' (Assoc.place k r kids)))) =
      (G (Assoc.get k kids)).bind fun r' => (F (Assoc.get k (Assoc.place k r' kids))).map fun r =>
        some (node (Assoc.place k r (Assoc.place k r' kids))) := by
  have hg : ∀ r, Assoc.get k (Assoc.place k r kids) = r := fun r => by
    rw [Assoc.get_place, if_pos rfl]
  simp only [hg, Assoc.place_place hs]
  have := congrArg (Option.map fun r => some (node (Assoc.place k r kids))) h
  simpa only [Option.map_bind, Function.comp_def] using this

/-- Edits at disjoint paths commute. -/
theorem editAt_comm (hf : Passive c f) (hg : Passive d g) (hd : Disjoint p q) (ho : SlotAll WF o) :
    (editAt c f p o).bind (editAt d g q) = (editAt d g q o).bind (editAt c f p) := by
  induction p generalizing q o with
  | nil => exact absurd hd not_disjoint_nil
  | cons k p ih =>
    cases q with
    | nil => exact absurd hd not_disjoint_nil_right
    | cons j q =>
      -- On a map both edits act on the slots of `k` and `j`.
      have onMap : ∀ kids : List (κ × MapTree κ α), WF (node kids) →
          (editAt c f (k :: p) (some (node kids))).bind (editAt d g (j :: q)) =
            (editAt d g (j :: q) (some (node kids))).bind (editAt c f (k :: p)) := by
        intro kids hw
        have hs := wf_hereditary.sorted hw
        simp only [editAt_cons_node, Option.bind_map, Function.comp_def]
        by_cases hkj : k = j
        · subst hkj
          exact bind_place_same _ k hs (ih (disjoint_cons.mp hd) (wf_hereditary.get hw k))
        · exact bind_place_comm (editAt c f p) (editAt d g q) hkj hs
      match o with
      | some (node kids) => exact onMap kids (ho _ rfl)
      | some (leaf a) => cases c <;> cases d <;> rfl
      | none =>
        have hn := onMap [] wf_hereditary.nil
        -- An edit without `create` sees no difference between no map and an empty one.
        have hno : ∀ {f : SlotUpdate κ α} {k p}, Passive false f →
            editAt false f (k :: p) (some (node [])) = some (some (node [])) := fun hf => by
          simp [editAt_cons_node, editAt_false_none (hf rfl), Assoc.place, Assoc.del]
        cases c with
        | true =>
          cases d with
          | true => exact hn
          | false => rwa [hno hg] at hn
        | false =>
          cases d with
          | true => rwa [hno hf] at hn
          | false => rfl

/-! ## Composing edits of a map -/

/-- A sequence of map edits as a sequence of slot edits. -/
theorem editMap_bind_map :
    ((editMap c f k ks kids).bind (editMap d g j js)).map (fun m => some (node m)) =
      (editAt c f (k :: ks) (some (node kids))).bind (editAt d g (j :: js)) := by
  rw [editAt_node_eq_editMap]
  cases editMap c f k ks kids with
  | none => rfl
  | some m => exact (editAt_node_eq_editMap g j js m).symm

omit [LinearOrder κ] in
theorem map_node_inj {x y : Option (List (κ × MapTree κ α))}
    (h : x.map (fun m => some (node m)) = y.map fun m => some (node m)) : x = y := by
  cases x with
  | none =>
    cases y with
    | none => rfl
    | some n => cases h
  | some m =>
    cases y with
    | none => cases h
    | some n => cases h; rfl

/-- Edits of a map at disjoint paths commute. -/
theorem editMap_comm {c d : Bool} {f g : SlotUpdate κ α} (hf : Passive c f) (hg : Passive d g)
    {k j : κ} {ks js : List κ} (hd : Disjoint (k :: ks) (j :: js))
    {kids : List (κ × MapTree κ α)} (hw : WF (node kids)) :
    (editMap c f k ks kids).bind (editMap d g j js) =
      (editMap d g j js kids).bind (editMap c f k ks) := by
  refine map_node_inj ?_
  rw [editMap_bind_map, editMap_bind_map]
  exact editAt_comm hf hg hd (slotAll_some.mpr hw)

/-- Edits of a map at one path commute when the updates commute on the slot. -/
theorem editMap_comm_same {c : Bool} {f g : SlotUpdate κ α} {k : κ} {ks : List κ}
    {kids : List (κ × MapTree κ α)} (hw : WF (node kids))
    (h : ∀ o, SlotAll WF o → (f o).bind g = (g o).bind f) :
    (editMap c f k ks kids).bind (editMap c g k ks) =
      (editMap c g k ks kids).bind (editMap c f k ks) := by
  have ho := slotAll_some.mpr hw
  refine map_node_inj ?_
  rw [editMap_bind_map, editMap_bind_map, editAt_comp ho, editAt_comp ho]
  exact editAt_congr (h _ (wf_hereditary.lookAt _ ho))

end MapTree
