import WeaveFlow.State.MergePlan

/-!
# Runs on normal labels

Set, delete and merge never look into a leaf.  On roots with normalised labels they
are edits too (`canonEdit`), and a run of them on a state corresponds step by step to
a run on its normalised root (`run_canon`).  On normalised roots values that are
JSON-equal are equal, so operations of different branches that pass the conflict check
can be swapped (`canonEdit_commutes`), provided that merges at one path write overlays
that agree.
-/

namespace WeaveFlow

open Raw MapTree List

/-- A root with normalised labels. -/
abbrev CanonObject := List (String × MapTree String Raw)

/-- Normalise the labels of a root. -/
def canonObject (root : Object) : CanonObject := Assoc.mapVals Raw.canon root

theorem canon_node (root : Object) : Raw.canon (.node root) = .node (canonObject root) :=
  map_node jsonLeaf root

/-- The operation is a set, a delete or a merge. -/
def PatchOp.Simple (op : PatchOp) : Prop :=
  op.kind = .set ∨ op.kind = .delete ∨ op.kind = .merge

/-- What an operation does to a slot with normalised labels. -/
def canonUpdate (op : PatchOp) : SlotUpdate String Raw := fun o =>
  match op.kind with
  | .set =>
    if op.path.segments.isEmpty && !op.value.isObject then none else some (some op.value.canon)
  | .delete => if op.path.segments.isEmpty then some (some (.node [])) else some none
  | .merge => if op.value.isObject then MapTree.mergeOver op.value.canon o else none
  | _ => none

/-- The edit that an operation makes to a normalised root. -/
def canonEdit (root : CanonObject) (op : PatchOp) : Option CanonObject :=
  editMap (opCreates op) (canonUpdate op) op.path.sectionName op.path.segments root

theorem canonUpdate_map (hop : op.Simple) :
    canonUpdate op (o.map Raw.canon) = (opUpdate reducers op o).map (Option.map Raw.canon) := by
  rcases hop with hk | hk | hk
  · simp only [canonUpdate, opUpdate, hk, setUpdate]
    cases hv : op.value with
    | leaf a | node kids => cases op.path.segments.isEmpty <;> simp [isObject, Raw.asMap]
  · simp only [canonUpdate, opUpdate, hk, deleteUpdate]
    cases op.path.segments.isEmpty with
    | true =>
      rfl
    | false => simp
  · simp only [canonUpdate, opUpdate, hk]
    cases hv : op.value with
    | leaf a => rfl
    | node overlay =>
      exact mergeOver_map jsonLeaf (.node overlay) o

theorem canonEdit_canonObject (hop : op.Simple) (root : Object) :
    canonEdit (canonObject root) op = (opEdit reducers op root).map canonObject :=
  editMap_map jsonLeaf _ _ root fun _ => canonUpdate_map hop

/-- A run of simple operations corresponds to a run on the normalised root. -/
theorem run_canon (hop : ∀ op ∈ ops, op.Simple) (root : Object) :
    Steps.run canonEdit (canonObject root) ops = (opEdits reducers root ops).map canonObject := by
  induction ops generalizing root with
  | nil => rfl
  | cons op ops ih =>
    rw [Steps.run_cons, opEdits, Steps.run_cons, canonEdit_canonObject (hop op mem_cons_self)]
    cases opEdit reducers op root with
    | none => rfl
    | some next => exact ih (forall_mem_cons.mp hop).2 next

/-! ## Values that normalise to the shape they have -/

namespace Raw

mutual

/-- No leaf outside a slice marshals to an object. -/
def plain : Raw → Bool
  | .leaf a => !(jsonLeaf a).isObject
  | .node kids => plainKids kids

/-- `plain` for the values of a map. -/
def plainKids : Object → Bool
  | [] => true
  | (_, v) :: rest => plain v && plainKids rest

end

theorem plainKids_iff : plainKids kids = true ↔ ∀ e ∈ kids, plain e.2 = true := by
  induction kids with
  | nil => simp [plainKids]
  | cons e kids ih =>
    rw [plainKids, Bool.and_eq_true, ih, forall_mem_cons]

/-- JSON-equal plain values have the same normal labels. -/
theorem canon_eq_of_jsonEq (hv : v.plain = true) (hw : w.plain = true) (h : JSONEq v w) :
    v.canon = w.canon := by
  induction v using MapTree.inductionOn generalizing w with
  | leaf a =>
    cases w with
    | leaf b =>
      rw [JSONEq, jsonNormal_leaf, jsonNormal_leaf] at h
      rw [canon, canon, map_leaf, map_leaf, h]
    | node kids =>
      rw [JSONEq, jsonNormal_leaf, jsonNormal_node] at h
      simp [plain, h, isObject] at hv
  | node kids ih =>
    cases w with
    | leaf b =>
      rw [JSONEq, jsonNormal_leaf, jsonNormal_node] at h
      simp [plain, ← h, isObject] at hw
    | node kids' =>
      rw [JSONEq, jsonNormal_node, jsonNormal_node, MapTree.node.injEq] at h
      rw [plain] at hv hw
      rw [canon_node, canon_node, MapTree.node.injEq]
      induction kids generalizing kids' with
      | nil =>
        cases kids' with
        | nil => rfl
        | cons e' rest' => cases h
      | cons e kids ihk =>
        cases kids' with
        | nil => cases h
        | cons e' rest' =>
          obtain ⟨k, v⟩ := e
          obtain ⟨k', v'⟩ := e'
          simp only [Assoc.mapVals, List.cons.injEq, Prod.mk.injEq] at h
          rw [plainKids, Bool.and_eq_true] at hv hw
          obtain ⟨⟨rfl, hvv⟩, hr⟩ := h
          have hh := ih (k, v) mem_cons_self hv.1 hw.1 hvv
          have ht := ihk (forall_mem_cons.mp ih).2 hv.2 _ hw.2 hr
          simp only [canonObject, Assoc.mapVals, List.cons.injEq, Prod.mk.injEq, true_and]
          exact ⟨hh, ht⟩

theorem isObject_eq_of_canon (h : canon v = canon w) : v.isObject = w.isObject := by
  cases v <;> cases w <;> first | rfl | simp [canon, map_leaf, map_node] at h

end Raw

/-! ## Swapping operations of different branches -/

theorem canonUpdate_passive : Passive (opCreates op) (canonUpdate op) := by
  intro h
  simp only [opCreates, Bool.or_eq_false_iff, decide_eq_false_iff_not, ne_eq, not_not] at h
  simp [canonUpdate, h.1, h.2]

theorem wf_canon (op : PatchOp) : MapTree.WF op.value.canon := op.valid.tree.map jsonLeaf

theorem wf_canonUpdate (ho : SlotAll MapTree.WF o) (h : canonUpdate op o = some r) :
    SlotAll MapTree.WF r := by
  rw [canonUpdate] at h
  split at h
  · split at h
    · cases h
    · cases h; exact slotAll_some.mpr (wf_canon op)
  · split at h
    · cases h; exact slotAll_some.mpr wf_hereditary.nil
    · cases h; exact slotAll_none _
  · split at h
    · rw [mergeOver_eq_some h]
      exact slotAll_some.mpr (wf_hereditary.mergeSlot (wf_canon op) ho)
    · cases h
  · cases h

/-- The invariant of normalised roots. -/
def CanonWF (root : CanonObject) : Prop := MapTree.WF (.node root)

theorem canonEdit_keeps : Steps.Keeps CanonWF canonEdit op := by
  intro root root' hw h
  have he := editMap_eq_some.mp h
  have ho := slotAll_some.mpr hw
  exact slotAll_some.mp (wf_hereditary.editAt ho
      (fun r hr => wf_canonUpdate (wf_hereditary.lookAt _ ho) hr) he)

/-- Equal edits commute with each other. -/
theorem canonEdit_commutes_of_eq (hp : l.path = r.path) (hc : opCreates l = opCreates r)
    (hu : canonUpdate l = canonUpdate r) : Steps.Commutes CanonWF canonEdit l r := by
  intro root _
  simp only [canonEdit, hp, hc, hu]

/-- Operations of different branches that pass the check can be swapped. -/
theorem canonEdit_commutes {overlay : Bool} {l r : PatchOp} (hl : l.Simple)
    (hlp : l.value.plain = true) (hrp : r.value.plain = true) (h : PairOK overlay l r)
    (ha : l.kind = .merge → r.kind = .merge → l.path = r.path →
      MapTree.Agree l.value.canon r.value.canon) :
    Steps.Commutes CanonWF canonEdit l r := by
  cases h with
  | disjoint hd =>
    intro root hw
    exact editMap_comm canonUpdate_passive canonUpdate_passive hd hw
  | append hp hkl hkr | reduce hp hkl hkr _ =>
    rcases hl with hk | hk | hk <;> rw [hk] at hkl <;> cases hkl
  | set hp hkl hkr hj =>
    have hc := canon_eq_of_jsonEq hlp hrp hj
    refine canonEdit_commutes_of_eq hp ?_ ?_
    · simp [opCreates, hkl, hkr]
    · funext o
      simp only [canonUpdate, hkl, hkr, hp, isObject_eq_of_canon hc, hc]
  | delete hp hkl hkr =>
    refine canonEdit_commutes_of_eq hp ?_ ?_
    · simp [opCreates, hkl, hkr, hp]
    · funext o
      simp only [canonUpdate, hkl, hkr, hp]
  | merge hp hkl hkr _ =>
    have hwl := wf_canon l
    have hwr := wf_canon r
    have hag := ha hkl hkr hp
    obtain ⟨_, path, lv, _, _⟩ := l
    obtain ⟨_, _, rv, _, _⟩ := r
    cases hkl
    cases hkr
    obtain rfl : path = _ := hp
    intro root hw
    refine editMap_comm_same hw fun o ho => ?_
    cases lv with
    | leaf a => exact (Option.bind_fun_none _).symm
    | node m =>
      cases rv with
      | leaf a => exact Option.bind_fun_none _
      | node n =>
        simp only [canon_node] at hwl hwr hag
        unfold canonUpdate
        simp only [isObject, if_true, canon_node]
        exact mergeOver_comm hwl hwr hag ho

end WeaveFlow
