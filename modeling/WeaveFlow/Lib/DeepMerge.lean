import WeaveFlow.Lib.MapTree

/-!
# Relabelling and deep merge of nested maps

`MapTree.map` changes the labels of a tree.  Reading, editing and merging only look
at the maps of a tree and never at its labels, so they commute with it
(`lookAt_map`, `editAt_map`, `mergeSlot_map`).

`mergeSlot` writes a tree over a slot: maps are merged key by key and everything
else is replaced.  Two overlays can be written in either order over every slot
exactly when they agree (`mergeSlot_comm`, `mergeSlot_swap_iff`).
-/

namespace MapTree

open List

variable {κ α β : Type}

/-- Induction over the maps of a tree. -/
theorem inductionOn {motive : MapTree κ α → Prop} (leaf : ∀ a, motive (leaf a))
    (node : ∀ kids, (∀ e ∈ kids, motive e.2) → motive (node kids)) : ∀ t, motive t
  | .leaf a => leaf a
  | .node kids => node kids (onKids kids)
where
  onKids : ∀ (kids : List (κ × MapTree κ α)), ∀ e ∈ kids, motive e.2
    | [] => fun _ h => nomatch h
    | (_, t) :: rest => fun e he => by
      cases mem_cons.mp he with
      | inl h => rw [h]; exact inductionOn leaf node t
      | inr h => exact onKids rest e h

/-! ## Relabelling -/

mutual

/-- Change every label. -/
def map (g : α → β) : MapTree κ α → MapTree κ β
  | leaf a => leaf (g a)
  | node kids => node (mapKids g kids)

/-- `map` for the values of a map. -/
def mapKids (g : α → β) : List (κ × MapTree κ α) → List (κ × MapTree κ β)
  | [] => []
  | (k, t) :: rest => (k, map g t) :: mapKids g rest

end

theorem mapKids_eq (g : α → β) (kids : List (κ × MapTree κ α)) :
    mapKids g kids = Assoc.mapVals (map g) kids := by
  induction kids with
  | nil => rfl
  | cons e kids ih =>
    rw [mapKids, ih]
    rfl

theorem map_node (g : α → β) (kids : List (κ × MapTree κ α)) :
    map g (node kids) = node (Assoc.mapVals (map g) kids) := by
  rw [map, mapKids_eq]

theorem map_leaf (g : α → β) (a : α) : map g (leaf a : MapTree κ α) = leaf (g a) := by rw [map]

variable [LinearOrder κ]

theorem WF.map (g : α → β) {t : MapTree κ α} (h : WF t) : WF (map g t) := by
  induction t using inductionOn with
  | leaf a => rw [map_leaf]; trivial
  | node kids ih =>
    obtain ⟨hs, hk⟩ := (wf_hereditary kids).mp h
    rw [map_node]
    refine (wf_hereditary _).mpr ⟨hs.mapVals _, fun e he => ?_⟩
    obtain ⟨v, hv, heq⟩ := Assoc.mem_mapVals he
    rw [heq]
    exact ih _ hv (hk _ hv)

theorem lookAt_map (g : α → β) (p : List κ) (o : Slot κ α) :
    lookAt p (o.map (map g)) = (lookAt p o).map (map g) := by
  induction p generalizing o with
  | nil => rfl
  | cons k p ih =>
    match o with
    | none => rfl
    | some (leaf a) => rw [Option.map_some, map_leaf]; rfl
    | some (node kids) =>
      rw [Option.map_some, map_node, lookAt_cons_node, Assoc.get_mapVals, ih, lookAt_cons_node]

/-- Edits that correspond under a relabelling give results that correspond. -/
theorem editAt_map (g : α → β) (p : List κ) (o : Slot κ α)
    (h : f' ((lookAt p o).map (map g)) = (f (lookAt p o)).map (Option.map (map g))) :
    editAt c f' p (o.map (map g)) = (editAt c f p o).map (Option.map (map g)) := by
  induction p generalizing o with
  | nil => exact h
  | cons k p ih =>
    have onMap : ∀ kids : List (κ × MapTree κ α), f' ((lookAt p (Assoc.get k kids)).map (map g)) =
          (f (lookAt p (Assoc.get k kids))).map (Option.map (map g)) →
        editAt c f' (k :: p) (some (map g (node kids))) =
          (editAt c f (k :: p) (some (node kids))).map (Option.map (map g)) := by
      intro kids hk
      rw [map_node, editAt_cons_node, Assoc.get_mapVals, ih _ hk, editAt_cons_node]
      cases editAt c f p (Assoc.get k kids) with
      | none => rfl
      | some r => simp [map_node, Assoc.mapVals_place]
    match o with
    | none =>
      cases c with
      | false => rfl
      | true =>
        have hn := onMap [] (by simpa using h)
        rwa [map_node] at hn
    | some (leaf a) =>
      cases c with
      | false => simp only [editAt, Option.map_some, map_leaf, Bool.false_eq_true, if_false]
      | true => simp only [editAt, Option.map_some, map_leaf, if_true, Option.map_none]
    | some (node kids) => exact onMap kids h

theorem editMap_map (g : α → β) (k : κ) (ks : List κ) (kids : List (κ × MapTree κ α))
    (h : ∀ o, f' (o.map (map g)) = (f o).map (Option.map (map g))) :
    editMap c f' k ks (Assoc.mapVals (map g) kids) =
      (editMap c f k ks kids).map (Assoc.mapVals (map g)) := by
  rw [editMap, editMap, Assoc.get_mapVals, editAt_map g ks _ (h _)]
  cases editAt c f ks (Assoc.get k kids) with
  | none => rfl
  | some r => simp [Assoc.mapVals_place]

/-! ## Deep merge -/

mutual

/-- Write a tree over a slot, merging maps key by key. -/
def mergeSlot : Slot κ α → MapTree κ α → MapTree κ α
  | some (node kids), node upper => node (mergeKids kids upper)
  | some (leaf _), node upper => node upper
  | none, node upper => node upper
  | _, leaf a => leaf a

/-- Write every entry of a map over another map. -/
def mergeKids : List (κ × MapTree κ α) → List (κ × MapTree κ α) → List (κ × MapTree κ α)
  | kids, [] => kids
  | kids, (k, t) :: rest => mergeKids (Assoc.put k (mergeSlot (Assoc.get k kids) t) kids) rest

end

theorem mergeSlot_leaf (o : Slot κ α) (a : α) : mergeSlot o (leaf a) = leaf a := by
  match o with
  | none => rfl
  | some (leaf _) => rfl
  | some (node _) => rfl

theorem mergeSlot_none (t : MapTree κ α) : mergeSlot none t = t := by cases t <;> rfl

theorem mergeSlot_node_node (upper : List (κ × MapTree κ α)) :
    mergeSlot (some (node kids)) (node upper) = node (mergeKids kids upper) := by rw [mergeSlot]

theorem mergeSlot_leaf_node (upper : List (κ × MapTree κ α)) :
    mergeSlot (some (leaf a)) (node upper) = node upper := by rw [mergeSlot]

/-- Under every key the value of the overlay is written over the value of the map. -/
theorem get_mergeKids (kids : List (κ × MapTree κ α)) (ho : Assoc.Sorted upper) :
    Assoc.get k (mergeKids kids upper) = (Assoc.get k upper).elim (Assoc.get k kids) fun t =>
        some (mergeSlot (Assoc.get k kids) t) := by
  induction upper generalizing kids with
  | nil => rw [mergeKids]; rfl
  | cons e upper ih =>
    obtain ⟨j, t⟩ := e
    obtain ⟨hlt, hs⟩ := Assoc.sorted_cons.mp ho
    rw [mergeKids, ih _ hs, Assoc.get_cons]
    by_cases hk : k = j
    · subst hk
      rw [Assoc.get_eq_none_of_lt hlt, if_pos rfl, Assoc.get_put_self]
      rfl
    · rw [if_neg hk, Assoc.get_put_ne hk]

theorem sorted_mergeKids (hk : Assoc.Sorted kids) (upper : List (κ × MapTree κ α)) :
    Assoc.Sorted (mergeKids kids upper) := by
  induction upper generalizing kids with
  | nil => rw [mergeKids]; exact hk
  | cons e upper ih =>
    obtain ⟨j, t⟩ := e
    exact ih (hk.put j _)

theorem mergeKids_nil {upper : List (κ × MapTree κ α)} (ho : Assoc.Sorted upper) :
    mergeKids [] upper = upper := by
  refine Assoc.ext (sorted_mergeKids Assoc.sorted_nil upper) ho fun k => ?_
  rw [get_mergeKids [] ho]
  cases Assoc.get k upper with
  | none => rfl
  | some t => simp [mergeSlot_none]

variable {o : Slot κ α} {n m : List (κ × MapTree κ α)}

/-- A merge keeps a hereditary property. -/
theorem Hereditary.mergeSlot {P : MapTree κ α → Prop} (hP : Hereditary P) {t : MapTree κ α}
    (ht : P t) (ho : SlotAll P o) : P (mergeSlot o t) := by
  induction t using inductionOn generalizing o with
  | leaf a => rw [mergeSlot_leaf]; exact ht
  | node upper ih =>
    match o with
    | none => rw [mergeSlot_none]; exact ht
    | some (.leaf a) => rw [mergeSlot_leaf_node]; exact ht
    | some (.node kids) =>
      have hk := slotAll_some.mp ho
      obtain ⟨hs, ha⟩ := (hP upper).mp ht
      refine (hP _).mpr ⟨sorted_mergeKids (hP.sorted hk) upper, fun e he => ?_⟩
      have hg := (Assoc.get_eq_some_iff (sorted_mergeKids (hP.sorted hk) upper)).mpr he
      rw [get_mergeKids _ hs] at hg
      cases hov : Assoc.get e.1 upper with
      | none =>
        rw [hov] at hg
        exact hP.get hk e.1 _ hg
      | some u =>
        rw [hov] at hg
        have hu := Assoc.mem_of_get hov
        rw [← Option.some.inj hg]
        exact ih _ hu (ha _ hu) (hP.get hk e.1)

theorem mergeSlot_map (g : α → β) (t : MapTree κ α) (o : Slot κ α) :
    map g (mergeSlot o t) = mergeSlot (o.map (map g)) (map g t) := by
  induction t using inductionOn generalizing o with
  | leaf a => rw [mergeSlot_leaf, map_leaf, mergeSlot_leaf]
  | node upper ih =>
    match o with
    | none => rw [mergeSlot_none, Option.map_none, mergeSlot_none]
    | some (.leaf a) =>
      rw [mergeSlot_leaf_node, Option.map_some, map_leaf, map_node, mergeSlot_leaf_node]
    | some (.node kids) =>
      rw [mergeSlot_node_node, Option.map_some, map_node, map_node, map_node, mergeSlot_node_node]
      induction upper generalizing kids with
      | nil => rfl
      | cons e upper ihl =>
        obtain ⟨k, u⟩ := e
        have hu := ih (k, u) mem_cons_self (Assoc.get k kids)
        simp only [Assoc.mapVals, mergeKids]
        rw [ihl (forall_mem_cons.mp ih).2, Assoc.mapVals_put, hu, Assoc.get_mapVals]

/-! ## Overlays that can be swapped -/

mutual

/-- The trees hold the same label wherever both hold one, and never a label against a map. -/
def Agree : MapTree κ α → MapTree κ α → Prop
  | leaf a, leaf b => a = b
  | node m, node n => AgreeKids m n
  | leaf _, node _ => False
  | node _, leaf _ => False

/-- The values of two maps agree under every key they share. -/
def AgreeKids : List (κ × MapTree κ α) → List (κ × MapTree κ α) → Prop
  | [], _ => True
  | (k, t) :: rest, n => (∀ u, Assoc.get k n = some u → Agree t u) ∧ AgreeKids rest n

end

theorem agreeKids_iff (hm : Assoc.Sorted m) : AgreeKids m n ↔
      ∀ k t u, Assoc.get k m = some t → Assoc.get k n = some u → Agree t u := by
  induction m with
  | nil => simp [AgreeKids]
  | cons e m ih =>
    obtain ⟨j, t⟩ := e
    obtain ⟨hlt, hs⟩ := Assoc.sorted_cons.mp hm
    rw [AgreeKids, ih hs]
    constructor
    · rintro ⟨hj, hr⟩ k t' u ht hu
      rw [Assoc.get_cons] at ht
      split at ht
      next hk =>
        cases ht
        exact hj u (hk ▸ hu)
      · exact hr k t' u ht hu
    · intro h
      refine ⟨fun u hu => h j t u (by rw [Assoc.get_cons, if_pos rfl]) hu, ?_⟩
      intro k t' u ht hu
      have hkj : k ≠ j := by
        rintro rfl
        simp [Assoc.get_eq_none_of_lt hlt] at ht
      exact h k t' u (by rw [Assoc.get_cons, if_neg hkj]; exact ht) hu

/-- Overlays that agree can be written in either order over every slot. -/
theorem mergeSlot_comm {a b : MapTree κ α} (ha : WF a) (hb : WF b) (hab : Agree a b)
    (ho : SlotAll WF o) :
    mergeSlot (some (mergeSlot o a)) b = mergeSlot (some (mergeSlot o b)) a := by
  induction a using inductionOn generalizing b o with
  | leaf a =>
    match b with
    | .leaf b =>
      have ha' : a = b := by simpa [Agree] using hab
      rw [ha']
    | .node n => simp [Agree] at hab
  | node m ih =>
    match b with
    | .leaf b => simp [Agree] at hab
    | .node n =>
      obtain ⟨hm, hma⟩ := (wf_hereditary m).mp ha
      obtain ⟨hn, hna⟩ := (wf_hereditary n).mp hb
      have hag := (agreeKids_iff hm).mp (by simpa only [Agree] using hab)
      -- Over a map both orders give the same lookups.
      have onMap : ∀ kids : List (κ × MapTree κ α), WF (node kids) →
          mergeKids (mergeKids kids m) n = mergeKids (mergeKids kids n) m := by
        intro kids hk
        have hs := wf_hereditary.sorted hk
        refine Assoc.ext (sorted_mergeKids (sorted_mergeKids hs m) n)
          (sorted_mergeKids (sorted_mergeKids hs n) m) fun k => ?_
        rw [get_mergeKids _ hn, get_mergeKids _ hm, get_mergeKids _ hm, get_mergeKids _ hn]
        cases hkm : Assoc.get k m with
        | none => rfl
        | some t =>
          cases hkn : Assoc.get k n with
          | none => rfl
          | some u =>
            have ht := Assoc.mem_of_get hkm
            have hu := Assoc.mem_of_get hkn
            have := ih _ ht (hma _ ht) (hna _ hu) (hag k t u hkm hkn) (wf_hereditary.get hk k)
            simpa using this
      have he := onMap [] wf_hereditary.nil
      rw [mergeKids_nil hm, mergeKids_nil hn] at he
      match o with
      | none => simp only [mergeSlot_none, mergeSlot_node_node, he]
      | some (.leaf c) => simp only [mergeSlot_leaf_node, mergeSlot_node_node, he]
      | some (.node kids) =>
        simp only [mergeSlot_node_node, onMap kids (slotAll_some.mp ho)]

/-- Two overlays agree exactly when writing one over the other does not depend on the order. -/
theorem mergeSlot_swap_iff {a b : MapTree κ α} (ha : WF a) (hb : WF b) :
    mergeSlot (some a) b = mergeSlot (some b) a ↔ Agree a b := by
  constructor
  · intro h
    induction a using inductionOn generalizing b with
    | leaf a =>
      match b with
      | .leaf b =>
        simp only [mergeSlot_leaf, leaf.injEq] at h
        simp [Agree, h]
      | .node n => simp [mergeSlot_leaf, mergeSlot_leaf_node] at h
    | node m ih =>
      match b with
      | .leaf b => simp [mergeSlot_leaf, mergeSlot_leaf_node] at h
      | .node n =>
        obtain ⟨hm, hma⟩ := (wf_hereditary m).mp ha
        obtain ⟨hn, hna⟩ := (wf_hereditary n).mp hb
        rw [Agree, agreeKids_iff hm]
        intro k t u ht hu
        have hmt := Assoc.mem_of_get ht
        have hmu := Assoc.mem_of_get hu
        refine ih (k, t) hmt (hma _ hmt) (hna _ hmu) ?_
        rw [mergeSlot_node_node, mergeSlot_node_node, node.injEq] at h
        have hk := congrArg (Assoc.get k) h
        rw [get_mergeKids _ hn, get_mergeKids _ hm, ht, hu] at hk
        exact Option.some.inj hk
  · intro h
    have := mergeSlot_comm ha hb h (slotAll_none WF)
    rwa [mergeSlot_none, mergeSlot_none] at this

/-! ## Merging as an update -/

/-- Write a tree over a slot that does not hold a leaf. -/
def mergeOver (upper : MapTree κ α) : SlotUpdate κ α
  | none => some (some (mergeSlot none upper))
  | some (leaf _) => none
  | some (node kids) => some (some (mergeSlot (some (node kids)) upper))

theorem mergeOver_eq_some (h : mergeOver upper o = some r) : r = some (mergeSlot o upper) := by
  match o with
  | none => cases h; rfl
  | some (leaf _) => cases h
  | some (node _) => cases h; rfl

theorem mergeSlot_node_isNode (o : Slot κ α) (upper : List (κ × MapTree κ α)) :
    ∃ kids, mergeSlot o (node upper) = node kids := by
  match o with
  | none => exact ⟨upper, mergeSlot_none _⟩
  | some (leaf a) => exact ⟨upper, mergeSlot_leaf_node upper⟩
  | some (node kids) => exact ⟨_, mergeSlot_node_node upper⟩

theorem mergeOver_bind (ho : ∀ a, o ≠ some (leaf a)) :
    (mergeOver (node m) o).bind (mergeOver (node n)) =
      some (some (mergeSlot (some (mergeSlot o (node m))) (node n))) := by
  obtain ⟨kids, hk⟩ := mergeSlot_node_isNode o m
  match o with
  | none => simp only [mergeOver, Option.bind_some, hk]
  | some (leaf a) => exact absurd rfl (ho a)
  | some (node _) => simp only [mergeOver, Option.bind_some, hk]

/-- Merges of overlays that agree commute as updates. -/
theorem mergeOver_comm (hm : WF (node m)) (hn : WF (node n)) (ha : Agree (node m) (node n))
    (ho : SlotAll WF o) :
    (mergeOver (node m) o).bind (mergeOver (node n)) =
      (mergeOver (node n) o).bind (mergeOver (node m)) := by
  by_cases hl : ∃ a, o = some (leaf a)
  · obtain ⟨a, rfl⟩ := hl
    rfl
  · have hne : ∀ a, o ≠ some (leaf a) := fun a he => hl ⟨a, he⟩
    rw [mergeOver_bind hne, mergeOver_bind hne, mergeSlot_comm hm hn ha ho]

theorem mergeOver_map (g : α → β) (upper : MapTree κ α) (o : Slot κ α) :
    mergeOver (map g upper) (o.map (map g)) = (mergeOver upper o).map (Option.map (map g)) := by
  match o with
  | none => simp only [mergeOver, Option.map_none, Option.map_some, mergeSlot_none]
  | some (leaf a) => simp only [mergeOver, Option.map_some, Option.map_none, map_leaf]
  | some (node kids) =>
    have h := mergeSlot_map g upper (some (node kids))
    rw [Option.map_some, map_node] at h ⊢
    simp only [mergeOver, Option.map_some, h]

end MapTree
