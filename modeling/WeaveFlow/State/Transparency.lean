import WeaveFlow.State.Patch
import WeaveFlow.State.Snapshot

/-!
# Patches and checkpoints

Restoring a checkpoint replaces a state by a JSON-equal one.  Patches do not respect JSON
equality: they look at what JSON forgets, whether a value is a `map[string]any` and what
the element type of a slice is.  `OpAgrees` says when one operation cannot tell two
JSON-equal roots apart, `opOutcome_eq_iff` that it is exact, and the run lemma
`opsOutcome_prefixes_iff` carries it along a patch.
-/

namespace WeaveFlow

open Option Root Raw Assoc MapTree List Outcome

namespace Raw

/-! ## Normal forms and paths -/

/-- The outcome of an update up to JSON. -/
def outcome (x : Option (Option Raw)) : Option (Option Raw) := x.map (Option.map jsonNormal)

/-- Below no leaf, the outcome of an edit is an edit of the normal form. -/
theorem outcome_editAt (hb : blockedAt p o = false) : outcome (editAt c f p o) =
    editAt c (fun _ => outcome (f (lookAt p o))) p (o.map jsonNormal) := by
  induction p generalizing o with
  | nil => rfl
  | cons k p ih =>
    have key : ∀ kids : Object, blockedAt p (Assoc.get k kids) = false →
        outcome (editAt c f (k :: p) (some (.node kids))) =
          editAt c (fun _ => outcome (f (lookAt p (Assoc.get k kids)))) (k :: p)
            (some (.node (Assoc.mapVals jsonNormal kids))) := by
      intro kids hb
      rw [editAt_cons_node, editAt_cons_node, get_mapVals, ← ih hb]
      cases editAt c f p (Assoc.get k kids) with
      | none => rfl
      | some r => simp [outcome, jsonNormal_node, mapVals_place]
    match o with
    | none =>
      cases c with
      | false => rfl
      | true =>
        have hn := key [] blockedAt_none
        rw [get_nil, lookAt_none] at hn
        rw [lookAt_none]
        exact hn
    | some (.leaf a) => cases hb
    | some (.node kids) =>
      rw [map_some, jsonNormal_node]
      exact key kids hb

theorem blockedAt_jsonNormal (hb : blockedAt p o = false) :
    blockedAt p (o.map jsonNormal) = false := by
  have hs := (editAt_true_isSome some p o).mpr ⟨hb, rfl⟩
  rw [← isSome_map (f := Option.map jsonNormal), ← outcome, outcome_editAt hb,
    editAt_true_isSome] at hs
  exact hs.1

/-- An edit that creates agrees on JSON-equal slots exactly when its update does. -/
theorem outcome_editAt_iff (ho : o.map jsonNormal = o'.map jsonNormal)
    (hb : blockedAt p o = false) (hb' : blockedAt p o' = false) :
    outcome (editAt true f p o) = outcome (editAt true f p o') ↔
      outcome (f (lookAt p o)) = outcome (f (lookAt p o')) := by
  have hn := blockedAt_jsonNormal hb'
  rw [outcome_editAt hb, outcome_editAt hb', ho]
  refine ⟨fun h => ?_, fun h => by rw [h]⟩
  have hl := congrArg (Option.map (lookAt p)) h
  rwa [map_lookAt_editAt_true hn, map_lookAt_editAt_true hn] at hl

end Raw

/-! ## Merges over JSON-equal values -/

/-- Writing the overlay over the value leaves nothing of the value. -/
inductive Covers : Raw → Raw → Prop
  | leaf (a : Leaf) (t : Raw) : Covers (.leaf a) t
  | overLeaf (ov : Object) (a : Leaf) : Covers (.node ov) (.leaf a)
  | node {ov m : Object} (keys : ∀ k t, Assoc.get k m = some t → (Assoc.get k ov).isSome)
      (vals : ∀ k v t, Assoc.get k ov = some v → Assoc.get k m = some t → Covers v t) :
      Covers (.node ov) (.node m)

theorem jsonNormal_mergeKids_eq_iff {m ov : Object} {kids : Object}
    (hm : Raw.Valid (.node m)) (hov : Raw.Valid (.node ov)) (hk : Raw.Valid (.node kids)) :
    jsonNormal (.node (mergeKids m ov)) = jsonNormal (.node kids) ↔ ∀ k, (match Assoc.get k ov with
        | none => (Assoc.get k m).map jsonNormal
        | some v => some (jsonNormal (mergeSlot (Assoc.get k m) v))) =
          (Assoc.get k kids).map jsonNormal := by
  have hme : Raw.Valid (.node (mergeKids m ov)) := by
    have h := valid_hereditary.mergeSlot hov (slotAll_some.mpr hm)
    rwa [mergeSlot_node_node] at h
  have hg : ∀ k, Assoc.get k (Assoc.mapVals jsonNormal (mergeKids m ov)) =
      match Assoc.get k ov with
      | none => (Assoc.get k m).map jsonNormal
      | some v => some (jsonNormal (mergeSlot (Assoc.get k m) v)) := by
    intro k
    rw [get_mapVals, get_mergeKids _ (valid_hereditary.sorted hov)]
    cases Assoc.get k ov with
    | none => rfl
    | some v => rfl
  rw [jsonNormal_node, jsonNormal_node, MapTree.node.injEq]
  constructor
  · intro h k
    rw [← hg, h, get_mapVals]
  · intro h
    refine Assoc.ext ((valid_hereditary.sorted hme).mapVals _)
      ((valid_hereditary.sorted hk).mapVals _) fun k => ?_
    rw [hg, h, get_mapVals]

variable {op : PatchOp} {root : Object} {ops : List PatchOp} {v : Raw}

/-- Over a value that it covers, and over no other, an overlay is just written. -/
theorem jsonNormal_mergeSlot_covers {t : Raw} (hv : v.Valid) (ht : t.Valid) :
    jsonNormal (mergeSlot (some t) v) = jsonNormal v ↔ Covers v t := by
  induction v using MapTree.inductionOn generalizing t with
  | leaf a =>
    rw [mergeSlot_leaf]
    exact iff_of_true rfl (.leaf a t)
  | node ov ih =>
    cases t with
    | leaf a =>
      rw [mergeSlot_leaf_node]
      exact iff_of_true rfl (.overLeaf ov a)
    | node m =>
      rw [mergeSlot_node_node, jsonNormal_mergeKids_eq_iff ht hv hv]
      constructor
      · intro h
        refine .node (fun k t hkt => ?_) fun k v t hkv hkt => ?_
        · have hk := h k
          cases hov : Assoc.get k ov with
          | none => simp [hov, hkt] at hk
          | some v => rfl
        · have hk := h k
          rw [hkv, hkt] at hk
          exact (ih (k, v) (mem_of_get hkv) (valid_hereditary.get hv k _ hkv)
            (valid_hereditary.get ht k _ hkt)).mp (Option.some.inj hk)
      · intro h k
        cases h with
        | node keys vals =>
          cases hkv : Assoc.get k ov with
          | none =>
            cases hkt : Assoc.get k m with
            | none => rfl
            | some t => have := keys k t hkt; simp [hkv] at this
          | some v =>
            cases hkt : Assoc.get k m with
            | none => exact congrArg (fun t => some (jsonNormal t)) (mergeSlot_none v)
            | some t =>
              have hc := (ih (k, v) (mem_of_get hkv) (valid_hereditary.get hv k _ hkv)
                (valid_hereditary.get ht k _ hkt)).mpr (vals k v t hkv hkt)
              exact congrArg some hc

/-- The overlay has one effect on both slots.  Where one of them holds an object and the other
a value of another type with that JSON, the overlay has to cover it. -/
inductive MergeAgrees : Option Raw → Option Raw → Raw → Prop
  | leaf (o o' : Option Raw) (a : Leaf) : MergeAgrees o o' (.leaf a)
  | absent (ov : Object) : MergeAgrees none none (.node ov)
  | leaves (a b : Leaf) (ov : Object) : MergeAgrees (some (.leaf a)) (some (.leaf b)) (.node ov)
  | objects {m n ov : Object}
      (h : ∀ k v, Assoc.get k ov = some v → MergeAgrees (Assoc.get k m) (Assoc.get k n) v) :
      MergeAgrees (some (.node m)) (some (.node n)) (.node ov)
  | overRight {m ov : Object} (b : Leaf) (h : Covers (.node ov) (.node m)) :
      MergeAgrees (some (.node m)) (some (.leaf b)) (.node ov)
  | overLeft {n ov : Object} (a : Leaf) (h : Covers (.node ov) (.node n)) :
      MergeAgrees (some (.leaf a)) (some (.node n)) (.node ov)

theorem jsonNormal_mergeSlot_agrees (hv : v.Valid) {o o' : Option Raw}
    (ho : SlotAll Raw.Valid o) (ho' : SlotAll Raw.Valid o')
    (hn : o.map jsonNormal = o'.map jsonNormal) :
    jsonNormal (mergeSlot o v) = jsonNormal (mergeSlot o' v) ↔ MergeAgrees o o' v := by
  induction v using MapTree.inductionOn generalizing o o' with
  | leaf a =>
    rw [mergeSlot_leaf, mergeSlot_leaf]
    exact iff_of_true rfl (.leaf o o' a)
  | node ov ih =>
    match o, o' with
    | none, some _ => cases hn
    | some _, none => cases hn
    | none, none => exact iff_of_true rfl (.absent ov)
    | some (.leaf a), some (.leaf b) =>
      rw [mergeSlot_leaf_node, mergeSlot_leaf_node]
      exact iff_of_true rfl (.leaves a b ov)
    | some (.leaf a), some (.node n) =>
      rw [mergeSlot_leaf_node, eq_comm, jsonNormal_mergeSlot_covers hv (slotAll_some.mp ho')]
      exact ⟨.overLeft a, fun h => by cases h with | overLeft _ h => exact h⟩
    | some (.node m), some (.leaf b) =>
      rw [mergeSlot_leaf_node, jsonNormal_mergeSlot_covers hv (slotAll_some.mp ho)]
      exact ⟨.overRight b, fun h => by cases h with | overRight _ h => exact h⟩
    | some (.node m), some (.node n) =>
      have hm := slotAll_some.mp ho
      have hn' := slotAll_some.mp ho'
      have hki : ∀ k, (Assoc.get k m).map jsonNormal = (Assoc.get k n).map jsonNormal := by
        intro k
        rw [map_some, map_some, jsonNormal_node, jsonNormal_node] at hn
        have := congrArg (lookAt [k]) hn
        simpa [lookAt, get_mapVals] using this
      have hme : Raw.Valid (.node (mergeKids n ov)) := by
        have h := valid_hereditary.mergeSlot hv ho'
        rwa [mergeSlot_node_node] at h
      have hs : ∀ k v, Assoc.get k ov = some v → (jsonNormal (mergeSlot (Assoc.get k m) v) =
            jsonNormal (mergeSlot (Assoc.get k n) v) ↔
            MergeAgrees (Assoc.get k m) (Assoc.get k n) v) := fun k v hkv =>
        ih (k, v) (mem_of_get hkv) (valid_hereditary.get hv k _ hkv)
          (valid_hereditary.get hm k) (valid_hereditary.get hn' k) (hki k)
      rw [mergeSlot_node_node, mergeSlot_node_node, jsonNormal_mergeKids_eq_iff hm hv hme]
      constructor
      · intro h
        refine .objects fun k v hkv => (hs k v hkv).mp ?_
        have hk := h k
        rw [hkv, get_mergeKids _ (valid_hereditary.sorted hv), hkv] at hk
        exact Option.some.inj hk
      · intro h k
        cases h with
        | objects h =>
          rw [get_mergeKids _ (valid_hereditary.sorted hv)]
          cases hkv : Assoc.get k ov with
          | none => exact hki k
          | some v => exact congrArg some ((hs k v hkv).mpr (h k v hkv))

/-! ## Appends to JSON-equal values -/

/-- What an append does with its value: start a slice, add the value's items, add the value
as one item, or add bytes to a `[]byte`. -/
inductive AppendWay where
  | seed
  | spread
  | single
  | bytes
  deriving DecidableEq, Repr

/-- The items of a value of slice kind. -/
def itemsOf (v : Raw) : List Raw := (v.sliceView.map Prod.snd).getD []

/-- The way an append takes on a present value, decided by types and lengths. -/
def appendWayOn (existing value : Raw) : Option AppendWay :=
  match existing.sliceView with
  | none => none
  | some (elem, left) =>
    if value.typeOf = some (.slice elem) then
      if (itemsOf value).length > maxInt - left.length then none
      else some (if elem = .byte then .bytes else .spread)
    else if itemOf value elem then some (if elem = .byte then .bytes else .single)
    else if left.length > maxCollectionSize then none
    else if (anySlice value).isSome then some .spread
    else some .single

/-- What is added to the items, in normal form. -/
def AppendWay.added (value : Raw) : AppendWay → List Raw
  | .spread => jsonItems (itemsOf value)
  | _ => [value.jsonNormal]

theorem itemsOf_anySlice (h : anySlice v = some items) :
    itemsOf v = items ∧ items.length ≤ maxCollectionSize := by
  rw [anySlice] at h
  rw [itemsOf]
  cases hv : v.sliceView with
  | none => simp [hv] at h
  | some p =>
    simp only [hv] at h
    split at h
    · cases h
    next hle =>
      cases h
      exact ⟨rfl, by omega⟩

theorem jsonItems_append : jsonItems (xs ++ ys) = jsonItems xs ++ jsonItems ys := by
  rw [jsonItems_eq, jsonItems_eq, jsonItems_eq, map_append]

/-- The bytes of a `[]byte` or of one byte. -/
def bytesOf (value : Raw) : List Raw :=
  if value.typeOf = some (.slice .byte) then itemsOf value else [value]

/-- What an append leaves, in normal form. -/
def AppendWay.result (left : List Raw) (value : Raw) : AppendWay → Raw
  | .bytes => Raw.string (bytesText (left ++ bytesOf value))
  | way => Raw.slice .any (jsonItems left ++ way.added value)

theorem appended_outcome {elem : GoType} (he : elem ≠ .byte) (left right : List Raw) :
    (Except.ok (Raw.slice elem (left ++ right)) : Except AppendError Raw).toOption.map jsonNormal =
      some (Raw.slice .any (jsonItems left ++ jsonItems right)) := by
  simp only [Except.toOption, map_some, jsonNormal_slice he, jsonItems_append]

theorem appended_bytes (items : List Raw) :
    (Except.ok (Raw.slice .byte items) : Except AppendError Raw).toOption.map jsonNormal =
      some (Raw.string (bytesText items)) := by
  simp only [Except.toOption, map_some, jsonNormal_bytes]

/-- The way decides whether an append succeeds and its result up to JSON. -/
theorem appendValue_outcome (existing value : Raw) :
    (appendValue existing value).toOption.map jsonNormal =
      (appendWayOn existing value).map (AppendWay.result (itemsOf existing) value) := by
  rw [appendValue, appendWayOn]
  cases hvi : existing.sliceView with
  | none => simp [appendItems, anySlice, hvi, Except.toOption]
  | some p =>
    obtain ⟨elem, left⟩ := p
    have hl : itemsOf existing = left := by simp [itemsOf, hvi]
    simp only [hl]
    split
    next hty =>
      change (if (itemsOf value).length > _ then _ else _ : Except AppendError Raw).toOption.map _ =
        _
      split
      · rfl
      · by_cases he : elem = .byte
        · subst he
          refine (appended_bytes _).trans ?_
          rw [if_pos rfl, map_some, AppendWay.result, bytesOf, if_pos hty]
          rfl
        · refine (appended_outcome he _ _).trans ?_
          rw [if_neg he]
          rfl
    next hty =>
      split
      · by_cases he : elem = .byte
        · subst he
          rw [appended_bytes, if_pos rfl, map_some, AppendWay.result, bytesOf, if_neg hty]
        · rw [appended_outcome he, if_neg he]
          rfl
      · have ha : anySlice existing =
            if left.length > maxCollectionSize then none else some left := by
          simp only [anySlice, hvi]
        by_cases hla : left.length > maxCollectionSize
        · rw [if_pos hla] at ha ⊢
          simp [appendItems, ha, Except.toOption]
        · rw [if_neg hla] at ha ⊢
          have hs : left.length ≤ maxCollectionSize := by omega
          simp only [appendItems, ha]
          cases hv : anySlice value with
          | none =>
            have hr : ¬ [value].length > maxInt - left.length := by
              simp only [length_singleton, maxInt, maxCollectionSize] at hs ⊢
              omega
            rw [getD_none, if_neg hr, appended_outcome (by decide)]
            rfl
          | some right =>
            obtain ⟨hi, hle⟩ := itemsOf_anySlice hv
            have hr : ¬ right.length > maxInt - left.length := by
              simp only [maxInt, maxCollectionSize] at hs hle ⊢
              omega
            rw [getD_some, if_neg hr, appended_outcome (by decide), ← hi]
            rfl

/-- A byte as an item. -/
def byteItem (b : UInt8) : Raw := .leaf (.opaqueValue "uint8" (Raw.int b.toNat))

theorem byteItem_byteOf (ht : v.typeOf = some .byte) (hv : v.Valid) : byteItem (byteOf v) = v := by
  match v with
  | .node _ | .leaf .null | .leaf (.bool _) | .leaf (.float64 _) | .leaf (.string _)
  | .leaf (.slice _ _) | .leaf (.nilSlice _) => cases ht
  | .leaf (.int n) =>
    rw [typeOf, integerType] at ht
    split_ifs at ht <;> simp at ht
  | .leaf (.opaqueValue name json) =>
    cases ht
    rw [Raw.Valid, wf, wfLeaf] at hv
    match json with
    | .leaf (.int n) =>
      simp only [isByte, bne_self_eq_false, Bool.false_or, Bool.and_eq_true,
        decide_eq_true_eq] at hv
      have hn : (UInt8.ofNat n.toNat).toNat = n.toNat := by
        rw [UInt8.toNat_ofNat']
        omega
      rw [byteItem, byteOf, hn, Int.toNat_of_nonneg hv.2.1]
    | .node _ | .leaf .null | .leaf (.bool _) | .leaf (.float64 _) | .leaf (.string _)
    | .leaf (.slice _ _) | .leaf (.nilSlice _) | .leaf (.opaqueValue _ _) => simp [isByte] at hv

/-- The bytes of a `[]byte` decide its items. -/
theorem map_byteItem (h : (Raw.slice .byte items).Valid) :
    (items.map byteOf).map byteItem = items := by
  rw [List.map_map]
  conv_rhs => rw [← List.map_id items]
  refine map_congr_left fun v hv => ?_
  obtain ⟨ht, hva⟩ := valid_slice.mp h v hv
  exact byteItem_byteOf (ht.resolve_left (by decide)) hva

theorem bytesText_inj (h : (Raw.slice .byte items).Valid) (h' : (Raw.slice .byte items').Valid)
    (ht : bytesText items = bytesText items') : items = items' := by
  have hb := Base64.encodePadded_injective (String.ofList_inj.mp ht)
  rw [← map_byteItem h, hb, map_byteItem h']

/-- Adding the items of a value is never adding the value. -/
theorem added_spread_ne_single (hv : value.Valid) :
    AppendWay.added value .spread ≠ AppendWay.added value .single := by
  intro h
  have h : jsonItems (itemsOf value) = [value.jsonNormal] := h
  match value with
  | .node _ | .leaf .null | .leaf (.bool _) | .leaf (.int _) | .leaf (.float64 _)
  | .leaf (.string _) | .leaf (.opaqueValue _ _) | .leaf (.nilSlice _) =>
    simp [itemsOf, sliceView, jsonItems] at h
  | .leaf (.slice elem items) =>
    have hi : itemsOf (.leaf (.slice elem items)) = items := rfl
    by_cases he : elem = .byte
    · -- A byte is no text.
      subst he
      rw [hi, ← map_byteItem hv, jsonNormal_bytes, jsonItems_eq, List.map_map] at h
      obtain ⟨b, -, hb⟩ := mem_map.mp (h ▸ mem_singleton.mpr rfl)
      cases hb
    · rw [hi, jsonNormal_slice he] at h
      -- The one item would be a slice that holds itself.
      have hs := congrArg sizeOf h
      simp only [List.cons.sizeOf_spec, List.nil.sizeOf_spec, MapTree.leaf.sizeOf_spec,
        Leaf.slice.sizeOf_spec] at hs
      omega

/-- An append to a value of slice kind adds to it; bytes stay bytes in a `[]byte` only. -/
theorem appendWayOn_eq_some (h : appendWayOn existing value = some way) : way ≠ .seed ∧
    ∃ elem items, existing.sliceView = some (elem, items) ∧ (way = .bytes → elem = .byte) := by
  rw [appendWayOn] at h
  cases hv : existing.sliceView with
  | none => simp [hv] at h
  | some p =>
    obtain ⟨elem, items⟩ := p
    simp only [hv] at h
    refine ⟨?_, elem, items, rfl, ?_⟩ <;> rintro rfl <;> split_ifs at h <;> simp_all

/-- JSON-equal values of slice kind have JSON-equal items, and the same bytes. -/
theorem items_of_jsonNormal {e e' : Raw} {elem elem' : GoType} (he : e.Valid) (he' : e'.Valid) (h : e.jsonNormal = e'.jsonNormal)
    (hs : e.sliceView = some (elem, items)) (hs' : e'.sliceView = some (elem', items')) :
    jsonItems items = jsonItems items' ∧ (elem = .byte → elem' = .byte → items = items') := by
  have hv : ∀ {x elem items}, x.sliceView = some (elem, items) →
      x = Raw.slice elem items ∨ (x = .leaf (.nilSlice elem) ∧ items = []) := by
    intro x elem items hx
    match x with
    | .node _ | .leaf .null | .leaf (.bool _) | .leaf (.int _) | .leaf (.float64 _)
    | .leaf (.string _) | .leaf (.opaqueValue _ _) => cases hx
    | .leaf (.nilSlice _) => cases hx; exact .inr ⟨rfl, rfl⟩
    | .leaf (.slice _ _) => cases hx; exact .inl rfl
  have hn : ∀ {elem items}, jsonNormal (Raw.slice elem items) ≠ .leaf .null := by
    intro elem items hno
    by_cases hb : elem = .byte
    · rw [hb, jsonNormal_bytes] at hno
      cases hno
    · rw [jsonNormal_slice hb] at hno
      cases hno
  rcases hv hs with rfl | ⟨rfl, rfl⟩
  · rcases hv hs' with rfl | ⟨rfl, rfl⟩
    · by_cases hb : elem = .byte
      · subst hb
        by_cases hb' : elem' = .byte
        · subst hb'
          rw [jsonNormal_bytes, jsonNormal_bytes] at h
          cases bytesText_inj he he' (by simpa using h)
          exact ⟨rfl, fun _ _ => rfl⟩
        · rw [jsonNormal_bytes, jsonNormal_slice hb'] at h
          cases h
      · by_cases hb' : elem' = .byte
        · subst hb'
          rw [jsonNormal_bytes, jsonNormal_slice hb] at h
          cases h
        · rw [jsonNormal_slice hb, jsonNormal_slice hb', MapTree.leaf.injEq,
            Leaf.slice.injEq] at h
          exact ⟨h.2, fun h => absurd h hb⟩
    · exact absurd h hn
  · rcases hv hs' with rfl | ⟨rfl, rfl⟩
    · exact absurd h.symm hn
    · exact ⟨rfl, fun _ _ => rfl⟩

/-- Appends to JSON-equal values agree exactly when they take the same way. -/
theorem appendValue_agrees {e e' : Raw} (he : e.Valid) (he' : e'.Valid) (hva : value.Valid)
    (h : e.jsonNormal = e'.jsonNormal) :
    (appendValue e value).toOption.map jsonNormal = (appendValue e' value).toOption.map jsonNormal ↔
      appendWayOn e value = appendWayOn e' value := by
  rw [appendValue_outcome, appendValue_outcome]
  refine eq_iff_of_none map_eq_none_iff map_eq_none_iff (fun h => ?_) (fun h => ?_)
    fun hw hwa => ?_
  · rw [h, eq_comm]
  · rw [h]
  · obtain ⟨way, hw⟩ := ne_none_iff_exists'.mp hw
    obtain ⟨way', hwa⟩ := ne_none_iff_exists'.mp hwa
    obtain ⟨hne, elem, items, hs, hb⟩ := appendWayOn_eq_some hw
    obtain ⟨hn, elem', items', hs', hb'⟩ := appendWayOn_eq_some hwa
    obtain ⟨hi, hby⟩ := items_of_jsonNormal he he' h hs hs'
    have hl : itemsOf e = items := by simp [itemsOf, hs]
    have hl' : itemsOf e' = items' := by simp [itemsOf, hs']
    have ha := added_spread_ne_single hva
    rw [hw, hwa, map_some, map_some, Option.some.injEq, Option.some.injEq, hl, hl']
    clear hw hwa
    match way, way' with
    | .seed, _ => exact absurd rfl hne
    | _, .seed => exact absurd rfl hn
    | .bytes, .bytes => exact iff_of_true (by rw [hby (hb rfl) (hb' rfl)]) rfl
    | .spread, .spread | .single, .single =>
      exact iff_of_true (by simp only [AppendWay.result, hi]) rfl
    | .bytes, .spread | .bytes, .single | .spread, .bytes | .single, .bytes =>
      exact iff_of_false (by simp [AppendWay.result]) (by decide)
    | .spread, .single => exact iff_of_false (by simpa [AppendWay.result, hi] using ha) (by decide)
    | .single, .spread =>
      exact iff_of_false (by simpa [AppendWay.result, hi] using ha.symm) (by decide)

/-! ## One operation on two JSON-equal roots -/

/-- A value that is no object stands above the path. -/
def Root.blocked (root : Object) (path : Path) : Bool :=
  blockedAt path.keys (some (.node root))

/-- What a merge at the path is applied to, unless it is rejected. -/
def mergeTarget (root : Object) (path : Path) : Option (Option Raw) :=
  if blocked root path then none
  else
    match Root.read root path with
    | some (.leaf _) => none
    | o => some o

/-- The way of an append at the path, unless it is rejected. -/
def appendWay (root : Object) (path : Path) (value : Raw) : Option AppendWay :=
  if blocked root path then none
  else
    match Root.read root path with
    | none => some .seed
    | some existing => appendWayOn existing value

/-- The operation cannot tell the roots apart. -/
def OpAgrees (live back : Object) (op : PatchOp) : Prop :=
  op.path.empty = true ∨
    match op.kind with
    | .set => blocked live op.path = blocked back op.path
    | .delete =>
      (blocked live op.path = true → Root.read back op.path = none) ∧
        (blocked back op.path = true → Root.read live op.path = none)
    | .merge => op.value.asMap = none ∨
        match mergeTarget live op.path, mergeTarget back op.path with
        | none, none => True
        | some o, some o' => MergeAgrees o o' op.value
        | _, _ => False
    | .append => appendWay live op.path op.value = appendWay back op.path op.value
    | .reduce => True
    | .other _ => True

/-- The kinds of operations that need no reducer. -/
def PatchOp.Basic (op : PatchOp) : Prop :=
  op.kind = .set ∨ op.kind = .delete ∨ op.kind = .merge ∨ op.kind = .append

/-- The root an operation leaves, up to JSON. -/
def opOutcome (root : Object) (op : PatchOp) : Option Raw :=
  (applyPatchOp (fun _ => none) root op).toOption.map fun r => jsonNormal (.node r)

theorem opOutcome_eq (hok : RootOK root) (hp : op.path.empty = false) :
    (opOutcome root op).map some =
      outcome (editAt (opCreates op) (opUpdate (fun _ => none) op) op.path.keys
        (some (.node root))) := by
  rw [Path.keys, editAt_node_eq_editMap, opOutcome,
    applyPatchOp_toOption _ hp hok.1.tree hok.2, opEdit]
  cases editMap (opCreates op) (opUpdate (fun _ => none) op) op.path.sectionName
    op.path.segments root with
  | none => rfl
  | some r => rfl

section TwoRoots
variable {live back : Object} (hlive : RootOK live) (hback : RootOK back)
  (hjson : Raw.JSONEq (.node live) (.node back)) {op : PatchOp} (hp : op.path.empty = false)

include hlive in
/-- The path of a section is never blocked. -/
theorem blocked_section (hpa : path.empty = false) (hs : path.segments.isEmpty = true) :
    blocked live path = false := by
  obtain ⟨kids, hk⟩ := get_section hlive.2 hpa
  rw [blocked, Path.keys, isEmpty_iff.mp hs, blockedAt, hk, blockedAt]

include hjson in
theorem slots_jsonEq : (some (.node live) : Option Raw).map jsonNormal =
      (some (.node back) : Option Raw).map jsonNormal :=
  congrArg some hjson

include hlive hback hp in
theorem opOutcome_eq_iff_outcome : opOutcome live op = opOutcome back op ↔
      outcome (editAt (opCreates op) (opUpdate (fun _ => none) op) op.path.keys
          (some (.node live))) =
        outcome (editAt (opCreates op) (opUpdate (fun _ => none) op) op.path.keys
          (some (.node back))) := by
  rw [← opOutcome_eq hlive hp, ← opOutcome_eq hback hp]
  exact (map_injective fun _ _ => Option.some.inj).eq_iff.symm

include hjson in
/-- Below no leaf, an update that does not look at the slot has one outcome. -/
theorem outcome_const (hc : ∀ o o', f o = f o') (hb : blocked live path = false)
    (hb' : blocked back path = false) :
    outcome (editAt c f path.keys (some (.node live))) =
      outcome (editAt c f path.keys (some (.node back))) := by
  rw [outcome_editAt hb, outcome_editAt hb', slots_jsonEq hjson, hc]

include hlive hback hjson hp in
theorem opOutcome_set_iff (hk : op.kind = .set) : opOutcome live op = opOutcome back op ↔
      blocked live op.path = blocked back op.path := by
  have hc : opCreates op = true := by simp [opCreates, hk]
  have hu : opUpdate (fun _ => none) op = setUpdate op.path op.value := by
    funext o
    simp [opUpdate, hk]
  rw [opOutcome_eq_iff_outcome hlive hback hp, hc, hu]
  cases hs : op.path.segments.isEmpty with
  | true =>
    have hb := blocked_section hlive hp hs
    have hb' := blocked_section hback hp hs
    exact iff_of_true (outcome_const hjson (fun _ _ => rfl) hb hb') (hb.trans hb'.symm)
  | false =>
    have hn : ∀ root : Object, outcome (editAt true (setUpdate op.path op.value) op.path.keys
        (some (.node root))) = none ↔ blocked root op.path = true := by
      intro root
      rw [outcome, map_eq_none_iff, ← not_isSome_iff_eq_none, editAt_true_isSome]
      simp [setUpdate, hs, blocked]
    refine eq_iff_of_none (hn live) (hn back) (fun h => ?_) (fun h => ?_) fun hb hb' => ?_
    · rw [h, eq_comm]
    · rw [h]
    · rw [Bool.not_eq_true] at hb hb'
      exact iff_of_true (outcome_const hjson (fun _ _ => rfl) hb hb') (hb.trans hb'.symm)

/-- A delete that is blocked on one root agrees when there is nothing to delete on the other. -/
theorem outcome_delete_blocked {f : SlotUpdate String Leaf} (hf : ∀ o, f o = some none)
    {p : List String} {o o' : Option Raw} (ho : SlotAll MapTree.WF o)
    (ho' : SlotAll MapTree.WF o') (hn : o.map jsonNormal = o'.map jsonNormal)
    (hb : blockedAt p o = true) (hb' : blockedAt p o' = false) :
    outcome (editAt false f p o) = outcome (editAt false f p o') ↔ lookAt p o' = none := by
  rw [editAt_false_blocked ho hb]
  constructor
  · intro h
    cases hw : editAt false f p o' with
    | none => rw [hw] at h; cases h
    | some w =>
      rw [hw] at h
      have how : o.map jsonNormal = w.map jsonNormal := Option.some.inj h
      have hbw : blockedAt p w = false := by
        rw [blockedAt_editAt (fun h => h) hw]
        exact hb'
      have hg : lookAt p w = none := by
        have hr := lookAt_editAt (fun _ => hf none) hw
        rw [hf] at hr
        exact (Option.some.inj hr).symm
      have hs := lookAt_jsonNormal hb'
      rw [← hn, how, lookAt_jsonNormal hbw, hg] at hs
      exact map_eq_none_iff.mp hs.symm
  · intro h
    rw [editAt_false_lookAt_none (fun _ => hf none) ho' h]
    exact congrArg some hn

include hlive hback hjson hp in
theorem opOutcome_delete_iff (hk : op.kind = .delete) : opOutcome live op = opOutcome back op ↔
      (blocked live op.path = true → Root.read back op.path = none) ∧
        (blocked back op.path = true → Root.read live op.path = none) := by
  have hs := slots_jsonEq hjson
  rw [opOutcome_eq_iff_outcome hlive hback hp, read_eq_lookAt hp, read_eq_lookAt hp]
  have hco : ∀ o o', opUpdate (fun _ => none) op o = opUpdate (fun _ => none) op o' := by
    intro o o'
    simp [opUpdate, hk, deleteUpdate]
  have hw := slotAll_some.mpr hlive.1.tree
  have hw' := slotAll_some.mpr hback.1.tree
  cases hse : op.path.segments.isEmpty with
  | true =>
    have hb := blocked_section hlive hp hse
    have hb' := blocked_section hback hp hse
    rw [hb, hb']
    exact iff_of_true (outcome_const hjson hco hb hb') ⟨by rintro ⟨⟩, by rintro ⟨⟩⟩
  | false =>
    have hc : opCreates op = false := by simp [opCreates, hk, hse]
    have hf : ∀ o, opUpdate (fun _ => none) op o = some none := by
      intro o
      simp [opUpdate, hk, deleteUpdate, hse]
    rw [hc]
    cases hb : blocked live op.path with
    | false =>
      cases hb' : blocked back op.path with
      | false =>
        exact iff_of_true (outcome_const hjson hco hb hb') ⟨by rintro ⟨⟩, by rintro ⟨⟩⟩
      | true =>
        rw [eq_comm, outcome_delete_blocked hf hw' hw hs.symm hb' hb]
        exact ⟨fun h => ⟨by rintro ⟨⟩, fun _ => h⟩, fun h => h.2 rfl⟩
    | true =>
      have hn := lookAt_of_blocked (show blockedAt _ _ = true from hb)
      cases hb' : blocked back op.path with
      | false =>
        rw [outcome_delete_blocked hf hw hw' hs hb hb']
        exact ⟨fun h => ⟨fun _ => h, by rintro ⟨⟩⟩, fun h => h.1 rfl⟩
      | true =>
        have hno := lookAt_of_blocked (show blockedAt _ _ = true from hb')
        rw [editAt_false_blocked hw hb, editAt_false_blocked hw' hb']
        exact iff_of_true (congrArg some hs) ⟨fun _ => hno, fun _ => hn⟩

/-- A merge is rejected where it has no target. -/
theorem editAt_merge_none_iff (hpa : path.empty = false) :
    editAt true (mergeUpdate ov) path.keys (some (.node root)) = none ↔
      mergeTarget root path = none := by
  rw [← not_isSome_iff_eq_none, editAt_true_isSome, mergeTarget, read_eq_lookAt hpa, blocked]
  cases blockedAt path.keys (some (.node root)) with
  | true => simp
  | false =>
    match lookAt path.keys (some (.node root)) with
    | none | some (.leaf a) | some (.node kids) => simp [mergeUpdate, MapTree.mergeOver]

theorem mergeTarget_eq_some (hpa : path.empty = false) (h : mergeTarget root path = some o) :
    blocked root path = false ∧ lookAt path.keys (some (.node root)) = o ∧
      mergeUpdate ov o = some (some (mergeSlot o (.node ov))) := by
  rw [mergeTarget, read_eq_lookAt hpa] at h
  cases hb : blocked root path with
  | true => simp [hb] at h
  | false =>
    rw [hb, if_neg Bool.false_ne_true] at h
    refine ⟨rfl, ?_⟩
    match hl : lookAt path.keys (some (.node root)) with
    | none => rw [hl] at h; cases h; exact ⟨rfl, rfl⟩
    | some (.leaf a) => simp [hl] at h
    | some (.node kids) => rw [hl] at h; cases h; exact ⟨rfl, rfl⟩

include hlive hback hjson hp in
theorem opOutcome_merge_iff (hk : op.kind = .merge) : opOutcome live op = opOutcome back op ↔
      op.value.asMap = none ∨
        match mergeTarget live op.path, mergeTarget back op.path with
        | none, none => True
        | some o, some o' => MergeAgrees o o' op.value
        | _, _ => False := by
  have hc : opCreates op = true := by simp [opCreates, hk]
  rw [opOutcome_eq_iff_outcome hlive hback hp, hc]
  cases hv : op.value with
  | leaf a =>
    have hu : opUpdate (fun _ => none) op = fun _ => none := by
      funext o
      simp [opUpdate, hk, hv, Raw.asMap]
    have hf : ∀ o : Option Raw, editAt true (fun _ => none) op.path.keys o = none := by
      intro o
      rw [← not_isSome_iff_eq_none, editAt_true_isSome]
      rintro ⟨-, h⟩
      cases h
    rw [hu, hf, hf]
    exact iff_of_true rfl (.inl rfl)
  | node ov =>
    have hu : opUpdate (fun _ => none) op = mergeUpdate ov := by
      funext o
      simp only [opUpdate, hk, hv, Raw.asMap, bind_some]
    have hov : Raw.Valid (.node ov) := hv ▸ op.valid
    have hno : ¬ (Raw.asMap (.node ov) = none) := by simp [Raw.asMap]
    rw [hu, or_iff_right hno]
    refine eq_iff_of_none (map_eq_none_iff.trans (editAt_merge_none_iff hp))
      (map_eq_none_iff.trans (editAt_merge_none_iff hp)) (fun ht => ?_) (fun ht => ?_)
      fun ht ht' => ?_
    · rw [ht]
      cases mergeTarget back op.path <;> simp
    · rw [ht]
      cases mergeTarget live op.path <;> simp
    · obtain ⟨o, ht⟩ := ne_none_iff_exists'.mp ht
      obtain ⟨o', ht'⟩ := ne_none_iff_exists'.mp ht'
      obtain ⟨hb, hl, hm⟩ := mergeTarget_eq_some hp ht
      obtain ⟨hb', hlo, hme⟩ := mergeTarget_eq_some hp ht'
      have hs := slots_jsonEq hjson
      have hn : o.map jsonNormal = o'.map jsonNormal := by
        rw [← hl, ← hlo, ← lookAt_jsonNormal hb, ← lookAt_jsonNormal hb', hs]
      have hva : SlotAll Raw.Valid o := hl ▸ valid_hereditary.lookAt _ (slotAll_some.mpr hlive.1)
      have hvl : SlotAll Raw.Valid o' :=
        hlo ▸ valid_hereditary.lookAt _ (slotAll_some.mpr hback.1)
      rw [outcome_editAt_iff hs hb hb', hl, hlo, hm, hme, ht, ht']
      change _ ↔ MergeAgrees o o' (.node ov)
      rw [← jsonNormal_mergeSlot_agrees hov hva hvl hn]
      simp [outcome]

include hlive in
/-- What an append leaves in the slot of its path, up to JSON. -/
theorem outcome_append (hk : op.kind = .append) (hpa : op.path.empty = false) :
    outcome (opUpdate (fun _ => none) op (lookAt op.path.keys (some (.node live)))) =
      match lookAt op.path.keys (some (.node live)) with
      | none => some (some (normalizeAppendSeed op.value).jsonNormal)
      | some existing => ((appendValue existing op.value).toOption.map jsonNormal).map some := by
  obtain ⟨kids, hki⟩ := get_section hlive.2 hpa
  cases hs : op.path.segments.isEmpty with
  | true =>
    have hl : lookAt op.path.keys (some (.node live)) = some (.node kids) := by
      rw [Path.keys, isEmpty_iff.mp hs, lookAt_cons_node, hki, lookAt_nil]
    rw [hl]
    simp [opUpdate, hk, appendTo, appendValue, sliceView, appendItems, anySlice,
      Except.toOption, outcome]
  | false =>
    cases lookAt op.path.keys (some (.node live)) with
    | none => simp [opUpdate, hk, appendTo, Except.toOption, setUpdate, hs, outcome]
    | some existing =>
      simp only [opUpdate, hk, appendTo]
      cases appendValue existing op.value with
      | error e => rfl
      | ok w => simp [Except.toOption, setUpdate, hs, outcome]

theorem outcome_appendWay : ((appendValue existing value).toOption.map jsonNormal).map some = none ↔
      appendWayOn existing value = none := by
  rw [map_eq_none_iff, appendValue_outcome, map_eq_none_iff]

include hlive in
/-- An append is rejected where it has no way. -/
theorem editAt_append_none_iff (hk : op.kind = .append) (hpa : op.path.empty = false) :
    editAt true (opUpdate (fun _ => none) op) op.path.keys (some (.node live)) = none ↔
      appendWay live op.path op.value = none := by
  rw [appendWay, read_eq_lookAt hpa]
  cases hb : blocked live op.path with
  | true =>
    rw [editAt_true_blocked hb]
    simp
  | false =>
    have ho := outcome_append hlive hk hpa
    have hi : editAt true (opUpdate (fun _ => none) op) op.path.keys (some (.node live)) = none ↔
        outcome (opUpdate (fun _ => none) op (lookAt op.path.keys (some (.node live)))) = none := by
      rw [outcome, map_eq_none_iff, ← not_isSome_iff_eq_none,
        ← not_isSome_iff_eq_none, editAt_true_isSome]
      exact not_congr (and_iff_right hb)
    rw [hi, ho, if_neg Bool.false_ne_true]
    cases lookAt op.path.keys (some (.node live)) with
    | none => simp
    | some existing => exact outcome_appendWay

include hlive hback hjson hp in
theorem opOutcome_append_iff (hk : op.kind = .append) : opOutcome live op = opOutcome back op ↔
      appendWay live op.path op.value = appendWay back op.path op.value := by
  have hc : opCreates op = true := by simp [opCreates, hk]
  have hs := slots_jsonEq hjson
  rw [opOutcome_eq_iff_outcome hlive hback hp, hc]
  refine eq_iff_of_none (map_eq_none_iff.trans (editAt_append_none_iff hlive hk hp))
    (map_eq_none_iff.trans (editAt_append_none_iff hback hk hp)) (fun h => ?_) (fun h => ?_)
    fun hw hw' => ?_
  · rw [h, eq_comm]
  · rw [h]
  · have hu : ∀ {root : Object}, appendWay root op.path op.value ≠ none →
        blocked root op.path = false := by
      intro root hw
      refine Bool.eq_false_iff.mpr fun hb => hw ?_
      rw [appendWay, hb, if_pos rfl]
    have hb := hu hw
    have hb' := hu hw'
    have hn : (lookAt op.path.keys (some (.node live))).map jsonNormal =
        (lookAt op.path.keys (some (.node back))).map jsonNormal := by
      rw [← lookAt_jsonNormal hb, ← lookAt_jsonNormal hb', hs]
    rw [outcome_editAt_iff hs hb hb', outcome_append hlive hk hp, outcome_append hback hk hp,
      appendWay, appendWay, read_eq_lookAt hp, read_eq_lookAt hp, hb, hb',
      if_neg Bool.false_ne_true, if_neg Bool.false_ne_true]
    cases hl : lookAt op.path.keys (some (.node live)) with
    | none =>
      cases hl' : lookAt op.path.keys (some (.node back)) with
      | none => exact iff_of_true rfl rfl
      | some e' => simp [hl, hl'] at hn
    | some e =>
      cases hl' : lookAt op.path.keys (some (.node back)) with
      | none => simp [hl, hl'] at hn
      | some e' =>
        rw [hl, hl'] at hn
        have hv : Raw.Valid e :=
          slotAll_some.mp (hl ▸ valid_hereditary.lookAt _ (slotAll_some.mpr hlive.1))
        have hv' : Raw.Valid e' :=
          slotAll_some.mp (hl' ▸ valid_hereditary.lookAt _ (slotAll_some.mpr hback.1))
        rw [← appendValue_agrees hv hv' op.valid (Option.some.inj hn)]
        exact (map_injective fun _ _ => Option.some.inj).eq_iff

include hlive hback hjson in
/-- An operation has one outcome on two JSON-equal roots exactly when it cannot tell them
apart. -/
theorem opOutcome_eq_iff (hb : op.Basic) :
    opOutcome live op = opOutcome back op ↔ OpAgrees live back op := by
  cases hp : op.path.empty with
  | true =>
    refine iff_of_true ?_ (.inl hp)
    simp [opOutcome, applyPatchOp, hp, Except.toOption]
  | false =>
    rw [OpAgrees, hp, or_iff_right Bool.false_ne_true]
    rcases hb with hk | hk | hk | hk
    · rw [hk]; exact opOutcome_set_iff hlive hback hjson hp hk
    · rw [hk]; exact opOutcome_delete_iff hlive hback hjson hp hk
    · rw [hk]; exact opOutcome_merge_iff hlive hback hjson hp hk
    · rw [hk]; exact opOutcome_append_iff hlive hback hjson hp hk

end TwoRoots

/-! ## Patches on two JSON-equal roots -/

/-- At every operation of the patch, the operation cannot tell apart the two roots reached
before it. -/
def StepsAgree : Object → Object → List PatchOp → Prop
  | _, _, [] => True
  | live, back, op :: ops =>
    OpAgrees live back op ∧
      ∀ live' back', applyPatchOp (fun _ => none) live op = .ok live' →
        applyPatchOp (fun _ => none) back op = .ok back' → StepsAgree live' back' ops

/-- The root a list of operations leaves, up to JSON. -/
def opsOutcome (root : Object) (ops : List PatchOp) : Option Raw :=
  (applyOps (fun _ => none) root ops).toOption.map fun r => jsonNormal (.node r)

theorem opsOutcome_cons_ok (h : applyPatchOp (fun _ => none) root op = .ok root') :
    opsOutcome root (op :: ops) = opsOutcome root' ops := by
  rw [opsOutcome, applyOps, foldlM_cons, h]
  rfl

theorem opsOutcome_cons_error (h : applyPatchOp (fun _ => none) root op = .error e) :
    opsOutcome root (op :: ops) = none := by
  rw [opsOutcome, applyOps, foldlM_cons, h]
  rfl

/-- All beginnings of a patch have one outcome on two roots exactly when the roots are
JSON-equal and no step can tell them apart. -/
theorem opsOutcome_prefixes_iff (hlive : RootOK live) (hback : RootOK back)
    (hba : ∀ op ∈ ops, op.Basic) :
    (∀ n, opsOutcome live (ops.take n) = opsOutcome back (ops.take n)) ↔
      Raw.JSONEq (.node live) (.node back) ∧ StepsAgree live back ops := by
  induction ops generalizing live back with
  | nil =>
    simp only [take_nil, forall_const, StepsAgree, and_true]
    exact ⟨fun h => Option.some.inj h, fun h => congrArg some h⟩
  | cons op ops ih =>
    have hop := hba op mem_cons_self
    have hr : ∀ x ∈ ops, x.Basic := (forall_mem_cons.mp hba).2
    have ho : ∀ root, opsOutcome root ((op :: ops).take 1) = opOutcome root op := by
      intro root
      rw [take_succ_cons, take_zero]
      cases h : applyPatchOp (fun _ => none) root op with
      | error e => rw [opsOutcome_cons_error h, opOutcome, h]; rfl
      | ok next => rw [opsOutcome_cons_ok h, opOutcome, h]; rfl
    -- One step, then the induction hypothesis on the roots it leaves.
    have hs : ∀ {live' back'}, applyPatchOp (fun _ => none) live op = .ok live' →
        applyPatchOp (fun _ => none) back op = .ok back' →
        ((∀ n, opsOutcome live' (ops.take n) = opsOutcome back' (ops.take n)) ↔
          Raw.JSONEq (.node live') (.node back') ∧ StepsAgree live' back' ops) :=
      fun hl hb => ih (rootOK_applyPatchOp hlive hl) (rootOK_applyPatchOp hback hb) hr
    constructor
    · intro h
      have hjson : Raw.JSONEq (.node live) (.node back) := Option.some.inj (h 0)
      have h₁ := h 1
      rw [ho, ho, opOutcome_eq_iff hlive hback hjson hop] at h₁
      refine ⟨hjson, h₁, fun live' back' hl hb => ((hs hl hb).mp fun n => ?_).2⟩
      have hn := h (n + 1)
      rw [take_succ_cons, opsOutcome_cons_ok hl, opsOutcome_cons_ok hb] at hn
      exact hn
    · rintro ⟨hjson, ha, hne⟩ n
      have h₁ := (opOutcome_eq_iff hlive hback hjson hop).mpr ha
      cases n with
      | zero => exact congrArg some hjson
      | succ n =>
        rw [take_succ_cons]
        cases hl : applyPatchOp (fun _ => none) live op with
        | error e =>
          cases hb : applyPatchOp (fun _ => none) back op with
          | error e' => rw [opsOutcome_cons_error hl, opsOutcome_cons_error hb]
          | ok back' => rw [opOutcome, opOutcome, hl, hb] at h₁; cases h₁
        | ok live' =>
          cases hb : applyPatchOp (fun _ => none) back op with
          | error e' => rw [opOutcome, opOutcome, hl, hb] at h₁; cases h₁
          | ok back' =>
            rw [opOutcome, opOutcome, hl, hb] at h₁
            have hj : Raw.JSONEq (.node live') (.node back') := Option.some.inj h₁
            rw [opsOutcome_cons_ok hl, opsOutcome_cons_ok hb]
            exact (hs hl hb).mpr ⟨hj, hne live' back' hl hb⟩ n

/-! ## Patches and checkpoints -/

/-- Both succeed with JSON-equal states, or both fail. -/
def SameOutcome : Except PatchError State → Except PatchError State → Prop
  | .ok s, .ok t => s.JSONEq t
  | .error _, .error _ => True
  | _, _ => False

/-- Restoring a checkpoint before applying the patch makes no difference. -/
def CheckpointTransparent (s : State) (patch : Patch) : Prop :=
  ∃ restored, s.restore = .ok restored ∧ SameOutcome (patch.apply s) (patch.apply restored)

theorem sameOutcome_iff {s t : State} {patch : Patch} :
    SameOutcome (patch.apply s) (patch.apply t) ↔
      opsOutcome s.root patch.ops = opsOutcome t.root patch.ops := by
  have hr : ∀ u : State, (patch.apply u).toOption.map (fun r => jsonNormal (.node r.root)) =
      opsOutcome u.root patch.ops := by
    intro u
    rw [opsOutcome]
    cases ho : applyOps (fun _ => none) u.root patch.ops with
    | ok r =>
      have hs : patch.apply u = .ok ⟨r, rootOK_applyOps u.ok ho⟩ :=
        Patch.applyWithReducers_eq_ok.mpr ho
      rw [hs]
      rfl
    | error e =>
      cases ha : patch.apply u with
      | error e' => rfl
      | ok r =>
        simp [Patch.applyWithReducers_eq_ok.mp ha] at ho
  rw [← hr s, ← hr t]
  cases patch.apply s with
  | error e =>
    cases patch.apply t with
    | error e' => exact iff_of_true trivial rfl
    | ok b => exact iff_of_false id nofun
  | ok a =>
    cases patch.apply t with
    | error e' => exact iff_of_false id nofun
    | ok b => exact ⟨fun h => congrArg some h, fun h => Option.some.inj h⟩

/-- A state with the names `["a"]` as a `[]string` under `shared.names`. -/
def namesState : State :=
  ⟨[("internal", .node []), ("runtime", .node []), ("scopes", .node []),
    ("shared", .node [("names", Raw.slice .string [Raw.string "a"])])], by decide⟩

/-- `shared.names`. -/
def namesPath : Path := ⟨"shared", ["names"], by decide⟩

/-- What `Append` records for the name `"b"`: an append of a `[]string`. -/
def appendName : PatchOp :=
  ⟨.append, namesPath, Raw.slice .string [Raw.string "b"], "", by decide⟩

/-- A plain string as the appended value. -/
def appendPlainName : PatchOp := ⟨.append, namesPath, Raw.string "b", "", by decide⟩

end WeaveFlow
