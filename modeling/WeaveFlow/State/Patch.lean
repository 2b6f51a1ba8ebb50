import WeaveFlow.Lib.Outcome
import WeaveFlow.Lib.PathRuns
import WeaveFlow.State.State

/-!
# Patches

A patch is a list of operations, applied one after the other to a copy of the base
state.  `appendValue` dispatches on the dynamic types of both operands as the source
does with `reflect`.  A reducer is a pure partial function on values.

`applyPatchOp_toOption` says what one operation does: it edits the slot of its path by
`opUpdate`, creating the maps above it unless it is a delete.  Everything proved later
about patches goes through it.
-/

namespace WeaveFlow

open Root Option Raw MapTree List

/-! ## Operations -/

/-- `PatchOpKind`; any other text is kept. -/
inductive PatchOpKind where
  | set
  | delete
  | merge
  | append
  | reduce
  | other (kind : String)
  deriving DecidableEq, Repr

def PatchOpKind.text : PatchOpKind → String
  | set => "set"
  | delete => "delete"
  | merge => "merge"
  | append => "append"
  | reduce => "reduce"
  | other kind => kind

/-- One state mutation. -/
structure PatchOp where
  kind : PatchOpKind
  path : Path
  value : Raw
  reducer : String
  valid : value.Valid

/-- An ordered list of state mutations. -/
structure Patch where
  ops : List PatchOp

/-- A registered reducer: from the current and the incoming value to the new one. -/
structure Reducer where
  reduce : Raw → Raw → Except String Raw
  valid : ∀ current incoming v, current.Valid → incoming.Valid →
    reduce current incoming = .ok v → v.Valid

/-- The reducers by name. -/
abbrev Reducers := String → Option Reducer

/-! ## Append -/

def maxCollectionSize : Nat := 1000000

def maxInt : Nat := 2 ^ 63 - 1

/-- Why an append failed. -/
inductive AppendError where
  | tooLarge
  | notSlice (got : String)
  deriving DecidableEq, Repr

def anySlice (v : Raw) : Option (List Raw) :=
  match v.sliceView with
  | none => none
  | some (_, items) => if items.length > maxCollectionSize then none else some items

/-- The last part of `appendValue`, for operands whose types do not fit. -/
def appendItems (existing value : Raw) : Except AppendError Raw :=
  match anySlice existing with
  | none => .error (.notSlice existing.typeText)
  | some left =>
    let right := (anySlice value).getD [value]
    if right.length > maxInt - left.length then .error .tooLarge
    else .ok (Raw.slice .any (left ++ right))

/-- The value can be appended as one item to a slice with this element type. -/
def itemOf (value : Raw) (elem : GoType) : Bool :=
  match value.typeOf with
  | none => false
  | some t => assignableTo t elem

def appendValue (existing value : Raw) : Except AppendError Raw :=
  match existing.sliceView with
  | none => appendItems existing value
  | some (elem, left) =>
    if value.typeOf = some (.slice elem) then
      let right := (value.sliceView.map Prod.snd).getD []
      if right.length > maxInt - left.length then .error .tooLarge
      else .ok (Raw.slice elem (left ++ right))
    else if itemOf value elem then .ok (Raw.slice elem (left ++ [value]))
    else appendItems existing value

def normalizeAppendSeed (value : Raw) : Raw :=
  match anySlice value with
  | some _ => value
  | none => Raw.slice .any [value]

/-- What an append leaves in a slot. -/
def appendTo (o : Option Raw) (value : Raw) : Except AppendError Raw :=
  match o with
  | none => .ok (normalizeAppendSeed value)
  | some existing => appendValue existing value

/-- The error of `appendPathValue`. -/
def AppendError.atPath (path : Path) : AppendError → PatchError
  | tooLarge => .appendTooLarge path.string
  | notSlice got => .appendNotSlice path.string got

/-! ## Applying -/

namespace Root

def appendPathValue (root : Object) (path : Path) (value : Raw) : Except PatchError Object :=
  match read root path with
  | none => set root path (normalizeAppendSeed value)
  | some existing =>
    match appendValue existing value with
    | .error e => .error (e.atPath path)
    | .ok combined => set root path combined

/-- `applyPatchOpWithReducers`. -/
def applyPatchOp (reducers : Reducers) (root : Object) (op : PatchOp) : Except PatchError Object :=
  if op.path.empty then .error .patchPathRequired
  else
    match op.kind with
    | .set => set root op.path op.value
    | .delete => delete root op.path
    | .merge => merge root op.path op.value
    | .append => appendPathValue root op.path op.value
    | .reduce =>
      if op.reducer = "" then .error .reducerRequired
      else
        match reducers op.reducer with
        | none => .error (.unknownReducer op.reducer)
        | some reducer =>
          match reducer.reduce ((read root op.path).getD Raw.null) op.value with
          | .error reason => .error (.reducerFailed op.reducer op.path.string reason)
          | .ok value => set root op.path value
    | .other kind => .error (.unknownKind kind)

/-- The operation loop of `ApplyWithReducers`. -/
def applyOps (reducers : Reducers) (root : Object) (ops : List PatchOp) :
    Except PatchError Object :=
  ops.foldlM (applyPatchOp reducers) root

end Root

/-! ## What one operation does -/

/-- The value a reduce leaves in a slot. -/
def reduceTo (reducers : Reducers) (op : PatchOp) (o : Option Raw) : Except PatchError Raw :=
  if op.reducer = "" then .error .reducerRequired
  else
    match reducers op.reducer with
    | none => .error (.unknownReducer op.reducer)
    | some reducer =>
      match reducer.reduce (o.getD Raw.null) op.value with
      | .error reason => .error (.reducerFailed op.reducer op.path.string reason)
      | .ok value => .ok value

/-- What an operation does to the slot of its path. -/
def opUpdate (reducers : Reducers) (op : PatchOp) : SlotUpdate String Leaf := fun o =>
  match op.kind with
  | .set => setUpdate op.path op.value o
  | .delete => deleteUpdate op.path o
  | .merge => op.value.asMap.bind fun overlay => mergeUpdate overlay o
  | .append => (appendTo o op.value).toOption.bind fun v => setUpdate op.path v o
  | .reduce => (reduceTo reducers op o).toOption.bind fun v => setUpdate op.path v o
  | .other _ => none

/-- A delete below a section does not create the maps above its path. -/
def opCreates (op : PatchOp) : Bool := op.kind ≠ .delete || op.path.segments.isEmpty

/-- The edit of the root that an operation makes. -/
def opEdit (reducers : Reducers) (op : PatchOp) (root : Object) : Option Object :=
  editMap (opCreates op) (opUpdate reducers op) op.path.sectionName op.path.segments root

variable {reducers : Reducers} {r v value : Raw} {root : Object} {o : Option Raw} {op : PatchOp}
  {ops : List PatchOp} {items : List Raw} {elem : GoType}

theorem editMap_fail : editMap true (fun _ => none) k ks root = none := by
  have : editAt true (fun _ => none) ks (Assoc.get k root) = none := by
    rw [← not_isSome_iff_eq_none, editAt_true_isSome]
    rintro ⟨-, h⟩
    cases h
  rw [editMap, this]
  rfl

/-- An operation edits the slot of its path. -/
theorem applyPatchOp_toOption (reducers : Reducers) (hp : op.path.empty = false)
    (hw : MapTree.WF (.node root)) (hs : hasSections root = true) :
    (applyPatchOp reducers root op).toOption = opEdit reducers op root := by
  rw [applyPatchOp, if_neg (by simp [hp])]
  obtain ⟨kind, path, value, reducer, hv⟩ := op
  cases kind with
  | set => exact set_toOption hp hw hs
  | delete => exact delete_toOption hp hw hs
  | merge =>
    cases value with
    | leaf a =>
      refine Eq.trans ?_ editMap_fail.symm
      simp [Root.merge, hp, Raw.asMap, Except.toOption]
    | node overlay => exact merge_toOption hp hw hs
  | append =>
    let f : Option Raw → Except PatchError Raw := fun o =>
      match appendTo o value with
      | .error e => .error (e.atPath path)
      | .ok v => .ok v
    have ha : appendPathValue root path value =
        (f (Root.read root path) >>= Root.set root path) := by
      rw [appendPathValue]
      cases Root.read root path with
      | none => rfl
      | some existing =>
        simp only [f, appendTo]
        cases appendValue existing value <;> rfl
    have hu : opUpdate reducers ⟨.append, path, value, reducer, hv⟩ =
        fun o => (f o).toOption.bind fun v => setUpdate path v o := by
      funext o
      simp only [opUpdate, f]
      cases appendTo o value <;> rfl
    rw [ha, opEdit, hu]
    exact modify_toOption hp hw hs f
  | reduce =>
    refine Eq.trans ?_
      (modify_toOption hp hw hs (reduceTo reducers ⟨.reduce, path, value, reducer, hv⟩))
    simp only [reduceTo]
    split
    · rfl
    · cases reducers reducer with
      | none => rfl
      | some reducer =>
        cases hr : reducer.reduce ((Root.read root path).getD Raw.null) value with
        | error reason | ok v => simp only [hr]; rfl
  | other kind => exact editMap_fail.symm

/-! ## The invariant is kept -/

theorem Raw.wfItems_iff : wfItems elem items = true ↔
      ∀ v ∈ items, (elem = .any ∨ v.typeOf = some elem) ∧ v.Valid := by
  induction items with
  | nil => simp [wfItems]
  | cons v items ih =>
    rw [wfItems, Bool.and_eq_true, Bool.and_eq_true, ih, forall_mem_cons]
    simp [Raw.Valid]

theorem Raw.valid_slice : (Raw.slice elem items).Valid ↔
      ∀ v ∈ items, (elem = .any ∨ v.typeOf = some elem) ∧ v.Valid := by
  rw [← wfItems_iff, Raw.Valid, Raw.wf, Raw.wfLeaf]

theorem Raw.valid_sliceView (hv : v.Valid) (h : v.sliceView = some (elem, items)) :
    ∀ w ∈ items, (elem = .any ∨ w.typeOf = some elem) ∧ w.Valid := by
  match v with
  | .node _ | .leaf .null | .leaf (.bool _) | .leaf (.int _) | .leaf (.float64 _)
  | .leaf (.string _) | .leaf (.opaqueValue _ _) => cases h
  | .leaf (.nilSlice _) => cases h; intro w hw; cases hw
  | .leaf (.slice _ _) => cases h; exact valid_slice.mp hv

theorem valid_anySlice (hv : v.Valid) (h : anySlice v = some items) : ∀ w ∈ items, w.Valid := by
  rw [anySlice] at h
  cases hvi : v.sliceView with
  | none => simp [hvi] at h
  | some p =>
    simp only [hvi] at h
    split at h
    · cases h
    · cases h
      intro w hw
      exact (valid_sliceView hv hvi w hw).2

theorem valid_appendItems (he : existing.Valid) (hv : value.Valid)
    (h : appendItems existing value = .ok r) : r.Valid := by
  rw [appendItems] at h
  cases hl : anySlice existing with
  | none => simp [hl] at h
  | some left =>
    simp only [hl] at h
    split at h
    · cases h
    · cases h
      refine valid_slice.mpr fun w hw => ⟨.inl rfl, ?_⟩
      rcases mem_append.mp hw with hw | hw
      · exact valid_anySlice he hl w hw
      · cases hr : anySlice value with
        | none =>
          rw [hr, getD_none, mem_singleton] at hw
          exact hw ▸ hv
        | some right =>
          rw [hr, getD_some] at hw
          exact valid_anySlice hv hr w hw

theorem valid_appendValue (he : existing.Valid) (hv : value.Valid)
    (h : appendValue existing value = .ok r) : r.Valid := by
  rw [appendValue] at h
  cases hvi : existing.sliceView with
  | none =>
    simp only [hvi] at h
    exact valid_appendItems he hv h
  | some p =>
    obtain ⟨elem, left⟩ := p
    simp only [hvi] at h
    have hl := valid_sliceView he hvi
    split at h
    next hty =>
      split at h
      · cases h
      · cases h
        refine valid_slice.mpr fun w hw => ?_
        rcases mem_append.mp hw with hw | hw
        · exact hl w hw
        · cases hvv : value.sliceView with
          | none => simp [hvv] at hw
          | some q =>
            obtain ⟨elem', right⟩ := q
            have hel : elem' = elem := by
              match value, hvv, hty with
              | .leaf (.slice _ _), hvv, hty | .leaf (.nilSlice _), hvv, hty =>
                cases hvv; cases hty; rfl
            subst hel
            simp only [hvv, map_some, getD_some] at hw
            exact valid_sliceView hv hvv w hw
    · split at h
      next hi =>
        cases h
        refine valid_slice.mpr fun w hw => ?_
        rcases mem_append.mp hw with hw | hw
        · exact hl w hw
        · rw [mem_singleton] at hw
          subst hw
          refine ⟨?_, hv⟩
          rw [itemOf] at hi
          cases ht : w.typeOf with
          | none => simp [ht] at hi
          | some t =>
            simp only [ht, assignableTo, Bool.or_eq_true, decide_eq_true_eq] at hi
            rcases hi with h | h
            · exact .inl h
            · exact .inr (by rw [h])
      · exact valid_appendItems he hv h

theorem valid_appendTo (ho : SlotAll Raw.Valid o) (hv : value.Valid)
    (h : appendTo o value = .ok r) : r.Valid := by
  cases o with
  | none =>
    cases h
    rw [normalizeAppendSeed]
    split
    · exact hv
    · refine valid_slice.mpr fun w hw => ⟨.inl rfl, ?_⟩
      rw [mem_singleton] at hw
      exact hw ▸ hv
  | some existing => exact valid_appendValue (slotAll_some.mp ho) hv h

theorem valid_reduceTo (ho : SlotAll Raw.Valid o) (h : reduceTo reducers op o = .ok r) :
    r.Valid := by
  rw [reduceTo] at h
  split at h
  · cases h
  · cases hre : reducers op.reducer with
    | none => simp [hre] at h
    | some reducer =>
      simp only [hre] at h
      cases hr : reducer.reduce (o.getD Raw.null) op.value with
      | error reason => simp [hr] at h
      | ok v =>
        simp only [hr] at h
        cases h
        refine reducer.valid _ _ _ ?_ op.valid hr
        cases o with
        | none => exact rfl
        | some w => exact slotAll_some.mp ho

theorem valid_setUpdate {path : Path} {r : Option Raw} (hv : v.Valid)
    (h : setUpdate path v o = some r) : SlotAll Raw.Valid r := by
  rw [setUpdate] at h
  split at h
  · cases v with
    | leaf a => cases h
    | node kids => cases h; exact slotAll_some.mpr hv
  · cases h
    exact slotAll_some.mpr hv

/-- An operation writes valid values over valid values. -/
theorem valid_opUpdate {r : Option Raw} (ho : SlotAll Raw.Valid o)
    (h : opUpdate reducers op o = some r) : SlotAll Raw.Valid r := by
  rw [opUpdate] at h
  split at h
  · exact valid_setUpdate op.valid h
  · rw [deleteUpdate] at h
    split at h
    · cases h; exact slotAll_some.mpr valid_hereditary.nil
    · cases h; exact slotAll_none _
  · obtain ⟨overlay, hov, h⟩ := bind_eq_some_iff.mp h
    have hva : Raw.Valid (.node overlay) := by
      have hv := op.valid
      cases hvv : op.value with
      | leaf a => rw [hvv] at hov; cases hov
      | node kids => rw [hvv] at hov hv; cases hov; exact hv
    rw [mergeOver_eq_some h]
    exact slotAll_some.mpr (valid_hereditary.mergeSlot hva ho)
  · obtain ⟨v, hv, h⟩ := bind_eq_some_iff.mp h
    have hap := Outcome.toOption_eq_some.mp hv
    exact valid_setUpdate (valid_appendTo ho op.valid hap) h
  · obtain ⟨v, hv, h⟩ := bind_eq_some_iff.mp h
    exact valid_setUpdate (valid_reduceTo ho (Outcome.toOption_eq_some.mp hv)) h
  · cases h

theorem object_setUpdate (hs : path.segments.isEmpty = true) {r : Option Raw}
    (h : setUpdate path v o = some r) : ∃ kids, r = some (.node kids) := by
  rw [setUpdate, if_pos hs] at h
  cases v with
  | leaf a => cases h
  | node kids => cases h; exact ⟨kids, rfl⟩

/-- An operation on a section leaves an object there. -/
theorem object_opUpdate (hs : op.path.segments.isEmpty = true) {r : Option Raw}
    (h : opUpdate reducers op o = some r) : ∃ kids, r = some (.node kids) := by
  rw [opUpdate] at h
  split at h
  · exact object_setUpdate hs h
  · rw [deleteUpdate, if_pos hs] at h
    cases h
    exact ⟨[], rfl⟩
  · obtain ⟨overlay, hov, h⟩ := bind_eq_some_iff.mp h
    obtain ⟨kids, hk⟩ := mergeSlot_node_isNode o overlay
    exact ⟨kids, by rw [mergeOver_eq_some h, hk]⟩
  · obtain ⟨v, -, h⟩ := bind_eq_some_iff.mp h
    exact object_setUpdate hs h
  · obtain ⟨v, -, h⟩ := bind_eq_some_iff.mp h
    exact object_setUpdate hs h
  · cases h

/-- The edit of an operation keeps the root invariant. -/
theorem rootOK_opEdit (hp : op.path.empty = false) (hok : RootOK root)
    (h : opEdit reducers op root = some root') : RootOK root' := by
  obtain ⟨hv, hs⟩ := hok
  constructor
  · have he := editMap_eq_some.mp h
    have := valid_hereditary.editAt (slotAll_some.mpr hv) (fun r hr => valid_opUpdate
        (valid_hereditary.lookAt _ (slotAll_some.mpr hv)) hr) he
    exact slotAll_some.mp this
  · obtain ⟨kids, hk⟩ := get_section hs hp
    obtain ⟨r, hr, rfl⟩ := map_eq_some_iff.mp h
    have ho : ∃ kids', r = some (.node kids') := by
      rw [hk] at hr
      cases hse : op.path.segments with
      | nil =>
        rw [hse] at hr
        exact object_opUpdate (by rw [hse]; rfl) hr
      | cons s rest =>
        rw [hse] at hr
        obtain ⟨r', -, rfl⟩ := editAt_cons_node_some hr
        exact ⟨_, rfl⟩
    obtain ⟨kids', rfl⟩ := ho
    exact hasSections_place hs

theorem rootOK_applyPatchOp {reducers : Reducers} {op : PatchOp} {root root' : Object}
    (hok : RootOK root) (h : applyPatchOp reducers root op = .ok root') : RootOK root' := by
  cases hp : op.path.empty with
  | true => simp [applyPatchOp, hp] at h
  | false =>
    have he := applyPatchOp_toOption reducers hp hok.1.tree hok.2
    rw [h] at he
    exact rootOK_opEdit hp hok he.symm

theorem rootOK_applyOps (hok : RootOK root) (h : applyOps reducers root ops = .ok root') :
    RootOK root' :=
  Outcome.foldlM_induction (fun _ _ _ _ hok hop => rootOK_applyPatchOp hok hop) hok h

/-- Bundle a computed root. -/
def State.lift {ε : Type} :
    (r : Except ε Object) → (∀ root, r = .ok root → RootOK root) → Except ε State
  | .error e, _ => .error e
  | .ok root, h => .ok ⟨root, h root rfl⟩

theorem State.lift_eq_ok {ε : Type} {r : Except ε Object}
    {h : ∀ root, r = .ok root → RootOK root} {s : State} :
    State.lift r h = .ok s ↔ r = .ok s.root := by
  cases r with
  | error e => simp [State.lift]
  | ok root =>
    simp only [State.lift, Except.ok.injEq]
    constructor
    · rintro rfl; rfl
    · intro he; exact State.root_inj he

def Patch.applyWithReducers (patch : Patch) (base : State) (reducers : Reducers) :
    Except PatchError State :=
  State.lift (applyOps reducers base.clone.root patch.ops)
    fun _ h => rootOK_applyOps base.clone.ok h

def Patch.apply (patch : Patch) (base : State) : Except PatchError State :=
  patch.applyWithReducers base fun _ => none

theorem Patch.applyWithReducers_eq_ok {patch : Patch} {base s : State} :
    patch.applyWithReducers base reducers = .ok s ↔
      applyOps reducers base.root patch.ops = .ok s.root := by
  rw [Patch.applyWithReducers, State.lift_eq_ok, State.clone_eq]

/-! ## Runs of operations -/

/-- The edits of a list of operations, one after the other. -/
def opEdits (reducers : Reducers) (root : Object) (ops : List PatchOp) : Option Object :=
  Steps.run (fun root op => opEdit reducers op root) root ops

theorem applyOps_toOption (reducers : Reducers) (hp : ∀ op ∈ ops, op.path.empty = false)
    (hok : RootOK root) :
    (applyOps reducers root ops).toOption = opEdits reducers root ops := by
  induction ops generalizing root with
  | nil => rfl
  | cons op ops ih =>
    have hop := hp op mem_cons_self
    have he := applyPatchOp_toOption reducers hop hok.1.tree hok.2
    rw [applyOps, opEdits, foldlM_cons, Steps.run_cons, ← he]
    cases ha : applyPatchOp reducers root op with
    | error e => rfl
    | ok next =>
      exact ih (forall_mem_cons.mp hp).2 (rootOK_applyPatchOp hok ha)

theorem paths_of_applyOps (h : applyOps reducers root ops = .ok root') :
    ∀ op ∈ ops, op.path.empty = false := by
  induction ops generalizing root with
  | nil => intro op hop; cases hop
  | cons op ops ih =>
    rw [applyOps, foldlM_cons] at h
    obtain ⟨next, hop, h⟩ := Outcome.of_bind h
    intro o ho
    rcases mem_cons.mp ho with rfl | ho
    · cases hp : o.path.empty with
      | false => rfl
      | true => simp [applyPatchOp, hp] at hop
    · exact ih h o ho

/-! ## Operations as edits -/

theorem opUpdate_passive : Passive (opCreates op) (opUpdate reducers op) := by
  intro h
  simp only [opCreates, Bool.or_eq_false_iff, decide_eq_false_iff_not, ne_eq, not_not] at h
  simp [opUpdate, deleteUpdate, h.1, h.2]

/-- The operation as an edit of the slot that holds the root. -/
def opAt (reducers : Reducers) (op : PatchOp) : MapTree.Edit String Leaf :=
  ⟨opCreates op, opUpdate reducers op, op.path.keys, opUpdate_passive⟩

theorem opEdits_eq_run (ops : List PatchOp) (root : Object) :
    (opEdits reducers root ops).map (fun m => some (.node m)) =
      MapTree.Edit.run (ops.map (opAt reducers)) (some (.node root)) := by
  induction ops generalizing root with
  | nil => rfl
  | cons op ops ih =>
    have hs : (opAt reducers op).apply (some (.node root)) =
        (opEdit reducers op root).map fun m => some (.node m) :=
      editAt_node_eq_editMap _ _ _ root
    rw [map_cons, MapTree.Edit.run, Steps.run_cons, hs, opEdits, Steps.run_cons]
    cases opEdit reducers op root with
    | none => rfl
    | some next => exact ih next

theorem applyOps_ok_iff (hok : RootOK root) (hp : ∀ op ∈ ops, op.path.empty = false) :
    applyOps reducers root ops = .ok root' ↔
      MapTree.Edit.run (ops.map (opAt reducers)) (some (.node root)) = some (some (.node root')) := by
  rw [← opEdits_eq_run, ← applyOps_toOption reducers hp hok]
  cases applyOps reducers root ops with
  | error e | ok r => simp [Except.toOption]

theorem applyOps_isOk_iff (hok : RootOK root) (hp : ∀ op ∈ ops, op.path.empty = false) :
    (∃ root', applyOps reducers root ops = .ok root') ↔
      (MapTree.Edit.run (ops.map (opAt reducers)) (some (.node root))).isSome := by
  rw [← opEdits_eq_run, ← applyOps_toOption reducers hp hok]
  cases applyOps reducers root ops with
  | error e | ok r => simp [Except.toOption]

end WeaveFlow
