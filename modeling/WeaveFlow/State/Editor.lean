import WeaveFlow.State.Patch

/-!
# Editors

An editor applies operations to a working copy of a state and records those that succeed.
The operations change the maps of the working copy in place.  They read and check first, and
then walk to their path and write; only the walk can fail after it has changed something, and
what it leaves then are the maps it has made.  But below a map it has made there is nothing to
stop at, so a failed operation leaves nothing behind (`leftBehind_eq`), and the recorded patch,
applied to the base, gives the working copy (`editor_replays`).
-/

namespace WeaveFlow

open Root MapTree Assoc List

/-! ## What a failed operation leaves -/

/-- The map a walk of `parentMap` starts from, when the walk stops at a value: missing maps on
the way were made. -/
def walkedMaps : List String → Object → Object
  | [], current => current
  | segment :: rest, current =>
    match Assoc.get segment current with
    | none => Assoc.put segment (.node (walkedMaps rest [])) current
    | some (.node next) => Assoc.put segment (.node (walkedMaps rest next)) current
    | some (.leaf _) => current

/-- The root after an operation has failed: a walk that stopped at a value has changed the
section of the path, every other error comes before the first change. -/
def leftBehind (root : Object) (path : Path) : PatchError → Object
  | .traversesNonObject _ _ =>
    let current := ((Assoc.get path.sectionName root).bind Raw.asMap).getD []
    Assoc.put path.sectionName (.node (walkedMaps path.segments.dropLast current)) root
  | _ => root

section

variable {root current : Object} {path : Path}

/-- A walk that makes no maps does not fail, and below a new map nothing is in the way. -/
theorem parentMap_ok (update : Object → Object) (walked segments : List String)
    (h : create = false ∨ current = []) :
    ∃ next, parentMap path create update walked segments current = .ok next := by
  induction segments generalizing walked current with
  | nil => exact ⟨_, rfl⟩
  | cons segment rest ih =>
    rw [parentMap]
    rcases h with rfl | rfl
    · split
      · exact ⟨_, rfl⟩
      next below _ =>
        obtain ⟨next, hn⟩ := @ih below (walked ++ [segment]) (.inl rfl)
        exact ⟨_, by rw [hn]; rfl⟩
      · exact ⟨_, rfl⟩
    · obtain ⟨next, hn⟩ := @ih [] (walked ++ [segment]) (.inr rfl)
      rw [get_nil, hn]
      cases create <;> exact ⟨_, rfl⟩

theorem walkedMaps_eq {e : PatchError} (hw : MapTree.WF (.node current))
    (h : parentMap path true update walked segments current = .error e) :
    walkedMaps segments current = current := by
  induction segments generalizing walked current e with
  | nil => rfl
  | cons segment rest ih =>
    rw [parentMap] at h
    rw [walkedMaps]
    cases hg : Assoc.get segment current with
    | none =>
      obtain ⟨next, hn⟩ : ∃ next, parentMap path true update (walked ++ [segment]) rest [] =
        .ok next := parentMap_ok _ _ _ (.inr rfl)
      simp only [hg, if_true, hn] at h
      cases h
    | some v =>
      cases v with
      | leaf a => rfl
      | node next =>
        simp only [hg] at h
        cases hwa : parentMap path true update (walked ++ [segment]) rest next with
        | ok changed => simp [hwa] at h
        | error e' =>
          -- the map is put back where it was
          have hs := place_get (wf_hereditary.sorted hw) segment
          rw [hg] at hs
          dsimp only
          rw [ih (wf_hereditary.get hw segment _ hg) hwa]
          exact hs

theorem leftBehind_of_set (hok : RootOK root) (h : Root.set root path value = .error e) :
    leftBehind root path e = root := by
  rw [Root.set] at h
  split at h
  · cases h; rfl
  next hp =>
    obtain ⟨kids, hk⟩ := get_section hok.2 (Bool.eq_false_iff.mpr hp)
    split at h
    · split at h <;> cases h
      rfl
    · cases e with
      | traversesNonObject =>
        simp only [withParent, leftBehind, hk, Option.bind_some, Raw.asMap, Option.getD_some] at h ⊢
        have hs := place_get (wf_hereditary.sorted hok.1.tree) path.sectionName
        rw [hk] at hs
        cases hw : parentMap path true (Assoc.put (path.segments.getLastD "") value) []
            path.segments.dropLast kids with
        | ok next => rw [hw] at h; cases h
        | error e =>
          rw [walkedMaps_eq (wf_hereditary.get hok.1.tree _ _ hk) hw]
          exact hs
      | _ => rfl

/-- An operation that fails leaves the root as it was. -/
theorem leftBehind_eq {reducers : Reducers} {op : PatchOp} (hok : RootOK root)
    (h : applyPatchOp reducers root op = .error e) : leftBehind root op.path e = root := by
  rw [applyPatchOp] at h
  split at h
  · cases h; rfl
  next hp =>
    split at h
    · exact leftBehind_of_set hok h
    · rw [Root.delete, if_neg hp] at h
      split at h
      · cases h
      · obtain ⟨next, hn⟩ : ∃ next, withParent op.path false
            (fun key parent => Assoc.del key parent) root = .ok next := by
          obtain ⟨_, hw⟩ := parentMap_ok _ _ _ (.inl rfl)
          exact ⟨_, Outcome.bind_eq_ok.mpr ⟨_, hw, rfl⟩⟩
        simp [hn] at h
    · rw [Root.merge, if_neg hp] at h
      split at h
      · cases h; rfl
      · split at h
        · exact leftBehind_of_set hok h
        · split at h
          · cases h; rfl
          · exact leftBehind_of_set hok h
    · rw [appendPathValue] at h
      split at h
      · exact leftBehind_of_set hok h
      · split at h
        next e _ => cases h; cases e <;> rfl
        · exact leftBehind_of_set hok h
    · split at h
      · cases h; rfl
      · split at h
        · cases h; rfl
        · split at h
          · cases h; rfl
          · exact leftBehind_of_set hok h
    · cases h; rfl

end

/-! ## The editor -/

structure Editor where
  work : State
  ops : List PatchOp
  reducers : Reducers

def newEditorWithReducers (base : State) (reducers : Reducers) : Editor := ⟨base.clone, [], reducers⟩

namespace Editor

def apply (e : Editor) (op : PatchOp) : Editor × Except PatchError Unit :=
  match h : applyPatchOp e.reducers e.work.root op with
  | .error err =>
    ({ e with work := ⟨leftBehind e.work.root op.path err,
        (leftBehind_eq e.work.ok h).symm ▸ e.work.ok⟩ }, .error err)
  | .ok next =>
    ({ e with work := ⟨next, rootOK_applyPatchOp e.work.ok h⟩, ops := e.ops ++ [op] }, .ok ())

/-- A call of an editor. -/
inductive Call where
  | setAny (path : Path) (value : Raw) (valid : value.Valid)
  | delete (path : Path)
  | mergeAny (path : Path) (value : Object) (valid : Raw.Valid (.node value))
  | appendAny (path : Path) (value : Raw) (valid : value.Valid)
  | reduceAny (path : Path) (reducer : String) (value : Raw) (valid : value.Valid)

def Call.op : Call → PatchOp
  | setAny path value valid => ⟨.set, path, value, "", valid⟩
  | delete path => ⟨.delete, path, Raw.null, "", rfl⟩
  | mergeAny path value valid => ⟨.merge, path, .node value, "", valid⟩
  | appendAny path value valid => ⟨.append, path, value, "", valid⟩
  | reduceAny path reducer value valid => ⟨.reduce, path, value, reducer, valid⟩

def run (e : Editor) (calls : List Call) : Editor :=
  calls.foldl (fun e call => (e.apply call.op).1) e

def patch (e : Editor) : Patch := ⟨e.ops⟩

def state (e : Editor) : State := e.work.clone

/-- What one call does. -/
theorem apply_cases (e : Editor) (op : PatchOp) : (∃ err, e.apply op = (e, .error err)) ∨
      ∃ work, applyPatchOp e.reducers e.work.root op = .ok work.root ∧
        e.apply op = ({ e with work, ops := e.ops ++ [op] }, .ok ()) := by
  unfold apply
  split
  next err h =>
    refine .inl ⟨err, ?_⟩
    simp only [leftBehind_eq e.work.ok h]
  next next h => exact .inr ⟨⟨next, rootOK_applyPatchOp e.work.ok h⟩, h, rfl⟩

/-- The recorded operations, applied to the base, give the working copy. -/
def Replays (e : Editor) (base : State) (reducers : Reducers) : Prop :=
  e.reducers = reducers ∧ applyOps reducers base.root e.ops = .ok e.work.root

theorem Replays.apply {rs : Reducers} (h : Replays e base rs) (op : PatchOp) :
    (e.apply op).1.Replays base rs := by
  rcases e.apply_cases op with ⟨err, heq⟩ | ⟨work, ha, heq⟩
  · rw [heq]
    exact h
  · rw [heq]
    refine ⟨h.1, ?_⟩
    rw [applyOps, foldlM_append]
    refine Outcome.bind_eq_ok.mpr ⟨_, h.2, ?_⟩
    exact Outcome.bind_eq_ok.mpr ⟨_, h.1 ▸ ha, rfl⟩

theorem Replays.run {rs : Reducers} (h : Replays e base rs) (calls : List Call) :
    (e.run calls).Replays base rs := by
  induction calls generalizing e with
  | nil => exact h
  | cons call calls ih => exact ih (h.apply call.op)

end Editor

/-- After any calls on an editor, a call that fails leaves it as it was, and its patch, applied
to the base with its reducers, gives its state. -/
theorem editor_replays (base : State) (reducers : Reducers) (calls : List Editor.Call) :
    let e := (newEditorWithReducers base reducers).run calls
    (∀ (call : Editor.Call) (err : PatchError), (e.apply call.op).2 = .error err →
      (e.apply call.op).1 = e) ∧
    ∃ s, e.patch.applyWithReducers base reducers = .ok s ∧ s.JSONEq e.state := by
  refine ⟨fun call err h => ?_, ?_⟩
  · rcases Editor.apply_cases _ call.op with ⟨err, heq⟩ | ⟨work, -, heq⟩
    · rw [heq]
    · simp [heq] at h
  · have hs : (newEditorWithReducers base reducers).Replays base reducers := by
      rw [newEditorWithReducers, State.clone_eq]
      exact ⟨rfl, rfl⟩
    refine ⟨_, Patch.applyWithReducers_eq_ok.mpr (hs.run calls).2, ?_⟩
    rw [Editor.state, State.clone_eq]
    exact rfl

end WeaveFlow
