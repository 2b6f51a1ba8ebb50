import WeaveFlow.State.Path
import WeaveFlow.State.Value

/-!
# The state envelope

The root of a state is a map with the four sections.  `Root.read`, `Root.set`,
`Root.delete` and `Root.merge` walk it as `State.read`, `State.set`, `State.delete`
and `State.merge` do; an error value names the check that failed.  Each of them is
an edit at one path of the root (`Root.set_toOption` and its companions), which is
all that later modules use.

`State` bundles a root with its invariant: ascending keys, and an object in every
section.  That is what `ensureRootSections` restores in the source, so that on a
`State` it has nothing to do.
-/

namespace WeaveFlow

open Raw Assoc MapTree List

/-- Why a state operation failed. -/
inductive PatchError where
  | pathRequired
  | patchPathRequired
  | sectionRequiresMap (sectionName : String)
  | traversesNonObject (path parent : String)
  | mergeRequiresMap (path got : String)
  | mergeFoundNonObject (path got : String)
  | appendTooLarge (path : String)
  | appendNotSlice (path got : String)
  | reducerRequired
  | unknownReducer (reducer : String)
  | reducerFailed (reducer path reason : String)
  | unknownKind (kind : String)
  deriving DecidableEq, Repr

def PatchError.message : PatchError → String
  | pathRequired => "state path is required"
  | patchPathRequired => "patch op path is required"
  | sectionRequiresMap s => "state section " ++ quote s ++ " requires map[string]any value"
  | traversesNonObject path parent =>
    "state path " ++ quote path ++ " traverses non-object value at " ++ quote parent
  | mergeRequiresMap path got =>
    "merge at " ++ quote path ++ " requires map[string]any value, got " ++ got
  | mergeFoundNonObject path got => "merge at " ++ quote path ++ " found non-object value " ++ got
  | appendTooLarge path => "append path " ++ quote path ++ ": append result is too large"
  | appendNotSlice path got =>
    "append path " ++ quote path ++ ": existing value has type " ++ got ++ ", want slice"
  | reducerRequired => "reduce op reducer is required"
  | unknownReducer r => "unknown state reducer " ++ quote r
  | reducerFailed r path reason =>
    "state reducer " ++ quote r ++ " failed at " ++ quote path ++ ": " ++ reason
  | unknownKind kind => "unknown patch op kind " ++ quote kind

/-! ## Roots -/

/-- The value is a `map[string]any`. -/
def Raw.isObject : Raw → Bool
  | .node _ => true
  | .leaf _ => false

def hasSections (root : Object) : Bool :=
  sections.all fun s => (Assoc.get s root).any isObject

def newRoot : Object :=
  sections.foldl (fun root s => Assoc.put s (.node []) root) []

def ensureRootSections (root : Object) : Object :=
  sections.foldl (fun root s =>
    if (Assoc.get s root).any isObject then root else Assoc.put s (.node []) root) root

def mergeMap (target overlay : Object) : Object := mergeKids target overlay

namespace Root

/-- The segment loop of `State.read`. -/
def readSegments : Raw → List String → Option Raw
  | current, [] => some current
  | .node mapped, segment :: rest =>
    match Assoc.get segment mapped with
    | none => none
    | some next => readSegments next rest
  | .leaf _, _ :: _ => none

def read (root : Object) (path : Path) : Option Raw :=
  if path.empty then none
  else
    match Assoc.get path.sectionName root with
    | none => none
    | some current => readSegments current path.segments

/-- `State.parentMap` with the update its caller makes to the map it returns: the new content
of the map the walk starts from.  The segments are those walked and those still to walk,
without the last one.  When a map is missing and must not be created, the source returns no
map and its caller changes nothing. -/
def parentMap (path : Path) (create : Bool) (update : Object → Object) :
    List String → List String → Object → Except PatchError Object
  | _, [], current => .ok (update current)
  | walked, segment :: rest, current =>
    match Assoc.get segment current with
    | none =>
      if create then do
        let next ← parentMap path create update (walked ++ [segment]) rest []
        return Assoc.put segment (.node next) current
      else .ok current
    | some (.node next) => do
        let next ← parentMap path create update (walked ++ [segment]) rest next
        return Assoc.put segment (.node next) current
    | some (.leaf _) =>
      if create then
        .error (.traversesNonObject path.string
          (joinDots (path.sectionName :: (walked ++ [segment]))))
      else .ok current

/-- The walk below the section of a path, and the section written back. -/
def withParent (path : Path) (create : Bool) (update : String → Object → Object) (root : Object) :
    Except PatchError Object := do
  let current := ((Assoc.get path.sectionName root).bind Raw.asMap).getD []
  let key := path.segments.getLastD ""
  let next ← parentMap path create (update key) [] path.segments.dropLast current
  return Assoc.put path.sectionName (.node next) root

def set (root : Object) (path : Path) (value : Raw) : Except PatchError Object :=
  if path.empty then .error .pathRequired
  else if path.segments.isEmpty then
    match value.asMap with
    | none => .error (.sectionRequiresMap path.sectionName)
    | some mapped => .ok (Assoc.put path.sectionName (.node mapped) root)
  else withParent path true (fun key parent => Assoc.put key value parent) root

def delete (root : Object) (path : Path) : Except PatchError Object :=
  if path.empty then .error .pathRequired
  else if path.segments.isEmpty then .ok (Assoc.put path.sectionName (.node []) root)
  else withParent path false (fun key parent => Assoc.del key parent) root

def merge (root : Object) (path : Path) (value : Raw) : Except PatchError Object :=
  if path.empty then .error .pathRequired
  else
    match value.asMap with
    | none => .error (.mergeRequiresMap path.string value.typeText)
    | some overlay =>
      match read root path with
      | none => set root path (.node overlay)
      | some current =>
        match current.asMap with
        | none => .error (.mergeFoundNonObject path.string current.typeText)
        | some target => set root path (.node (mergeMap target overlay))

end Root

/-! ## The operations are edits at one path -/

section Edits

variable {path : Path}

theorem get_section (hs : hasSections root = true) (hp : path.empty = false) :
    ∃ kids, Assoc.get path.sectionName root = some (.node kids) := by
  have hm := path.mem_sections hp
  rw [hasSections, all_eq_true] at hs
  have := hs _ hm
  cases hg : Assoc.get path.sectionName root with
  | none => simp [hg] at this
  | some v =>
    cases v with
    | leaf a => simp [hg, isObject] at this
    | node kids => exact ⟨kids, rfl⟩

theorem readSegments_eq_lookAt (v : Raw) (segments : List String) :
    Root.readSegments v segments = lookAt segments (some v) := by
  induction segments generalizing v with
  | nil => cases v <;> rfl
  | cons s rest ih =>
    cases v with
    | leaf a => rfl
    | node kids =>
      rw [Root.readSegments, lookAt_cons_node]
      cases Assoc.get s kids with
      | none => simp
      | some next => exact ih next

theorem Root.read_eq_lookAt (hp : path.empty = false) :
    Root.read root path = lookAt path.keys (some (.node root)) := by
  rw [Root.read, if_neg (by simp [hp]), Path.keys, lookAt_cons_node]
  cases Assoc.get path.sectionName root with
  | none => simp
  | some v => exact readSegments_eq_lookAt v path.segments

/-- A walk is an edit of the slot at its end. -/
theorem parentMap_toOption (path : Path) (create : Bool) (key : String) (r : Option Raw)
    (walked segments : List String) {current : Object} (hw : MapTree.WF (.node current)) :
    (Root.parentMap path create (Assoc.place key r) walked segments current).toOption.map
        (fun m => some (MapTree.node m)) =
      editAt create (fun _ => some r) (segments ++ [key]) (some (.node current)) := by
  induction segments generalizing walked current with
  | nil => rfl
  | cons s rest ih =>
    -- Below the key `s`, whatever map is found or made there.
    have below : ∀ next : Object, MapTree.WF (.node next) → (do
          let next ← Root.parentMap path create (Assoc.place key r) (walked ++ [s]) rest next
          return Assoc.put s (.node next) current :
            Except PatchError Object).toOption.map (fun m => some (MapTree.node m)) =
          (editAt create (fun _ => some r) (rest ++ [key]) (some (.node next))).map
            fun r => some (MapTree.node (Assoc.place s r current)) := by
      intro next hn
      rw [← ih (walked ++ [s]) hn]
      cases Root.parentMap path create (Assoc.place key r) (walked ++ [s]) rest next with
      | error e => rfl
      | ok m => rfl
    rw [Root.parentMap, cons_append, editAt_cons_node]
    cases hg : Assoc.get s current with
    | none =>
      cases create with
      | true =>
        rw [editAt_true_none _ (by simp)]
        exact below [] wf_hereditary.nil
      | false =>
        rw [editAt_false_absent _ (by simp)]
        have := place_get (wf_hereditary.sorted hw) s
        rw [hg] at this
        simp [Except.toOption, this]
    | some v =>
      cases v with
      | node next =>
        exact below next (wf_hereditary.get hw s _ hg)
      | leaf a =>
        have := place_get (wf_hereditary.sorted hw) s
        rw [hg] at this
        rw [editAt_leaf _ _ _ (by simp)]
        cases create with
        | true => rfl
        | false => simp [Except.toOption, this]

variable {root : Object} (hp : path.empty = false) (hw : MapTree.WF (.node root))
  (hs : hasSections root = true)

include hp hw hs in
theorem withParent_toOption (hse : path.segments.isEmpty = false) (create : Bool)
    (r : Option Raw) :
    (Root.withParent path create (fun key => Assoc.place key r) root).toOption =
      editMap create (fun _ => some r) path.sectionName path.segments root := by
  obtain ⟨kids, hk⟩ := get_section hs hp
  have hsp : path.segments.dropLast ++ [path.segments.getLastD ""] = path.segments := by
    have hne : path.segments ≠ [] := by simpa using hse
    rw [getLastD_eq_getLast?, List.getLast?_eq_some_getLast hne]
    exact dropLast_append_getLast hne
  have he := parentMap_toOption path create (path.segments.getLastD "") r []
    path.segments.dropLast (wf_hereditary.get hw _ _ hk)
  rw [hsp] at he
  rw [Root.withParent, editMap, hk, ← he]
  simp only [Option.bind_some, Raw.asMap, Option.getD_some]
  cases Root.parentMap path create (Assoc.place (path.segments.getLastD "") r) []
      path.segments.dropLast kids with
  | error e => rfl
  | ok m => rfl

/-- What `State.set` does to the slot of the path. -/
def setUpdate (path : Path) (value : Raw) : SlotUpdate String Leaf := fun _ =>
  if path.segments.isEmpty then value.asMap.map fun mapped => some (.node mapped)
  else some (some value)

include hp hw hs in
theorem Root.set_toOption :
    (Root.set root path value).toOption =
      editMap true (setUpdate path value) path.sectionName path.segments root := by
  rw [Root.set, if_neg (by simp [hp])]
  split
  next hse =>
    have hn : path.segments = [] := by simpa using hse
    rw [editMap, hn]
    simp only [editAt, setUpdate, hn, isEmpty_nil, if_true]
    cases value with
    | leaf a => rfl
    | node kids => rfl
  next hse =>
    have hu : setUpdate path value = fun _ => some (some value) := by
      funext o
      rw [setUpdate, if_neg hse]
    rw [hu]
    exact withParent_toOption hp hw hs (by simpa using hse) true (some value)

/-- What `State.delete` does to the slot of the path. -/
def deleteUpdate (path : Path) : SlotUpdate String Leaf := fun _ =>
  if path.segments.isEmpty then some (some (.node [])) else some none

include hp hw hs in
theorem Root.delete_toOption :
    (Root.delete root path).toOption =
      editMap path.segments.isEmpty (deleteUpdate path) path.sectionName path.segments root := by
  rw [Root.delete, if_neg (by simp [hp])]
  split
  next hse =>
    have hn : path.segments = [] := by simpa using hse
    rw [editMap, hn]
    simp only [editAt, deleteUpdate, hn, isEmpty_nil, if_true]
    rfl
  next hse =>
    have hu : deleteUpdate path = fun _ => some none := by
      funext o
      rw [deleteUpdate, if_neg hse]
    have hf : path.segments.isEmpty = false := by simpa using hse
    rw [hu, hf]
    exact withParent_toOption hp hw hs hf false none

include hp hw hs in
/-- Reading a path, computing a value from what is there and setting it is one edit. -/
theorem Root.modify_toOption (f : Option Raw → Except PatchError Raw) :
    (f (Root.read root path) >>= Root.set root path).toOption =
      editMap true (fun o => (f o).toOption.bind fun v => setUpdate path v o)
        path.sectionName path.segments root := by
  have hl : Root.read root path = lookAt path.segments (Assoc.get path.sectionName root) := by
    rw [Root.read_eq_lookAt hp, Path.keys, lookAt_cons_node]
  cases hf : f (Root.read root path) with
  | error e =>
    have hn : editAt true (fun o => (f o).toOption.bind fun v => setUpdate path v o)
        path.segments (Assoc.get path.sectionName root) = none := by
      rw [← Option.not_isSome_iff_eq_none, editAt_true_isSome, ← hl, hf]
      rintro ⟨-, h⟩
      cases h
    rw [editMap, hn]
    rfl
  | ok v =>
    rw [editMap, editAt_congr (show _ = setUpdate path v _ by rw [← hl, hf]; rfl)]
    exact Root.set_toOption hp hw hs

/-- What `State.merge` does to the slot of the path. -/
def mergeUpdate (overlay : Object) : SlotUpdate String Leaf := MapTree.mergeOver (.node overlay)

include hp hw hs in
theorem Root.merge_toOption :
    (Root.merge root path (.node overlay)).toOption =
      editMap true (mergeUpdate overlay) path.sectionName path.segments root := by
  -- The value that `merge` computes from what it reads.
  let f : Option Raw → Except PatchError Raw := fun o =>
    match o with
    | none => .ok (.node overlay)
    | some (.node target) => .ok (.node (mergeMap target overlay))
    | some (.leaf a) => .error (.mergeFoundNonObject path.string (typeText (.leaf a)))
  have hm : Root.merge root path (.node overlay) =
      (f (Root.read root path) >>= Root.set root path) := by
    rw [Root.merge, if_neg (by simp [hp])]
    cases Root.read root path with
    | none => rfl
    | some v => cases v <;> rfl
  have hu : (fun o => (f o).toOption.bind fun v => setUpdate path v o) = mergeUpdate overlay := by
    funext o
    match o with
    | none =>
      simp [f, mergeUpdate, MapTree.mergeOver, setUpdate, Except.toOption, Raw.asMap,
        mergeSlot_none]
    | some (.leaf a) => rfl
    | some (.node target) =>
      simp [f, mergeUpdate, MapTree.mergeOver, setUpdate, Except.toOption, Raw.asMap, mergeMap,
        mergeSlot_node_node]
  rw [hm, Root.modify_toOption hp hw hs f, hu]

end Edits

/-! ## States -/

/-- The invariant of a state root. -/
def RootOK (root : Object) : Prop := Raw.Valid (.node root) ∧ hasSections root = true

instance (root : Object) : Decidable (RootOK root) := inferInstanceAs (Decidable (_ ∧ _))

structure State where
  root : Object
  ok : RootOK root

namespace State

theorem tree (s : State) : MapTree.WF (.node s.root) := s.ok.1.tree

theorem root_inj {s t : State} (h : s.root = t.root) : s = t := by
  cases s
  cases t
  cases h
  rfl

instance : DecidableEq State := fun s t =>
  decidable_of_iff (s.root = t.root) ⟨root_inj, congrArg State.root⟩

def newState : State := ⟨newRoot, by decide⟩

instance : Inhabited State := ⟨newState⟩

def read (s : State) (path : Path) : Option Raw := Root.read s.root path

/-- The states marshal to the same JSON. -/
def JSONEq (s t : State) : Prop := Raw.JSONEq (.node s.root) (.node t.root)

instance (s t : State) : Decidable (JSONEq s t) := inferInstanceAs (Decidable (Raw.JSONEq _ _))

end State

theorem isObject_of_any (h : o.any isObject = true) : ∃ kids, o = some (.node kids) := by
  match o with
  | none => cases h
  | some (.leaf a) => cases h
  | some (.node kids) => exact ⟨kids, rfl⟩

variable {root : Object}

theorem hasSections_iff :
    hasSections root = true ↔ ∀ s ∈ sections, ∃ kids, Assoc.get s root = some (.node kids) := by
  rw [hasSections, all_eq_true]
  constructor
  · intro h s hs
    exact isObject_of_any (h s hs)
  · intro h s hs
    obtain ⟨kids, hk⟩ := h s hs
    rw [hk]
    rfl

/-- Writing an object in a section keeps the sections. -/
theorem hasSections_place (hs : hasSections root = true) :
    hasSections (Assoc.place k (some (.node kids)) root) = true := by
  refine hasSections_iff.mpr fun s hm => ?_
  rw [get_place]
  split
  · exact ⟨kids, rfl⟩
  · exact hasSections_iff.mp hs s hm

theorem ensureRootSections_spec (names : List String) (hv : Raw.Valid (.node root)) :
    let root' := names.foldl (fun root s =>
      if (Assoc.get s root).any isObject then root else Assoc.put s (.node []) root) root
    Raw.Valid (.node root') ∧ (∀ s, (∃ kids, Assoc.get s root = some (.node kids)) ∨ s ∈ names →
        ∃ kids, Assoc.get s root' = some (.node kids)) := by
  induction names generalizing root with
  | nil =>
    refine ⟨hv, fun s hs => ?_⟩
    rcases hs with h | h
    · exact h
    · cases h
  | cons name names ih =>
    simp only [foldl_cons]
    split
    next ho =>
      obtain ⟨hv', hk⟩ := ih hv
      refine ⟨hv', fun s hs => hk s ?_⟩
      rcases hs with h | h
      · exact .inl h
      · rcases mem_cons.mp h with rfl | h
        · exact .inl (isObject_of_any ho)
        · exact .inr h
    · have hp : Raw.Valid (.node (Assoc.put name (.node []) root)) := valid_hereditary.place hv name
          (slotAll_some.mpr valid_hereditary.nil)
      obtain ⟨hv', hk⟩ := ih hp
      refine ⟨hv', fun s hs => hk s ?_⟩
      rw [get_put]
      by_cases hn : s = name
      · rw [if_pos hn]
        exact .inl ⟨[], rfl⟩
      · rw [if_neg hn]
        rcases hs with h | h
        · exact .inl h
        · exact .inr ((mem_cons.mp h).resolve_left hn)

theorem ensureRootSections_eq (hs : hasSections root = true) : ensureRootSections root = root := by
  have keep : ∀ names : List String, (∀ s ∈ names, s ∈ sections) → names.foldl (fun root s =>
        if (Assoc.get s root).any isObject then root
        else Assoc.put s (.node []) root) root = root := by
    intro names
    induction names with
    | nil => intro _; rfl
    | cons name names ih =>
      intro hsu
      obtain ⟨kids, hk⟩ := hasSections_iff.mp hs name (hsu name mem_cons_self)
      rw [foldl_cons, hk, Option.any_some, isObject, if_pos rfl]
      exact ih (forall_mem_cons.mp hsu).2
  exact keep sections fun _ h => h

/-- A section that is an object is left as it is. -/
theorem get_ensureRootSections {kids : Object} (h : Assoc.get k root = some (.node kids)) :
    Assoc.get k (ensureRootSections root) = some (.node kids) := by
  rw [ensureRootSections]
  generalize sections = names
  induction names generalizing root with
  | nil => exact h
  | cons name names ih =>
    rw [foldl_cons]
    split
    · exact ih h
    next ho =>
      refine ih ?_
      rw [get_put_ne]
      · exact h
      · rintro rfl
        rw [h] at ho
        exact ho rfl

namespace State

def fromMap (input : Object) (hv : Raw.Valid (.node input)) : State where
  root := ensureRootSections (mergeMap newRoot input)
  ok := by
    have hmerged : Raw.Valid (.node (mergeMap newRoot input)) := by
      have := valid_hereditary.mergeSlot hv (slotAll_some.mpr newState.ok.1)
      rwa [mergeSlot_node_node] at this
    obtain ⟨hv', hobj⟩ := ensureRootSections_spec sections hmerged
    exact ⟨hv', hasSections_iff.mpr fun s hs => hobj s (Or.inr hs)⟩

def clone (s : State) : State := fromMap s.root s.ok.1

theorem clone_eq (s : State) : s.clone = s := by
  have hs := wf_hereditary.sorted s.tree
  have hn : Assoc.Sorted newRoot := by decide
  have hne : ∀ k ∈ sections, Assoc.get k newRoot = some (.node []) := by decide +kernel
  have hnw : ∀ k, k ∉ sections → Assoc.get k newRoot = none := by
    intro k hk
    simp only [sections, mem_cons, not_mem_nil, or_false, not_or] at hk
    obtain ⟨h1, h2, h3, h4⟩ := hk
    simp [newRoot, sections, get_put, h1, h2, h3, h4]
  have hm : mergeMap newRoot s.root = s.root := by
    refine Assoc.ext (sorted_mergeKids hn s.root) hs fun k => ?_
    rw [mergeMap, get_mergeKids newRoot hs]
    by_cases hk : k ∈ sections
    · obtain ⟨kids, hki⟩ := hasSections_iff.mp s.ok.2 k hk
      have hks := wf_hereditary.sorted (wf_hereditary.get s.tree k _ hki)
      rw [hki, hne k hk]
      simp [mergeSlot_node_node, mergeKids_nil hks]
    · rw [hnw k hk]
      cases Assoc.get k s.root with
      | none => rfl
      | some v => simp [mergeSlot_none]
  refine root_inj ?_
  simp only [clone, fromMap]
  rw [hm, ensureRootSections_eq s.ok.2]

end State

end WeaveFlow
