import WeaveFlow.Lib.Outcome
import WeaveFlow.State.State

/-!
# Snapshots

A checkpoint stores the four sections of a state as JSON.  `SnapshotFromState` marshals
each section and decodes it again, the codec writes the snapshot as one document and reads
it back, and `FromSnapshot` builds a state from the sections.  A document is given by the
values that its tokens decode to, so that reading a number is `jsonNormal`.

`State.restore_eq` says what comes back: the sections with their values in normal form, and
nothing else of the root.
-/

namespace WeaveFlow

open Raw State Assoc List

def defaultSnapshotVersion : String := "state-v2"

/-- The entries of a `map[string]any` that satisfy the value invariant. -/
abbrev ValidObject := {kids : Object // Raw.Valid (.node kids)}

/-- A nil map has no entries. -/
def ValidObject.empty : ValidObject := ⟨[], valid_hereditary.nil⟩

/-- `Snapshot`; a nil section is `none`. -/
structure Snapshot where
  version : String
  shared : Option ValidObject
  scopes : Option ValidObject
  internal : Option ValidObject
  runtime : Option ValidObject

/-- A JSON document. -/
structure Document where
  value : Raw
  valid : value.Valid

/-- Errors of the codec. -/
inductive SnapshotError where
  | versionRequired
  | versionMismatch (got want : String)
  | unknownField (name : String)
  | cannotUnmarshal (field : String)
  deriving DecidableEq, Repr

def SnapshotError.message : SnapshotError → String
  | versionRequired => "state snapshot version is required"
  | versionMismatch got want => "state snapshot version " ++ quote got ++
      " does not match codec version " ++ quote want
  | unknownField name => "json: unknown field " ++ quote name
  | cannotUnmarshal field => "json: cannot unmarshal into Go struct field Snapshot." ++ field

/-! ## Sections -/

/-- Marshal a section and decode it. -/
def normalSection (kids : ValidObject) : ValidObject :=
  ⟨Assoc.mapVals jsonNormal kids.1, by
    have h := valid_jsonNormal kids.2
    rwa [jsonNormal_node] at h⟩

theorem normalSection_idem : normalSection (normalSection kids) = normalSection kids := by
  have h := jsonNormal_idem (.node kids.1)
  rw [jsonNormal_node, jsonNormal_node, MapTree.node.injEq] at h
  exact Subtype.ext h

/-- The section of a root; a section always holds an object. -/
def State.section (s : State) (name : String) : ValidObject :=
  match h : Assoc.get name s.root with
  | some (.node kids) => ⟨kids, valid_hereditary.get s.ok.1 name _ h⟩
  | _ => .empty

def emptyMapToNil (values : ValidObject) : Option ValidObject :=
  if values.1.isEmpty then none else some values

def emptyMapToEmpty (values : Option ValidObject) : ValidObject := values.getD .empty

theorem emptyMapToEmpty_nil : emptyMapToEmpty (emptyMapToNil values) = values := by
  rw [emptyMapToNil]
  split
  next h => exact Subtype.ext (isEmpty_iff.mp h).symm
  · rfl

/-- `encodeSnapshotSection` of a section of the exported root. -/
def encodeSnapshotSection (s : State) (name : String) : ValidObject :=
  normalSection (s.section name)

def snapshotFromState (s : State) : Snapshot where
  version := defaultSnapshotVersion
  shared := emptyMapToNil (encodeSnapshotSection s sectionShared)
  scopes := emptyMapToNil (encodeSnapshotSection s sectionScopes)
  internal := emptyMapToNil (encodeSnapshotSection s sectionInternal)
  runtime := emptyMapToNil (encodeSnapshotSection s sectionRuntime)

/-- The map that `FromSnapshot` passes to `FromMap`. -/
def sectionMap (shared scopes internal runtime : ValidObject) : Object :=
  [(sectionInternal, .node internal.1), (sectionRuntime, .node runtime.1),
    (sectionScopes, .node scopes.1), (sectionShared, .node shared.1)]

theorem sectionMap_ok (shared scopes internal runtime : ValidObject) :
    RootOK (sectionMap shared scopes internal runtime) := by
  refine ⟨(valid_hereditary _).mpr ⟨?_, ?_⟩, rfl⟩
  · simp only [sectionMap, sorted_cons, forall_mem_cons, not_mem_nil,
      false_implies, implies_true, and_true, sorted_nil]
    decide
  · simp only [sectionMap, forall_mem_cons, not_mem_nil, false_implies, implies_true, and_true]
    exact ⟨internal.2, runtime.2, scopes.2, shared.2⟩

def fromSnapshot (snapshot : Snapshot) : State :=
  fromMap
    (sectionMap (emptyMapToEmpty snapshot.shared) (emptyMapToEmpty snapshot.scopes)
      (emptyMapToEmpty snapshot.internal) (emptyMapToEmpty snapshot.runtime))
    (sectionMap_ok _ _ _ _).1

theorem fromSnapshot_root (snapshot : Snapshot) : (fromSnapshot snapshot).root =
      sectionMap (emptyMapToEmpty snapshot.shared) (emptyMapToEmpty snapshot.scopes)
        (emptyMapToEmpty snapshot.internal) (emptyMapToEmpty snapshot.runtime) := by
  -- The four sections form a state, and `FromMap` of a state's root clones it.
  let t : State := ⟨_, sectionMap_ok (emptyMapToEmpty snapshot.shared)
    (emptyMapToEmpty snapshot.scopes) (emptyMapToEmpty snapshot.internal)
    (emptyMapToEmpty snapshot.runtime)⟩
  exact congrArg State.root (clone_eq t)

/-! ## The codec -/

structure JSONStateCodec where
  version : String

/-- `JSONStateCodec.Version`. -/
def JSONStateCodec.versionName (c : JSONStateCodec) : String :=
  if c.version = "" then defaultSnapshotVersion else c.version

def JSONStateCodec.default : JSONStateCodec := ⟨defaultSnapshotVersion⟩

/-- A field that `omitempty` keeps. -/
def sectionField (name : String) (values : Option ValidObject) : Object :=
  match values with
  | none => []
  | some kids => if kids.1.isEmpty then [] else [(name, .node (normalSection kids).1)]

def documentFields (snapshot : Snapshot) : Object :=
  sectionField "internal" snapshot.internal ++ sectionField "runtime" snapshot.runtime ++
    sectionField "scopes" snapshot.scopes ++ sectionField "shared" snapshot.shared ++
    [("version", Raw.string snapshot.version)]

theorem sectionField_keys : ((sectionField name values).map Prod.fst).Sublist [name] := by
  cases values with
  | none => exact nil_sublist _
  | some kids =>
    rw [sectionField]
    split
    · exact nil_sublist _
    · exact List.Sublist.refl _

theorem sectionField_valid (h : e ∈ sectionField name values) : e.2.Valid := by
  cases values with
  | none => cases h
  | some kids =>
    rw [sectionField] at h
    split at h
    · cases h
    · rw [mem_singleton] at h
      exact h ▸ (normalSection kids).2

theorem documentFields_valid (snapshot : Snapshot) :
    Raw.Valid (.node (documentFields snapshot)) := by
  refine (valid_hereditary _).mpr ⟨?_, ?_⟩
  · -- The field names are some of the five names, in their order.
    have hk : ((documentFields snapshot).map Prod.fst).Sublist
        ["internal", "runtime", "scopes", "shared", "version"] := by
      rw [documentFields, map_append, map_append, map_append, map_append]
      exact (((sectionField_keys.append sectionField_keys).append
        sectionField_keys).append sectionField_keys).append (List.Sublist.refl _)
    have hlt : (["internal", "runtime", "scopes", "shared", "version"] : List String).Pairwise
        (· < ·) := by decide
    exact pairwise_map.mp (hlt.sublist hk)
  · intro e he
    simp only [documentFields, mem_append, mem_singleton] at he
    rcases he with (((he | he) | he) | he) | rfl
    · exact sectionField_valid he
    · exact sectionField_valid he
    · exact sectionField_valid he
    · exact sectionField_valid he
    · exact rfl

def JSONStateCodec.encode (c : JSONStateCodec) (snapshot : Snapshot) :
    Except SnapshotError Document :=
  if snapshot.version = "" then .error .versionRequired
  else if snapshot.version ≠ c.versionName then
    .error (.versionMismatch snapshot.version c.versionName)
  else .ok ⟨.node (documentFields snapshot), documentFields_valid snapshot⟩

/-- Decode one field of the document, in the order of the document. -/
def decodeField (snapshot : Snapshot) (name : String) (value : Raw) (hv : value.Valid) :
    Except SnapshotError Snapshot :=
  let decoded : Except SnapshotError (Option ValidObject) :=
    match value, hv with
    | .leaf .null, _ => .ok none
    | .node kids, hv => .ok (some (normalSection ⟨kids, hv⟩))
    | _, _ => .error (.cannotUnmarshal name)
  if name = "version" then
    match value with
    | .leaf .null => .ok snapshot
    | .leaf (.string v) => .ok { snapshot with version := v }
    | _ => .error (.cannotUnmarshal name)
  else if name = "shared" then decoded.map fun m => { snapshot with shared := m }
  else if name = "scopes" then decoded.map fun m => { snapshot with scopes := m }
  else if name = "internal" then decoded.map fun m => { snapshot with internal := m }
  else if name = "runtime" then decoded.map fun m => { snapshot with runtime := m }
  else .error (.unknownField name)

/-- The field loop of the decoder. -/
def decodeFields (snapshot : Snapshot) :
    (fields : Object) → (∀ e ∈ fields, e.2.Valid) → Except SnapshotError Snapshot
  | [], _ => .ok snapshot
  | (name, value) :: rest, hv =>
    match decodeField snapshot name value (hv _ mem_cons_self) with
    | .error e => .error e
    | .ok next => decodeFields next rest (forall_mem_cons.mp hv).2

/-- The zero `Snapshot`. -/
def Snapshot.zero : Snapshot := ⟨"", none, none, none, none⟩

/-- The value is decoded into a `Snapshot`. -/
def decodeDocument (doc : Document) : Except SnapshotError Snapshot :=
  match h : doc.value with
  | .node fields => decodeFields .zero fields ((valid_hereditary fields).mp (h ▸ doc.valid)).2
  | .leaf .null => .ok .zero
  | .leaf _ => .error (.cannotUnmarshal "")

def JSONStateCodec.decode (c : JSONStateCodec) (doc : Document) : Except SnapshotError Snapshot :=
  match decodeDocument doc with
  | .error e => .error e
  | .ok snapshot =>
    if snapshot.version = "" then .error .versionRequired
    else if snapshot.version ≠ c.versionName then
      .error (.versionMismatch snapshot.version c.versionName)
    else .ok snapshot

/-! ## Round trip -/

/-- The section is nil or a non-empty map in normal form, as `SnapshotFromState` leaves it. -/
def NormalField (values : Option ValidObject) : Prop :=
  ∀ kids, values = some kids → kids.1.isEmpty = false ∧ normalSection kids = kids

theorem decodeFields_append (snapshot : Snapshot) (fields rest : Object)
    (hv : ∀ e ∈ fields ++ rest, e.2.Valid) :
    decodeFields snapshot (fields ++ rest) hv =
      match decodeFields snapshot fields fun e he => hv e (mem_append_left _ he) with
      | .error e => .error e
      | .ok next => decodeFields next rest fun e he => hv e (mem_append_right _ he) := by
  induction fields generalizing snapshot with
  | nil => rfl
  | cons e fields ih =>
    obtain ⟨name, value⟩ := e
    simp only [cons_append, decodeFields]
    cases decodeField snapshot name value (hv _ mem_cons_self) with
    | error err => rfl
    | ok next => exact ih next _

/-- Decoding a written section gives it back. -/
theorem decodeFields_sectionField {name : String} {values : Option ValidObject}
    (hn : NormalField values) (snapshot : Snapshot) (hv : ∀ e ∈ sectionField name values, e.2.Valid)
    {f : Snapshot → Option ValidObject → Snapshot} (hno : f snapshot none = snapshot)
    (hfi : ∀ kids : ValidObject, decodeField snapshot name (.node kids.1) kids.2 =
      .ok (f snapshot (some (normalSection kids)))) :
    decodeFields snapshot (sectionField name values) hv = .ok (f snapshot values) := by
  cases values with
  | none => rw [hno]; rfl
  | some kids =>
    obtain ⟨hne, hnr⟩ := hn kids rfl
    have hf : sectionField name (some kids) = [(name, .node kids.1)] := by
      simp [sectionField, hne, hnr]
    have hd : decodeField snapshot name (.node kids.1) kids.2 = .ok (f snapshot (some kids)) := by
      rw [hfi, hnr]
    revert hv
    rw [hf]
    intro hv
    rw [decodeFields, hd]
    rfl

/-- Reading back a written document gives the snapshot. -/
theorem decode_encode (hve : snapshot.version = defaultSnapshotVersion)
    (hs : NormalField snapshot.shared) (hsc : NormalField snapshot.scopes)
    (hi : NormalField snapshot.internal) (hr : NormalField snapshot.runtime) :
    (JSONStateCodec.default.encode snapshot).bind JSONStateCodec.default.decode = .ok snapshot := by
  obtain ⟨version, shared, scopes, internal, runtime⟩ := snapshot
  subst hve
  have hd : ∀ hv, decodeFields .zero
      (documentFields ⟨defaultSnapshotVersion, shared, scopes, internal, runtime⟩) hv =
      .ok ⟨defaultSnapshotVersion, shared, scopes, internal, runtime⟩ := by
    intro hv
    simp only [documentFields, decodeFields_append]
    rw [decodeFields_sectionField (f := fun s m => { s with internal := m }) hi _ _ rfl
      (fun kids => rfl)]
    simp only
    rw [decodeFields_sectionField (f := fun s m => { s with runtime := m }) hr _ _ rfl
      (fun kids => rfl)]
    simp only
    rw [decodeFields_sectionField (f := fun s m => { s with scopes := m }) hsc _ _ rfl
      (fun kids => rfl)]
    simp only
    rw [decodeFields_sectionField (f := fun s m => { s with shared := m }) hs _ _ rfl
      (fun kids => rfl)]
    rfl
  have he : JSONStateCodec.default.encode
      ⟨defaultSnapshotVersion, shared, scopes, internal, runtime⟩ =
      .ok ⟨.node (documentFields ⟨defaultSnapshotVersion, shared, scopes, internal, runtime⟩),
        documentFields_valid _⟩ := rfl
  rw [he]
  simp only [Except.bind, JSONStateCodec.decode, decodeDocument, hd]
  rfl

theorem normalField_emptyMapToNil : NormalField (emptyMapToNil (normalSection kids)) := by
  intro w hw
  rw [emptyMapToNil] at hw
  split at hw
  · cases hw
  next hne =>
    cases hw
    exact ⟨by simpa using hne, normalSection_idem⟩

/-- Write a checkpoint of the state and restore it. -/
def State.restore (s : State) : Except SnapshotError State :=
  (JSONStateCodec.default.encode (snapshotFromState s)).bind fun doc =>
    (JSONStateCodec.default.decode doc).map fromSnapshot

/-- The sections of the state in normal form. -/
def State.restored (s : State) : State where
  root := sectionMap (encodeSnapshotSection s sectionShared) (encodeSnapshotSection s sectionScopes)
    (encodeSnapshotSection s sectionInternal) (encodeSnapshotSection s sectionRuntime)
  ok := sectionMap_ok _ _ _ _

/-- A snapshot of a state is read back as it was written. -/
theorem decode_snapshotFromState (s : State) :
    (JSONStateCodec.default.encode (snapshotFromState s)).bind JSONStateCodec.default.decode =
      .ok (snapshotFromState s) :=
  decode_encode rfl normalField_emptyMapToNil normalField_emptyMapToNil normalField_emptyMapToNil
    normalField_emptyMapToNil

theorem fromSnapshot_snapshotFromState (s : State) :
    fromSnapshot (snapshotFromState s) = s.restored := by
  refine root_inj ?_
  rw [fromSnapshot_root]
  simp only [snapshotFromState, emptyMapToEmpty_nil]
  rfl

/-- What a checkpoint restores. -/
theorem State.restore_eq (s : State) : s.restore = .ok s.restored := by
  obtain ⟨doc, hd, hde⟩ := Outcome.of_bind (decode_snapshotFromState s)
  rw [restore, hd]
  simp only [Except.bind, hde, Except.map, fromSnapshot_snapshotFromState]

theorem State.get_section {s : State} {name : String} {kids : Object}
    (h : Assoc.get name s.root = some (.node kids)) : (s.section name).1 = kids := by
  unfold State.section
  split
  next m hm =>
    rw [h] at hm
    cases hm
    rfl
  next hne => exact absurd h (hne kids)

/-- The root has no entries besides the sections. -/
def State.SectionsOnly (s : State) : Prop := ∀ e ∈ s.root, e.1 ∈ sections

instance (s : State) : Decidable s.SectionsOnly :=
  inferInstanceAs (Decidable (∀ e ∈ s.root, e.1 ∈ sections))

theorem State.get_restored (s : State) (hn : name ∈ sections) :
    Assoc.get name s.restored.root = (Assoc.get name s.root).map jsonNormal := by
  obtain ⟨kids, hk⟩ := isObject_of_any (all_eq_true.mp s.ok.2 name hn)
  have hs := get_section hk
  rw [hk, Option.map_some, jsonNormal_node, ← hs]
  simp only [sections, mem_cons, not_mem_nil, or_false] at hn
  rcases hn with rfl | rfl | rfl | rfl <;> rfl

/-- A value below the maps of a state is restored in normal form. -/
theorem State.read_restored {s : State} {path : Path} {v : Raw} (h : s.read path = some v) :
    s.restored.read path = some v.jsonNormal := by
  cases hp : path.empty with
  | true => simp [State.read, Root.read, hp] at h
  | false =>
    rw [State.read, Root.read_eq_lookAt hp, Path.keys, MapTree.lookAt_cons_node] at h ⊢
    rw [s.get_restored (path.mem_sections hp)]
    cases hg : Assoc.get path.sectionName s.root with
    | none => simp [hg] at h
    | some w =>
      rw [hg] at h
      exact jsonNormal_lookAt h

/-- A restored state is JSON-equal to the state, unless the root has other entries. -/
theorem State.restored_jsonEq_iff (s : State) : s.JSONEq s.restored ↔ s.SectionsOnly := by
  have hn : ∀ name, name ∉ sections → Assoc.get name s.restored.root = none := by
    intro name hna
    simp only [sections, mem_cons, not_mem_nil, or_false, not_or] at hna
    obtain ⟨h1, h2, h3, h4⟩ := hna
    simp only [restored, sectionMap, get_cons, get_nil]
    rw [if_neg h3, if_neg h4, if_neg h2, if_neg h1]
  have hs := (MapTree.wf_hereditary.sorted s.tree).mapVals jsonNormal
  have hso := (MapTree.wf_hereditary.sorted s.restored.tree).mapVals jsonNormal
  rw [State.JSONEq, Raw.JSONEq, jsonNormal_node, jsonNormal_node, MapTree.node.injEq]
  constructor
  · intro heq e he
    by_contra ho
    have hk := congrArg (Assoc.get e.1) heq
    rw [get_mapVals, get_mapVals, hn _ ho, Option.map_none, Option.map_eq_none_iff] at hk
    have hsm := get_isSome_of_mem he
    simp [hk] at hsm
  · intro hon
    refine Assoc.ext hs hso fun name => ?_
    rw [get_mapVals, get_mapVals]
    by_cases hna : name ∈ sections
    · rw [s.get_restored hna, Option.map_map]
      congr 1
      funext v
      exact (jsonNormal_idem v).symm
    · rw [hn name hna]
      cases hr : Assoc.get name s.root with
      | none => rfl
      | some v => exact absurd (hon _ (mem_of_get hr)) hna

/-- A snapshot is a normal form: it is read back as it was written, the state rebuilt from it
has the same snapshot and the same integers, and is JSON-equal to the state exactly if the root
has no entries besides the sections. -/
theorem snapshot_normal_form (s : State) :
    (JSONStateCodec.default.encode (snapshotFromState s)).bind JSONStateCodec.default.decode =
        .ok (snapshotFromState s) ∧
      (s.JSONEq (fromSnapshot (snapshotFromState s)) ↔ s.SectionsOnly) ∧
      (∀ path n, s.read path = some (Raw.int n) →
        (fromSnapshot (snapshotFromState s)).read path = some (Raw.int n)) ∧
      snapshotFromState (fromSnapshot (snapshotFromState s)) = snapshotFromState s := by
  rw [fromSnapshot_snapshotFromState]
  refine ⟨decode_snapshotFromState s, s.restored_jsonEq_iff, fun _ _ => read_restored, ?_⟩
  have hs : ∀ name ∈ sections,
      encodeSnapshotSection s.restored name = encodeSnapshotSection s name := by
    intro name hn
    have hsa : s.restored.section name = encodeSnapshotSection s name := by
      simp only [sections, mem_cons, not_mem_nil, or_false] at hn
      rcases hn with rfl | rfl | rfl | rfl <;> rfl
    rw [encodeSnapshotSection, hsa]
    exact normalSection_idem
  simp only [snapshotFromState]
  rw [hs sectionShared (by decide), hs sectionScopes (by decide),
    hs sectionInternal (by decide), hs sectionRuntime (by decide)]

/-- An entry besides the sections is lost. -/
theorem snapshot_drops_entry : ∃ s : State, s.root = Assoc.put "extra" (Raw.int 1) newRoot ∧
    ¬ s.JSONEq (fromSnapshot (snapshotFromState s)) := by
  refine ⟨⟨_, by decide, by decide⟩, rfl, ?_⟩
  rw [fromSnapshot_snapshotFromState, restored_jsonEq_iff]
  decide

end WeaveFlow
