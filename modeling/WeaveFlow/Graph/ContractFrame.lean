import WeaveFlow.Graph.NodeExecution
import WeaveFlow.Lib.TreeCopy

/-!
# What a contract lets a node see and change

A node runs on the projection of the state by its contract: the values at the declared read
paths are copied, one after the other, into an empty state.  `projection_shows_declared_reads`
says that the projection agrees with the state at and below these paths, however they nest, and
holds nothing elsewhere but the empty sections every state has.

The patch of a node is checked against the declared write paths before it is accepted.
`checked_node_keeps_frame` says what this check is worth: outside of the declared paths nothing
changes, above them objects stay objects and other values stay equal, and the written fields
fit their schemas.
-/

namespace WeaveFlow

open State Root WeaveFlow.Path Assoc MapTree List

/-! ## Projection -/

variable {path : Path} {contract : Contract} {full : State} {value : Raw}

/-- A section of a state is an object. -/
theorem State.read_section (s : State) (hp : path.empty = false) (hs : path.segments = []) :
    ∃ kids, s.read path = some (.node kids) := by
  obtain ⟨kids, hk⟩ := WeaveFlow.get_section s.ok.2 hp
  refine ⟨kids, ?_⟩
  rw [State.read, read_eq_lookAt hp, Path.keys, hs, lookAt_cons_node, hk]
  rfl

theorem setUpdate_read {s : State} (hp : path.empty = false) (h : s.read path = some value) :
    setUpdate path value = fun _ => some (some value) := by
  funext o
  rw [setUpdate]
  split
  next hs =>
    obtain ⟨kids, hk⟩ := s.read_section hp (isEmpty_iff.mp hs)
    rw [h] at hk
    cases hk
    rfl
  · rfl

theorem State.lift_toOption {ε : Type} (r : Except ε Object)
    (h : ∀ root, r = .ok root → RootOK root) :
    (State.lift r h).toOption.map (fun s => some (MapTree.node s.root)) =
      r.toOption.map fun root => some (MapTree.node root) := by
  cases r with
  | error e => rfl
  | ok root => rfl

/-- Setting one path is one edit. -/
theorem apply_set_toOption (hp : path.empty = false) (hv : value.Valid) (s : State) :
    (Patch.apply ⟨[⟨.set, path, value, "", hv⟩]⟩ s).toOption.map
        (fun s' => some (MapTree.node s'.root)) =
      editAt true (setUpdate path value) path.keys (some (.node s.root)) := by
  have ho : ∀ x : Option (Option Raw), (x.bind fun o =>
      Steps.run (fun o (e : MapTree.Edit String Leaf) => e.apply o) o []) = x := fun x => by
    cases x <;> rfl
  rw [Patch.apply, Patch.applyWithReducers, lift_toOption, clone_eq,
    applyOps_toOption _ (forall_mem_singleton.mpr hp) s.ok, opEdits_eq_run,
    map_singleton, MapTree.Edit.run, Steps.run_cons, ho]
  rfl

theorem copyPath_of_none (h : full.read path = none) :
    copyPath full projected path = projected := by
  unfold copyPath
  split
  · rfl
  · split
    · rfl
    next value hv =>
      simp [h] at hv

theorem copyPath_of_some (hp : path.empty = false) (h : full.read path = some value) :
    copyPath full projected path =
      (Patch.apply ⟨[⟨.set, path, value, "", valid_read h⟩]⟩ projected).toOption.getD
        projected := by
  unfold copyPath
  rw [if_neg (by rw [hp]; exact Bool.false_ne_true)]
  split
  next hn =>
    simp [h] at hn
  next value' hv =>
    obtain rfl := Option.some.inj (h.symm.trans hv)
    cases Patch.apply ⟨[⟨.set, path, value, "", valid_read h⟩]⟩ projected with
    | error e => rfl
    | ok next => rfl

/-- What is copied is decided by the value at the path. -/
theorem copyPath_congr {other : State} (h : full.read path = other.read path) (projected : State) :
    copyPath full projected path = copyPath other projected path := by
  cases hp : path.empty with
  | true => rw [copyPath, copyPath, if_pos hp, if_pos hp]
  | false =>
    cases hv : full.read path with
    | none => rw [copyPath_of_none hv, copyPath_of_none (h.symm.trans hv)]
    | some value => rw [copyPath_of_some hp hv, copyPath_of_some hp (h.symm.trans hv)]

/-- Copying a path of a state is copying a slot of its tree. -/
theorem copyPath_slot (hp : path.empty = false) :
    some (MapTree.node (copyPath full projected path).root) =
      copyAt (some (.node full.root)) (some (.node projected.root)) path.keys := by
  have hr : full.read path = lookAt path.keys (some (.node full.root)) := read_eq_lookAt hp
  rw [copyAt]
  cases hv : full.read path with
  | none =>
    rw [copyPath_of_none hv, ← hr, hv]
  | some value =>
    have he := apply_set_toOption hp (valid_read hv) projected
    rw [setUpdate_read hp hv] at he
    rw [copyPath_of_some hp hv, ← hr, hv]
    dsimp only
    rw [← he]
    cases (Patch.apply ⟨[⟨.set, path, value, "", valid_read hv⟩]⟩
      projected).toOption with
    | none => rfl
    | some next => rfl

/-- The tree of a projection. -/
theorem foldl_copyPath_slot {paths : List Path} (hpa : ∀ p ∈ paths, p.empty = false) :
    some (MapTree.node (paths.foldl (copyPath full) projected).root) =
      (paths.map Path.keys).foldl (copyAt (some (.node full.root)))
        (some (.node projected.root)) := by
  induction paths generalizing projected with
  | nil => rfl
  | cons p paths ih =>
    obtain ⟨hp, hpa⟩ := forall_mem_cons.mp hpa
    rw [foldl_cons, map_cons, foldl_cons, ih hpa, copyPath_slot hp]

/-! ### Declared paths -/

/-- The contract declares the path with one of these modes. -/
def Contract.Declares (contract : Contract) (include_ : AccessMode → Bool) (path : Path) : Prop :=
  ∃ field ∈ contract.fields, include_ field.mode = true ∧ field.path = path ∧ path.empty = false

theorem mem_contractPaths : path ∈ contractPaths fields include_ ↔
      ∃ field ∈ fields, include_ field.mode = true ∧ field.path = path ∧ path.empty = false := by
  rw [contractPaths]
  have hf : ∀ acc : List Path, path ∈ fields.foldl (fun (acc : List Path) field =>
      if field.path.empty || !include_ field.mode then acc
      else if acc.any fun p => p.string = field.path.string then acc
      else acc ++ [field.path]) acc ↔ path ∈ acc ∨
      ∃ field ∈ fields, include_ field.mode = true ∧ field.path = path ∧ path.empty = false := by
    induction fields with
    | nil => simp
    | cons field fields ih =>
      intro acc
      rw [foldl_cons, ih, exists_mem_cons_iff, ← or_assoc]
      refine or_congr_left ?_
      cases he : field.path.empty with
      | true =>
        refine (or_iff_left ?_).symm
        rintro ⟨-, rfl, hpa⟩
        simp [he] at hpa
      | false =>
        cases hm : include_ field.mode with
        | false => simp
        | true =>
          have hn : (true = true ∧ field.path = path ∧ path.empty = false) ↔ path = field.path := by
            constructor
            · exact fun h => h.2.1.symm
            · rintro rfl
              exact ⟨rfl, rfl, he⟩
          rw [hn]
          by_cases ha : (acc.any fun p => p.string = field.path.string) = true
          · obtain ⟨p, hp, hs⟩ := any_eq_true.mp ha
            have hsa := string_inj he (of_decide_eq_true hs).symm
            simp only [ha, Bool.not_true, Bool.or_false, Bool.false_eq_true, if_false, if_true]
            refine (or_iff_left_of_imp ?_).symm
            rintro rfl
            exact hsa ▸ hp
          · simp only [ha, Bool.not_true, Bool.or_false, Bool.false_eq_true, if_false,
              mem_append, mem_singleton]
  simpa using hf []

theorem mem_readPaths :
    path ∈ contract.readPaths ↔ contract.Declares isReadMode path := mem_contractPaths

theorem mem_writePaths :
    path ∈ contract.writePaths ↔ contract.Declares isWriteMode path := mem_contractPaths

/-! ### What a node sees -/

/-- A new state holds its four empty sections. -/
theorem held_newState {ks : List String} {v : Raw}
    (h : lookAt (k :: ks) (some (MapTree.node newState.root)) = some v) :
    ks = [] ∧ k ∈ sections ∧ v = .node [] := by
  rw [lookAt_cons_node] at h
  cases hg : Assoc.get k newState.root with
  | none =>
    simp [hg, lookAt_none] at h
  | some w =>
    have hm := mem_of_get hg
    have hr : newState.root = [("internal", .node []), ("runtime", .node []),
        ("scopes", .node []), ("shared", .node [])] := rfl
    have ha : ∀ e ∈ newState.root, e.1 ∈ sections ∧ e.2 = .node [] := by
      rw [hr]
      simp [sections, sectionShared, sectionScopes, sectionInternal, sectionRuntime]
    obtain ⟨hs, rfl⟩ := ha _ hm
    rw [hg] at h
    cases ks with
    | nil =>
      cases h
      exact ⟨rfl, hs, rfl⟩
    | cons j ks =>
      simp [lookAt_cons_node, get_nil, lookAt_none] at h

theorem read_newState (hp : path.empty = false) : newState.read path = none ∨
      path.segments = [] ∧ newState.read path = some (.node []) := by
  cases hr : newState.read path with
  | none => exact .inl rfl
  | some v =>
    rw [State.read, read_eq_lookAt hp] at hr
    obtain ⟨hs, -, rfl⟩ := held_newState hr
    exact .inr ⟨hs, rfl⟩

theorem copiedFrom_projection (full : State) (hr : contract.wildcardRead = false) :
    MapTree.CopiedFrom (some (.node full.root)) (some (.node newState.root))
      (contract.readPaths.map Path.keys).reverse
      (some (.node (projectStateByContract full contract).root)) := by
  have hpa : ∀ p ∈ contract.readPaths, p.empty = false := fun p hp => by
    obtain ⟨_, -, -, -, he⟩ := mem_readPaths.mp hp
    exact he
  rw [projectStateByContract, hr, if_neg Bool.false_ne_true, foldl_copyPath_slot hpa]
  refine copiedFrom_foldl (slotAll_some.mpr full.tree)
    ⟨slotAll_some.mpr newState.tree, nofun, fun _ _ => rfl, ?_, ?_⟩
  · intro q a hl
    cases q with
    | nil => cases hl
    | cons k ks => cases (held_newState hl).2.2
  · intro q hn
    cases q with
    | nil => cases hn
    | cons k ks =>
      cases hlo : lookAt (k :: ks) (some (MapTree.node newState.root)) with
      | none => rfl
      | some v =>
        obtain ⟨rfl, hs, -⟩ := held_newState hlo
        obtain ⟨kids, hk⟩ := hasSections_iff.mp full.ok.2 k hs
        simp [lookAt_cons_node, hk] at hn

/-- For every contract without wildcard read and every state: at and below every declared read
path the projection agrees with the state; at a path that is neither above, nor at, nor below
one it holds nothing, except that every section is an object, here an empty one; and states
that agree at the declared read paths have the same projection, so that a body makes the same
of both. -/
theorem projection_shows_declared_reads (full : State) {contract : Contract}
    (hread : contract.wildcardRead = false) :
    (∀ p, contract.Declares isReadMode p → ∀ q, pathWithin q p = true →
      (projectStateByContract full contract).read q = full.read q) ∧
    (∀ q, q.empty = false → (∀ p, contract.Declares isReadMode p →
        pathWithin q p = false ∧ pathWithin p q = false) →
      (projectStateByContract full contract).read q = none ∨
        q.segments = [] ∧ (projectStateByContract full contract).read q = some (.node [])) ∧
    ∀ other : State, (∀ p, contract.Declares isReadMode p → full.read p = other.read p) →
      (projectStateByContract full contract).JSONEq (projectStateByContract other contract) ∧
      ∀ node : Node, node.execute (projectStateByContract full contract) =
        node.execute (projectStateByContract other contract) := by
  have hc := copiedFrom_projection full hread
  have hm : ∀ p, contract.Declares isReadMode p →
      p.keys ∈ (contract.readPaths.map Path.keys).reverse := fun p hp =>
    mem_reverse.mpr (mem_map_of_mem (mem_readPaths.mpr hp))
  refine ⟨fun p hp q hw => ?_, fun q hq hf => ?_, fun other ha => ?_⟩
  · have hk := hm p hp
    obtain ⟨_, -, -, -, hpe⟩ := hp
    have hq : q.empty = false := by
      cases hq : q.empty with
      | false => rfl
      | true =>
        simp [within_empty_left hq] at hw
    rw [State.read, State.read, read_eq_lookAt hq, read_eq_lookAt hq]
    exact hc.within p.keys hk q.keys ((within_iff hq hpe).mp hw)
  · have has : (projectStateByContract full contract).read q = newState.read q := by
      rw [State.read, State.read, read_eq_lookAt hq, read_eq_lookAt hq]
      refine hc.aside q.keys fun keys hk => ?_
      obtain ⟨p, hp, rfl⟩ := mem_map.mp (mem_reverse.mp hk)
      have hd := mem_readPaths.mp hp
      obtain ⟨_, -, -, -, hpe⟩ := hd
      exact disjoint_keys hpe hq (hf p (mem_readPaths.mp hp)).symm
    rw [has]
    exact read_newState hq
  · have hs : projectStateByContract full contract = projectStateByContract other contract := by
      rw [projectStateByContract, projectStateByContract, hread, if_neg Bool.false_ne_true,
        if_neg Bool.false_ne_true]
      exact foldl_ext _ _ _ fun projected p hp =>
        copyPath_congr (ha p (mem_readPaths.mp hp)) projected
    rw [hs]
    exact ⟨rfl, fun _ => rfl⟩

/-- A field without schema and merge strategy. -/
def plainField (path : Path) (mode : AccessMode) : FieldAccess :=
  ⟨path, mode, false, .default, "", []⟩

/-- `shared.a.b` and `shared.a` are read, the inner one first. -/
def nestedReads : Contract :=
  ⟨[plainField ⟨sectionShared, ["a", "b"], by decide⟩ .read,
    plainField ⟨sectionShared, ["a"], by decide⟩ .read], false, false⟩

/-- `shared.a.b` is 1 and `shared.c` is 2. -/
def nestedState : State :=
  .fromMap [("shared", .node [("a", .node [("b", Raw.int 1)]), ("c", Raw.int 2)])] (by decide)

/-- The theorem at nested read paths. -/
theorem nested_reads_shown :
    (projectStateByContract nestedState nestedReads).read ⟨sectionShared, ["a"], by decide⟩ =
      some (.node [("b", Raw.int 1)]) :=
  (projection_shows_declared_reads nestedState rfl).1 ⟨sectionShared, ["a"], by decide⟩
    ⟨_, mem_cons_of_mem _ mem_cons_self, rfl, rfl, rfl⟩ _ (by decide)

/-- The sections that no declared path leads to are there, as empty objects. -/
theorem undeclared_section_held : validateContract .accepting nestedReads = [] ∧
    (∀ p, nestedReads.Declares isReadMode p → pathWithin ⟨sectionRuntime, [], by decide⟩ p = false ∧
        pathWithin p ⟨sectionRuntime, [], by decide⟩ = false) ∧
    (projectStateByContract nestedState nestedReads).read ⟨sectionRuntime, [], by decide⟩ =
      some (.node []) := by
  refine ⟨rfl, ?_, rfl⟩
  rintro p ⟨field, hf, -, rfl, -⟩
  have ha : ∀ field ∈ nestedReads.fields,
      pathWithin ⟨sectionRuntime, [], by decide⟩ field.path = false ∧
        pathWithin field.path ⟨sectionRuntime, [], by decide⟩ = false :=
    forall_mem_cons.mpr ⟨by decide, forall_mem_singleton.mpr (by decide)⟩
  exact ha field hf

/-! ## What a projection hides -/

/-- The reserved sections of the business state are empty. -/
theorem read_projectBusinessState (hq : isReservedPath q = true) (hs : q.segments ≠ []) :
    (projectBusinessState full).read q = none := by
  have hse : q.sectionName = sectionInternal ∨ q.sectionName = sectionRuntime := by
    simpa [isReservedPath] using hq
  have hf : Assoc.get q.sectionName (full.root.filter fun e =>
      e.1 = sectionShared || e.1 = sectionScopes) = none := by
    cases hg : Assoc.get q.sectionName (full.root.filter fun e =>
        e.1 = sectionShared || e.1 = sectionScopes) with
    | none => rfl
    | some v =>
      have hm : (decide (q.sectionName = sectionShared) ||
          decide (q.sectionName = sectionScopes)) = true :=
        (mem_filter.mp (mem_of_get hg)).2
      rcases hse with h | h <;> rw [h] at hm <;> exact absurd hm (by decide)
  have hn : Assoc.get q.sectionName newRoot = some (.node []) := by
    rcases hse with h | h <;> rw [h] <;> rfl
  have he : Assoc.get q.sectionName (projectBusinessState full).root = some (.node []) := by
    have hso : Assoc.Sorted (full.root.filter fun e =>
        e.1 = sectionShared || e.1 = sectionScopes) :=
      (wf_hereditary.sorted full.tree).sublist filter_sublist
    refine get_ensureRootSections ?_
    rw [mergeMap, get_mergeKids _ hso, hf, hn]
    rfl
  have hna : q.empty = false := by
    rw [Path.empty]
    rcases hse with h | h <;> rw [h] <;> rfl
  obtain ⟨segment, segments, hc⟩ := exists_cons_of_ne_nil hs
  rw [State.read, read_eq_lookAt hna, Path.keys, hc, lookAt_cons_node, he, lookAt_cons_node]
  exact lookAt_none

/-- Nothing below the reserved sections is shown to a node whose contract declares nothing
there. -/
theorem read_projection_reserved (hc : ∀ field ∈ contract.fields, isReservedPath field.path = false)
    (hq : isReservedPath q = true) (hs : q.segments ≠ []) :
    (projectStateByContract full contract).read q = none := by
  cases hr : contract.wildcardRead with
  | true =>
    rw [projectStateByContract, if_pos hr]
    exact read_projectBusinessState hq hs
  | false =>
    cases he : q.empty with
    | true => simp [State.read, Root.read, he]
    | false =>
      have ha : (projectStateByContract full contract).read q = newState.read q := by
        rw [State.read, State.read, read_eq_lookAt he, read_eq_lookAt he]
        refine (copiedFrom_projection full hr).aside q.keys fun keys hk => ?_
        obtain ⟨p, hp, rfl⟩ := mem_map.mp (mem_reverse.mp hk)
        obtain ⟨field, hf, -, rfl, hpe⟩ := mem_readPaths.mp hp
        have hse : field.path.sectionName ≠ q.sectionName := fun heq => by
          have hu := hc field hf
          rw [isReservedPath, heq] at hu
          exact Bool.false_ne_true (hu.symm.trans hq)
        refine disjoint_keys hpe he ⟨?_, ?_⟩
        · simp [pathWithin, hse]
        · simp [pathWithin, Ne.symm hse]
      rw [ha]
      exact (read_newState he).resolve_right fun h => hs h.1

/-! ## What a node changes -/

/-- The operations of an accepted patch are at declared write paths. -/
theorem declares_of_accepted (hw : contract.wildcardWrite = false)
    (h : validatePatchByContract engine patch contract = []) :
    ∀ op ∈ patch.ops, contract.Declares isWriteMode op.path := by
  intro op hop
  have hv := validatePatch_of_byContract h
  obtain ⟨he, -, -⟩ := validateOp_eq_nil (validatePatch_eq_nil.mp hv op hop)
  rw [validatePatchByContract, hw, if_neg Bool.false_ne_true, append_eq_nil_iff] at h
  have hc := flatMap_eq_nil_iff.mp (append_eq_nil_iff.mp h.2).1 op hop
  rw [validateOpByContract, if_neg (by rw [he]; exact Bool.false_ne_true)] at hc
  split at hc
  next ha =>
    obtain ⟨p, hp, hs⟩ := any_eq_true.mp ha
    rw [string_inj he (of_decide_eq_true hs)]
    exact mem_writePaths.mp hp
  · cases hc

section

variable {reducers : Reducers} {patch : Patch} {contract : Contract} {base after : State}
  (hops : ∀ op ∈ patch.ops, contract.Declares isWriteMode op.path)
  (happly : patch.applyWithReducers base reducers = .ok after)

include hops happly

/-- A path that no declared path is at, above or below keeps its value. -/
theorem read_eq_of_undeclared
    (hq : ∀ p, contract.Declares isWriteMode p → pathWithin q p = false ∧ pathWithin p q = false) :
    after.read q = base.read q :=
  Patch.Aside.read_eq (fun op hop => (hq op.path (hops op hop)).symm) happly

/-- At a path that is at most above declared paths, an object stays an object and any other
value stays equal. -/
theorem staysAbove_of_undeclared
    (hq : ∀ p, contract.Declares isWriteMode p → pathWithin q p = false) :
    MapTree.StaysAbove (base.read q) (after.read q) := by
  cases hem : q.empty with
  | true =>
    have hn : ∀ s : State, s.read q = none := fun s => by
      simp [State.read, Root.read, hem]
    rw [hn, hn]
    exact .refl _
  | false =>
    have hr := Patch.applyWithReducers_eq_ok.mp happly
    have hp := paths_of_applyOps hr
    rw [applyOps_ok_iff base.ok hp] at hr
    rw [State.read, State.read, read_eq_lookAt hem, read_eq_lookAt hem]
    refine staysAbove_run ?_ hr
    intro e he
    obtain ⟨op, hop, rfl⟩ := mem_map.mp he
    have hw := hq op.path (hops op hop)
    have hno : ¬ op.path.keys <+: q.keys := fun hpr => by
      simp [(within_iff hem (hp op hop)).mpr hpr] at hw
    by_cases hb : q.keys <+: op.path.keys
    · obtain ⟨rest, hre⟩ := hb
      refine .inr ⟨rest, ?_, hre.symm⟩
      rintro rfl
      rw [append_nil] at hre
      exact hno (hre ▸ prefix_rfl)
    · exact .inl ⟨hno, hb⟩

end

/-- A field that the patch touches was checked against its schema. -/
theorem schema_of_accepted
    (h : validateAppliedPatchResultByContract engine result patch contract = [])
    (hf : field ∈ contract.fields) (hm : isWriteMode field.mode = true)
    (hop : op ∈ patch.ops) (ho : op.path.empty = false)
    (ht : pathWithin field.path op.path = true ∨ pathWithin op.path field.path = true)
    (hv : result.read field.path = some value) :
    validateJSONSchemaValue engine value field.schema field.path.string = [] := by
  cases hs : field.schema.isEmpty with
  | true => rw [validateJSONSchemaValue, if_pos hs]
  | false =>
    have hpa : field.path.empty = false := by
      cases hp : field.path.empty with
      | false => rfl
      | true =>
        rw [within_empty_left hp, within_empty_right hp] at ht
        exact absurd ht (by simp)
    have ha : fieldAffected patch.writtenPaths field = true := by
      rw [fieldAffected, hm, hpa, hs]
      refine any_eq_true.mpr ⟨op.path.string, ?_, ?_⟩
      · exact mem_map.mpr ⟨op, mem_filter.mpr ⟨hop, by rw [ho]; rfl⟩, rfl⟩
      · rw [parsePath_string ho]
        exact Bool.or_eq_true_iff.mpr ht
    have hn := (append_eq_nil_iff.mp (sortValidationIssues_eq_nil.mp h)).2
    have hc := flatMap_eq_nil_iff.mp hn field (mem_filter.mpr ⟨hf, ha⟩)
    rwa [validateWrittenField, hv] at hc

/-- For every base state, every contract without wildcard write, every table of reducers and
every body: if a node is executed with write validation, then its patch changes nothing at a
path that is neither above, nor at, nor below a declared write path; at a path that is at most
above such paths an object stays an object and any other value stays equal; the internal and
the runtime section stay as they are; and every declared write field that the patch touches and
the result holds fits its schema. -/
theorem checked_node_keeps_frame {engine : SchemaEngine} {base : State} {node : Node}
    {options : NodeExecutionOptions} {result : ExecutionResult}
    (hwild : options.contract.wildcardWrite = false) (hwrites : options.validateWrites = true)
    (h : executeNodeWithOptions engine base node options = .ok result) :
    (options.applyPatchToInput = true →
      result.patch.applyWithReducers base options.reducers = .ok result.state) ∧
    (∀ after, result.patch.applyWithReducers base options.reducers = .ok after →
      (∀ q, (∀ p, options.contract.Declares isWriteMode p →
          pathWithin q p = false ∧ pathWithin p q = false) → after.read q = base.read q) ∧
      (∀ q, (∀ p, options.contract.Declares isWriteMode p → pathWithin q p = false) →
        MapTree.StaysAbove (base.read q) (after.read q)) ∧
      ∀ q, isReservedPath q = true → after.read q = base.read q) ∧
    ∀ field ∈ options.contract.fields, isWriteMode field.mode = true →
      (∃ op ∈ result.patch.ops, pathWithin field.path op.path = true ∨
        pathWithin op.path field.path = true) →
      ∀ value, result.state.read field.path = some value →
        validateJSONSchemaValue engine value field.schema field.path.string = [] := by
  obtain ⟨ha, hv, hc⟩ := executeNodeWithOptions_eq_ok h
  have hac := hc hwrites
  have hops := declares_of_accepted hwild
    (append_eq_nil_iff.mp (sortValidationIssues_eq_nil.mp hac)).1
  have hu := unreserved_of_reservedPaths (append_eq_nil_iff.mp hv).2
  refine ⟨ha, fun after happly => ⟨?_, ?_, ?_⟩, ?_⟩
  · exact fun q hq => read_eq_of_undeclared hops happly hq
  · exact fun q hq => staysAbove_of_undeclared hops happly hq
  · exact fun q hq => (Patch.aside_of_unreserved hq hu).read_eq happly
  · rintro field hf hm ⟨op, hop, ht⟩ value hva
    obtain ⟨_, -, -, -, he⟩ := hops op hop
    exact schema_of_accepted hac hf hm hop he ht hva

/-- A node that appends to the declared log, with write validation. -/
def checkedAppend : NodeExecutionOptions where
  contract := ⟨[logField []], false, false⟩
  inputState := none
  enforceInputProjection := true
  validateRequiredReads := true
  validateWrites := true
  applyPatchToInput := true
  reducers := fun _ => none

/-- The append is accepted and leaves the other values of its section. -/
theorem checked_append_keeps_rest :
    ∃ result, executeNodeWithOptions .accepting nestedState appender checkedAppend = .ok result ∧
      result.state.read logPath = some (Raw.slice .any [Raw.string "end"]) ∧
      result.state.read ⟨sectionShared, ["c"], by decide⟩ = some (Raw.int 2) := by
  obtain ⟨result, h, hl⟩ : ∃ result,
      executeNodeWithOptions .accepting nestedState appender checkedAppend = .ok result ∧
        result.state.read logPath = some (Raw.slice .any [Raw.string "end"]) := ⟨_, rfl, rfl⟩
  obtain ⟨ha, hf, -⟩ := checked_node_keeps_frame rfl rfl h
  refine ⟨result, h, hl, ?_⟩
  rw [(hf _ (ha rfl)).1 ⟨sectionShared, ["c"], by decide⟩]
  · rfl
  · rintro p ⟨field, hfi, -, rfl, -⟩
    obtain rfl := mem_singleton.mp hfi
    decide

end WeaveFlow
