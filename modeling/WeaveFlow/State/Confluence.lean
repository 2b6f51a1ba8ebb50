import WeaveFlow.State.CanonRun

/-!
# Order of the branches

`Confluent` says that a merge that succeeds also succeeds, with a JSON-equal result,
after the branches are permuted and their order numbers and nodes are replaced, as long
as every branch keeps its patch and its contract.

It holds for set, delete and merge operations on JSON values unless the merge overlays of
two branches at one path are compared wrongly: the comparison flattens them to dotted
paths, which drops empty keys and confuses a key with a dot with two keys.
`OverlaysExact` is the condition on such a pair, also necessary for two branches.
-/

namespace WeaveFlow

open Steps Raw MapTree List

/-- The branches, in any order, with any order numbers, tasks and nodes, each with its patch
and its contract. -/
def Rearranged (contracts contracts' : SortedMap String Contract)
    (branches branches' : List BranchPatch) : Prop :=
  ∃ mid, List.Forall₂ (fun b b' : BranchPatch => b'.patch = b.patch ∧
      contracts.get b.nodeID = contracts'.get b'.nodeID) branches mid ∧ mid.Perm branches'

/-- The same contracts are declared, under any nodes. -/
def SameContracts (contracts contracts' : SortedMap String Contract) : Prop :=
  ∀ c, c ∈ contracts.vals ↔ c ∈ contracts'.vals

/-- The result of a merge does not depend on the order of its branches. -/
def Confluent (engine : SchemaEngine) (base : State) (branches : List BranchPatch)
    (options : ParallelMergeOptions) : Prop :=
  ∀ orders merged, mergeParallelPatches engine orders base branches options = .ok merged →
    ∀ branches' contracts' orders', Rearranged options.contracts contracts' branches branches' →
      SameContracts options.contracts contracts' →
      ∃ merged', mergeParallelPatches engine orders' base branches'
          { options with contracts := contracts' } = .ok merged' ∧ merged'.JSONEq merged

/-- The dotted name continues the other one. -/
def NameBelow (name parent : String) : Prop :=
  parent ≠ "" ∧ (parent ++ ".").toList <+: name.toList

/-- A dotted name that the overlays share has one JSON text, and no name continues one of the
other overlay. -/
def NamesAgree (rl rr : List String → List String → List String) (l r : PatchOp) : Prop :=
  ∀ a ∈ (flattenMergeOverlay rl (l.value.asMap.getD [])).entries,
    ∀ b ∈ (flattenMergeOverlay rr (r.value.asMap.getD [])).entries,
      (a.1 = b.1 → jsonText a.2 = jsonText b.2) ∧ ¬ NameBelow a.1 b.1 ∧ ¬ NameBelow b.1 a.1

/-- If the dotted names of the overlays agree, the overlays agree key by key, and the names do
under all orders of the maps. -/
def OverlaysExact (l r : PatchOp) : Prop :=
  ∀ rl rr, OrderOK rl → OrderOK rr → NamesAgree rl rr l r →
    MapTree.Agree l.value.canon r.value.canon ∧
      ∀ rl' rr', OrderOK rl' → OrderOK rr' → NamesAgree rl' rr' l r

/-- The branches hold only set, delete and merge operations on JSON values. -/
def JSONBranches (branches : List BranchPatch) : Prop :=
  ∀ b ∈ branches, ∀ op ∈ b.patch.ops, op.Simple ∧ op.value.plain = true

/-- Overlays that two branches merge at one path are compared exactly. -/
def ExactBranches (branches : List BranchPatch) : Prop :=
  branches.Pairwise fun b d => ∀ l ∈ b.patch.ops, ∀ r ∈ d.patch.ops,
    l.kind = .merge → r.kind = .merge → l.path = r.path → OverlaysExact l r

/-- The paths that the branches write. -/
def writtenBy (branches : List BranchPatch) : List String :=
  ((branches.flatMap fun b => b.patch.ops).filter fun op => !op.path.empty).map fun op =>
    op.path.string

/-- Write fields that the branches touch, with one path and one schema, are all required or all
optional. -/
def RequiredAgrees (contracts : SortedMap String Contract) (branches : List BranchPatch) : Prop :=
  ∀ c ∈ contracts.vals, ∀ c' ∈ contracts.vals, ∀ f ∈ c.fields, ∀ f' ∈ c'.fields,
    fieldAffected (writtenBy branches) f = true → fieldAffected (writtenBy branches) f' = true →
      fieldKey f = fieldKey f' → f.required = f'.required

/-! ## The branch checks -/

theorem dottedPathWithin_iff : dottedPathWithin name parent = true ↔ NameBelow name parent := by
  have hne : (parent ++ ".").toList <+: name.toList → name ≠ "" ∧ name ≠ parent := by
    intro h
    have hle := h.length_le
    constructor <;> rintro rfl <;> simp at hle
  simp only [dottedPathWithin, NameBelow, hasPrefixText]
  grind

theorem overlaysPass_iff : overlaysPass rl rr l r = true ↔ NamesAgree rl rr l r := by
  rw [overlaysPass, List.isEmpty_iff, flatConflicts_eq_nil]
  refine forall₂_congr fun a _ => forall₂_congr fun b _ => ?_
  rw [← dottedPathWithin_iff, ← dottedPathWithin_iff, flatConflict, jsonEqual]
  grind [dottedPathWithin]

/-- What two branches have to satisfy, whatever the orders. -/
def CrossOK (contracts : SortedMap String Contract) (b d : BranchPatch) : Prop :=
  ∀ l ∈ b.patch.ops, ∀ r ∈ d.patch.ops,
    (∀ rl rr, OrderOK rl → OrderOK rr → Passes contracts b l d r (overlaysPass rl rr l r)) ∧
      Commutes CanonWF canonEdit l r

theorem CrossOK.symm (h : CrossOK contracts b d) : CrossOK contracts d b := by
  intro l hl r hr
  obtain ⟨hp, hc⟩ := h r hr l hl
  refine ⟨fun rl rr hrl hrr => ?_, hc.symm⟩
  have := hp rr rl hrr hrl
  rw [Passes] at this ⊢
  rwa [okPair_comm, overlaysPass_comm]

theorem CrossOK.congr (hb : b'.patch = b.patch) (hd : d'.patch = d.patch)
    (hcb : contracts.get b.nodeID = contracts'.get b'.nodeID)
    (hcd : contracts.get d.nodeID = contracts'.get d'.nodeID) (h : CrossOK contracts b d) :
    CrossOK contracts' b' d' := by
  intro l hl r hr
  rw [hb] at hl
  rw [hd] at hr
  obtain ⟨hp, hc⟩ := h l hl r hr
  refine ⟨fun rl rr hrl hrr => ?_, hc⟩
  rw [Passes, ← okPair_congr (sameWrite_mkEntry hcb) (sameWrite_mkEntry hcd)]
  exact hp rl rr hrl hrr

section Merge

variable {engine : SchemaEngine}
variable {branches : List BranchPatch}
variable {contracts : SortedMap String Contract}

/-- In a successful merge of simple operations any two branches satisfy `CrossOK`. -/
theorem Merged.crossOK (h : Merged engine orders base branches options merged)
    (hj : JSONBranches branches) (he : ExactBranches branches) :
    branches.Pairwise (CrossOK options.contracts) := by
  have hm : branches.Pairwise fun b d => b ∈ branches ∧ d ∈ branches :=
    List.Pairwise.and_mem.mp (pairwise_of_forall fun _ _ => trivial)
      |>.imp fun h => ⟨h.1, h.2.1⟩
  refine ((hm.and he).and h.pairwise).imp ?_
  rintro b d ⟨⟨⟨hb, hd⟩, hex⟩, hpa⟩ l hl r hr
  have hlo := validateOp_eq_nil (validateOp_of_validateBranch (h.valid b hb) l hl)
  have hro := validateOp_eq_nil (validateOp_of_validateBranch (h.valid d hd) r hr)
  obtain ⟨hls, hlp⟩ := hj b hb l hl
  obtain ⟨-, hrp⟩ := hj d hd r hr
  obtain ⟨rl, rr, hrl, hrr, hok⟩ := hpa l hl r hr
  have hen : okPair (overlaysPass rl rr l r) (mkEntry options.contracts 0 b 0 l)
      (mkEntry options.contracts 0 d 0 r) = true := hok
  have hpi : PairOK _ l r := PairOK.of_okPair hlo.1 hro.1 hen
  have hov : l.kind = .merge → r.kind = .merge → l.path = r.path →
      MapTree.Agree l.value.canon r.value.canon ∧
        ∀ rl' rr', OrderOK rl' → OrderOK rr' → NamesAgree rl' rr' l r := by
    intro hkl hkr hp
    refine hex l hl r hr hkl hkr hp rl rr hrl hrr ?_
    cases hpi with
    | disjoint hdi => exact absurd (prefix_rfl) (hp ▸ hdi.1)
    | append _ hk _ | reduce _ hk _ _ => exact absurd (hkl.symm.trans hk) (by simp)
    | merge _ _ _ ho => exact overlaysPass_iff.mp ho
    | set _ hk _ _ | delete _ hk _ => exact absurd (hkl.symm.trans hk) (by simp)
  constructor
  · intro rl' rr' hr' hrr'
    refine okPair_overlay hlo.1 hen fun hkl hkr hp => ?_
    exact overlaysPass_iff.mpr ((hov hkl hkr hp).2 rl' rr' hr' hrr')
  · exact canonEdit_commutes hls hlp hrp hpi fun hkl hkr hp => (hov hkl hkr hp).1

theorem Rearranged.exists_left (h : List.Forall₂ R branches branches') (hb : b' ∈ branches') :
    ∃ b ∈ branches, R b b' := by
  induction h with
  | nil => cases hb
  | cons hR _ ih =>
    rcases mem_cons.mp hb with rfl | hb
    · exact ⟨_, mem_cons_self, hR⟩
    · obtain ⟨b, hm, hR'⟩ := ih hb
      exact ⟨b, mem_cons_of_mem _ hm, hR'⟩

section

variable (h : Rearranged contracts contracts' branches branches')
include h

theorem Rearranged.pairwise (hc : branches.Pairwise (CrossOK contracts)) :
    branches'.Pairwise (CrossOK contracts') := by
  obtain ⟨mid, hm, hp⟩ := h
  have hmi : mid.Pairwise (CrossOK contracts') := by
    clear hp
    induction hm with
    | nil => exact List.Pairwise.nil
    | cons hb hr ih =>
      rw [pairwise_cons] at hc ⊢
      refine ⟨fun d' hd' => ?_, ih hc.2⟩
      obtain ⟨d, hd, hdp, hdc⟩ := Rearranged.exists_left hr hd'
      exact (hc.1 d hd).congr hb.1 hdp hb.2 hdc
  exact (hp.pairwise_iff fun hs => hs.symm).mp hmi

theorem Rearranged.mem (hb : b' ∈ branches') :
    ∃ b ∈ branches, b'.patch = b.patch ∧ contracts.get b.nodeID = contracts'.get b'.nodeID := by
  obtain ⟨mid, hm, hp⟩ := h
  exact Rearranged.exists_left hm (hp.mem_iff.mpr hb)

/-- The patches are the same, in another order. -/
theorem Rearranged.patches :
    (branches.map BranchPatch.patch).Perm (branches'.map BranchPatch.patch) := by
  obtain ⟨mid, hm, hp⟩ := h
  have heq : branches.map BranchPatch.patch = mid.map BranchPatch.patch := by
    clear hp
    induction hm with
    | nil => rfl
    | cons hb _ ih => rw [map_cons, map_cons, ih, hb.1]
  rw [heq]
  exact hp.map _

end

/-! ## The runs -/

theorem sortedBranches_patches (branches : List BranchPatch) :
    ((sortedBranches branches).map fun p => p.1.patch).Perm (branches.map BranchPatch.patch) := by
  have h := (KeySort.perm_sort branchLess branches.zipIdx).map fun p => p.1.patch
  have hz : (branches.zipIdx.map fun p => p.1.patch) = branches.map BranchPatch.patch := by
    have := congrArg (List.map BranchPatch.patch) (zipIdx_map_fst 0 branches)
    rwa [map_map] at this
  rw [hz] at h
  exact h

/-- The normalised runs of two arrangements are the same. -/
theorem run_rearranged (hcr : branches.Pairwise (CrossOK contracts))
    (h : Rearranged contracts contracts' branches branches') (hw : CanonWF root) :
    Steps.run canonEdit root ((planEntries contracts' branches').map ParallelPatchEntry.op) =
      Steps.run canonEdit root ((planEntries contracts branches).map ParallelPatchEntry.op) := by
  rw [planOps_eq, planOps_eq, run_flatMap, run_flatMap]
  have hp : ((sortedBranches branches).map fun p => p.1.patch).Perm
      ((sortedBranches branches').map fun p => p.1.patch) :=
    (sortedBranches_patches branches).trans
      (h.patches.trans (sortedBranches_patches branches').symm)
  have hpa : (branches.map BranchPatch.patch).Pairwise
      (Commutes CanonWF fun s (p : Patch) => Steps.run canonEdit s p.ops) := by
    rw [pairwise_map]
    refine hcr.imp fun hc => ?_
    exact Steps.Commutes.blocks (fun x hx y hy => (hc x hx y hy).2)
      (fun x _ => canonEdit_keeps) fun y _ => canonEdit_keeps
  have hso : ((sortedBranches branches).map fun p => p.1.patch).Pairwise
      (Commutes CanonWF fun s (p : Patch) => Steps.run canonEdit s p.ops) :=
    ((sortedBranches_patches branches).pairwise_iff fun hs => Steps.Commutes.symm hs).mpr hpa
  refine (run_perm_of_pairwise (P := CanonWF) hp (fun p _ => ?_) hso hw).symm
  intro s s' hs hr
  exact keeps_run (fun x _ => canonEdit_keeps) hs hr

/-! ## The result -/

variable {s t : State}

section

variable (h : canonObject s.root = canonObject t.root)
include h

theorem State.read_canon (path : Path) :
    (s.read path).map Raw.canon = (t.read path).map Raw.canon := by
  cases hp : path.empty with
  | true => simp [State.read, Root.read, hp]
  | false =>
    rw [State.read, State.read, Root.read_eq_lookAt hp, Root.read_eq_lookAt hp]
    have hs := lookAt_map jsonLeaf path.keys (some (.node s.root))
    have ht := lookAt_map jsonLeaf path.keys (some (.node t.root))
    have hr : Raw.canon (.node s.root) = Raw.canon (.node t.root) := by
      rw [canon_node, canon_node, h]
    exact hs.symm.trans ((congrArg (fun r => lookAt path.keys (some r)) hr).trans ht)

/-- States with the same normal labels read the same JSON. -/
theorem State.read_cases (path : Path) : (s.read path = none ∧ t.read path = none) ∨
      ∃ v w, s.read path = some v ∧ t.read path = some w ∧ Raw.JSONEq v w := by
  have hr := State.read_canon h path
  cases hs : s.read path with
  | none =>
    rw [hs] at hr
    exact .inl ⟨rfl, by simpa using hr.symm⟩
  | some v =>
    rw [hs] at hr
    cases ht : t.read path with
    | none => rw [ht] at hr; cases hr
    | some w =>
      rw [ht] at hr
      exact .inr ⟨v, w, rfl, rfl, Raw.JSONEq.of_canon (Option.some.inj hr)⟩

theorem validateMergedField_congr :
    validateMergedField engine s field = validateMergedField engine t field := by
  rw [validateMergedField, validateMergedField]
  rcases State.read_cases h field.path with ⟨hs, ht⟩ | ⟨v, w, hs, ht, hvw⟩
  · rw [hs, ht]
  · rw [hs, ht]
    exact validateJSONSchemaValue_congr hvw

theorem validateStateBySchemas_congr :
    validateStateBySchemas engine s schemas = validateStateBySchemas engine t schemas := by
  have ho : ∀ pathText schema, validateStateBySchema engine s pathText schema =
      validateStateBySchema engine t pathText schema := by
    intro pathText schema
    rw [validateStateBySchema, validateStateBySchema]
    cases parsePath pathText with
    | error e => rfl
    | ok path =>
      simp only
      rcases State.read_cases h path with ⟨hs, ht⟩ | ⟨v, w, hs, ht, hvw⟩
      · rw [hs, ht]
      · rw [hs, ht]
        exact validateJSONSchemaValue_congr hvw
  simp only [validateStateBySchemas, ho]

end

/-- With one verdict for each key the loop accepts exactly when every affected field is
accepted. -/
theorem validateMergedFields_eq_nil {s : State} {written : List String}
    {validated : List (String × Raw)} {fields : List FieldAccess}
    (hk : ∀ f ∈ fields, ∀ f' ∈ fields, fieldAffected written f = true →
      fieldAffected written f' = true → fieldKey f = fieldKey f' →
      validateMergedField engine s f = validateMergedField engine s f') :
    validateMergedFields engine s written validated fields = [] ↔
      ∀ f ∈ fields, fieldAffected written f = true → fieldKey f ∉ validated →
        validateMergedField engine s f = [] := by
  induction fields generalizing validated with
  | nil => simp [validateMergedFields]
  | cons f fields ih =>
    have ih' := fun {v : List (String × Raw)} =>
      @ih v fun g hg g' hg' =>
        hk g (mem_cons_of_mem _ hg) g' (mem_cons_of_mem _ hg')
    rw [validateMergedFields, forall_mem_cons]
    split
    next hsk =>
      rw [ih']
      simp only [Bool.or_eq_true, Bool.not_eq_true', contains_iff_mem] at hsk
      constructor
      · intro h
        refine ⟨fun ha hn => ?_, h⟩
        rcases hsk with hs | hs
        · rw [hs] at ha; cases ha
        · exact absurd hs hn
      · rintro ⟨-, h⟩
        exact h
    next hsk =>
      simp only [Bool.or_eq_true, Bool.not_eq_true', contains_iff_mem, not_or,
        Bool.not_eq_false] at hsk
      rw [append_eq_nil_iff, ih']
      constructor
      · rintro ⟨hf, hr⟩
        refine ⟨fun _ _ => hf, fun g hg ha hn => ?_⟩
        by_cases hgf : fieldKey g = fieldKey f
        · rw [hk g (mem_cons_of_mem _ hg) f mem_cons_self ha hsk.1 hgf]
          exact hf
        · refine hr g hg ha ?_
          rw [mem_cons, not_or]
          exact ⟨hgf, hn⟩
      · rintro ⟨hf, hr⟩
        refine ⟨hf hsk.1 hsk.2, fun g hg ha hn => ?_⟩
        rw [mem_cons, not_or] at hn
        exact hr g hg ha hn.2

/-- Fields with one key get one verdict when they agree on being required. -/
theorem validateMergedField_of_key (hf : f.path.empty = false) (hfs : f.schema.isEmpty = false)
    (hf' : f'.schema.isEmpty = false) (hk : fieldKey f = fieldKey f')
    (hr : f.required = f'.required) :
    validateMergedField engine s f = validateMergedField engine s f' := by
  simp only [fieldKey, Prod.mk.injEq] at hk
  have hp : f.path = f'.path := Path.string_inj hf hk.1
  simp only [validateMergedField, validateJSONSchemaValue, hp, hr, hfs, hf', hk.2]

theorem fieldAffected_iff :
    fieldAffected written f = true ↔ isWriteMode f.mode = true ∧ f.path.empty = false ∧
      f.schema.isEmpty = false ∧ pathAffectedByWrites f.path written = true := by
  simp only [fieldAffected, Bool.and_eq_true, Bool.not_eq_true']
  tauto

/-- The field loops accept a merged state exactly when every affected field is accepted. -/
theorem mergedFields_eq_nil (hr : ∀ c ∈ contracts.vals, ∀ c' ∈ contracts.vals,
      ∀ f ∈ c.fields, ∀ f' ∈ c'.fields, fieldAffected written f = true →
        fieldAffected written f' = true → fieldKey f = fieldKey f' → f.required = f'.required)
    {cs : List (String × Contract)} (hcs : cs.Perm contracts.entries) :
    validateMergedFields engine s written [] (cs.flatMap fun c => c.2.fields) = [] ↔
      ∀ c ∈ contracts.vals, ∀ f ∈ c.fields, fieldAffected written f = true →
        validateMergedField engine s f = [] := by
  have hm : ∀ f, f ∈ (cs.flatMap fun c => c.2.fields) ↔ ∃ c ∈ contracts.vals, f ∈ c.fields := by
    intro f
    simp only [mem_flatMap, SortedMap.vals, mem_map, hcs.mem_iff]
    constructor
    · rintro ⟨e, he, hf⟩
      exact ⟨e.2, ⟨e, he, rfl⟩, hf⟩
    · rintro ⟨c, ⟨e, he, rfl⟩, hf⟩
      exact ⟨e, he, hf⟩
  rw [validateMergedFields_eq_nil]
  · constructor
    · intro h c hc f hf ha
      exact h f ((hm f).mpr ⟨c, hc, hf⟩) ha (not_mem_nil)
    · intro h f hf ha _
      obtain ⟨c, hc, hfc⟩ := (hm f).mp hf
      exact h c hc f hfc ha
  · intro f hf f' hf' ha haf hk
    obtain ⟨c, hc, hfc⟩ := (hm f).mp hf
    obtain ⟨c', hc', hfc'⟩ := (hm f').mp hf'
    obtain ⟨-, hp, hs, -⟩ := fieldAffected_iff.mp ha
    obtain ⟨-, -, hs', -⟩ := fieldAffected_iff.mp haf
    exact validateMergedField_of_key hp hs hs' hk (hr c hc c' hc' f hfc f' hfc' ha haf hk)

/-- The paths that a merge writes. -/
def writtenPaths (contracts : SortedMap String Contract) (branches : List BranchPatch) :
    List String :=
  ((planEntries contracts branches).filter fun e => !e.op.path.empty).map fun e => e.op.path.string

theorem mem_writtenPaths : text ∈ writtenPaths contracts branches ↔
      ∃ p ∈ branches.map BranchPatch.patch, ∃ op ∈ p.ops, op.path.empty = false ∧
        text = op.path.string := by
  simp only [writtenPaths, mem_map, mem_filter, Bool.not_eq_true', mem_planEntries]
  constructor
  · rintro ⟨e, ⟨⟨i, b, k, op, hb, hop, rfl⟩, he⟩, rfl⟩
    exact ⟨b.patch, ⟨b, mem_of_getElem? hb, rfl⟩, op, mem_of_getElem? hop, he, rfl⟩
  · rintro ⟨p, ⟨b, hb, rfl⟩, op, hop, he, rfl⟩
    obtain ⟨i, hi⟩ := mem_iff_getElem?.mp hb
    obtain ⟨k, hk⟩ := mem_iff_getElem?.mp hop
    exact ⟨mkEntry contracts i b k op, ⟨⟨i, b, k, op, hi, hk, rfl⟩, he⟩, rfl⟩

theorem pathAffectedByWrites_congr (h : ∀ t, t ∈ w ↔ t ∈ w') :
    pathAffectedByWrites path w = pathAffectedByWrites path w' := by
  rw [Bool.eq_iff_iff, pathAffectedByWrites, pathAffectedByWrites, any_eq_true, any_eq_true]
  simp only [h]

theorem fieldAffected_congr (h : ∀ t, t ∈ w ↔ t ∈ w') :
    fieldAffected w f = fieldAffected w' f := by
  rw [Bool.eq_iff_iff, fieldAffected_iff, fieldAffected_iff, pathAffectedByWrites_congr h]

theorem mem_writtenBy : text ∈ writtenBy branches ↔ text ∈ writtenPaths contracts branches := by
  simp only [mem_writtenPaths, writtenBy, mem_map, mem_filter, mem_flatMap, Bool.not_eq_true']
  constructor
  · rintro ⟨op, ⟨⟨b, hb, hop⟩, he⟩, rfl⟩
    exact ⟨b.patch, ⟨b, hb, rfl⟩, op, hop, he, rfl⟩
  · rintro ⟨p, ⟨b, hb, rfl⟩, op, hop, he, rfl⟩
    exact ⟨op, ⟨⟨b, hb, hop⟩, he⟩, rfl⟩

/-- The validation of the result does not depend on the arrangement either. -/
theorem noIssues_rearranged {orders' : RangeOrders} {s t : State}
    (hca : canonObject s.root = canonObject t.root)
    (hre : Rearranged options.contracts contracts' branches branches')
    (hs : SameContracts options.contracts contracts')
    (hr : RequiredAgrees options.contracts branches)
    (h : validateParallelMergeResult engine orders s (planEntries options.contracts branches)
      options = []) :
    validateParallelMergeResult engine orders' t (planEntries contracts' branches')
      { options with contracts := contracts' } = [] := by
  have hw : ∀ x, x ∈ writtenPaths options.contracts branches ↔
      x ∈ writtenPaths contracts' branches' := by
    intro x
    simp only [mem_writtenPaths, hre.patches.mem_iff]
  rw [validateParallelMergeResult, sortValidationIssues_eq_nil, append_eq_nil_iff] at h ⊢
  refine ⟨?_, ?_⟩
  · rw [← validateStateBySchemas_congr hca]
    exact h.1
  · have hb : ∀ {f}, fieldAffected (writtenPaths options.contracts branches) f =
        fieldAffected (writtenBy branches) f := fieldAffected_congr fun _ => mem_writtenBy.symm
    have ha := (mergedFields_eq_nil (fun c hc c' hc' f hf f' hf' hfa hfa' =>
      hr c hc c' hc' f hf f' hf' (hb ▸ hfa) (hb ▸ hfa')) (orders.contracts_perm _)).mp h.2
    refine (mergedFields_eq_nil (fun c hc c' hc' f hf f' hf' hfa hfa' =>
      hr c ((hs c).mpr hc) c' ((hs c').mpr hc') f hf f' hf'
        ((hb.symm.trans (fieldAffected_congr hw)).trans hfa)
        ((hb.symm.trans (fieldAffected_congr hw)).trans hfa'))
      (orders'.contracts_perm _)).mpr fun c hc f hf haf => ?_
    rw [← validateMergedField_congr hca]
    exact ha c ((hs c).mpr hc) f hf ((fieldAffected_congr hw).trans haf)

/-! ## Confluence -/

/-- A merge of set, delete and merge operations whose overlays are compared exactly does not
depend on the arrangement of its branches. -/
theorem confluent_of_exact (hj : JSONBranches branches) (hex : ExactBranches branches)
    (hrq : RequiredAgrees options.contracts branches) : Confluent engine base branches options := by
  intro orders merged hm branches' contracts' orders' hre hs
  rcases mergeParallelPatches_ok_iff.mp hm with ⟨rfl, rfl⟩ | ⟨hne, h⟩
  · obtain ⟨mid, hmi, hp⟩ := hre
    cases hmi
    have hn : branches' = [] := nil_perm.mp hp
    exact ⟨merged, mergeParallelPatches_ok_iff.mpr (.inl ⟨hn, rfl⟩), rfl⟩
  · have hcr := h.crossOK hj hex
    have hv : ∀ b' ∈ branches', validateBranch engine contracts' b' = .ok () := by
      intro b' hb'
      obtain ⟨b, hb, hpa, hco⟩ := hre.mem hb'
      have := h.valid b hb
      rw [validateBranch_ok_iff] at this ⊢
      rwa [hpa, ← hco]
    have hsi : ∀ cs bs, (∀ b ∈ bs, ∃ d ∈ branches, b.patch = d.patch) →
        ∀ op ∈ (planEntries cs bs).map ParallelPatchEntry.op,
          op.Simple ∧ op.path.empty = false := by
      intro cs bs hbs op hop
      obtain ⟨e, he, rfl⟩ := mem_map.mp hop
      obtain ⟨i, b, k, op, hb, hk, rfl⟩ := mem_planEntries.mp he
      obtain ⟨d, hd, hpa⟩ := hbs b (mem_of_getElem? hb)
      have hme : op ∈ d.patch.ops := hpa ▸ mem_of_getElem? hk
      exact ⟨(hj d hd op hme).1,
        (validateOp_eq_nil (validateOp_of_validateBranch (h.valid d hd) op hme)).1⟩
    have ho := hsi options.contracts branches fun b hb => ⟨b, hb, rfl⟩
    have hot := hsi contracts' branches' fun b' hb' => by
      obtain ⟨b, hb, hpa, -⟩ := hre.mem hb'
      exact ⟨b, hb, hpa⟩
    -- Both runs have the same normalised run.
    have hru := run_rearranged hcr hre
      (show CanonWF (canonObject base.root) by
        rw [CanonWF, ← canon_node]; exact base.tree.map jsonLeaf)
    rw [run_canon fun op hop => (hot op hop).1,
      run_canon fun op hop => (ho op hop).1,
      ← applyOps_toOption options.reducers (fun op hop => (ho op hop).2) base.ok,
      ← applyOps_toOption options.reducers (fun op hop => (hot op hop).2) base.ok,
      h.applied] at hru
    obtain ⟨root', hro, hca⟩ := Option.map_eq_some_iff.mp hru
    have ha := Outcome.toOption_eq_some.mp hro
    let merged' : State := ⟨root', rootOK_applyOps base.ok ha⟩
    refine ⟨merged', mergeParallelPatches_ok_iff.mpr (.inr ⟨?_, ?_⟩), ?_⟩
    · rintro rfl
      have := hre.patches.length_eq
      simp only [length_map, length_nil, length_eq_zero_iff] at this
      exact hne this
    · exact
        { valid := hv
          noConflict := noConflict_of_pairwise orders'
            ((hre.pairwise hcr).imp fun hc l hl r hr => (hc l hl r hr).1)
          applied := ha
          noIssues := noIssues_rearranged hca.symm hre hs hrq h.noIssues }
    · refine Raw.JSONEq.of_canon ?_
      rw [canon_node, canon_node]
      exact congrArg MapTree.node hca

end Merge

/-! ## Two branches that merge at one path -/

/-- Two branches with one operation each, in this order. -/
def twoBranches (l r : PatchOp) : List BranchPatch :=
  [⟨"left", "left", 0, ⟨[l]⟩⟩, ⟨"right", "right", 1, ⟨[r]⟩⟩]

/-- The same branches with their order numbers exchanged. -/
def swappedBranches (l r : PatchOp) : List BranchPatch :=
  [⟨"left", "left", 1, ⟨[l]⟩⟩, ⟨"right", "right", 0, ⟨[r]⟩⟩]

/-- No contracts, schemas or reducers. -/
def noOptions : ParallelMergeOptions := ⟨SortedMap.empty, SortedMap.empty, fun _ => none⟩

/-- The operations merge JSON objects at one path. -/
structure MergeAtOnePath (l r : PatchOp) : Prop where
  path : l.path = r.path
  nonempty : l.path.empty = false
  left : l.kind = .merge ∧ l.value.isObject = true ∧ l.value.plain = true
  right : r.kind = .merge ∧ r.value.isObject = true ∧ r.value.plain = true

theorem MergeAtOnePath.symm (h : MergeAtOnePath l r) : MergeAtOnePath r l :=
  ⟨h.path.symm, h.path ▸ h.nonempty, h.right, h.left⟩

theorem plan_twoBranches : planEntries SortedMap.empty (twoBranches l r) =
      [mkEntry SortedMap.empty 0 ⟨"left", "left", 0, ⟨[l]⟩⟩ 0 l,
        mkEntry SortedMap.empty 1 ⟨"right", "right", 1, ⟨[r]⟩⟩ 0 r] := by
  rfl

theorem validateOp_merge (h : MergeAtOnePath l r) : validateOp l = [] := by
  obtain ⟨hk, ho, -⟩ := h.left
  cases hv : l.value with
  | leaf a => rw [hv] at ho; cases ho
  | node kids => simp [validateOp, h.nonempty, hk, hv, validPatchOpKind, Raw.asMap]

theorem fieldForPath_zero (path : Path) : fieldForPath Contract.zero path = none := by
  rw [fieldForPath]
  split <;> rfl

theorem okPair_merge (h : MergeAtOnePath l r) :
    okPair overlay (mkEntry SortedMap.empty i b k l) (mkEntry SortedMap.empty j d m r) =
      overlay := by
  have hs : r.path.string ≠ "" := fun he => by
    rw [Path.string_eq_empty, ← h.path, h.nonempty] at he; cases he
  simp [okPair, pairReducer, pairStrategy, normalizedKnownMergeStrategy, mkEntry,
    mergeStrategyForPath, reducerForPath, fieldForPath_zero, h.path, hs, okByKind, h.left.1,
    h.right.1]

theorem lookAt_newRoot {path : Path} (hp : path.empty = false) :
    blockedAt path.keys (some (.node newRoot)) = false ∧
      (lookAt path.keys (some (.node newRoot)) = none ∨
        lookAt path.keys (some (.node newRoot)) = some (.node [])) := by
  have hn : ∀ s ∈ sections, Assoc.get s newRoot = some (.node []) := by decide +kernel
  have hs := hn path.sectionName (path.mem_sections hp)
  rw [Path.keys]
  cases hse : path.segments with
  | nil =>
    rw [lookAt_cons_node, hs, lookAt_nil]
    exact ⟨by simp [blockedAt], .inr rfl⟩
  | cons s rest =>
    rw [lookAt_cons_node, hs, lookAt_cons_node, Assoc.get_nil, lookAt_none]
    exact ⟨by simp [blockedAt, hs, blockedAt_none], .inl rfl⟩

/-- A merge of an object into a free slot succeeds and leaves the merged object there. -/
theorem opEdit_merge {op : PatchOp} (hk : op.kind = .merge) (hob : op.value.isObject = true)
    {root : Object} (hf : blockedAt op.path.keys (some (.node root)) = false)
    (hs : ∀ a, lookAt op.path.keys (some (.node root)) ≠ some (.leaf a)) :
    ∃ root', opEdit (fun _ => none) op root = some root' ∧
      lookAt op.path.keys (some (.node root')) =
        some (mergeSlot (lookAt op.path.keys (some (.node root))) op.value) := by
  obtain ⟨kind, path, value, reducer, hv⟩ := op
  cases hk
  rcases value with a | kids
  · cases hob
  have hva : ∀ o : Option Raw, (∀ a, o ≠ some (.leaf a)) →
      mergeUpdate kids o = some (some (mergeSlot o (.node kids))) := by
    intro o ho
    rcases o with _ | (a | kids)
    · rfl
    · exact absurd rfl (ho a)
    · rfl
  have hso : (editAt true (mergeUpdate kids) path.keys (some (.node root))).isSome := by
    rw [editAt_true_isSome, hva _ hs]
    exact ⟨hf, rfl⟩
  obtain ⟨res, hr⟩ := Option.isSome_iff_exists.mp hso
  have hl := lookAt_editAt_true hr
  rw [hva _ hs] at hl
  rw [Path.keys, editAt_node_eq_editMap] at hr
  obtain ⟨root', hro, rfl⟩ := Option.map_eq_some_iff.mp hr
  exact ⟨root', hro, (Option.some.inj hl).symm⟩

/-- Both merges of an empty state succeed, and the path holds one overlay merged into the
other. -/
theorem applyOps_two (h : MergeAtOnePath l r) :
    ∃ root, Root.applyOps (fun _ => none) State.newState.root [l, r] = .ok root ∧
      lookAt l.path.keys (some (.node root)) = some (mergeSlot (some l.value) r.value) := by
  obtain ⟨hf, hl⟩ := lookAt_newRoot h.nonempty
  have hsl : ∀ a, lookAt l.path.keys (some (.node newRoot)) ≠ some (.leaf a) := by
    intro a he
    rcases hl with hn | hn <;> rw [hn] at he <;> cases he
  obtain ⟨root₁, hedit₁, hlook₁⟩ := opEdit_merge h.left.1 h.left.2.1 hf hsl
  have hfi : mergeSlot (lookAt l.path.keys (some (.node newRoot))) l.value = l.value := by
    rcases hl with hn | hn
    · rw [hn, mergeSlot_none]
    · rw [hn]
      cases hv : l.value with
      | leaf a => rfl
      | node kids =>
        have hs := wf_hereditary.sorted (hv ▸ l.valid.tree)
        rw [mergeSlot_node_node, mergeKids_nil hs]
  rw [hfi] at hlook₁
  have hfree₁ : blockedAt r.path.keys (some (.node root₁)) = false := by
    by_contra hb
    have := lookAt_of_blocked (by simpa using hb)
    rw [← h.path, hlook₁] at this
    cases this
  have hslot₁ : ∀ a, lookAt r.path.keys (some (.node root₁)) ≠ some (.leaf a) := by
    intro a he
    rw [← h.path, hlook₁, Option.some.injEq] at he
    have := h.left.2.1
    rw [he] at this
    cases this
  obtain ⟨root₂, hedit₂, hlook₂⟩ := opEdit_merge h.right.1 h.right.2.1 hfree₁ hslot₁
  refine ⟨root₂, ?_, ?_⟩
  · have hp : ∀ op ∈ [l, r], op.path.empty = false :=
      forall_mem_cons.mpr ⟨h.nonempty, forall_mem_singleton.mpr (h.path ▸ h.nonempty)⟩
    refine Outcome.toOption_eq_some.mp ?_
    rw [applyOps_toOption _ hp State.newState.ok, opEdits, run_cons]
    show (opEdit _ l newRoot).bind _ = _
    rw [hedit₁, Option.bind_some, run_cons, hedit₂]
    rfl
  · rw [h.path, hlook₂, ← h.path, hlook₁]

theorem noIssues_noOptions :
    validateParallelMergeResult engine orders s entries noOptions = [] := by
  have hn : orders.contracts [] = [] := perm_nil.mp (orders.contracts_perm [])
  rw [validateParallelMergeResult, sortValidationIssues_eq_nil]
  show ([] : List ValidationIssue) ++ validateMergedFields engine s _ []
    ((orders.contracts []).flatMap _) = []
  rw [hn]
  rfl

/-- The merge of two branches succeeds exactly when the dotted names agree. -/
theorem twoBranches_ok (orders : RangeOrders) (h : MergeAtOnePath l r) :
    (NamesAgree (orders.overlay 0 1 false) (orders.overlay 0 1 true) l r →
      ∃ merged, mergeParallelPatches engine orders State.newState (twoBranches l r) noOptions =
          .ok merged ∧
        lookAt l.path.keys (some (.node merged.root)) = some (mergeSlot (some l.value) r.value)) ∧
      ∀ merged, mergeParallelPatches engine orders State.newState (twoBranches l r) noOptions =
          .ok merged →
        NamesAgree (orders.overlay 0 1 false) (orders.overlay 0 1 true) l r := by
  constructor
  · intro hp
    obtain ⟨root, hap, hl⟩ := applyOps_two h
    refine ⟨⟨root, rootOK_applyOps State.newState.ok hap⟩, ?_, hl⟩
    refine mergeParallelPatches_ok_iff.mpr (.inr ⟨by simp [twoBranches], ?_⟩)
    refine ⟨?_, ?_, ?_, noIssues_noOptions⟩
    · intro b hb
      rw [validateBranch_ok_iff]
      simp only [twoBranches, mem_cons, not_mem_nil, or_false] at hb
      rcases hb with rfl | rfl
      · simp [noOptions, validatePatch, validateOp_merge h]
      · simp [noOptions, validatePatch, validateOp_merge h.symm]
    · intro a c left right hac ha hc hi
      show validateParallelPatchPair _ _ left right = .ok ()
      simp only [noOptions, plan_twoBranches] at ha hc
      rcases c with _ | _ | c
      · cases hac
      · obtain rfl := Nat.lt_one_iff.mp hac
        cases ha
        cases hc
        rw [pair_ok_iff, okPair_merge h]
        exact overlaysPass_iff.mpr hp
      · cases hc
    · simp only [noOptions, plan_twoBranches]
      exact hap
  · intro merged hme
    rcases mergeParallelPatches_ok_iff.mp hme with ⟨hn, -⟩ | ⟨-, hm⟩
    · cases hn
    · have hpl : planEntries noOptions.contracts (twoBranches l r) = _ := plan_twoBranches
      have := hm.noConflict 0 1 _ _ Nat.zero_lt_one (by rw [hpl]; rfl) (by rw [hpl]; rfl)
        (by simp [mkEntry])
      rw [pair_ok_iff, okPair_merge h] at this
      exact overlaysPass_iff.mp this

theorem swappedBranches_result {engine : SchemaEngine} {orders : RangeOrders}
    (h : MergeAtOnePath l r) {merged : State}
    (hm : mergeParallelPatches engine orders State.newState (swappedBranches l r) noOptions =
      .ok merged) :
    lookAt l.path.keys (some (.node merged.root)) = some (mergeSlot (some r.value) l.value) := by
  obtain ⟨root, ha, hl⟩ := applyOps_two h.symm
  rcases mergeParallelPatches_ok_iff.mp hm with ⟨hn, -⟩ | ⟨-, hme⟩
  · cases hn
  · have ho := hme.applied
    have hr : (Except.ok merged.root : Except PatchError Object) = .ok root := ho.symm.trans ha
    cases hr
    rw [h.path]
    exact hl

theorem plain_hereditary : Hereditary fun v : Raw => v.Valid ∧ v.plain = true := by
  intro kids
  simp only [valid_hereditary kids, Raw.plain, plainKids_iff]
  constructor
  · rintro ⟨⟨hs, hv⟩, hp⟩
    exact ⟨hs, fun e he => ⟨hv e he, hp e he⟩⟩
  · rintro ⟨hs, h⟩
    exact ⟨⟨hs, fun e he => (h e he).1⟩, fun e he => (h e he).2⟩

/-- The overlays of all entries in one order on the left and one on the right. -/
def sideOrders (hl : OrderOK rl) (hr : OrderOK rr) : RangeOrders where
  overlay _ _ side := if side then rr else rl
  contracts := id
  overlay_perm _ _ side at_ keys := by
    cases side
    · exact hl at_ keys
    · exact hr at_ keys
  contracts_perm _ := List.Perm.refl _

/-- Confluence of two merges at one path needs the exact comparison. -/
theorem exact_of_confluent {engine : SchemaEngine} (h : MergeAtOnePath l r)
    (hc : Confluent engine State.newState (twoBranches l r) noOptions) : OverlaysExact l r := by
  intro rl rr hrl hrr hp
  let orders := sideOrders hrl hrr
  obtain ⟨merged, hm, hl⟩ := (twoBranches_ok orders h).1 hp
  have hs : SameContracts noOptions.contracts noOptions.contracts := fun _ => Iff.rfl
  constructor
  · have hre : Rearranged noOptions.contracts noOptions.contracts (twoBranches l r)
        (swappedBranches l r) :=
      ⟨swappedBranches l r, .cons ⟨rfl, rfl⟩ (.cons ⟨rfl, rfl⟩ .nil), List.Perm.refl _⟩
    obtain ⟨merged', hme, hj⟩ := hc orders merged hm _ _ orders hre hs
    have hlo := swappedBranches_result h hme
    -- The two results hold JSON-equal values at the path.
    have hv : Raw.JSONEq (mergeSlot (some l.value) r.value)
        (mergeSlot (some r.value) l.value) := by
      have h₁ := jsonNormal_lookAt hl
      have h₂ := jsonNormal_lookAt hlo
      rw [hj, h₁] at h₂
      exact Option.some.inj h₂
    have hpl : ∀ {a b : PatchOp}, a.value.plain = true → b.value.plain = true →
        Raw.plain (mergeSlot (some a.value) b.value) = true := by
      intro a b ha hb
      exact (plain_hereditary.mergeSlot ⟨b.valid, hb⟩ (slotAll_some.mpr ⟨a.valid, ha⟩)).2
    have hca := canon_eq_of_jsonEq (hpl h.left.2.2 h.right.2.2)
      (hpl h.right.2.2 h.left.2.2) hv
    rw [Raw.canon, Raw.canon, mergeSlot_map, mergeSlot_map] at hca
    exact (mergeSlot_swap_iff (wf_canon l) (wf_canon r)).mp hca
  · intro rl' rr' hr hr'
    let orders' := sideOrders hr hr'
    have hre : Rearranged noOptions.contracts noOptions.contracts (twoBranches l r)
        (twoBranches l r) :=
      ⟨twoBranches l r, .cons ⟨rfl, rfl⟩ (.cons ⟨rfl, rfl⟩ .nil), List.Perm.refl _⟩
    obtain ⟨merged', hme, -⟩ := hc orders merged hm _ _ orders' hre hs
    exact (twoBranches_ok orders' h).2 merged' hme

theorem confluent_two (h : MergeAtOnePath l r) (he : OverlaysExact l r) (base : State) :
    Confluent engine base (twoBranches l r) noOptions := by
  refine confluent_of_exact ?_ ?_ ?_
  · intro b hb op hop
    simp only [twoBranches, mem_cons, not_mem_nil, or_false] at hb
    rcases hb with rfl | rfl
    · exact mem_singleton.mp hop ▸ ⟨.inr (.inr h.left.1), h.left.2.2⟩
    · exact mem_singleton.mp hop ▸ ⟨.inr (.inr h.right.1), h.right.2.2⟩
  · refine List.Pairwise.cons ?_ (pairwise_singleton _ _)
    intro d hd a ha b hb _ _ _
    obtain rfl := mem_singleton.mp hd
    rw [mem_singleton.mp ha, mem_singleton.mp hb]
    exact he
  · intro c hc
    cases hc

/-- `shared.profile`. -/
def profilePath : Path := ⟨"shared", ["profile"], by decide⟩

/-- A merge at `shared.profile`. -/
def mergeProfile (kids : Object) (h : Raw.Valid (.node kids)) : PatchOp :=
  ⟨.merge, profilePath, .node kids, "", h⟩

/-- The overlay with the value 1 under the empty key. -/
def emptyKeyValue : PatchOp := mergeProfile [("", Raw.int 1)] (by decide)

/-- The overlay with an object under the empty key. -/
def emptyKeyObject : PatchOp := mergeProfile [("", .node [("x", Raw.int 2)])] (by decide)

/-- A branch that merges a name into the profile, and one that deletes `shared.draft`. -/
def nameAndDraft : List BranchPatch :=
  [⟨"t1", "a", 0, ⟨[mergeProfile [("name", Raw.string "n")] (by decide)]⟩⟩,
    ⟨"t2", "b", 1, ⟨[⟨.delete, ⟨"shared", ["draft"], by decide⟩, .leaf .null, "", by decide⟩]⟩⟩]

end WeaveFlow
