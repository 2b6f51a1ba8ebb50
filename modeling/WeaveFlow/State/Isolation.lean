import WeaveFlow.State.MergePlan

/-!
# Branch isolation

In a successful merge the operations of two branches are at disjoint paths or at one path.
Seen from a path that only one branch writes, the merged run is that branch's own run; seen
from a path that no branch writes it is no run at all.  At a path that several branches
write the branch's own operations may still fail without the others: a reducer is free to
reject the value it finds, and an append to a slice with more than `maxCollectionSize`
items may be rejected.
-/

namespace WeaveFlow

open Steps State Root MapTree List

open MapTree (Edit Top)

/-! ## The operations of one branch in the plan -/

section Plan
variable {engine : SchemaEngine} {orders : RangeOrders} {base : State} {branches : List BranchPatch}
  {options : ParallelMergeOptions} {merged : State}

/-- The path is written by a branch other than the one at the index. -/
def OtherWrites (branches : List BranchPatch) (i : Nat) (p : Path) : Prop :=
  ∃ (j : Nat) (b : BranchPatch), j ≠ i ∧ branches[j]? = some b ∧ ∃ op ∈ b.patch.ops, op.path = p

variable {i : Nat} {b : BranchPatch} {l op r : PatchOp} {o : Option Raw} {v : Raw} {p : Path}
  {contracts : SortedMap String Contract}

theorem mem_planOps : op ∈ (planEntries contracts branches).map ParallelPatchEntry.op ↔
      ∃ (i : Nat) (b : BranchPatch), branches[i]? = some b ∧ op ∈ b.patch.ops := by
  simp only [mem_map, mem_planEntries]
  constructor
  · rintro ⟨e, ⟨i, b, k, op', hb, hop, rfl⟩, rfl⟩
    exact ⟨i, b, hb, mem_of_getElem? hop⟩
  · rintro ⟨i, b, hb, hop⟩
    obtain ⟨k, hk⟩ := mem_iff_getElem?.mp hop
    exact ⟨_, ⟨i, b, k, op, hb, hk, rfl⟩, rfl⟩

/-- A selection that takes only operations of one branch. -/
theorem planOps_filter {contracts : SortedMap String Contract} {i : Nat} {b : BranchPatch}
    (hb : branches[i]? = some b) {sel : PatchOp → Bool}
    (hs : ∀ (j : Nat) (d : BranchPatch), j ≠ i → branches[j]? = some d →
      ∀ op ∈ d.patch.ops, sel op = false) :
    ((planEntries contracts branches).map ParallelPatchEntry.op).filter sel =
      b.patch.ops.filter sel := by
  have hpe : (sortedBranches branches).Perm branches.zipIdx := KeySort.perm_sort _ _
  have hm : (b, i) ∈ sortedBranches branches := hpe.mem_iff.mpr (mem_zipIdx_iff_getElem?.mpr hb)
  obtain ⟨before, after, hsp⟩ := append_of_mem hm
  have hne := KeySort.pairwise_ne_of_perm_zipIdx hpe
  rw [hsp, pairwise_append, pairwise_cons] at hne
  obtain ⟨-, ⟨ha, -⟩, hbe⟩ := hne
  have hn : ∀ q ∈ sortedBranches branches, q.2 ≠ i → q.1.patch.ops.filter sel = [] := by
    intro q hq hqi
    rw [filter_eq_nil_iff]
    intro op hop
    rw [hs q.2 q.1 hqi (mem_zipIdx_iff_getElem?.mp (hpe.mem_iff.mp hq)) op hop]
    exact Bool.false_ne_true
  have hpa : ∀ part : List (BranchPatch × Nat), (∀ q ∈ part, q ∈ sortedBranches branches) →
      (∀ q ∈ part, q.2 ≠ i) →
      ((part.map fun q => q.1.patch).flatMap Patch.ops).filter sel = [] := by
    intro part hin hi
    rw [filter_eq_nil_iff]
    intro op hop
    obtain ⟨p, hp, hop⟩ := mem_flatMap.mp hop
    obtain ⟨q, hq, rfl⟩ := mem_map.mp hp
    exact filter_eq_nil_iff.mp (hn q (hin q hq) (hi q hq)) op hop
  rw [planOps_eq, hsp, map_append, flatMap_append, filter_append, map_cons,
    flatMap_cons, filter_append,
    hpa before (fun q hq => hsp ▸ mem_append_left _ hq) (fun q hq => hbe q hq _ mem_cons_self),
    hpa after (fun q hq => hsp ▸ mem_append_right _ (mem_cons_of_mem _ hq))
      (fun q hq => (ha q hq).symm)]
  simp

variable (h : Merged engine orders base branches options merged)

include h in
/-- In a successful merge every operation has a path. -/
theorem Merged.path_nonempty (hb : branches[i]? = some b) :
    ∀ op ∈ b.patch.ops, op.path.empty = false := by
  intro op hop
  exact paths_of_applyOps h.applied op (mem_planOps.mpr ⟨i, b, hb, hop⟩)

include h in
/-- In a successful merge operations of different branches pass as a pair. -/
theorem Merged.pairOK (hij : i ≠ j)
    (hb : branches[i]? = some b) (hd : branches[j]? = some d) (hl : l ∈ b.patch.ops)
    (hr : r ∈ d.patch.ops) : ∃ overlay, PairOK overlay l r := by
  have hpl := h.path_nonempty hb l hl
  have hpr := h.path_nonempty hd r hr
  have hp := pairwise_iff_getElem.mp h.pairwise
  obtain ⟨hi, hb⟩ := List.getElem?_eq_some_iff.mp hb
  obtain ⟨hj, hd⟩ := List.getElem?_eq_some_iff.mp hd
  rcases Nat.lt_or_gt_of_ne hij with hlt | hgt
  · obtain ⟨rl, rr, -, -, hok⟩ := hp i j hi hj hlt l (hb ▸ hl) r (hd ▸ hr)
    exact ⟨_, PairOK.of_okPair hpl hpr hok⟩
  · obtain ⟨rl, rr, -, -, hok⟩ := hp j i hj hi hgt r (hd ▸ hr) l (hb ▸ hl)
    exact ⟨_, (PairOK.of_okPair hpr hpl hok).symm⟩

/-- Two paths that pass as a pair are disjoint or equal. -/
theorem PairOK.disjoint_or_eq (h : PairOK overlay l r) :
    MapTree.Disjoint l.path.keys r.path.keys ∨ l.path = r.path := by
  cases h with
  | disjoint h => exact .inl h
  | append hp | reduce hp | merge hp | set hp | delete hp => exact .inr hp

/-- Two operations that pass as a pair at one path are of one kind. -/
theorem PairOK.kind_eq (h : PairOK overlay l r) (hp : l.path = r.path) :
    l.kind = r.kind ∧ ∀ kind, l.kind ≠ .other kind := by
  cases h with
  | disjoint h => rw [hp] at h; exact absurd prefix_rfl h.1
  | append _ hl hr | reduce _ hl hr | merge _ hl hr | set _ hl hr | delete _ hl hr => simp [hl, hr]

def Writes (b : BranchPatch) (t : List String) : Prop := ∃ op ∈ b.patch.ops, op.path.keys = t

include h in
/-- No operation of the plan stands strictly above a shortest path of a branch. -/
theorem Merged.clear (hb : branches[i]? = some b) (ht : Top (Writes b) t) :
    ∀ e ∈ ((planEntries options.contracts branches).map ParallelPatchEntry.op).map
      (opAt options.reducers), e.Clear t := by
  intro e he
  obtain ⟨r, hr, rfl⟩ := mem_map.mp he
  obtain ⟨j, d, hd, hr⟩ := mem_planOps.mp hr
  rcases eq_or_ne i j with rfl | hij
  · rw [hb] at hd
    cases hd
    exact ht.clear ⟨r, hr, rfl⟩
  · obtain ⟨l, hl, hlt⟩ := ht.1
    obtain ⟨overlay, hp⟩ := h.pairOK hij hb hd hl hr
    intro hpr
    rcases hp.disjoint_or_eq with hdi | heq
    · exact absurd (hlt ▸ hpr) hdi.2
    · rw [← hlt, heq]
      exact prefix_rfl

include h in
/-- The merged state as a run of edits. -/
theorem Merged.run :
    Edit.run (((planEntries options.contracts branches).map ParallelPatchEntry.op).map
      (opAt options.reducers)) (some (.node base.root)) = some (some (.node merged.root)) :=
  (applyOps_ok_iff base.ok (paths_of_applyOps h.applied)).mp h.applied

theorem runUnder_ops (t : List String) (ops : List PatchOp) (o : Option Raw) :
    Edit.runUnder t (ops.map (opAt reducers)) o =
      Steps.run (fun o op => (opAt reducers op).under t o) o
        (ops.filter fun op => decide (t <+: op.path.keys)) := by
  rw [Edit.runUnder, filter_map, Steps.run, foldlM_map]
  rfl

include h in
/-- Seen from a shortest path that no other branch writes, the plan is the branch's patch. -/
theorem Merged.runUnder_eq (hb : branches[i]? = some b) (hl : l ∈ b.patch.ops)
    (hother : ¬ OtherWrites branches i l.path)
    (o : Option Raw) :
    Edit.runUnder l.path.keys (((planEntries options.contracts branches).map
        ParallelPatchEntry.op).map (opAt options.reducers)) o =
      Edit.runUnder l.path.keys (b.patch.ops.map (opAt options.reducers)) o := by
  rw [runUnder_ops, runUnder_ops, planOps_filter hb]
  intro j d hij hd r hr
  rw [decide_eq_false_iff_not]
  intro hp
  obtain ⟨overlay, hpa⟩ := h.pairOK hij.symm hb hd hl hr
  rcases hpa.disjoint_or_eq with hdi | heq
  · exact hdi.1 hp
  · exact hother ⟨j, d, hij, hd, r, hr, heq.symm⟩

/-! ## What a branch writes alone is read in the merged state -/

include h in
theorem Merged.read_alone (hb : branches[i]? = some b) (hop : op ∈ b.patch.ops)
    (hother : ¬ OtherWrites branches i op.path)
    (hal : b.patch.applyWithReducers base options.reducers = .ok alone) :
    merged.read op.path = alone.read op.path := by
  have hp := h.path_nonempty hb
  obtain ⟨t, ht, hpr⟩ := exists_top (Writes b) ⟨op, hop, rfl⟩
  obtain ⟨l, hl, rfl⟩ := ht.1
  -- Another branch at the shortest path would stand above `op`.
  have hf : ¬ OtherWrites branches i l.path := by
    rintro ⟨j, d, hij, hd, r, hr, hrl⟩
    obtain ⟨overlay, hpa⟩ := h.pairOK hij.symm hb hd hop hr
    rcases hpa.disjoint_or_eq with hdi | heq
    · exact hdi.2 (hrl ▸ hpr)
    · exact hother ⟨j, d, hij, hd, r, hr, heq.symm⟩
  have hru := (applyOps_ok_iff base.ok hp).mp (Patch.applyWithReducers_eq_ok.mp hal)
  have hm := Edit.runUnder_of_run (h.clear hb ht) h.run
  have ha := Edit.runUnder_of_run (t := l.path.keys) (fun e he => by
      obtain ⟨x, hx, rfl⟩ := mem_map.mp he
      exact ht.clear ⟨x, hx, rfl⟩) hru
  rw [h.runUnder_eq hb hl hf, ha] at hm
  have hsl := Option.some.inj hm
  obtain ⟨s, hs⟩ := hpr
  rw [State.read, State.read, read_eq_lookAt (hp op hop),
    read_eq_lookAt (hp op hop), ← hs, lookAt_append, lookAt_append, hsl]

include h in
/-- A path apart from all written paths is read as before. -/
theorem Merged.read_apart {p : Path}
    (hp : ∀ b ∈ branches, ∀ op ∈ b.patch.ops,
      pathWithin p op.path = false ∧ pathWithin op.path p = false) :
    merged.read p = base.read p := by
  cases hem : p.empty with
  | true => simp [State.read, Root.read, hem]
  | false =>
    have hd : ∀ op ∈ (planEntries options.contracts branches).map ParallelPatchEntry.op,
        MapTree.Disjoint op.path.keys p.keys := by
      intro op hop
      have hne := paths_of_applyOps h.applied op hop
      obtain ⟨i, b, hb, hop⟩ := mem_planOps.mp hop
      obtain ⟨h₁, h₂⟩ := hp b (List.mem_of_getElem? hb) op hop
      refine ⟨fun hpr => ?_, fun hpr => ?_⟩
      · rw [(Path.within_iff hem hne).mpr hpr] at h₁
        cases h₁
      · rw [(Path.within_iff hne hem).mpr hpr] at h₂
        cases h₂
    have hr := Edit.runUnder_of_run (t := p.keys) (fun e he hpr => by
        obtain ⟨op, hop, rfl⟩ := List.mem_map.mp he
        exact absurd hpr (hd op hop).1) h.run
    rw [runUnder_ops, List.filter_eq_nil_iff.mpr (fun op hop => by simpa using (hd op hop).2)] at hr
    rw [State.read, State.read, read_eq_lookAt hem, read_eq_lookAt hem]
    exact (Option.some.inj hr).symm

/-! ## When a branch's patch applies alone -/

def Patch.restrictTo (patch : Patch) (p : Path) : Patch :=
  ⟨patch.ops.filter fun op => decide (op.path = p)⟩

section

variable (hb : branches[i]? = some b)
  (hl : l ∈ b.patch.ops) (hother : OtherWrites branches i l.path)
include h hb hl hother

/-- At a path that another branch writes, all operations are at that path and of one kind. -/
theorem Merged.shared
    (hop : op ∈ (planEntries options.contracts branches).map ParallelPatchEntry.op)
    (hp : l.path.keys <+: op.path.keys ∨ op.path.keys <+: l.path.keys) :
    op.path = l.path ∧ op.kind = l.kind := by
  obtain ⟨j, d, hij, hd, r, hr, hrl⟩ := hother
  obtain ⟨k, c, hc, hop⟩ := mem_planOps.mp hop
  -- Compare with `l` when `op` is of another branch, else with `r`.
  rcases eq_or_ne k i with rfl | hki
  · rw [hb] at hc
    cases hc
    obtain ⟨_, hlr⟩ := h.pairOK hij.symm hb hd hl hr
    obtain ⟨_, hpa⟩ := h.pairOK hij.symm hb hd hop hr
    rcases hpa.disjoint_or_eq with hdi | heq
    · rw [hrl] at hdi
      exact absurd hp (not_or.mpr ⟨hdi.2, hdi.1⟩)
    · exact ⟨heq.trans hrl, (hpa.kind_eq heq).1.trans (hlr.kind_eq hrl.symm).1.symm⟩
  · obtain ⟨_, hpa⟩ := h.pairOK hki.symm hb hc hl hop
    rcases hpa.disjoint_or_eq with hdi | heq
    · exact absurd hp (not_or.mpr ⟨hdi.1, hdi.2⟩)
    · exact ⟨heq.symm, (hpa.kind_eq heq).1.symm⟩

omit h hl hother in
theorem mem_planOps_of_branch (hop : op ∈ b.patch.ops) :
    op ∈ (planEntries contracts branches).map ParallelPatchEntry.op :=
  mem_planOps.mpr ⟨i, b, hb, hop⟩

/-- A path that another branch writes too is a shortest path of the branch. -/
theorem Merged.shared_top : Top (Writes b) l.path.keys := by
  refine ⟨⟨l, hl, rfl⟩, ?_⟩
  rintro u ⟨op, hop, rfl⟩ hp
  rw [(h.shared hb hl hother (mem_planOps_of_branch hb hop) (.inr hp)).1]

/-- Seen from a shared path, the branch's patch is its restriction to that path. -/
theorem Merged.runUnder_restrict (o : Option Raw) :
    Edit.runUnder l.path.keys ((b.patch.restrictTo l.path).ops.map (opAt options.reducers)) o =
      Edit.runUnder l.path.keys (b.patch.ops.map (opAt options.reducers)) o := by
  rw [runUnder_ops, runUnder_ops, Patch.restrictTo, filter_filter]
  congr 1
  refine filter_congr fun op hop => ?_
  by_cases hp : l.path.keys <+: op.path.keys
  · have heq := (h.shared hb hl hother (mem_planOps_of_branch hb hop) (.inl hp)).1
    simp [heq]
  · simp [hp]

/-- The restriction to a shared path applies when it does at the path. -/
theorem Merged.restrict_applies :
    (∃ s, (b.patch.restrictTo l.path).applyWithReducers base options.reducers = .ok s) ↔
      (Edit.runUnder l.path.keys (b.patch.ops.map (opAt options.reducers))
        (lookAt l.path.keys (some (.node base.root)))).isSome := by
  have hsu : ∀ op ∈ (b.patch.restrictTo l.path).ops, op ∈ b.patch.ops ∧ op.path = l.path := by
    intro op hop
    simpa [Patch.restrictTo] using hop
  have hp : ∀ op ∈ (b.patch.restrictTo l.path).ops, op.path.empty = false :=
    fun op hop => h.path_nonempty hb op (hsu op hop).1
  have hc : ∀ e ∈ (b.patch.restrictTo l.path).ops.map (opAt options.reducers),
      e.path = l.path.keys := by
    intro e he
    obtain ⟨op, hop, rfl⟩ := mem_map.mp he
    exact congrArg Path.keys (hsu op hop).2
  rw [← h.runUnder_restrict hb hl hother]
  constructor
  · rintro ⟨s, hs⟩
    have hr := (applyOps_ok_iff base.ok hp).mp (Patch.applyWithReducers_eq_ok.mp hs)
    rw [Edit.runUnder_of_run (fun e he _ => hc e he ▸ prefix_rfl) hr]
    rfl
  · intro hso
    have hr : (Edit.run ((b.patch.restrictTo l.path).ops.map (opAt options.reducers))
        (some (.node base.root))).isSome := by
      refine Edit.run_isSome (T := fun t => t = l.path.keys)
        (fun e he => ⟨_, rfl, (hc e he) ▸ prefix_rfl⟩) ?_ ?_ ?_
      · rintro t rfl e he -
        exact (hc e he) ▸ prefix_rfl
      · rintro t rfl e he hpr hcr
        obtain ⟨op, hop, rfl⟩ := mem_map.mp he
        exact Edit.blockedAt_of_run (h.clear hb (h.shared_top hb hl hother)) h.run
          (mem_map_of_mem (mem_planOps_of_branch hb (hsu op hop).1)) hpr hcr
      · rintro t rfl
        exact hso
    obtain ⟨root, hro⟩ := (applyOps_isOk_iff base.ok hp).mpr hr
    exact ⟨⟨root, rootOK_applyOps base.ok hro⟩, Patch.applyWithReducers_eq_ok.mpr hro⟩

omit h hb hl hother in
theorem opAt_under (h : op.path = p) : (opAt reducers op).under p.keys = opUpdate reducers op :=
  Edit.under_self (e := opAt reducers op) (congrArg Path.keys h)

omit hb hl hother in
/-- Every operation of a successful merge updates some slot. -/
theorem Merged.updates
    (hop : op ∈ (planEntries options.contracts branches).map ParallelPatchEntry.op) :
    ∃ o, (opUpdate options.reducers op o).isSome := by
  obtain ⟨o, ho⟩ := step_of_run h.run (mem_map_of_mem hop)
  have hu := ((Edit.apply_isSome (t := op.path.keys) prefix_rfl o).mp ho).2
  rw [opAt_under rfl] at hu
  exact ⟨_, hu⟩

/-- The first operation at a shared path updates the base's slot. -/
theorem Merged.first_update : ∃ op, op.kind = l.kind ∧ op.path = l.path ∧
      (opUpdate options.reducers op (lookAt l.path.keys (some (.node base.root)))).isSome := by
  have hru := Edit.runUnder_of_run (h.clear hb (h.shared_top hb hl hother)) h.run
  rw [runUnder_ops] at hru
  have hlm : l ∈ ((planEntries options.contracts branches).map ParallelPatchEntry.op).filter
      fun op => decide (l.path.keys <+: op.path.keys) := by
    rw [mem_filter]
    exact ⟨mem_planOps_of_branch hb hl, by simp⟩
  cases ho : ((planEntries options.contracts branches).map ParallelPatchEntry.op).filter
      fun op => decide (l.path.keys <+: op.path.keys) with
  | nil => rw [ho] at hlm; cases hlm
  | cons op rest =>
    have hm : op ∈ ((planEntries options.contracts branches).map
        ParallelPatchEntry.op).filter fun op => decide (l.path.keys <+: op.path.keys) := by
      rw [ho]
      exact mem_cons_self
    rw [mem_filter, decide_eq_true_eq] at hm
    obtain ⟨hp, hk⟩ := h.shared hb hl hother hm.1 (.inl hm.2)
    rw [ho, run_cons, opAt_under hp] at hru
    obtain ⟨r, hr, -⟩ := Option.bind_eq_some_iff.mp hru
    exact ⟨op, hk, hp, by rw [hr]; rfl⟩

omit h hb hl hother in
/-- A step that depends on the operation alone succeeds everywhere if it does somewhere. -/
theorem opUpdate_const (hk : op.kind = .set ∨ op.kind = .delete) :
    opUpdate reducers op o = opUpdate reducers op o' := by
  rcases hk with hk | hk
  · simp [opUpdate, hk, setUpdate]
  · simp [opUpdate, hk, deleteUpdate]

omit h hb hl hother in
/-- A merge fails on a leaf only. -/
theorem opUpdate_merge (hk : op.kind = .merge) (ho : ∀ a, o ≠ some (.leaf a))
    (hs : ∃ o', (opUpdate reducers op o').isSome) :
    ∃ kids, opUpdate reducers op o = some (some (.node kids)) := by
  obtain ⟨o', hs⟩ := hs
  cases hv : op.value with
  | leaf a => simp [opUpdate, hk, hv, Raw.asMap] at hs
  | node overlay =>
    obtain ⟨kids, hki⟩ := mergeSlot_node_isNode o overlay
    refine ⟨kids, ?_⟩
    rcases o with _ | (a | old)
    · simp [opUpdate, hk, hv, Raw.asMap, mergeUpdate, MapTree.mergeOver, hki]
    · exact absurd rfl (ho a)
    · simp [opUpdate, hk, hv, Raw.asMap, mergeUpdate, MapTree.mergeOver, hki]

/-- Sets, deletes and merges at a shared path apply without the other branches. -/
theorem Merged.shared_applies (hk : l.kind ≠ .append ∧ l.kind ≠ .reduce) :
    (Edit.runUnder l.path.keys (b.patch.ops.map (opAt options.reducers))
      (lookAt l.path.keys (some (.node base.root)))).isSome := by
  have hos : ∀ op ∈ b.patch.ops.filter fun op => decide (l.path.keys <+: op.path.keys),
      op ∈ (planEntries options.contracts branches).map ParallelPatchEntry.op ∧
        op.path = l.path ∧ op.kind = l.kind := by
    intro op hop
    rw [mem_filter, decide_eq_true_eq] at hop
    have hm : op ∈ (planEntries options.contracts branches).map ParallelPatchEntry.op :=
      mem_planOps_of_branch hb hop.1
    exact ⟨hm, h.shared hb hl hother hm (.inl hop.2)⟩
  have hc : l.kind = .set ∨ l.kind = .delete →
      (Edit.runUnder l.path.keys (b.patch.ops.map (opAt options.reducers))
        (lookAt l.path.keys (some (.node base.root)))).isSome := by
    intro hki
    rw [runUnder_ops]
    refine run_isSome (P := fun _ => True) (fun op hop o _ => ?_) trivial
    obtain ⟨hm, hp, hko⟩ := hos op hop
    obtain ⟨o', ho'⟩ := h.updates hm
    rw [opAt_under hp, opUpdate_const (hko ▸ hki)]
    obtain ⟨r, hr⟩ := Option.isSome_iff_exists.mp ho'
    exact ⟨r, hr, trivial⟩
  cases hki : l.kind with
  | set => exact hc (.inl hki)
  | delete => exact hc (.inr hki)
  | append => exact absurd hki hk.1
  | reduce => exact absurd hki hk.2
  | other kind =>
    obtain ⟨j, d, hij, hd, r, hr, hrl⟩ := hother
    obtain ⟨_, hpa⟩ := h.pairOK hij.symm hb hd hl hr
    exact absurd hki ((hpa.kind_eq hrl.symm).2 kind)
  | merge =>
    rw [runUnder_ops]
    refine run_isSome (P := fun o => ∀ a, o ≠ some (.leaf a)) (fun op hop o ho => ?_) ?_
    · obtain ⟨hm, hp, hko⟩ := hos op hop
      obtain ⟨kids, hkd⟩ := opUpdate_merge (hko.trans hki) ho (h.updates hm)
      rw [opAt_under hp]
      exact ⟨_, hkd, fun a he => by cases he⟩
    · obtain ⟨op, hko, -, hs⟩ := h.first_update hb hl hother
      intro a ha
      rw [ha, opUpdate, hko, hki] at hs
      cases hv : op.value with
      | leaf c => simp [hv, Raw.asMap] at hs
      | node kids => simp [hv, Raw.asMap, mergeUpdate, MapTree.mergeOver] at hs

omit hl hother in
/-- A branch's patch applies alone exactly when its appends and reductions at paths that other
branches write too apply there by themselves. -/
theorem Merged.alone_iff : (∃ alone, b.patch.applyWithReducers base options.reducers = .ok alone) ↔
      ∀ op ∈ b.patch.ops, OtherWrites branches i op.path → op.kind = .append ∨ op.kind = .reduce →
        ∃ s, (b.patch.restrictTo op.path).applyWithReducers base options.reducers = .ok s := by
  have hp := h.path_nonempty hb
  have hc : ∀ t, Top (Writes b) t → ∀ e ∈ b.patch.ops.map (opAt options.reducers), e.Clear t := by
    intro t ht e he
    obtain ⟨op, hop, rfl⟩ := mem_map.mp he
    exact ht.clear ⟨op, hop, rfl⟩
  constructor
  · rintro ⟨alone, ha⟩ op hop hother -
    have hr := (applyOps_ok_iff base.ok hp).mp (Patch.applyWithReducers_eq_ok.mp ha)
    rw [h.restrict_applies hb hop hother,
      Edit.runUnder_of_run (hc _ (h.shared_top hb hop hother)) hr]
    rfl
  · intro hs
    have hr : (Edit.run (b.patch.ops.map (opAt options.reducers))
        (some (.node base.root))).isSome := by
      refine Edit.run_isSome (T := Top (Writes b)) ?_ hc ?_ ?_
      · intro e he
        obtain ⟨op, hop, rfl⟩ := mem_map.mp he
        exact exists_top (Writes b) ⟨op, hop, rfl⟩
      · intro t ht e he hpr hcr
        obtain ⟨op, hop, rfl⟩ := mem_map.mp he
        exact Edit.blockedAt_of_run (h.clear hb ht) h.run
          (mem_map_of_mem (mem_planOps_of_branch hb hop)) hpr hcr
      · intro t ht
        obtain ⟨l, hl, rfl⟩ := ht.1
        by_cases hother : OtherWrites branches i l.path
        · by_cases hk : l.kind = .append ∨ l.kind = .reduce
          · exact (h.restrict_applies hb hl hother).mp (hs l hl hother hk)
          · exact h.shared_applies hb hl hother (not_or.mp hk)
        · rw [← h.runUnder_eq hb hl hother, Edit.runUnder_of_run (h.clear hb ht) h.run]
          rfl
    obtain ⟨root, hro⟩ := (applyOps_isOk_iff base.ok hp).mpr hr
    exact ⟨⟨root, rootOK_applyOps base.ok hro⟩, Patch.applyWithReducers_eq_ok.mpr hro⟩

end

/-! ## Appends within the collection limit -/

/-- How many items an append of the value adds at most. -/
def appendSize (v : Raw) : Nat := max 1 ((v.sliceView.map fun p => p.2.length).getD 0)

/-- The number of items of the slice in a slot. -/
def slotSize (o : Option Raw) : Nat := ((o.bind Raw.sliceView).map fun p => p.2.length).getD 0

theorem one_le_appendSize (v : Raw) : 1 ≤ appendSize v := Nat.le_max_left ..

theorem length_le_appendSize {p : GoType × List Raw} (h : v.sliceView = some p) :
    p.2.length ≤ appendSize v := by
  rw [appendSize, h]
  exact Nat.le_max_right ..

theorem length_anySlice {items : List Raw} (h : anySlice v = some items) :
    items.length ≤ appendSize v := by
  rw [anySlice] at h
  cases hv : v.sliceView with
  | none => simp [hv] at h
  | some p =>
    simp only [hv] at h
    split at h
    · cases h
    · cases h
      exact length_le_appendSize hv

theorem slotSize_slice (elem : GoType) (items : List Raw) :
    slotSize (some (Raw.slice elem items)) = items.length := rfl

/-- An append to a slice succeeds within the collection limit. -/
theorem appendValue_fits {existing : Raw} {elem : GoType} {left : List Raw}
    (hvi : existing.sliceView = some (elem, left))
    (hs : left.length + appendSize value ≤ maxCollectionSize) :
    ∃ elem' items, appendValue existing value = .ok (Raw.slice elem' items) ∧
      items.length ≤ left.length + appendSize value := by
  have hr : ∀ n, n ≤ appendSize value → ¬ n > maxInt - left.length := by
    intro n hn
    simp only [maxCollectionSize, maxInt] at hs ⊢
    omega
  have ho := one_le_appendSize value
  have hi : ∃ items, appendItems existing value = .ok (Raw.slice .any items) ∧
      items.length ≤ left.length + appendSize value := by
    have ha : anySlice existing = some left := by
      simp only [anySlice, hvi]
      rw [if_neg (by omega)]
    have hri : ((anySlice value).getD [value]).length ≤ appendSize value := by
      cases hv : anySlice value with
      | none => exact ho
      | some right => exact length_anySlice hv
    simp only [appendItems, ha]
    rw [if_neg (hr _ hri)]
    refine ⟨_, rfl, ?_⟩
    rw [length_append]
    omega
  simp only [appendValue, hvi]
  split
  · have hri : ((value.sliceView.map Prod.snd).getD []).length ≤ appendSize value := by
      cases hv : value.sliceView with
      | none => exact Nat.zero_le _
      | some p => exact length_le_appendSize hv
    rw [if_neg (hr _ hri)]
    refine ⟨elem, _, rfl, ?_⟩
    rw [length_append]
    omega
  · split
    · refine ⟨elem, _, rfl, ?_⟩
      rw [length_append, length_singleton]
      omega
    · obtain ⟨items, hok, hle⟩ := hi
      exact ⟨.any, items, hok, hle⟩

/-- An append leaves a slice. -/
theorem appendTo_slice (h : appendTo o value = .ok v) : v.sliceView.isSome := by
  cases o with
  | none =>
    cases h
    rw [normalizeAppendSeed]
    split
    next ha =>
      cases hvi : value.sliceView with
      | none => simp [anySlice, hvi] at ha
      | some p => rfl
    · rfl
  | some existing =>
    have hi : ∀ v, appendItems existing value = .ok v → v.sliceView.isSome := by
      intro v hv
      rw [appendItems] at hv
      cases ha : anySlice existing with
      | none => simp [ha] at hv
      | some left =>
        simp only [ha] at hv
        split at hv
        · cases hv
        · cases hv; rfl
    rw [appendTo, appendValue] at h
    split at h
    · exact hi v h
    · split at h
      · simp only at h
        split at h
        · cases h
        · cases h; rfl
      · split at h
        · cases h; rfl
        · exact hi v h

theorem appendTo_existing {existing : Raw} (h : appendTo (some existing) value = .ok v) :
    existing.sliceView.isSome := by
  cases hv : existing.sliceView with
  | some p => rfl
  | none => simp [appendTo, appendValue, hv, appendItems, anySlice] at h

theorem appendTo_fits (ho : ∀ v, o = some v → v.sliceView.isSome)
    (hs : slotSize o + appendSize value ≤ maxCollectionSize) :
    ∃ v, appendTo o value = .ok v ∧ slotSize (some v) ≤ slotSize o + appendSize value := by
  cases o with
  | none =>
    refine ⟨normalizeAppendSeed value, rfl, ?_⟩
    rw [normalizeAppendSeed]
    split
    · cases hv : value.sliceView with
      | none => simp [slotSize, hv]
      | some p =>
        have hle := length_le_appendSize hv
        simp only [slotSize, Option.bind_some, hv, Option.map_some, Option.getD_some]
        omega
    · have hon := one_le_appendSize value
      rw [slotSize_slice, length_singleton]
      omega
  | some existing =>
    obtain ⟨⟨elem, left⟩, hv⟩ := Option.isSome_iff_exists.mp (ho existing rfl)
    have hsl : slotSize (some existing) = left.length := by
      simp [slotSize, hv]
    rw [hsl] at hs ⊢
    obtain ⟨elem', items, hok, hle⟩ := appendValue_fits hv hs
    exact ⟨_, hok, by rw [slotSize_slice]; exact hle⟩

/-- Appends at one path succeed within the collection limit. -/
theorem appends_fit (hs : p.segments.isEmpty = false)
    (hop : ∀ op ∈ ops, op.kind = .append ∧ op.path = p) (ho : ∀ v, o = some v → v.sliceView.isSome)
    (hsi : slotSize o + (ops.map fun op => appendSize op.value).sum ≤ maxCollectionSize) :
    (Steps.run (fun o op => opUpdate reducers op o) o ops).isSome := by
  induction ops generalizing o with
  | nil => rfl
  | cons op ops ih =>
    obtain ⟨hk, hp⟩ := hop op mem_cons_self
    rw [map_cons, sum_cons] at hsi
    obtain ⟨v, hv, hvs⟩ := appendTo_fits ho (show slotSize o + appendSize op.value ≤ _ by omega)
    have hst : opUpdate reducers op o = some (some v) := by
      simp [opUpdate, hk, hv, Except.toOption, setUpdate, hp, hs]
    rw [run_cons, hst, Option.bind_some]
    refine ih (forall_mem_cons.mp hop).2 ?_ (by omega)
    intro w hw
    cases hw
    exact appendTo_slice hv

include h in
/-- The appends of a branch at a shared path apply by themselves within the collection limit. -/
theorem Merged.appends_apply {i : Nat}
    {b : BranchPatch} (hb : branches[i]? = some b) {l : PatchOp} (hl : l ∈ b.patch.ops)
    (hother : OtherWrites branches i l.path) (hk : l.kind = .append)
    (hs : slotSize (base.read l.path) +
      ((b.patch.restrictTo l.path).ops.map fun op => appendSize op.value).sum ≤ maxCollectionSize) :
    ∃ s, (b.patch.restrictTo l.path).applyWithReducers base options.reducers = .ok s := by
  have hpa := h.path_nonempty hb l hl
  have hos : ∀ op ∈ (b.patch.restrictTo l.path).ops, op.kind = .append ∧ op.path = l.path := by
    intro op hop
    simp only [Patch.restrictTo, mem_filter, decide_eq_true_eq] at hop
    have hpr : l.path.keys <+: op.path.keys := by simp [hop.2]
    exact ⟨(h.shared hb hl hother (mem_planOps_of_branch hb hop.1) (.inl hpr)).2.trans hk, hop.2⟩
  have hse : l.path.segments.isEmpty = false := by
    cases he : l.path.segments.isEmpty with
    | false => rfl
    | true =>
      obtain ⟨o, ho⟩ := h.updates (mem_planOps_of_branch hb hl)
      rw [opUpdate, hk] at ho
      obtain ⟨r, hr⟩ := Option.isSome_iff_exists.mp ho
      obtain ⟨v, hv, hst⟩ := Option.bind_eq_some_iff.mp hr
      rw [setUpdate, if_pos he] at hst
      cases v with
      | leaf a => cases hst
      | node kids =>
        have hsl := appendTo_slice (Outcome.toOption_eq_some.mp hv)
        cases hsl
  have hso : ∀ v : Raw, lookAt l.path.keys (some (.node base.root)) = some v →
      v.sliceView.isSome := by
    intro v hv
    obtain ⟨op, hko, -, hsm⟩ := h.first_update hb hl hother
    rw [hv, opUpdate, hko, hk] at hsm
    obtain ⟨r, hr⟩ := Option.isSome_iff_exists.mp hsm
    obtain ⟨w, hw, -⟩ := Option.bind_eq_some_iff.mp hr
    exact appendTo_existing (Outcome.toOption_eq_some.mp hw)
  rw [h.restrict_applies hb hl hother, ← h.runUnder_restrict hb hl hother, runUnder_ops,
    filter_eq_self.mpr fun op hop => by simp [(hos op hop).2]]
  rw [State.read, read_eq_lookAt hpa] at hs
  -- Every operation is at the path itself, so the run under it is the run of the updates.
  have hc : ∀ (ops : List PatchOp) (o : Option Raw), (∀ op ∈ ops, op.path = l.path) →
      Steps.run (fun o op => (opAt options.reducers op).under l.path.keys o) o ops =
        Steps.run (fun o op => opUpdate options.reducers op o) o ops := by
    intro ops o hp
    induction ops generalizing o with
    | nil => rfl
    | cons op ops ih =>
      rw [run_cons, run_cons, opAt_under (hp op mem_cons_self)]
      congr 1
      funext o'
      exact ih o' (forall_mem_cons.mp hp).2
  rw [hc _ _ fun op hop => (hos op hop).2]
  exact appends_fit hse hos hso hs

end Plan

/-- The operations of the branch at a shared path, where they can fail without the other
branches: it reduces there, or its appends may pass the collection limit. -/
def SharedMayFail (base : State) (branches : List BranchPatch) (i : Nat) (b : BranchPatch)
    (op : PatchOp) : Prop :=
  OtherWrites branches i op.path ∧
    (op.kind = .reduce ∨ op.kind = .append ∧
      maxCollectionSize < slotSize (base.read op.path) +
        ((b.patch.restrictTo op.path).ops.map fun x => appendSize x.value).sum)

/-- Branch isolation.  What a branch writes at a path of its own is what it writes alone; its
patch applies alone exactly when its reductions, and its appends beyond the collection limit,
at shared paths apply there by themselves; paths apart from all writes are left alone. -/
theorem mergeParallelPatches_isolated {engine : SchemaEngine} {orders : RangeOrders} {base : State}
    {branches : List BranchPatch} {options : ParallelMergeOptions} {merged : State}
    (hmerge : mergeParallelPatches engine orders base branches options = .ok merged) :
    (∀ (i : Nat) (b : BranchPatch), branches[i]? = some b →
      (∀ op ∈ b.patch.ops, ¬ OtherWrites branches i op.path → ∀ alone,
        b.patch.applyWithReducers base options.reducers = .ok alone →
        merged.read op.path = alone.read op.path) ∧
      ((∃ alone, b.patch.applyWithReducers base options.reducers = .ok alone) ↔
        ∀ op ∈ b.patch.ops, SharedMayFail base branches i b op →
          ∃ s, (b.patch.restrictTo op.path).applyWithReducers base options.reducers = .ok s)) ∧
    ∀ p : Path, (∀ b ∈ branches, ∀ op ∈ b.patch.ops,
        pathWithin p op.path = false ∧ pathWithin op.path p = false) →
      merged.read p = base.read p := by
  rcases mergeParallelPatches_ok_iff.mp hmerge with ⟨rfl, rfl⟩ | ⟨-, h⟩
  · exact ⟨fun i b hb => by simp at hb, fun _ _ => rfl⟩
  · refine ⟨fun i b hb => ⟨fun op hop hother alone ha => h.read_alone hb hop hother ha, ?_⟩,
      fun p hp => h.read_apart hp⟩
    rw [h.alone_iff hb]
    constructor
    · rintro hal op hop ⟨hother, hk⟩
      exact hal op hop hother (hk.elim .inr fun hk => .inl hk.1)
    · intro hal op hop hother hk
      rcases hk with hk | hk
      · rcases Nat.lt_or_ge maxCollectionSize (slotSize (base.read op.path) +
          ((b.patch.restrictTo op.path).ops.map fun x => appendSize x.value).sum) with hlt | hge
        · exact hal op hop ⟨hother, .inr ⟨hk, hlt⟩⟩
        · exact h.appends_apply hb hop hother hk hge
      · exact hal op hop ⟨hother, .inl hk⟩

/-! ## A reducer that needs the other branch -/

/-- A reducer for a count that has to start at 1. -/
def needsFirst : Reducer where
  reduce current incoming :=
    match current, incoming with
    | .leaf .null, .leaf (.int n) => if n = 1 then .ok incoming else .error "count starts at 1"
    | .leaf .null, _ => .error "count starts at 1"
    | _, _ => .ok incoming
  valid := by
    intro current incoming v _ hi h
    split at h
    · split at h
      · cases h; exact hi
      · cases h
    · cases h
    · cases h; exact hi

/-- A reduce with `needsFirst` at `shared.total`. -/
def reduceTotal (n : Int) : PatchOp :=
  ⟨.reduce, ⟨"shared", ["total"], by decide⟩, Raw.int n, "needsFirst", rfl⟩

/-- The second branch also sets `shared.own`. -/
def setOwn : PatchOp := ⟨.set, ⟨"shared", ["own"], by decide⟩, Raw.int 5, "", rfl⟩

/-- Two branches that reduce at one path. -/
def reducingBranches : List BranchPatch :=
  [⟨"t1", "a", 0, ⟨[reduceTotal 1]⟩⟩, ⟨"t2", "b", 1, ⟨[reduceTotal 2, setOwn]⟩⟩]

def needsFirstOptions : ParallelMergeOptions :=
  { contracts := .empty, schemas := .empty,
    reducers := fun name => if name = "needsFirst" then some needsFirst else none }

/-- What the two branches leave. -/
def reducedState : State :=
  ⟨[("internal", .node []), ("runtime", .node []), ("scopes", .node []),
    ("shared", .node [("own", Raw.int 5), ("total", Raw.int 2)])], by decide⟩

theorem mergeParallelPatches_isolated_reducing :
    mergeParallelPatches .accepting .ascending newState reducingBranches
        needsFirstOptions = .ok reducedState ∧
      reducedState.read ⟨"scopes", ["x"], by decide⟩ =
        newState.read ⟨"scopes", ["x"], by decide⟩ := by
  have hm : mergeParallelPatches .accepting .ascending newState reducingBranches
      needsFirstOptions = .ok reducedState := by rfl
  exact ⟨hm, (mergeParallelPatches_isolated hm).2 _ (by decide +kernel)⟩

theorem reducing_branch_fails_alone :
    mergeParallelPatches .accepting .ascending newState reducingBranches
        needsFirstOptions = .ok reducedState ∧
      ∃ b, reducingBranches[1]? = some b ∧ setOwn ∈ b.patch.ops ∧
        ¬ OtherWrites reducingBranches 1 setOwn.path ∧
        ¬ ∃ alone, b.patch.applyWithReducers newState needsFirstOptions.reducers = .ok alone := by
  refine ⟨by rfl, _, rfl, by simp, ?_, ?_⟩
  · rintro ⟨j, b, hj, hb, op, hop, hp⟩
    match j with
    | 0 =>
      cases hb
      rw [mem_singleton] at hop
      subst hop
      exact absurd hp (by decide)
    | 1 => exact hj rfl
    | j + 2 => cases hb
  · rintro ⟨alone, ha⟩
    rw [Patch.applyWithReducers_eq_ok] at ha
    cases ha

end WeaveFlow
