import WeaveFlow.State.ParallelMerge

/-!
# What a successful merge did

`mergeParallelPatches_ok_iff` takes a successful merge apart: every branch is valid, no
pair of operations of different branches is rejected, the operations applied one after the
other give the result, and the result has no issues.

The operations are those of the branches in the order of their keys, each branch in one
piece (`sortEntries_allEntries`).  A pair that is not rejected has disjoint paths, or the
same path and the same kind of operation (`PairOK`).
-/

namespace WeaveFlow

open WeaveFlow.Path Raw Outcome KeySort List

/-! ## Taking a merge apart -/

/-- The entries of the branches, with no check. -/
def allEntries (contracts : SortedMap String Contract) :
    Nat → List BranchPatch → List ParallelPatchEntry
  | _, [] => []
  | branchIdx, branch :: rest =>
    branchEntries contracts branchIdx branch ++ allEntries contracts (branchIdx + 1) rest

variable {left right : ParallelPatchEntry} {contracts : SortedMap String Contract} {overlay : Bool}
  {engine : SchemaEngine} {b : BranchPatch} {i : Nat} {branches : List BranchPatch}
  {orders : RangeOrders}

theorem collectEntries_ok_iff : collectEntries engine contracts n branches = .ok entries ↔
      (∀ b ∈ branches, validateBranch engine contracts b = .ok ()) ∧
        entries = allEntries contracts n branches := by
  induction branches generalizing n entries with
  | nil =>
    simp only [collectEntries, allEntries, Except.ok.injEq, not_mem_nil, false_implies,
      implies_true, true_and]
    exact eq_comm
  | cons b branches ih =>
    rw [collectEntries, allEntries, forall_mem_cons]
    cases hb : validateBranch engine contracts b with
    | error e =>
      constructor
      · intro h; cases h
      · rintro ⟨⟨h, -⟩, -⟩; cases h
    | ok u =>
      cases hr : collectEntries engine contracts (n + 1) branches with
      | error e =>
        constructor
        · intro h; cases h
        · rintro ⟨⟨-, h⟩, -⟩
          have := (ih (n := n + 1)).mpr ⟨h, rfl⟩
          simp [hr] at this
      | ok es =>
        obtain ⟨ha, rfl⟩ := ih.mp hr
        constructor
        · intro h
          cases h
          exact ⟨⟨rfl, ha⟩, rfl⟩
        · rintro ⟨-, rfl⟩
          rfl

/-- The pair of entries at two positions passes. -/
def PairPasses (orders : RangeOrders) (i j : Nat) (left right : ParallelPatchEntry) : Prop :=
  left.branchIdx ≠ right.branchIdx →
    validateParallelPatchPair (orders.overlay i j false) (orders.overlay i j true) left right =
      .ok ()

theorem validateAgainst_ok_iff : validateAgainst orders i left j rest = .ok () ↔
      ∀ b right, rest[b]? = some right → PairPasses orders i (j + b) left right := by
  induction rest generalizing j with
  | nil => simp [validateAgainst]
  | cons r rest ih =>
    have hh : (validateAgainst orders i left j (r :: rest) = .ok ()) ↔
        PairPasses orders i j left r ∧ validateAgainst orders i left (j + 1) rest = .ok () := by
      rw [validateAgainst, PairPasses]
      by_cases hi : left.branchIdx ≠ r.branchIdx
      · simp [hi, bind_eq_ok, Unique.exists_iff]
      · simp only [hi, if_false, false_implies, true_and]
    rw [hh, ih]
    constructor
    · rintro ⟨h0, hr⟩ b right hb
      cases b with
      | zero => cases hb; exact h0
      | succ b =>
        have := hr b right hb
        rwa [Nat.add_right_comm] at this
    · intro h
      refine ⟨h 0 r rfl, fun b right hb => ?_⟩
      have := h (b + 1) right hb
      rwa [← Nat.add_assoc, Nat.add_right_comm] at this

theorem validateParallelPatchConflicts_ok_iff :
    validateParallelPatchConflicts orders i entries = .ok () ↔
      ∀ a b left right, a < b → entries[a]? = some left → entries[b]? = some right →
        PairPasses orders (i + a) (i + b) left right := by
  induction entries generalizing i with
  | nil => simp [validateParallelPatchConflicts]
  | cons e entries ih =>
    have hh : (validateParallelPatchConflicts orders i (e :: entries) = .ok ()) ↔
        validateAgainst orders i e (i + 1) entries = .ok () ∧
          validateParallelPatchConflicts orders (i + 1) entries = .ok () := by
      simp [validateParallelPatchConflicts, bind_eq_ok, Unique.exists_iff]
    rw [hh, ih, validateAgainst_ok_iff]
    constructor
    · rintro ⟨h0, hr⟩ a b left right hab ha hb
      cases b with
      | zero => omega
      | succ b =>
        cases a with
        | zero =>
          cases ha
          have := h0 b right hb
          rwa [Nat.add_assoc, Nat.add_comm 1 b] at this
        | succ a =>
          have := hr a b left right (by omega) ha hb
          rwa [Nat.add_assoc, Nat.add_assoc, Nat.add_comm 1 a, Nat.add_comm 1 b] at this
    · intro h
      constructor
      · intro b right hb
        have := h 0 (b + 1) e right (by omega) rfl hb
        rwa [Nat.add_comm b 1, ← Nat.add_assoc] at this
      · intro a b left right hab ha hb
        have := h (a + 1) (b + 1) left right (by omega) ha hb
        rwa [Nat.add_comm a 1, Nat.add_comm b 1, ← Nat.add_assoc, ← Nat.add_assoc] at this

/-- The entries in the order in which they are checked and applied. -/
def planEntries (contracts : SortedMap String Contract) (branches : List BranchPatch) :
    List ParallelPatchEntry :=
  sortEntries (allEntries contracts 0 branches)

/-- What a merge of at least one branch has checked and computed. -/
structure Merged (engine : SchemaEngine) (orders : RangeOrders) (base : State)
    (branches : List BranchPatch) (options : ParallelMergeOptions) (merged : State) : Prop where
  valid : ∀ b ∈ branches, validateBranch engine options.contracts b = .ok ()
  noConflict : ∀ a b left right, a < b →
    (planEntries options.contracts branches)[a]? = some left →
    (planEntries options.contracts branches)[b]? = some right →
    PairPasses orders a b left right
  applied : Root.applyOps options.reducers base.root
    ((planEntries options.contracts branches).map ParallelPatchEntry.op) = .ok merged.root
  noIssues : validateParallelMergeResult engine orders merged
    (planEntries options.contracts branches) options = []

theorem mergeParallelPatches_ok_iff :
    mergeParallelPatches engine orders base branches options = .ok merged ↔
      (branches = [] ∧ merged = base) ∨
        (branches ≠ [] ∧ Merged engine orders base branches options merged) := by
  cases branches with
  | nil =>
    simp only [mergeParallelPatches, isEmpty_nil, if_true, State.clone_eq, Except.ok.injEq,
      true_and, ne_eq, not_true_eq_false, false_and, or_false]
    exact eq_comm
  | cons b branches =>
    simp only [mergeParallelPatches, isEmpty_cons, Bool.false_eq_true, if_false,
      State.clone_eq, normalizeBranchPatchEntries, reduceCtorEq, false_and, ne_eq,
      not_false_eq_true, true_and, false_or]
    constructor
    · intro h
      obtain ⟨entries, he, h⟩ := of_bind h
      obtain ⟨all, ha, hs⟩ := of_bind he
      cases hs
      obtain ⟨hv, rfl⟩ := collectEntries_ok_iff.mp ha
      obtain ⟨u, hc, h⟩ := of_bind h
      cases hap : Patch.applyWithReducers
          ⟨(sortEntries (allEntries options.contracts 0 (b :: branches))).map
            ParallelPatchEntry.op⟩ base options.reducers with
      | error e => simp [hap] at h
      | ok m =>
        rw [hap] at h
        simp only at h
        split at h
        next hi =>
          cases h
          refine ⟨hv, fun a b left right => ?_, Patch.applyWithReducers_eq_ok.mp hap, hi⟩
          have := validateParallelPatchConflicts_ok_iff.mp hc a b left right
          rwa [Nat.zero_add, Nat.zero_add] at this
        · cases h
    · intro h
      refine bind_eq_ok.mpr ⟨planEntries options.contracts (b :: branches),
        bind_eq_ok.mpr ⟨_, collectEntries_ok_iff.mpr ⟨h.valid, rfl⟩, rfl⟩, ?_⟩
      refine bind_eq_ok.mpr ⟨(), ?_, ?_⟩
      · refine validateParallelPatchConflicts_ok_iff.mpr fun a b left right => ?_
        rw [Nat.zero_add, Nat.zero_add]
        exact h.noConflict a b left right
      · rw [Patch.applyWithReducers_eq_ok.mpr h.applied]
        simp only [h.noIssues]

/-! ## The order of the operations -/

/-- The comparison of two branches with their positions. -/
def branchLess (left right : BranchPatch × Nat) : Bool :=
  if left.1.order ≠ right.1.order then left.1.order < right.1.order
  else if left.1.nodeID ≠ right.1.nodeID then left.1.nodeID < right.1.nodeID
  else left.2 < right.2

/-- The branches in the order in which their operations are applied. -/
def sortedBranches (branches : List BranchPatch) : List (BranchPatch × Nat) :=
  KeySort.sort branchLess branches.zipIdx

def branchKey (p : BranchPatch × Nat) : Int ×ₗ String ×ₗ Nat :=
  toLex (p.1.order, toLex (p.1.nodeID, p.2))

def entryKey (e : ParallelPatchEntry) : Int ×ₗ String ×ₗ Nat ×ₗ Nat :=
  toLex (e.branchOrd, toLex (e.nodeID, toLex (e.branchIdx, e.opIdx)))

theorem branchLess_compares : KeySort.Compares branchLess branchKey := by
  intro a b
  simp only [branchLess, branchKey, Prod.Lex.lt_iff, ofLex_toLex]
  split
  next h => simp [h]
  next h =>
    split
    next h' => simp_all
    next h' => simp_all

theorem entryLess_compares : KeySort.Compares entryLess entryKey := by
  intro a b
  simp only [entryLess, entryKey, Prod.Lex.lt_iff, ofLex_toLex]
  split
  next h => simp [h]
  next h =>
    split
    next h' => simp_all
    next h' =>
      split
      next h'' => simp_all
      next h'' => simp_all

theorem mem_branchEntries : e ∈ branchEntries contracts i b ↔
      ∃ k op, b.patch.ops[k]? = some op ∧ e = mkEntry contracts i b k op := by
  simp only [branchEntries, mem_map, Prod.exists, mem_zipIdx_iff_getElem?]
  constructor
  · rintro ⟨op, k, hop, rfl⟩
    exact ⟨k, op, hop, rfl⟩
  · rintro ⟨k, op, hop, rfl⟩
    exact ⟨op, k, hop, rfl⟩

theorem allEntries_eq (contracts : SortedMap String Contract) (n : Nat)
    (branches : List BranchPatch) :
    allEntries contracts n branches =
      (branches.zipIdx n).flatMap fun p => branchEntries contracts p.2 p.1 := by
  induction branches generalizing n with
  | nil => rfl
  | cons b branches ih => rw [allEntries, ih, zipIdx_cons, flatMap_cons]

/-- Entries of one branch are in the order of their operations. -/
theorem pairwise_branchEntries (contracts : SortedMap String Contract) (i : Nat) (b : BranchPatch) :
    (branchEntries contracts i b).Pairwise fun x y => entryKey x ≤ entryKey y := by
  rw [branchEntries, pairwise_map]
  refine (pairwise_zipIdx b.patch.ops 0).imp fun {x y} hxy => ?_
  simp only [entryKey, mkEntry, Prod.Lex.le_iff, ofLex_toLex]
  exact .inr ⟨trivial, .inr ⟨trivial, .inr ⟨trivial, hxy.le⟩⟩⟩

/-- The operations are those of the branches in key order, each branch in one piece. -/
theorem planEntries_eq (contracts : SortedMap String Contract) (branches : List BranchPatch) :
    planEntries contracts branches =
      (sortedBranches branches).flatMap fun p => branchEntries contracts p.2 p.1 := by
  rw [planEntries, sortEntries, allEntries_eq]
  refine sort_eq entryLess_compares ?_ ?_ ?_
  · exact (perm_sort branchLess branches.zipIdx).flatMap_right _
  · rw [pairwise_flatMap]
    refine ⟨fun p _ => pairwise_branchEntries contracts p.2 p.1, ?_⟩
    have hne := pairwise_ne_of_perm_zipIdx (perm_sort branchLess branches.zipIdx)
    refine (hne.and (pairwise_sort branchLess_compares branches.zipIdx)).imp ?_
    rintro p q ⟨hne, hle⟩ x hx y hy
    obtain ⟨k, op, -, rfl⟩ := mem_branchEntries.mp hx
    obtain ⟨k', op', -, rfl⟩ := mem_branchEntries.mp hy
    simp only [branchKey, entryKey, mkEntry, Prod.Lex.le_iff, ofLex_toLex] at hle ⊢
    rcases hle with h | ⟨h, h' | ⟨h', hi⟩⟩
    · exact .inl h
    · exact .inr ⟨h, .inl h'⟩
    · exact .inr ⟨h, .inr ⟨h', .inl (lt_of_le_of_ne hi hne)⟩⟩
  · intro x hx y hy hk
    obtain ⟨p, hp, hx⟩ := mem_flatMap.mp hx
    obtain ⟨q, hq, hy⟩ := mem_flatMap.mp hy
    obtain ⟨k, op, hop, rfl⟩ := mem_branchEntries.mp hx
    obtain ⟨k', op', ho, rfl⟩ := mem_branchEntries.mp hy
    simp only [entryKey, mkEntry, toLex_inj, Prod.mk.injEq] at hk
    obtain ⟨-, -, hi, rfl⟩ := hk
    have hpq : p = q := by
      have hp' := mem_zipIdx_iff_getElem?.mp hp
      have hq' := mem_zipIdx_iff_getElem?.mp hq
      rw [hi, hq'] at hp'
      exact Prod.ext (Option.some.inj hp').symm hi
    subst hpq
    rw [hop] at ho
    cases ho
    rfl

/-- The operations in the order of the plan, patch by patch. -/
theorem planOps_eq : (planEntries contracts branches).map ParallelPatchEntry.op =
      ((sortedBranches branches).map fun p => p.1.patch).flatMap Patch.ops := by
  have ho : ∀ (i : Nat) (b : BranchPatch),
      (branchEntries contracts i b).map ParallelPatchEntry.op = b.patch.ops := by
    intro i b
    rw [branchEntries, map_map]
    exact zipIdx_map_fst 0 b.patch.ops
  rw [planEntries_eq, map_flatMap, flatMap_map]
  congr 1
  funext p
  exact ho p.2 p.1

/-! ## Pairs that pass -/

/-- The flattened overlays of two operations do not conflict. -/
def overlaysPass (rangeLeft rangeRight : List String → List String → List String)
    (left right : PatchOp) : Bool :=
  (flatConflicts (flattenMergeOverlay rangeLeft (left.value.asMap.getD []))
    (flattenMergeOverlay rangeRight (right.value.asMap.getD []))).isEmpty

theorem validateMergeOverlayConflict_ok_iff :
    validateMergeOverlayConflict rangeLeft rangeRight left right = .ok () ↔
      overlaysPass rangeLeft rangeRight left.op right.op = true := by
  rw [validateMergeOverlayConflict, overlaysPass]
  split
  next h => simp [h]
  next h => simp [h]

/-- The operations that may write one path from two branches. -/
def okByKind (overlay : Bool) (left right : PatchOp) : Bool :=
  (left.kind = .append && right.kind = .append) ||
  (left.kind = .reduce && right.kind = .reduce && left.reducer = right.reducer) ||
  (left.kind = .merge && right.kind = .merge && overlay) ||
  (left.kind = .set && right.kind = .set && jsonEqual left.value right.value) ||
  (left.kind = .delete && right.kind = .delete)

/-- The operations that a merge strategy allows. -/
def okByStrategy (overlay : Bool) (left right : PatchOp) : MergeStrategy → Bool
  | .append => left.kind = .append && right.kind = .append
  | .merge => left.kind = .merge && right.kind = .merge && overlay
  | .replace => (left.kind = .set && right.kind = .set && jsonEqual left.value right.value) ||
      (left.kind = .delete && right.kind = .delete)
  | _ => false

/-- The reducer of a pair, empty when none is declared. -/
def pairReducer (left right : ParallelPatchEntry) : String :=
  if left.reducerKnown then trimSpace left.reducer
  else if right.reducerKnown then trimSpace right.reducer else ""

/-- The strategy of a pair, if one is declared. -/
def pairStrategy (left right : ParallelPatchEntry) : Option MergeStrategy :=
  if (normalizedKnownMergeStrategy left).2 then some (normalizedKnownMergeStrategy left).1
  else if (normalizedKnownMergeStrategy right).2 then some (normalizedKnownMergeStrategy right).1
  else none

/-- `validateParallelPatchPair` passes, as one condition on what the entries declare. -/
def okPair (overlay : Bool) (left right : ParallelPatchEntry) : Bool :=
  if left.op.path.string = "" || right.op.path.string = "" then true
  else if left.op.path.string ≠ right.op.path.string then
    !(pathWithin left.op.path right.op.path || pathWithin right.op.path left.op.path)
  else if left.reducerKnown && right.reducerKnown &&
      trimSpace left.reducer ≠ trimSpace right.reducer then false
  else if pairReducer left right ≠ "" then
    left.op.kind = .reduce && right.op.kind = .reduce &&
      left.op.reducer = pairReducer left right && right.op.reducer = pairReducer left right
  else if (normalizedKnownMergeStrategy left).2 && (normalizedKnownMergeStrategy right).2 &&
      (normalizedKnownMergeStrategy left).1 ≠ (normalizedKnownMergeStrategy right).1 then false
  else
    match pairStrategy left right with
    | some strategy => okByStrategy overlay left.op right.op strategy
    | none => okByKind overlay left.op right.op

theorem pairByStrategy_ok_iff :
    validateParallelPatchPairByStrategy rangeLeft rangeRight left right strategy = .ok () ↔
      okByStrategy (overlaysPass rangeLeft rangeRight left.op right.op) left.op right.op
        strategy = true := by
  cases strategy with
  | merge =>
    simp only [validateParallelPatchPairByStrategy, okByStrategy]
    split
    next h => rw [validateMergeOverlayConflict_ok_iff, h, Bool.true_and]
    next h => simp [h]
  | append =>
    simp only [validateParallelPatchPairByStrategy, okByStrategy]
    split <;> simp_all
  | replace =>
    simp only [validateParallelPatchPairByStrategy, okByStrategy]
    split
    next h => simp [h]
    next h => split <;> simp_all
  | default | other s => simp [validateParallelPatchPairByStrategy, okByStrategy]

theorem pairByKind_ok_iff :
    validateParallelPatchPairByKind rangeLeft rangeRight left right = .ok () ↔
      okByKind (overlaysPass rangeLeft rangeRight left.op right.op) left.op right.op = true := by
  rw [validateParallelPatchPairByKind, okByKind]
  cases hk : left.op.kind <;> cases hk' : right.op.kind <;>
    simp [validateMergeOverlayConflict_ok_iff]

theorem parallelPairReducer_eq : parallelPairReducer left right =
      if left.reducerKnown && right.reducerKnown &&
          trimSpace left.reducer ≠ trimSpace right.reducer then
        .error (parallelConflictError left right "incompatible reducers")
      else .ok (pairReducer left right, left.reducerKnown || right.reducerKnown) := by
  rw [parallelPairReducer, pairReducer]
  cases left.reducerKnown <;> cases right.reducerKnown <;> rfl

theorem pairReducer_of_unknown (h : (left.reducerKnown || right.reducerKnown) = false) :
    pairReducer left right = "" := by
  rw [Bool.or_eq_false_iff] at h
  simp [pairReducer, h.1, h.2]

theorem parallelPairMergeStrategy_eq : parallelPairMergeStrategy left right =
      if (normalizedKnownMergeStrategy left).2 && (normalizedKnownMergeStrategy right).2 &&
          (normalizedKnownMergeStrategy left).1 ≠ (normalizedKnownMergeStrategy right).1 then
        .error (parallelConflictError left right "incompatible merge strategies")
      else .ok ((pairStrategy left right).getD .default, (pairStrategy left right).isSome) := by
  simp only [parallelPairMergeStrategy, pairStrategy]
  cases (normalizedKnownMergeStrategy left).2 <;>
    cases (normalizedKnownMergeStrategy right).2 <;> rfl

theorem pair_ok_iff : validateParallelPatchPair rangeLeft rangeRight left right = .ok () ↔
      okPair (overlaysPass rangeLeft rangeRight left.op right.op) left right = true := by
  simp only [validateParallelPatchPair, okPair, parallelPairReducer_eq,
    parallelPairMergeStrategy_eq]
  by_cases he : (left.op.path.string = "" || right.op.path.string = "") = true
  · rw [if_pos he, if_pos he]
    simp
  rw [if_neg he, if_neg he]
  by_cases hp : left.op.path.string ≠ right.op.path.string
  · rw [if_pos hp, if_pos hp]
    cases (pathWithin left.op.path right.op.path || pathWithin right.op.path left.op.path) <;> simp
  rw [if_neg hp, if_neg hp]
  by_cases hr : (left.reducerKnown && right.reducerKnown &&
      trimSpace left.reducer ≠ trimSpace right.reducer) = true
  · rw [if_pos hr, if_pos hr]
    simp
  rw [if_neg hr, if_neg hr]
  by_cases hre : pairReducer left right ≠ ""
  · have hk : (left.reducerKnown || right.reducerKnown) = true := by
      by_contra h
      exact hre (pairReducer_of_unknown (by simpa using h))
    simp only [hk, hre, ne_eq, not_false_eq_true, decide_true, Bool.and_self, if_true]
    split
    next h => simp at h ⊢; tauto
    next h => simp at h ⊢; tauto
  rw [if_neg hre]
  have hn : ((left.reducerKnown || right.reducerKnown) && decide (pairReducer left right ≠ ""))
      = false := by simp [hre]
  simp only [hn, Bool.false_eq_true, if_false]
  by_cases hs : ((normalizedKnownMergeStrategy left).2 && (normalizedKnownMergeStrategy right).2 &&
      (normalizedKnownMergeStrategy left).1 ≠ (normalizedKnownMergeStrategy right).1) = true
  · rw [if_pos hs, if_pos hs]
    simp
  rw [if_neg hs, if_neg hs]
  cases pairStrategy left right with
  | none => exact pairByKind_ok_iff
  | some strategy => exact pairByStrategy_ok_iff

/-- Operations of different branches that are both kept: at disjoint paths, or at one path and
of one kind. -/
inductive PairOK (overlay : Bool) (left right : PatchOp) : Prop where
  | disjoint (h : MapTree.Disjoint left.path.keys right.path.keys)
  | append (hp : left.path = right.path) (hl : left.kind = .append) (hr : right.kind = .append)
  | reduce (hp : left.path = right.path) (hl : left.kind = .reduce) (hr : right.kind = .reduce)
      (h : left.reducer = right.reducer)
  | merge (hp : left.path = right.path) (hl : left.kind = .merge) (hr : right.kind = .merge)
      (h : overlay = true)
  | set (hp : left.path = right.path) (hl : left.kind = .set) (hr : right.kind = .set)
      (h : Raw.JSONEq left.value right.value)
  | delete (hp : left.path = right.path) (hl : left.kind = .delete) (hr : right.kind = .delete)

theorem PairOK.symm {left right : PatchOp} (h : PairOK overlay left right) :
    PairOK overlay right left := by
  cases h with
  | disjoint h => exact .disjoint h.symm
  | append hp hl hr => exact .append hp.symm hr hl
  | reduce hp hl hr h => exact .reduce hp.symm hr hl h.symm
  | merge hp hl hr h => exact .merge hp.symm hr hl h
  | set hp hl hr h => exact .set hp.symm hr hl (Eq.symm h)
  | delete hp hl hr => exact .delete hp.symm hr hl

theorem PairOK.of_kind {left right : PatchOp} (hp : left.path = right.path)
    (h : okByKind overlay left right = true) : PairOK overlay left right := by
  simp only [okByKind, Bool.or_eq_true, Bool.and_eq_true, decide_eq_true_eq] at h
  rcases h with (((⟨h1, h2⟩ | ⟨⟨h1, h2⟩, h3⟩) | ⟨⟨h1, h2⟩, h3⟩) | ⟨⟨h1, h2⟩, h3⟩) | ⟨h1, h2⟩
  · exact .append hp h1 h2
  · exact .reduce hp h1 h2 h3
  · exact .merge hp h1 h2 h3
  · exact .set hp h1 h2 (Raw.JSONEq.of_jsonEqual h3)
  · exact .delete hp h1 h2

theorem okByKind_of_strategy {left right : PatchOp} {strategy : MergeStrategy}
    (h : okByStrategy overlay left right strategy = true) : okByKind overlay left right = true := by
  cases strategy <;> simp_all [okByStrategy, okByKind]
  tauto

/-- What a pair that passes looks like. -/
theorem PairOK.of_okPair (hl : left.op.path.empty = false) (hr : right.op.path.empty = false)
    (h : okPair overlay left right = true) : PairOK overlay left.op right.op := by
  have hls : left.op.path.string ≠ "" := fun he => by
    simp [string_eq_empty, hl] at he
  have hrs : right.op.path.string ≠ "" := fun he => by
    simp [string_eq_empty, hr] at he
  rw [okPair, if_neg (by simp [hls, hrs])] at h
  split at h
  next hne =>
    simp only [Bool.not_eq_true', Bool.or_eq_false_iff] at h
    refine .disjoint ⟨fun hpr => ?_, fun hpr => ?_⟩
    · rw [(within_iff hr hl).mpr hpr] at h; cases h.2
    · rw [(within_iff hl hr).mpr hpr] at h; cases h.1
  next heq =>
    have hp : left.op.path = right.op.path := string_inj hl (by simpa using heq)
    split at h
    · cases h
    · split at h
      · simp only [Bool.and_eq_true, decide_eq_true_eq] at h
        exact .reduce hp h.1.1.1 h.1.1.2 (h.1.2.trans h.2.symm)
      · split at h
        · cases h
        · refine .of_kind hp ?_
          split at h
          · exact okByKind_of_strategy h
          · exact h

/-! ## The check does not depend on sides, names or positions -/

theorem jsonEqual_comm : jsonEqual v w = jsonEqual w v := by
  rw [jsonEqual, jsonEqual, decide_eq_decide]
  exact eq_comm

theorem okByKind_comm (left right : PatchOp) :
    okByKind overlay left right = okByKind overlay right left := by
  rw [okByKind, okByKind, jsonEqual_comm]
  simp only [eq_comm (a := left.reducer), Bool.and_comm (decide (left.kind = _))]

theorem okByStrategy_comm (left right : PatchOp) (strategy : MergeStrategy) :
    okByStrategy overlay left right strategy = okByStrategy overlay right left strategy := by
  cases strategy <;>
    simp only [okByStrategy, jsonEqual_comm, Bool.and_comm (decide (left.kind = _))]

theorem flatConflict_comm : (flatConflict l r).isNone = (flatConflict r l).isNone := by
  rw [flatConflict, flatConflict, jsonEqual_comm]
  by_cases h : l.1 = r.1
  · rw [if_pos h, if_pos h.symm]
    split <;> rfl
  · rw [if_neg h, if_neg (Ne.symm h), Bool.or_comm]

theorem flatConflicts_eq_nil {left right : Flat} : flatConflicts left right = [] ↔
      ∀ l ∈ left.entries, ∀ r ∈ right.entries, (flatConflict l r).isNone = true := by
  simp only [flatConflicts, flatMap_eq_nil_iff, filterMap_eq_nil_iff, Option.isNone_iff_eq_none]

theorem overlaysPass_comm (rangeRight : List String → List String → List String)
    (left right : PatchOp) :
    overlaysPass rangeLeft rangeRight left right = overlaysPass rangeRight rangeLeft right left := by
  rw [Bool.eq_iff_iff]
  simp only [overlaysPass, List.isEmpty_iff, flatConflicts_eq_nil]
  constructor
  · intro h r hr l hl
    rw [flatConflict_comm]
    exact h l hl r hr
  · intro h l hl r hr
    rw [flatConflict_comm]
    exact h r hr l hl

theorem clash_comm [DecidableEq β] (known known' : Bool) (x y : β) :
    (known && known' && x ≠ y) = (known' && known && y ≠ x) := by
  rw [Bool.and_comm known, decide_eq_decide.mpr ne_comm]

theorem okPair_comm : okPair overlay left right = okPair overlay right left := by
  rw [okPair, okPair, Bool.or_comm (decide (left.op.path.string = "")),
    clash_comm left.reducerKnown, clash_comm (normalizedKnownMergeStrategy left).2]
  refine ite_congr rfl (fun _ => rfl) fun _ => ?_
  by_cases hp : left.op.path.string = right.op.path.string
  · rw [if_neg (not_not.mpr hp), if_neg (not_not.mpr hp.symm)]
    refine ite_congr rfl (fun _ => rfl) fun hre => ?_
    have hru : pairReducer left right = pairReducer right left := by
      rw [pairReducer, pairReducer]
      cases hl : left.reducerKnown <;> cases hr : right.reducerKnown <;> simp_all
    rw [hru]
    refine ite_congr rfl (fun _ => ?_) fun _ => ite_congr rfl (fun _ => rfl) fun hs => ?_
    · rw [Bool.and_comm (decide (left.op.kind = .reduce)), Bool.and_assoc, Bool.and_assoc,
        Bool.and_comm (decide (left.op.reducer = _)), Bool.and_assoc, Bool.and_assoc]
    · have hst : pairStrategy left right = pairStrategy right left := by
        rw [pairStrategy, pairStrategy]
        cases hl : (normalizedKnownMergeStrategy left).2 <;>
          cases hr : (normalizedKnownMergeStrategy right).2 <;> simp_all
      rw [hst]
      split
      · exact okByStrategy_comm ..
      · exact okByKind_comm ..
  · rw [if_pos hp, if_pos (Ne.symm hp), Bool.or_comm]

/-- The overlays only matter for two merges at one path. -/
theorem okPair_overlay {overlay overlay' : Bool} {left right : ParallelPatchEntry}
    (hl : left.op.path.empty = false) (h : okPair overlay left right = true)
    (ho : left.op.kind = .merge → right.op.kind = .merge → left.op.path = right.op.path →
      overlay' = true) : okPair overlay' left right = true := by
  have kind : left.op.path = right.op.path → okByKind overlay left.op right.op = true →
      okByKind overlay' left.op right.op = true := by
    intro hp hk
    by_cases hm : left.op.kind = .merge ∧ right.op.kind = .merge
    · simp [okByKind, hm.1, hm.2, ho hm.1 hm.2 hp]
    · have hf : ∀ o, (decide (left.op.kind = .merge) && decide (right.op.kind = .merge) && o) =
          false := by
        intro o
        rw [← Bool.decide_and, decide_eq_false hm, Bool.false_and]
      rw [okByKind, hf] at hk ⊢
      exact hk
  have strategy : left.op.path = right.op.path → ∀ st,
      okByStrategy overlay left.op right.op st = true →
      okByStrategy overlay' left.op right.op st = true := by
    intro hp st hk
    cases st with
    | merge =>
      simp only [okByStrategy, Bool.and_eq_true, decide_eq_true_eq] at hk ⊢
      exact ⟨hk.1, ho hk.1.1 hk.1.2 hp⟩
    | append | replace | default | other s => exact hk
  rw [okPair] at h ⊢
  split_ifs at h ⊢ with he hne
  · rfl
  · exact h
  · exact h
  · have hp : left.op.path = right.op.path := string_inj hl (by simpa using hne)
    cases hst : pairStrategy left right with
    | none => rw [hst] at h; exact kind hp h
    | some st => rw [hst] at h; exact strategy hp st h

/-- The entries make the same write under the same declarations. -/
structure SameWrite (e e' : ParallelPatchEntry) : Prop where
  op : e.op = e'.op
  merge : e.merge = e'.merge
  mergeKnown : e.mergeKnown = e'.mergeKnown
  reducer : e.reducer = e'.reducer
  reducerKnown : e.reducerKnown = e'.reducerKnown

theorem okPair_congr (hl : SameWrite left left') (hr : SameWrite right right') :
    okPair overlay left right = okPair overlay left' right' := by
  have hre : pairReducer left right = pairReducer left' right' := by
    simp only [pairReducer, hl.reducerKnown, hl.reducer, hr.reducerKnown, hr.reducer]
  have hnl : normalizedKnownMergeStrategy left = normalizedKnownMergeStrategy left' := by
    simp only [normalizedKnownMergeStrategy, hl.mergeKnown, hl.merge]
  have hnr : normalizedKnownMergeStrategy right = normalizedKnownMergeStrategy right' := by
    simp only [normalizedKnownMergeStrategy, hr.mergeKnown, hr.merge]
  have hs : pairStrategy left right = pairStrategy left' right' := by
    simp only [pairStrategy, hnl, hnr]
  rw [okPair, okPair, hre, hs, hnl, hnr, hl.op, hr.op, hl.reducerKnown,
    hr.reducerKnown, hl.reducer, hr.reducer]

/-- An entry declares what the contract of its branch says about its operation. -/
theorem sameWrite_mkEntry (h : contracts.get b.nodeID = contracts'.get b'.nodeID) :
    SameWrite (mkEntry contracts i b k op) (mkEntry contracts' i' b' k' op) := by
  constructor <;> simp only [mkEntry, h]

/-! ## Branches -/

theorem mem_planEntries : e ∈ planEntries contracts branches ↔
      ∃ i b k op, branches[i]? = some b ∧ b.patch.ops[k]? = some op ∧
        e = mkEntry contracts i b k op := by
  rw [planEntries, sortEntries, (perm_sort entryLess _).mem_iff, allEntries_eq, mem_flatMap]
  constructor
  · rintro ⟨⟨b, i⟩, hb, he⟩
    obtain ⟨k, op, hop, rfl⟩ := mem_branchEntries.mp he
    exact ⟨i, b, k, op, mem_zipIdx_iff_getElem?.mp hb, hop, rfl⟩
  · rintro ⟨i, b, k, op, hb, hop, rfl⟩
    exact ⟨(b, i), mem_zipIdx_iff_getElem?.mpr hb, mem_branchEntries.mpr ⟨k, op, hop, rfl⟩⟩

theorem validateBranch_ok_iff : validateBranch engine contracts b = .ok () ↔
      (match contracts.get b.nodeID with
        | some contract => validatePatchByContract engine b.patch contract
        | none => validatePatch b.patch) = [] := by
  rw [validateBranch]
  cases contracts.get b.nodeID with
  | none =>
    cases validatePatch b.patch with
    | nil => simp
    | cons issue rest => simp
  | some contract =>
    simp only
    cases validatePatchByContract engine b.patch contract with
    | nil => simp
    | cons issue rest => simp

theorem validateOp_of_validateBranch (h : validateBranch engine contracts b = .ok ()) :
    ∀ op ∈ b.patch.ops, validateOp op = [] := by
  rw [validateBranch_ok_iff] at h
  cases hc : contracts.get b.nodeID with
  | none =>
    rw [hc] at h
    exact validatePatch_eq_nil.mp h
  | some contract =>
    rw [hc] at h
    exact validatePatch_eq_nil.mp (validatePatch_of_byContract h)

/-- A possible order of ranging over the maps of an overlay. -/
def OrderOK (range : List String → List String → List String) : Prop :=
  ∀ at_ keys, (range at_ keys).Perm keys

/-- Two operations of two branches pass, under some order of their overlays. -/
def Passes (contracts : SortedMap String Contract) (b : BranchPatch) (l : PatchOp)
    (d : BranchPatch) (r : PatchOp) (overlay : Bool) : Prop :=
  okPair overlay (mkEntry contracts 0 b 0 l) (mkEntry contracts 0 d 0 r) = true

/-- In a successful merge the operations of any two branches pass. -/
theorem Merged.pairwise (h : Merged engine orders base branches options merged) :
    branches.Pairwise fun b d => ∀ l ∈ b.patch.ops, ∀ r ∈ d.patch.ops,
      ∃ rl rr, OrderOK rl ∧ OrderOK rr ∧
        Passes options.contracts b l d r (overlaysPass rl rr l r) := by
  rw [pairwise_iff_getElem]
  intro i j hi hj hij l hl r hr
  obtain ⟨k, hk, hkl⟩ := mem_iff_getElem.mp hl
  obtain ⟨m, hm, hmr⟩ := mem_iff_getElem.mp hr
  have hel : mkEntry options.contracts i branches[i] k l ∈ planEntries options.contracts branches :=
    mem_planEntries.mpr ⟨i, _, k, l, List.getElem?_eq_getElem hi,
      by rw [List.getElem?_eq_getElem hk, hkl], rfl⟩
  have her : mkEntry options.contracts j branches[j] m r ∈ planEntries options.contracts branches :=
    mem_planEntries.mpr ⟨j, _, m, r, List.getElem?_eq_getElem hj,
      by rw [List.getElem?_eq_getElem hm, hmr], rfl⟩
  obtain ⟨a, ha⟩ := mem_iff_getElem?.mp hel
  obtain ⟨c, hc⟩ := mem_iff_getElem?.mp her
  have hid : i ≠ j := by omega
  have hac : a ≠ c := by
    rintro rfl
    rw [ha] at hc
    have := congrArg ParallelPatchEntry.branchIdx (Option.some.inj hc)
    exact hid this
  rcases Nat.lt_or_gt_of_ne hac with hlt | hgt
  · have hp := pair_ok_iff.mp (h.noConflict a c _ _ hlt ha hc hid)
    refine ⟨orders.overlay a c false, orders.overlay a c true, orders.overlay_perm a c false,
      orders.overlay_perm a c true, ?_⟩
    exact hp
  · have hp := pair_ok_iff.mp (h.noConflict c a _ _ hgt hc ha hid.symm)
    refine ⟨orders.overlay c a true, orders.overlay c a false, orders.overlay_perm c a true,
      orders.overlay_perm c a false, ?_⟩
    rw [Passes, ← okPair_congr (sameWrite_mkEntry rfl) (sameWrite_mkEntry rfl),
      okPair_comm, overlaysPass_comm]
    exact hp

/-- If the operations of any two branches pass under all orders, there is no conflict. -/
theorem noConflict_of_pairwise {contracts : SortedMap String Contract}
    {branches : List BranchPatch} (orders : RangeOrders)
    (h : branches.Pairwise fun b d => ∀ l ∈ b.patch.ops, ∀ r ∈ d.patch.ops,
      ∀ rl rr, OrderOK rl → OrderOK rr → Passes contracts b l d r (overlaysPass rl rr l r)) :
    ∀ a b left right, a < b → (planEntries contracts branches)[a]? = some left →
      (planEntries contracts branches)[b]? = some right → PairPasses orders a b left right := by
  intro a c left right _ ha hc hid
  obtain ⟨i, b, k, l, hb, hl, rfl⟩ := mem_planEntries.mp (mem_of_getElem? ha)
  obtain ⟨j, d, m, r, hd, hr, rfl⟩ := mem_planEntries.mp (mem_of_getElem? hc)
  obtain ⟨hi, rfl⟩ := List.getElem?_eq_some_iff.mp hb
  obtain ⟨hj, rfl⟩ := List.getElem?_eq_some_iff.mp hd
  have hl' := mem_of_getElem? hl
  have hr' := mem_of_getElem? hr
  rw [pairwise_iff_getElem] at h
  refine pair_ok_iff.mpr ?_
  have hij : i ≠ j := hid
  rcases Nat.lt_or_gt_of_ne hij with hlt | hgt
  · have := h i j hi hj hlt l hl' r hr' _ _ (orders.overlay_perm a c false)
      (orders.overlay_perm a c true)
    rwa [Passes, okPair_congr (sameWrite_mkEntry rfl) (sameWrite_mkEntry rfl)] at this
  · have := h j i hj hi hgt r hr' l hl' _ _ (orders.overlay_perm a c true)
      (orders.overlay_perm a c false)
    rw [Passes, okPair_congr (sameWrite_mkEntry rfl)
      (sameWrite_mkEntry rfl), okPair_comm, overlaysPass_comm] at this
    exact this

end WeaveFlow
