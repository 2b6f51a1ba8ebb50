import WeaveFlow.State.Confluence

/-!
# When the listing order of the branches does not matter

`MergeParallelPatches` sorts by order and node, and falls back to the position of a branch in
the list.  If no two branches share order and node the position only serves to tell
branches apart, so every listing of the same branches has the same outcome
(`mergeParallelPatches_perm`).  If two branches do share them, or if their orders are
exchanged, two appends come out exchanged (`mergeParallelPatches_twoAppends`).
-/

namespace WeaveFlow

open ParallelPatchEntry State Root KeySort List

/-! ## Positions are only names -/

/-- The entry of a branch whose position is renamed. -/
def ParallelPatchEntry.reposition (f : Nat → Nat) (e : ParallelPatchEntry) : ParallelPatchEntry :=
  { e with branchIdx := f e.branchIdx }

theorem branchEntries_reposition : branchEntries contracts (f i) b =
      (branchEntries contracts i b).map (reposition f) := by
  rw [branchEntries, branchEntries, map_map]
  rfl

/-- No two branches share order and node. -/
def DistinctKeys (branches : List BranchPatch) : Prop :=
  branches.Pairwise fun b d => b.order ≠ d.order ∨ b.nodeID ≠ d.nodeID

theorem DistinctKeys.perm (h : DistinctKeys branches) (hp : branches.Perm branches') :
    DistinctKeys branches' :=
  (hp.pairwise_iff fun hbd => hbd.imp Ne.symm Ne.symm).mp h

theorem DistinctKeys.eq_of_key_eq (h : DistinctKeys branches) (hb : b ∈ branches)
    (hd : d ∈ branches) (ho : b.order = d.order) (hn : b.nodeID = d.nodeID) : b = d := by
  by_contra hne
  have : Std.Symm fun b d : BranchPatch => b.order ≠ d.order ∨ b.nodeID ≠ d.nodeID :=
    ⟨fun _ _ hbd => hbd.imp Ne.symm Ne.symm⟩
  rcases List.Pairwise.forall h hb hd hne with hdi | hdi
  · exact hdi ho
  · exact hdi hn

theorem sortedBranches_fst_perm (branches : List BranchPatch) :
    ((sortedBranches branches).map Prod.fst).Perm branches := by
  have := (perm_sort branchLess branches.zipIdx).map Prod.fst
  rwa [zipIdx_map_fst] at this

theorem pairwise_sortedBranches_fst (branches : List BranchPatch) :
    ((sortedBranches branches).map Prod.fst).Pairwise fun b d =>
      toLex (b.order, b.nodeID) ≤ toLex (d.order, d.nodeID) := by
  rw [pairwise_map]
  refine (pairwise_sort branchLess_compares branches.zipIdx).imp fun {p q} hle => ?_
  simp only [branchKey, Prod.Lex.le_iff, ofLex_toLex] at hle ⊢
  rcases hle with h | ⟨h, h' | ⟨h', -⟩⟩
  · exact .inl h
  · exact .inr ⟨h, h'.le⟩
  · exact .inr ⟨h, h'.le⟩

/-- Without positions, the order of application is determined by the branches. -/
theorem sortedBranches_fst_eq (hpe : branches.Perm branches') (h : DistinctKeys branches) :
    (sortedBranches branches).map Prod.fst = (sortedBranches branches').map Prod.fst := by
  have hp := sortedBranches_fst_perm branches
  have hp' := sortedBranches_fst_perm branches'
  refine List.Perm.eq_of_pairwise (fun b d hb hd hbd hdb => ?_) (pairwise_sortedBranches_fst _)
    (pairwise_sortedBranches_fst _) (hp.trans (hpe.trans hp'.symm))
  have hk := le_antisymm hbd hdb
  rw [toLex_inj, Prod.mk.injEq] at hk
  exact h.eq_of_key_eq (hp.mem_iff.mp hb) (hpe.mem_iff.mpr (hp'.mem_iff.mp hd)) hk.1 hk.2

/-- The plans of two listings differ by a renaming of the positions. -/
theorem planEntries_reposition (hpe : branches.Perm branches') (h : DistinctKeys branches) :
    ∃ f : Nat → Nat, planEntries contracts branches' =
        (planEntries contracts branches).map (reposition f) ∧
      ∀ e ∈ planEntries contracts branches, ∀ e' ∈ planEntries contracts branches,
        f e.branchIdx = f e'.branchIdx → e.branchIdx = e'.branchIdx := by
  obtain ⟨f, hf, hi⟩ := exists_reposition (sortedBranches_fst_eq hpe h)
    (pairwise_ne_of_perm_zipIdx (perm_sort branchLess branches.zipIdx))
    (pairwise_ne_of_perm_zipIdx (perm_sort branchLess branches'.zipIdx))
  refine ⟨f, ?_, fun e he e' he' hee => ?_⟩
  · rw [planEntries_eq, planEntries_eq, hf, flatMap_map, map_flatMap]
    congr 1
    funext p
    exact branchEntries_reposition
  · rw [planEntries_eq, mem_flatMap] at he he'
    obtain ⟨p, hp, he⟩ := he
    obtain ⟨q, hq, he'⟩ := he'
    obtain ⟨k, op, -, rfl⟩ := mem_branchEntries.mp he
    obtain ⟨k', op', -, rfl⟩ := mem_branchEntries.mp he'
    exact hi p hp q hq hee

/-! ## The outcome -/

theorem validateParallelMergeResult_reposition : validateParallelMergeResult engine orders merged
        (entries.map (reposition f)) options =
      validateParallelMergeResult engine orders merged entries options := by
  simp only [validateParallelMergeResult, filter_map, map_map]
  rfl

theorem Merged.perm (h : Merged engine orders base branches options merged)
    (hp : branches.Perm branches') (hk : DistinctKeys branches) :
    Merged engine orders base branches' options merged := by
  obtain ⟨f, hpl, hi⟩ := planEntries_reposition hp hk
  refine ⟨fun b hb => h.valid b (hp.mem_iff.mpr hb), ?_, ?_, ?_⟩
  · intro a c left right hac ha hc hid
    rw [hpl, List.getElem?_map, Option.map_eq_some_iff] at ha hc
    obtain ⟨e, he, rfl⟩ := ha
    obtain ⟨e', he', rfl⟩ := hc
    have hne : e.branchIdx ≠ e'.branchIdx := fun heq => hid (congrArg f heq)
    have hpa := pair_ok_iff.mp (h.noConflict a c e e' hac he he' hne)
    refine pair_ok_iff.mpr ?_
    exact hpa
  · rw [hpl, map_map]
    exact h.applied
  · rw [hpl, validateParallelMergeResult_reposition]
    exact h.noIssues

/-- Every listing of branches with distinct keys has the same outcome. -/
theorem mergeParallelPatches_perm (hp : branches.Perm branches') (hk : DistinctKeys branches) :
    mergeParallelPatches engine orders base branches options = .ok merged ↔
      mergeParallelPatches engine orders base branches' options = .ok merged := by
  rw [mergeParallelPatches_ok_iff, mergeParallelPatches_ok_iff]
  constructor
  · rintro (⟨rfl, rfl⟩ | ⟨hne, h⟩)
    · exact .inl ⟨hp.nil_eq.symm, rfl⟩
    · exact .inr ⟨fun he => hne (he ▸ hp).eq_nil, h.perm hp hk⟩
  · rintro (⟨rfl, rfl⟩ | ⟨hne, h⟩)
    · exact .inl ⟨hp.eq_nil, rfl⟩
    · exact .inr ⟨fun he => hne (he ▸ hp).nil_eq.symm, h.perm hp.symm (hk.perm hp)⟩

/-! ## Two appends -/

/-- `shared.log`. -/
def logPath : Path := ⟨"shared", ["log"], by decide⟩

/-- An append of a string at `shared.log`. -/
def appendLog (text : String) : PatchOp := ⟨.append, logPath, Raw.string text, "", rfl⟩

/-- The root of a new state with a log. -/
def logRoot (items : List String) : Object :=
  [("internal", .node []), ("runtime", .node []), ("scopes", .node []),
    ("shared", .node [("log", Raw.slice .any (items.map Raw.string))])]

theorem applyOps_appendLog (reducers : Reducers) (first second : String) :
    applyOps reducers newState.root [appendLog first, appendLog second] =
      .ok (logRoot [first, second]) := by
  have hf : applyPatchOp reducers newState.root (appendLog first) = .ok (logRoot [first]) := by
    show Root.set newState.root logPath (Raw.slice .any [Raw.string first]) = _
    rfl
  have hs : applyPatchOp reducers (logRoot [first]) (appendLog second) =
      .ok (logRoot [first, second]) := by
    show Root.set (logRoot [first]) logPath
      (Raw.slice .any [Raw.string first, Raw.string second]) = _
    rfl
  rw [applyOps, foldlM_cons, hf]
  show List.foldlM (applyPatchOp reducers) (logRoot [first]) [appendLog second] = _
  rw [foldlM_cons, hs]
  rfl

/-- The state after two appends. -/
def logState (first second : String) : State :=
  ⟨logRoot [first, second],
    rootOK_applyOps newState.ok (applyOps_appendLog (fun _ => none) first second)⟩

/-- Branches that write nothing do not show in the operations. -/
theorem flatMap_ops_filter {l : List (BranchPatch × Nat)}
    (h : ∀ p ∈ l, writes p = false → p.1.patch.ops = []) :
    l.flatMap (fun p => p.1.patch.ops) = (l.filter writes).flatMap fun p => p.1.patch.ops := by
  induction l with
  | nil => rfl
  | cons p l ih =>
    have ih := ih (forall_mem_cons.mp h).2
    rw [flatMap_cons, filter_cons, ih]
    split
    · rw [flatMap_cons]
    next hw =>
      rw [h p mem_cons_self (Bool.eq_false_iff.mpr hw), nil_append]

/-- The first two branches in the order of their keys. -/
theorem sortedBranches_firstTwo (hlt : branchKey (b, 0) < branchKey (d, 1)) :
    (sortedBranches (b :: d :: rest)).filter (fun p => decide (p.2 < 2)) = [(b, 0), (d, 1)] := by
  have hpe := (perm_sort branchLess (b :: d :: rest).zipIdx).filter fun p => decide (p.2 < 2)
  have hn : (rest.zipIdx 2).filter (fun p => decide (p.2 < 2)) = [] := by
    rw [filter_eq_nil_iff]
    intro p hp
    have := le_snd_of_mem_zipIdx hp
    simp only [decide_eq_true_eq]
    omega
  have hz : (b :: d :: rest).zipIdx = (b, 0) :: (d, 1) :: rest.zipIdx 2 := rfl
  rw [hz, filter_cons_of_pos (by simp), filter_cons_of_pos (by simp), hn] at hpe
  have hs := (pairwise_sort branchLess_compares (b :: d :: rest).zipIdx).filter
    fun p => decide (p.2 < 2)
  refine List.Perm.eq_of_pairwise (fun p q hp hq hpq hqp => ?_) hs (pairwise_pair.mpr hlt.le) hpe
  have hp := hpe.mem_iff.mp hp
  rw [mem_pair] at hp hq
  have hk := le_antisymm hpq hqp
  rcases hp with rfl | rfl <;> rcases hq with rfl | rfl
  · rfl
  · exact absurd hk hlt.ne
  · exact absurd hk hlt.ne'
  · rfl

/-- Among branches of which two write, the one with the smaller key comes first. -/
theorem planOps_two {x y : PatchOp} (hb : b.patch.ops = [x]) (hd : d.patch.ops = [y])
    (hr : ∀ r ∈ rest, r.patch.ops = []) (hlt : branchKey (b, 0) < branchKey (d, 1)) :
    (planEntries contracts (b :: d :: rest)).map ParallelPatchEntry.op = [x, y] := by
  have hs : ∀ p ∈ sortedBranches (b :: d :: rest), decide (p.2 < 2) = false →
      p.1.patch.ops = [] := by
    intro p hp hge
    have hm := (perm_sort branchLess (b :: d :: rest).zipIdx).mem_iff.mp hp
    rw [zipIdx_cons, zipIdx_cons, mem_cons, mem_cons] at hm
    rcases hm with rfl | rfl | hm
    · cases hge
    · cases hge
    · exact hr p.1 (fst_mem_of_mem_zipIdx hm)
  rw [planOps_eq, flatMap_map, flatMap_ops_filter hs, sortedBranches_firstTwo hlt]
  simp [hb, hd]

theorem okPair_appendLog : okPair overlay (mkEntry SortedMap.empty i b k (appendLog first))
      (mkEntry SortedMap.empty j d m (appendLog second)) = true := by
  have hs : logPath.string ≠ "" := by decide
  simp [okPair, pairReducer, pairStrategy, normalizedKnownMergeStrategy, mkEntry,
    mergeStrategyForPath, reducerForPath, fieldForPath_zero, hs, okByKind, appendLog]

/-- Two appends to a new state come out in the order of the keys of their branches. -/
theorem mergeParallelPatches_twoAppends (hb : b.patch.ops = [appendLog first])
    (hd : d.patch.ops = [appendLog second]) (hre : ∀ r ∈ rest, r.patch.ops = [])
    (hlt : branchKey (b, 0) < branchKey (d, 1)) :
    mergeParallelPatches engine orders newState (b :: d :: rest) noOptions =
      .ok (logState first second) := by
  have hl : ∀ r ∈ b :: d :: rest, ∀ op ∈ r.patch.ops, ∃ text, op = appendLog text := by
    intro r hr op hop
    rw [mem_cons, mem_cons] at hr
    rcases hr with rfl | rfl | hr
    · rw [hb, mem_singleton] at hop
      exact ⟨first, hop⟩
    · rw [hd, mem_singleton] at hop
      exact ⟨second, hop⟩
    · simp [hre r hr] at hop
  refine mergeParallelPatches_ok_iff.mpr (.inr ⟨cons_ne_nil _ _, ?_, ?_, ?_, noIssues_noOptions⟩)
  · intro r hr
    rw [validateBranch_ok_iff]
    show validatePatch r.patch = []
    rw [validatePatch_eq_nil]
    intro op hop
    obtain ⟨text, rfl⟩ := hl r hr op hop
    rfl
  · refine noConflict_of_pairwise orders (List.Pairwise.imp_of_mem ?_ (pairwise_of_forall
      fun _ _ => trivial))
    intro r r' hr hr' _ x hx y hy _ _ _ _
    obtain ⟨text, rfl⟩ := hl r hr x hx
    obtain ⟨text', rfl⟩ := hl r' hr' y hy
    exact okPair_appendLog
  · rw [planOps_two hb hd hre hlt]
    exact applyOps_appendLog noOptions.reducers first second

end WeaveFlow
