import WeaveFlow.Graph.Topology
import WeaveFlow.Lib.KeySort

/-!
# Parallel waves of the contract analysis

The analysis of a graph advances frontiers, sets of nodes that may run in one wave, without
running it: from a frontier it goes to one frontier for every choice of routes of its nodes,
or to the union of all routes when there are too many choices.  A frontier is marked by the
text of its nodes joined with zero characters.

As long as no node has a zero character in its name the search is complete: with a frontier it
finds another one that covers whatever the nodes choose (`frontiers_closed`).
-/

namespace WeaveFlow

open Worklist KeySort List

/-- What the wave analysis reads of a graph. -/
structure ContractAnalysisGraph where
  entryPoint : String
  endNode : String
  edges : SortedMap String (List String)
  conditionalEdges : SortedMap String (List String)

def Graph.contractAnalysisGraph (g : Graph) : ContractAnalysisGraph where
  entryPoint := g.entryPoint
  endNode := endNodeID
  edges := g.defaultEdges
  conditionalEdges := g.conditionalEdges

namespace ContractAnalysisGraph

variable (input : ContractAnalysisGraph)

def isAnalysisEndTarget (target : String) : Bool :=
  if target = "" then true
  else if input.endNode ≠ "" then target = input.endNode
  else target = endNodeRef

def edgesOf (nodeID : String) : List String := (input.edges.get nodeID).getD []

def conditionalOf (nodeID : String) : List String := (input.conditionalEdges.get nodeID).getD []

/-- The nodes that the search of `reachableGraphNodes` puts into its queue after a node. -/
def nextNodes (nodeID : String) : List String :=
  (input.edgesOf nodeID ++ input.conditionalOf nodeID).filter fun next =>
    !input.isAnalysisEndTarget next

/-- All nodes that an edge leads to, and the entry point. -/
def knownNodes : List String :=
  (input.entryPoint :: (input.edges.vals ++ input.conditionalEdges.vals).flatten).dedup

/-- `reachableGraphNodes`.  The search takes one node for the entry point and for every edge. -/
def reachableGraphNodes : List String :=
  if input.entryPoint = "" then []
  else
    KeySort.sort (fun a b => decide (a < b))
      (explore some id input.nextNodes
        (1 + (input.knownNodes.map fun nodeID => (input.nextNodes nodeID).length).sum)
        [input.entryPoint] [])

def normalizeAnalysisFrontier (frontier reachable : List String) : List String :=
  KeySort.sort (fun a b => decide (a < b))
    (frontier.filter fun nodeID =>
      !input.isAnalysisEndTarget nodeID && decide (nodeID ∈ reachable)).dedup

def analysisNodeNextOptions (nodeID : String) (reachable : List String) : List (List String) :=
  if input.conditionalOf nodeID ≠ [] then
    (input.conditionalOf nodeID ++ input.edgesOf nodeID).map fun target =>
      input.normalizeAnalysisFrontier [target] reachable
  else [input.normalizeAnalysisFrontier (input.edgesOf nodeID) reachable]

/-- The text that a frontier is marked by. -/
def frontierKey (frontier : List String) : String := "\x00".intercalate frontier

def conservativeAnalysisFrontier (frontier reachable : List String) : List (List String) :=
  let normalized := input.normalizeAnalysisFrontier
    (frontier.flatMap fun nodeID => (input.analysisNodeNextOptions nodeID reachable).flatten)
    reachable
  if normalized ≠ [] then [normalized] else []

def maxAnalysisFrontiers : Nat := 4096

/-- The options of a node, or the empty one when there is none. -/
def optionsOrEmpty (nodeID : String) (reachable : List String) : List (List String) :=
  let options := input.analysisNodeNextOptions nodeID reachable
  if options = [] then [[]] else options

/-- The combinations of the options of the nodes, unless they are too many. -/
def combineOptions (reachable : List String) :
    List String → List (List String) → Option (List (List String))
  | [], combinations => some combinations
  | nodeID :: rest, combinations =>
    let options := input.optionsOrEmpty nodeID reachable
    if combinations.length > maxAnalysisFrontiers / max 1 options.length then none
    else
      combineOptions reachable rest
        (combinations.flatMap fun chosen => options.map fun option => chosen ++ option)

/-- A frontier in normal form; an empty one is dropped. -/
def viewFrontier (reachable frontier : List String) : Option (List String) :=
  let normalized := input.normalizeAnalysisFrontier frontier reachable
  if normalized = [] then none else some normalized

/-- `nextAnalysisFrontiers`.  Its last loop keeps the first combination with a key. -/
def nextAnalysisFrontiers (frontier reachable : List String) : List (List String) :=
  match input.combineOptions reachable frontier [[]] with
  | none => input.conservativeAnalysisFrontier frontier reachable
  | some combinations =>
    explore (input.viewFrontier reachable) frontierKey (fun _ => [])
      combinations.length combinations []

/-- The frontiers that `analysisParallelWaves` visits.  There are no more than there are sets of
nodes, and no more than `maxAnalysisFrontiers` follow one. -/
def frontiers (reachable : List String) : List (List String) :=
  if input.entryPoint ∉ reachable then []
  else
    explore (input.viewFrontier reachable) frontierKey
      (fun frontier => input.nextAnalysisFrontiers frontier reachable)
      (1 + 2 ^ reachable.length * maxAnalysisFrontiers) [[input.entryPoint]] []

def analysisParallelWaves (reachable : List String) : List (List String) :=
  (input.frontiers reachable).filter fun frontier => 1 < frontier.length

/-! ## Normal forms -/

variable {input}

variable {reachable frontier : List String}

theorem mem_normalizeAnalysisFrontier : n ∈ input.normalizeAnalysisFrontier frontier reachable ↔
      n ∈ frontier ∧ input.isAnalysisEndTarget n = false ∧ n ∈ reachable := by
  rw [normalizeAnalysisFrontier, (perm_sort _ _).mem_iff, mem_dedup, mem_filter,
    Bool.and_eq_true, Bool.not_eq_true', decide_eq_true_eq]

theorem less_compares : KeySort.Compares (fun a b : String => decide (a < b)) id :=
  fun _ _ => decide_eq_true_iff

/-- A frontier in normal form is determined by its nodes. -/
theorem normalizeAnalysisFrontier_eq (hn : other.Nodup)
    (hm : ∀ n, n ∈ other ↔ n ∈ input.normalizeAnalysisFrontier frontier reachable) :
    input.normalizeAnalysisFrontier frontier reachable =
      KeySort.sort (fun a b => decide (a < b)) other := by
  have hs := pairwise_sort less_compares other
  refine sort_eq less_compares ?_ hs fun a _ b _ h => h
  refine (perm_sort _ other).trans ((perm_ext_iff_of_nodup hn (nodup_dedup _)).mpr fun n => ?_)
  rw [hm, normalizeAnalysisFrontier, (perm_sort _ _).mem_iff]

theorem nodup_normalizeAnalysisFrontier :
    (input.normalizeAnalysisFrontier frontier reachable).Nodup :=
  (perm_sort _ _).nodup_iff.mpr (nodup_dedup _)

theorem normalizeAnalysisFrontier_idem :
    input.normalizeAnalysisFrontier (input.normalizeAnalysisFrontier frontier reachable) reachable =
      input.normalizeAnalysisFrontier frontier reachable := by
  rw [normalizeAnalysisFrontier_eq nodup_normalizeAnalysisFrontier]
  · exact (normalizeAnalysisFrontier_eq nodup_normalizeAnalysisFrontier fun _ => Iff.rfl).symm
  · intro n
    exact ⟨fun h => mem_normalizeAnalysisFrontier.mpr ⟨h, (mem_normalizeAnalysisFrontier.mp h).2⟩,
      fun h => (mem_normalizeAnalysisFrontier.mp h).1⟩

theorem viewFrontier_eq_some : input.viewFrontier reachable frontier = some view ↔
      view = input.normalizeAnalysisFrontier frontier reachable ∧ view ≠ [] := by
  rw [viewFrontier]
  split
  next h => exact ⟨nofun, fun hv => absurd (hv.1.trans h) hv.2⟩
  next h =>
    rw [Option.some.injEq]
    constructor
    · rintro rfl
      exact ⟨rfl, h⟩
    · exact fun hv => hv.1.symm

theorem viewFrontier_view (h : input.viewFrontier reachable frontier = some view) :
    input.viewFrontier reachable view = some view := by
  obtain ⟨rfl, hne⟩ := viewFrontier_eq_some.mp h
  exact viewFrontier_eq_some.mpr ⟨normalizeAnalysisFrontier_idem.symm, hne⟩

/-! ## Keys -/

/-- The first occurrence of an element splits a list in one way. -/
theorem split_at_first {α : Type} {a : α} {l m r q : List α} (hl : a ∉ l) (hm : a ∉ m)
    (h : l ++ a :: r = m ++ a :: q) : l = m ∧ r = q := by
  rcases append_eq_append_iff.mp h with ⟨c, rfl, hc⟩ | ⟨c, rfl, hc⟩
  · cases c with
    | nil => exact ⟨(append_nil l).symm, (List.cons.inj hc).2⟩
    | cons b c =>
      obtain ⟨rfl, -⟩ := List.cons.inj hc
      exact absurd (mem_append_right l mem_cons_self) hm
  · cases c with
    | nil => exact ⟨append_nil m, (List.cons.inj hc).2.symm⟩
    | cons b c =>
      obtain ⟨rfl, -⟩ := List.cons.inj hc
      exact absurd (mem_append_right m mem_cons_self) hl

/-- Without zero characters in the names the key determines the frontier. -/
theorem frontierKey_inj {l m : List String} (hl : l ≠ []) (hm : m ≠ [])
    (hzl : ∀ n ∈ l, '\x00' ∉ n.toList) (hzm : ∀ n ∈ m, '\x00' ∉ n.toList)
    (h : frontierKey l = frontierKey m) : l = m := by
  induction l generalizing m with
  | nil => exact absurd rfl hl
  | cons a l ih =>
    cases m with
    | nil => exact absurd rfl hm
    | cons b m =>
      have hza := hzl a mem_cons_self
      have hzb := hzm b mem_cons_self
      rw [frontierKey, frontierKey, ← String.toList_inj] at h
      cases l with
      | nil =>
        cases m with
        | nil =>
          rw [String.intercalate_singleton, String.intercalate_singleton, String.toList_inj] at h
          rw [h]
        | cons c m =>
          rw [String.intercalate_singleton, String.intercalate_cons_cons] at h
          refine absurd ?_ hza
          rw [h]
          simp
      | cons d l =>
        cases m with
        | nil =>
          rw [String.intercalate_singleton, String.intercalate_cons_cons] at h
          refine absurd ?_ hzb
          rw [← h]
          simp
        | cons c m =>
          rw [String.intercalate_cons_cons, String.intercalate_cons_cons] at h
          simp only [String.toList_append, append_assoc] at h
          obtain ⟨hab, hr⟩ := split_at_first hza hzb h
          have hlm := ih (cons_ne_nil d l) (cons_ne_nil c m)
            (forall_mem_cons.mp hzl).2
            (forall_mem_cons.mp hzm).2 (String.toList_inj.mp hr)
          rw [String.toList_inj.mp hab, hlm]

/-! ## Reachable nodes -/

theorem nextNodes_known (h : m ∈ input.nextNodes n) : m ∈ input.knownNodes := by
  rw [nextNodes, mem_filter, mem_append] at h
  rw [knownNodes, mem_dedup, mem_cons, mem_flatten]
  have hv : ∀ map : SortedMap String (List String), m ∈ (map.get n).getD [] →
      ∃ l ∈ map.vals, m ∈ l := by
    intro map hm
    cases hg : map.get n with
    | none => simp [hg] at hm
    | some l =>
      rw [hg] at hm
      exact ⟨l, SortedMap.mem_vals.mpr ⟨n, hg⟩, hm⟩
  rcases h.1 with h | h
  · obtain ⟨l, hl, hm⟩ := hv _ h
    exact .inr ⟨l, mem_append_left _ hl, hm⟩
  · obtain ⟨l, hl, hm⟩ := hv _ h
    exact .inr ⟨l, mem_append_right _ hl, hm⟩

/-- The reachable nodes have the entry point and are closed under edges. -/
theorem reachableGraphNodes_closed (he : input.entryPoint ≠ "") :
    input.entryPoint ∈ input.reachableGraphNodes ∧
      ∀ n ∈ input.reachableGraphNodes, ∀ m ∈ input.nextNodes n, m ∈ input.reachableGraphNodes := by
  have hu : Universe some id input.nextNodes input.knownNodes.toFinset
      (fun n => (input.nextNodes n).length) := by
    refine ⟨fun b _ c _ h => h, fun b _ a ha c hc => ?_, fun _ _ => le_rfl⟩
    cases hc
    exact mem_toFinset.mpr (nextNodes_known ha)
  have hq : ∀ a ∈ [input.entryPoint], ∀ b, some a = some b → b ∈ input.knownNodes.toFinset := by
    rintro a ha b hb
    cases hb
    rw [mem_toFinset, mem_singleton.mp ha, knownNodes, mem_dedup]
    exact mem_cons_self
  have hf : [input.entryPoint].length +
      ∑ n ∈ input.knownNodes.toFinset, (input.nextNodes n).length ≤
        1 + (input.knownNodes.map fun nodeID => (input.nextNodes nodeID).length).sum := by
    have hno : input.knownNodes.Nodup := nodup_dedup _
    rw [sum_toFinset _ hno]
    exact le_rfl
  obtain ⟨hfi, hcl⟩ := explore_closed hu hq hf
  simp only [reachableGraphNodes, if_neg he, (perm_sort _ _).mem_iff]
  exact ⟨hfi _ (mem_singleton_self _) _ rfl, fun n hn m hm => hcl n hn m hm m rfl⟩

/-! ## The search for frontiers -/

/-- The frontiers in normal form. -/
noncomputable def normalFrontiers (reachable : List String) : Finset (List String) :=
  (reachable.toFinset.powerset.image fun nodes =>
    KeySort.sort (fun a b => decide (a < b)) nodes.toList).erase []

theorem view_mem_normalFrontiers (h : input.viewFrontier reachable frontier = some view) :
    view ∈ normalFrontiers reachable := by
  obtain ⟨rfl, hne⟩ := viewFrontier_eq_some.mp h
  refine Finset.mem_erase.mpr ⟨hne, Finset.mem_image.mpr
    ⟨(input.normalizeAnalysisFrontier frontier reachable).toFinset, ?_, ?_⟩⟩
  · refine Finset.mem_powerset.mpr fun n hn => ?_
    exact mem_toFinset.mpr (mem_normalizeAnalysisFrontier.mp (mem_toFinset.mp hn)).2.2
  · refine (normalizeAnalysisFrontier_eq (Finset.nodup_toList _) fun n => ?_).symm
    rw [Finset.mem_toList, mem_toFinset]

theorem mem_reachable_of_normal (h : frontier ∈ normalFrontiers reachable) (hn : n ∈ frontier) :
    n ∈ reachable := by
  obtain ⟨-, hi⟩ := Finset.mem_erase.mp h
  obtain ⟨nodes, hno, rfl⟩ := Finset.mem_image.mp hi
  rw [(perm_sort _ _).mem_iff, Finset.mem_toList] at hn
  exact mem_toFinset.mp (Finset.mem_powerset.mp hno hn)

theorem card_normalFrontiers_le : (normalFrontiers reachable).card ≤ 2 ^ reachable.length := by
  refine (Finset.card_le_card (Finset.erase_subset _ _)).trans (Finset.card_image_le.trans ?_)
  rw [Finset.card_powerset]
  exact Nat.pow_le_pow_right (by omega) (toFinset_card_le reachable)

theorem normalFrontiers_distinct (hz : ∀ n ∈ reachable, '\x00' ∉ n.toList) :
    ∀ b ∈ normalFrontiers reachable, ∀ c ∈ normalFrontiers reachable,
      frontierKey b = frontierKey c → b = c := fun _ hb _ hc =>
  frontierKey_inj (Finset.ne_of_mem_erase hb) (Finset.ne_of_mem_erase hc)
    (fun n hn => hz n (mem_reachable_of_normal hb hn))
    (fun n hn => hz n (mem_reachable_of_normal hc hn))

/-- The combinations stay within the limit, and have every choice of options. -/
theorem combineOptions_spec (h : input.combineOptions reachable frontier combinations = some result)
    (hl : combinations.length ≤ maxAnalysisFrontiers) :
    result.length ≤ maxAnalysisFrontiers ∧ ∀ chosen ∈ combinations, ∀ choice : String → List String,
        (∀ n ∈ frontier, choice n ∈ input.analysisNodeNextOptions n reachable) →
        chosen ++ frontier.flatMap choice ∈ result := by
  induction frontier generalizing combinations with
  | nil =>
    cases h
    refine ⟨hl, fun chosen hc choice _ => ?_⟩
    rw [flatMap_nil, append_nil]
    exact hc
  | cons n frontier ih =>
    rw [combineOptions] at h
    split at h
    · cases h
    next hle =>
      obtain ⟨hr, ha⟩ := ih h (by
        rw [Nat.not_lt, Nat.le_div_iff_mul_le (by omega)] at hle
        rw [length_flatMap]
        simp only [length_map, map_const', sum_replicate, Nat.nsmul_eq_mul]
        refine le_trans (Nat.mul_le_mul_left _ (le_max_right 1 _)) hle)
      refine ⟨hr, fun chosen hc choice hch => ?_⟩
      have hn := hch n mem_cons_self
      rw [flatMap_cons, ← append_assoc]
      refine ha (chosen ++ choice n) (mem_flatMap.mpr ⟨chosen, hc, ?_⟩) choice
        (forall_mem_cons.mp hch).2
      rw [optionsOrEmpty, if_neg (ne_nil_of_mem hn)]
      exact mem_map_of_mem hn

theorem length_explore_le {frontiers : List (List String)} (visited : List String) :
    (explore (input.viewFrontier reachable) frontierKey (fun _ => []) fuel frontiers
      visited).length ≤ fuel := by
  induction fuel generalizing frontiers visited with
  | zero => exact le_rfl
  | succ fuel ih =>
    cases frontiers with
    | nil => exact Nat.zero_le _
    | cons frontier frontiers =>
      rw [explore]
      split
      · exact (ih visited).trans (Nat.le_succ fuel)
      · split
        · exact (ih visited).trans (Nat.le_succ fuel)
        · exact Nat.succ_le_succ (ih _)

theorem length_nextAnalysisFrontiers_le :
    (input.nextAnalysisFrontiers frontier reachable).length ≤ maxAnalysisFrontiers := by
  rw [nextAnalysisFrontiers]
  split
  · rw [conservativeAnalysisFrontier]
    split
    · exact Nat.succ_le_succ (Nat.zero_le _)
    · exact Nat.zero_le _
  next combinations h =>
    have ho : [([] : List String)].length ≤ maxAnalysisFrontiers := Nat.succ_le_succ (Nat.zero_le _)
    exact (length_explore_le _).trans (combineOptions_spec h ho).1

/-- From a frontier, whatever its nodes choose is within a frontier that follows. -/
theorem exists_nextAnalysisFrontier (hz : ∀ n ∈ reachable, '\x00' ∉ n.toList)
    (hc : ∀ n ∈ frontier, choice n ∈ input.analysisNodeNextOptions n reachable)
    (hv : input.viewFrontier reachable (frontier.flatMap choice) = some view) :
    ∃ next ∈ input.nextAnalysisFrontiers frontier reachable,
      input.viewFrontier reachable next = some next ∧ ∀ n ∈ view, n ∈ next := by
  obtain ⟨hvi, hne⟩ := viewFrontier_eq_some.mp hv
  rw [nextAnalysisFrontiers]
  cases hco : input.combineOptions reachable frontier [[]] with
  | none =>
    -- the union of all options has the chosen ones
    have hu : ∀ n ∈ view, n ∈ input.normalizeAnalysisFrontier (frontier.flatMap fun nodeID =>
        (input.analysisNodeNextOptions nodeID reachable).flatten) reachable := by
      intro n hn
      rw [hvi, mem_normalizeAnalysisFrontier, mem_flatMap] at hn
      obtain ⟨⟨m, hm, hnm⟩, hi⟩ := hn
      refine mem_normalizeAnalysisFrontier.mpr ⟨mem_flatMap.mpr ⟨m, hm, ?_⟩, hi⟩
      exact mem_flatten.mpr ⟨choice m, hc m hm, hnm⟩
    obtain ⟨n, hn⟩ := exists_mem_of_ne_nil view hne
    have hn' := ne_nil_of_mem (hu n hn)
    refine ⟨_, ?_, viewFrontier_eq_some.mpr ⟨normalizeAnalysisFrontier_idem.symm, hn'⟩, hu⟩
    simp only [conservativeAnalysisFrontier]
    rw [if_pos hn']
    exact mem_singleton_self _
  | some combinations =>
    have ho : [([] : List String)].length ≤ maxAnalysisFrontiers := Nat.succ_le_succ (Nat.zero_le _)
    have hme := (combineOptions_spec hco ho).2 [] (mem_singleton_self _) choice hc
    have hun : Universe (input.viewFrontier reachable) frontierKey
        (fun _ => []) (normalFrontiers reachable) (fun _ => 0) :=
      ⟨normalFrontiers_distinct hz, nofun, fun _ _ => le_rfl⟩
    have hf : combinations.length + ∑ _u ∈ normalFrontiers reachable, 0 ≤ combinations.length := by
      rw [Finset.sum_const_zero, Nat.add_zero]
    have hfo := (explore_closed hun (fun _ _ _ h => view_mem_normalFrontiers h) hf).1
    exact ⟨view, hfo _ hme _ hv, viewFrontier_view hv, fun n hn => hn⟩

/-- The search finds the frontier of the entry point, and with a frontier another one that
covers whatever its nodes choose. -/
theorem frontiers_closed (hz : ∀ n ∈ reachable, '\x00' ∉ n.toList)
    (he : input.entryPoint ∈ reachable)
    (hi : input.isAnalysisEndTarget input.entryPoint = false) :
    [input.entryPoint] ∈ input.frontiers reachable ∧
      ∀ frontier ∈ input.frontiers reachable, ∀ choice : String → List String,
        (∀ n ∈ frontier, choice n ∈ input.analysisNodeNextOptions n reachable) →
        ∃ next ∈ input.frontiers reachable, ∀ n ∈ frontier.flatMap choice,
          input.isAnalysisEndTarget n = false → n ∈ reachable → n ∈ next := by
  have hu : Universe (input.viewFrontier reachable) frontierKey
      (fun frontier => input.nextAnalysisFrontiers frontier reachable)
      (normalFrontiers reachable) (fun _ => maxAnalysisFrontiers) :=
    ⟨normalFrontiers_distinct hz, fun _ _ _ _ _ h => view_mem_normalFrontiers h,
      fun b _ => length_nextAnalysisFrontiers_le⟩
  have hfu : [[input.entryPoint]].length + ∑ _u ∈ normalFrontiers reachable,
      maxAnalysisFrontiers ≤ 1 + 2 ^ reachable.length * maxAnalysisFrontiers := by
    rw [Finset.sum_const, Nat.nsmul_eq_mul]
    exact Nat.add_le_add_left (Nat.mul_le_mul_right _ card_normalFrontiers_le) 1
  have hc := explore_closed hu (fun _ _ _ h => view_mem_normalFrontiers h) hfu
  have hs : input.frontiers reachable = explore (input.viewFrontier reachable) frontierKey
        (fun frontier => input.nextAnalysisFrontiers frontier reachable)
        (1 + 2 ^ reachable.length * maxAnalysisFrontiers) [[input.entryPoint]] [] := by
    rw [frontiers, if_neg (not_not_intro he)]
  rw [← hs] at hc
  have hst : input.viewFrontier reachable [input.entryPoint] = some [input.entryPoint] := by
    have hno : input.normalizeAnalysisFrontier [input.entryPoint] reachable =
        [input.entryPoint] := by
      rw [normalizeAnalysisFrontier, filter_cons_of_pos (by simp [hi, he])]
      rfl
    rw [viewFrontier, hno]
    exact if_neg (cons_ne_nil _ _)
  refine ⟨hc.1 _ (mem_singleton_self _) _ hst, fun frontier hf choice hch => ?_⟩
  cases hv : input.viewFrontier reachable (frontier.flatMap choice) with
  | none =>
    refine ⟨frontier, hf, fun n hn hen hr => ?_⟩
    have hm := mem_normalizeAnalysisFrontier.mpr ⟨hn, hen, hr⟩
    rw [viewFrontier] at hv
    split at hv
    next h => simp [h] at hm
    · cases hv
  | some view =>
    obtain ⟨next, hne, hse, hsu⟩ := exists_nextAnalysisFrontier hz hch hv
    refine ⟨next, hc.2 frontier hf next hne next hse, fun n hn hen hr => ?_⟩
    rw [(viewFrontier_eq_some.mp hv).1] at hsu
    exact hsu n (mem_normalizeAnalysisFrontier.mpr ⟨hn, hen, hr⟩)

end ContractAnalysisGraph

end WeaveFlow
