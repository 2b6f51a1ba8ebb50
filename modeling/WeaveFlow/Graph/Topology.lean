import WeaveFlow.Graph.Task
import WeaveFlow.Lib.Worklist

/-!
# The topology of a graph

Nodes with their default and conditional edges and failure routes, and the two tables the
scheduler is built with: the join nodes, and for every node the nodes it reaches.  The tables
follow default and conditional edges only.  Being strictly upstream, reaching a node without being
reached by it, is a strict order on all graphs, cyclic ones included.
-/

namespace WeaveFlow

open List

structure FailureRoute where
  target : String
  stages : List FailureStage
  errorClasses : List String
  catchAll : Bool
  deriving DecidableEq, Repr

/-- A graph.  Of a conditional edge only the target is kept; what its condition decides is
given with each wave. -/
structure Graph where
  nodes : List String
  entryPoint : String
  finishPoint : String
  defaultEdges : SortedMap String (List String)
  conditionalEdges : SortedMap String (List String)
  failureRoutes : SortedMap String (List FailureRoute)

namespace Graph

variable (g : Graph)

/-- The targets of the default edges of a node. -/
def defaultTargets (nodeID : String) : List String := (g.defaultEdges.get nodeID).getD []

/-- The targets of the conditional edges of a node. -/
def conditionalTargets (nodeID : String) : List String := (g.conditionalEdges.get nodeID).getD []

def outgoingNodeIDs (nodeID : String) : List String :=
  g.defaultTargets nodeID ++ g.conditionalTargets nodeID

/-- All nodes with an outgoing edge. -/
def sources : List String := (g.defaultEdges.keys ++ g.conditionalEdges.keys).dedup

def targets : List String := g.sources.flatMap g.outgoingNodeIDs

def predecessors (nodeID : String) : List String :=
  g.sources.filter fun source => nodeID ∈ g.outgoingNodeIDs source

def compileJoinNodes : List String :=
  g.targets.dedup.filter fun nodeID =>
    decide (nodeID ≠ endNodeID) && decide (1 < (g.predecessors nodeID).length)

def isJoinNode (nodeID : String) : Bool := decide (nodeID ∈ g.compileJoinNodes)

/-- The targets that the search of `compileReachability` follows. -/
def innerTargets (nodeID : String) : List String :=
  (g.outgoingNodeIDs nodeID).filter fun target => target ≠ endNodeID

/-- The row of a node in the table of `compileReachability`. -/
def reachableFrom (nodeID : String) : List String :=
  Worklist.reached g.innerTargets g.targets nodeID

/-- A lookup in the table of `compileReachability`; it has a row for every node. -/
def reaches (nodeID target : String) : Bool :=
  decide (nodeID ∈ g.nodes) && decide (target ∈ g.reachableFrom nodeID)

def isStrictUpstream (nodeID targetNodeID : String) : Bool :=
  if nodeID = "" || nodeID = endNodeID || nodeID = targetNodeID then false
  else g.reaches nodeID targetNodeID && !g.reaches targetNodeID nodeID

/-! ## The reachability table -/

variable {g}

theorem mem_targets (h : b ∈ g.outgoingNodeIDs a) : b ∈ g.targets := by
  refine mem_flatMap.mpr ⟨a, ?_, h⟩
  rw [sources, mem_dedup, mem_append]
  rw [outgoingNodeIDs, mem_append] at h
  have hk : ∀ m : SortedMap String (List String), b ∈ (m.get a).getD [] → a ∈ m.keys := by
    intro m hb
    cases hg : m.get a with
    | none => simp [hg] at hb
    | some targets => exact SortedMap.mem_keys.mpr ⟨targets, hg⟩
  exact h.imp (hk g.defaultEdges) (hk g.conditionalEdges)

/-- An edge between two nodes. -/
abbrev Edge (g : Graph) : String → String → Prop := Worklist.Step g.innerTargets

theorem edge_iff : g.Edge a b ↔ b ∈ g.outgoingNodeIDs a ∧ b ≠ endNodeID := by
  rw [Edge, Worklist.Step, innerTargets, mem_filter, decide_eq_true_eq]

theorem reaches_iff : g.reaches a b = true ↔ a ∈ g.nodes ∧ Relation.TransGen g.Edge a b := by
  have hs : ∀ a, g.innerTargets a ⊆ g.targets := fun a b hb =>
    mem_targets (edge_iff.mp hb).1
  rw [reaches, Bool.and_eq_true, decide_eq_true_eq, decide_eq_true_eq, reachableFrom,
    Worklist.mem_reached hs]

theorem reaches_trans (hab : g.reaches a b = true) (hbc : g.reaches b c = true) :
    g.reaches a c = true := by
  rw [reaches_iff] at hab hbc ⊢
  exact ⟨hab.1, hab.2.trans hbc.2⟩

/-! ## Strictly upstream -/

theorem isStrictUpstream_iff : g.isStrictUpstream a b = true ↔
      a ≠ "" ∧ a ≠ endNodeID ∧ a ≠ b ∧ g.reaches a b = true ∧ g.reaches b a = false := by
  rw [isStrictUpstream]
  split
  next h =>
    simp only [Bool.or_eq_true, decide_eq_true_eq] at h
    constructor
    · intro hf
      cases hf
    · rintro ⟨h1, h2, h3, -⟩
      rcases h with (h | h) | h
      · exact absurd h h1
      · exact absurd h h2
      · exact absurd h h3
  next h =>
    simp only [Bool.or_eq_true, decide_eq_true_eq, not_or] at h
    rw [Bool.and_eq_true, Bool.not_eq_true']
    exact ⟨fun hr => ⟨h.1.1, h.1.2, h.2, hr⟩, fun hr => hr.2.2.2⟩

theorem isStrictUpstream_irrefl : g.isStrictUpstream a a = false := by
  rw [isStrictUpstream, if_pos (by simp)]

theorem isStrictUpstream_trans (hab : g.isStrictUpstream a b = true)
    (hbc : g.isStrictUpstream b c = true) : g.isStrictUpstream a c = true := by
  rw [isStrictUpstream_iff] at hab hbc ⊢
  obtain ⟨he, hen, -, hr, hrb⟩ := hab
  obtain ⟨-, -, -, hrc, hr'⟩ := hbc
  have hca : g.reaches c a = false := by
    rw [← Bool.not_eq_true]
    intro hca
    simp [reaches_trans hca hr] at hr'
  refine ⟨he, hen, ?_, reaches_trans hr hrc, hca⟩
  rintro rfl
  simp [hrc] at hrb

/-- A node strictly upstream of another is a node of the graph and not the end. -/
theorem real_of_isStrictUpstream (h : g.isStrictUpstream a b = true) :
    a ∈ g.nodes ∧ a ≠ endNodeID := by
  rw [isStrictUpstream_iff] at h
  exact ⟨(reaches_iff.mp h.2.2.2.1).1, h.2.1⟩

end Graph

end WeaveFlow
