import WeaveFlow.Graph.Task
import WeaveFlow.State.ParallelMerge

/-!
# The patch collector

The tasks of a wave run concurrently on one base state and hand their patches to the
collector, each under a lock.  A static task takes its order from a table by node; a node that
is not in the table is entered with the next free number when its first patch arrives.  After
the wave the collected branches are merged into the base.
-/

namespace WeaveFlow

/-- The target of an edge specification, and whether the edge has a condition. -/
structure EdgeSpec where
  toRef : String
  hasCondition : Bool
  deriving DecidableEq, Repr

/-- The loop of `compileBranchOrders`. -/
def branchOrdersFrom : List EdgeSpec → SortedMap String Int → Int → SortedMap String Int
  | [], orders, _ => orders
  | edge :: rest, orders, nextOrder =>
    if edge.hasCondition then branchOrdersFrom rest orders nextOrder
    else
      let trimmed := trimSpace edge.toRef
      let target := if trimmed = endNodeRef then endNodeID else trimmed
      if (orders.get target).isSome then branchOrdersFrom rest orders nextOrder
      else branchOrdersFrom rest (orders.put target nextOrder) (nextOrder + 1)

def compileBranchOrders (edgeSpecs : List EdgeSpec) : SortedMap String Int :=
  branchOrdersFrom edgeSpecs SortedMap.empty 0

/-- `compilePatchCollector`.  A base state is named by its address. -/
structure CompilePatchCollector where
  orders : SortedMap String Int
  patches : SortedMap Nat (List BranchPatch)
  abandoned : SortedMap Nat (List String)

namespace CompilePatchCollector

def newCompilePatchCollector (orders : SortedMap String Int) : CompilePatchCollector :=
  ⟨orders, SortedMap.empty, SortedMap.empty⟩

/-- The order of a task, and the table afterwards. -/
def orderFor (orders : SortedMap String Int) (task : GraphTask) : Int × SortedMap String Int :=
  if task.dynamic then (task.order, orders)
  else
    match orders.get task.nodeID with
    | some order => (order, orders)
    | none => (orders.keys.length, orders.put task.nodeID orders.keys.length)

/-- A branch replaces the one with its task id, or is added at the end. -/
def storeBranch (branch : BranchPatch) : List BranchPatch → List BranchPatch
  | [] => [branch]
  | b :: rest => if b.taskID = branch.taskID then branch :: rest else b :: storeBranch branch rest

def branchesOf (c : CompilePatchCollector) (base : Nat) : List BranchPatch :=
  (c.patches.get base).getD []

/-- The tasks of a base whose attempt was given up. -/
def abandonedOf (c : CompilePatchCollector) (base : Nat) : List String :=
  (c.abandoned.get base).getD []

/-- The common part of `record` and `abandonTask`. -/
def store (c : CompilePatchCollector) (base : Nat) (task : GraphTask) (patch : Patch) :
    CompilePatchCollector :=
  let (order, orders) := orderFor c.orders task
  let branch : BranchPatch := ⟨task.taskID, task.nodeID, order, patch⟩
  { c with
    orders := orders
    patches := c.patches.put base (storeBranch branch (c.branchesOf base)) }

def record (c : CompilePatchCollector) (base : Nat) (task : GraphTask) (patch : Patch) :
    CompilePatchCollector :=
  if task.taskID ∈ c.abandonedOf base then c else c.store base task patch

def abandonTask (c : CompilePatchCollector) (base : Nat) (task : GraphTask) :
    CompilePatchCollector :=
  { c with abandoned := c.abandoned.put base (task.taskID :: c.abandonedOf base) }.store base task ⟨[]⟩

def releaseAbandonedTask (c : CompilePatchCollector) (base : Nat) (taskID : String) :
    CompilePatchCollector :=
  let tasks := (c.abandonedOf base).filter fun t => t ≠ taskID
  { c with
    abandoned := if tasks.isEmpty then c.abandoned.del base else c.abandoned.put base tasks }

def hasPatch (c : CompilePatchCollector) (base : Nat) (taskID : String) : Bool :=
  (c.branchesOf base).any fun b => b.taskID = taskID

def consume (c : CompilePatchCollector) (base : Nat) : List BranchPatch × CompilePatchCollector :=
  (c.branchesOf base, { c with patches := c.patches.del base })

end CompilePatchCollector

/-- Why the results of a wave were not merged. -/
inductive MergeResultsError where
  | missingPatches (collected results : Nat)
  | merge (e : MergeError)

/-- `mergeCompiledResults`, for a number of results, with the options of the graph. -/
def mergeCompiledResults (engine : SchemaEngine) (ranges : RangeOrders)
    (options : ParallelMergeOptions) (c : CompilePatchCollector) (base : Nat) (current : State)
    (results : Nat) : Except MergeResultsError State :=
  if results = 0 then .ok current
  else
    let branches := (c.consume base).1
    if branches.length ≠ results then .error (.missingPatches branches.length results)
    else
      match mergeParallelPatches engine ranges current branches options with
      | .error e => .error (.merge e)
      | .ok merged => .ok merged

end WeaveFlow
