import WeaveFlow.Lib.Assoc

/-!
# Graph tasks

A task of a wave, and the maps from node to task in which the scheduler keeps static tasks.
A map holds a task under its own node; where two tasks meet at a node, the one that carries a
failure is preferred.
-/

namespace WeaveFlow

def endNodeID : String := "END"

/-- `EndNodeRef`: how an edge or a command refers to the end. -/
def endNodeRef : String := "__end__"

/-- The stage at which a failure arose. -/
inductive FailureStage where
  | node
  | condition
  deriving DecidableEq, Repr

def FailureStage.text : FailureStage → String
  | node => "node"
  | condition => "condition"

def FailureStage.ofText (text : String) : Option FailureStage :=
  if text = "node" then some .node else if text = "condition" then some .condition else none

theorem FailureStage.ofText_text (stage : FailureStage) : ofText stage.text = some stage := by
  cases stage <;> rfl

/-- What a failure route hands to its target. -/
structure FailureContext where
  stage : FailureStage
  errorClass : String
  error : String
  sourceNodeID : String
  deriving DecidableEq, Repr

/-- A scheduled execution of a node. -/
structure GraphTask where
  taskID : String
  nodeID : String
  correlationKey : String := ""
  orderKey : String := ""
  order : Int := 0
  dynamic : Bool := false
  failure : Option FailureContext := none
  deriving DecidableEq, Repr

def newStaticGraphTask (nodeID : String) (order : Int) : GraphTask :=
  { taskID := nodeID, nodeID := nodeID, order := order }

/-! ## Tasks by node -/

/-- A map from node to task; every task is kept under its own node. -/
structure TaskMap where
  tasks : SortedMap String GraphTask
  keyed : ∀ nodeID task, tasks.get nodeID = some task → task.nodeID = nodeID

namespace TaskMap

def empty : TaskMap := ⟨SortedMap.empty, fun _ _ h => by cases h⟩

def get (m : TaskMap) (nodeID : String) : Option GraphTask := m.tasks.get nodeID

def nodeIDs (m : TaskMap) : List String := m.tasks.keys

def sortedTasksByNodeID (m : TaskMap) : List GraphTask := m.tasks.vals

/-- Store a task under its node. -/
def put (m : TaskMap) (task : GraphTask) : TaskMap where
  tasks := m.tasks.put task.nodeID task
  keyed := by
    intro nodeID t h
    rw [SortedMap.get_put] at h
    split at h
    next he => cases h; exact he.symm
    · exact m.keyed nodeID t h

def del (m : TaskMap) (nodeID : String) : TaskMap where
  tasks := m.tasks.del nodeID
  keyed := by
    intro other t h
    rw [SortedMap.get_del] at h
    split at h
    · cases h
    · exact m.keyed other t h

def storePreferredTask (m : TaskMap) (task : GraphTask) : TaskMap :=
  match m.get task.nodeID with
  | none => m.put task
  | some current => if current.failure.isNone && task.failure.isSome then m.put task else m

def taskMapByNodeID (tasks : List GraphTask) : TaskMap :=
  tasks.foldl (fun m task => if task.nodeID = "" then m else m.storePreferredTask task) empty

end TaskMap

end WeaveFlow
