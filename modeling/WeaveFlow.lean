import WeaveFlow.State.Isolation
import WeaveFlow.State.Transparency
import WeaveFlow.Graph.Interrupt
import WeaveFlow.Build.WaveCoverage
import WeaveFlow.FileStore.DirectWrites
import WeaveFlow.Runtime.ChildLinks
import WeaveFlow.Queue.Atomicity
import WeaveFlow.Graph.Attempt
import WeaveFlow.Agent.Allowance
import WeaveFlow.Graph.Definition
import WeaveFlow.Tools.PathScope
import WeaveFlow.Runtime.RunCancel
import WeaveFlow.Build.WriteOverlap
import WeaveFlow.Queue.Finished
import WeaveFlow.State.NumericReducers
import WeaveFlow.State.Editor
import WeaveFlow.Agent.ToolWorkers
import WeaveFlow.Agent.PromptTrim
import WeaveFlow.Server.GraphStorage
import WeaveFlow.Trigger.ChatHistory
import WeaveFlow.Memory.VersionedStore
