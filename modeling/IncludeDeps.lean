import IncludeDeps.Compile
import IncludeDeps.Main
import IncludeDeps.Path.Interner
import IncludeDeps.Proofs.Ordered
import IncludeDeps.Proofs.Path.Canonical
import IncludeDeps.Proofs.Resolution
import IncludeDeps.Proofs.Walk
import IncludeDeps.Proofs.Walk.Exploration
import IncludeDeps.Proofs.Walk.Budget
import IncludeDeps.Proofs.Pass
import IncludeDeps.Proofs.Task
import IncludeDeps.Proofs.Incremental
import IncludeDeps.Proofs.Detection
import IncludeDeps.Proofs.MacroTable
import IncludeDeps.Proofs.Preprocessor
import IncludeDeps.Proofs.Tracking
import IncludeDeps.Proofs.Walk.Trail
import IncludeDeps.Proofs.Joint
import IncludeDeps.Proofs.Run
import IncludeDeps.Proofs.Coverage
import IncludeDeps.Proofs.Locality
import IncludeDeps.Proofs.Repetition
import IncludeDeps.Proofs.Wire
import IncludeDeps.Proofs.TaskState.Encoding
import IncludeDeps.Proofs.Workspace.Places
import IncludeDeps.Proofs.Workspace.Following
import IncludeDeps.Proofs.Computation
import IncludeDeps.Proofs.Workspace.Changes
import IncludeDeps.Proofs.TaskState.Store
import IncludeDeps.Proofs.Compile
import IncludeDeps.Proofs.Task.Stages
import IncludeDeps.Proofs.Compile.Progress
import IncludeDeps.Proofs.Compile.Retry
import IncludeDeps.Proofs.Settings
import IncludeDeps.Proofs.Regrouping
import IncludeDeps.Proofs.Headers
import IncludeDeps.Proofs.TaskState.Damage
import IncludeDeps.Proofs.TaskState.Interruption
import IncludeDeps.Proofs.TaskState.Sequence
import IncludeDeps.Proofs.Headers.Writing
import IncludeDeps.Proofs.Task.Failure
import IncludeDeps.Proofs.CommandLine
import IncludeDeps.Proofs.TaskState.Forgetting
import IncludeDeps.Proofs.CommandLine.Clean
import IncludeDeps.Proofs.Walk.Preorder
import IncludeDeps.Proofs.Workspace.Segments
import IncludeDeps.Proofs.Workspace.NormalForm
import IncludeDeps.Proofs.Config.Sources
import IncludeDeps.Proofs.Source.LogicalLine
import IncludeDeps.Proofs.Source.Comment
import IncludeDeps.Proofs.Source.Element
import IncludeDeps.Proofs.Source.Reader
import IncludeDeps.Proofs.Source.Splice
import IncludeDeps.Proofs.Source.Printer
import IncludeDeps.Proofs.MacroTable.Expansion
import IncludeDeps.Proofs.Search
import IncludeDeps.Proofs.Headers.Precision
import IncludeDeps.Proofs.Task.Success
import IncludeDeps.Proofs.Headers.Lines
import IncludeDeps.Proofs.Headers.RoundTrip
import IncludeDeps.Proofs.Headers.Recording
import IncludeDeps.Proofs.Rounds
import IncludeDeps.Proofs.Path.Normal
import IncludeDeps.Proofs.Task.Spelling
import IncludeDeps.Proofs.Marks
import IncludeDeps.Proofs.Walk.Turns
import IncludeDeps.Proofs.Readings
import IncludeDeps.Proofs.Path.Descent
import IncludeDeps.Proofs.Config.Scanning
import IncludeDeps.Proofs.Headers.Listing
import IncludeDeps.Proofs.Path.Normalization
import IncludeDeps.Proofs.Lookup
import IncludeDeps.Proofs.CommandLine.Isolation
import IncludeDeps.Proofs.Compile.Emptying
import IncludeDeps.Proofs.Timing
import IncludeDeps.Proofs.Digest
import IncludeDeps.Proofs.MacroTable.History
