import ProgramFlow.AnalysisId
import ProgramFlow.Collection.Buckets
import ProgramFlow.Collection.Coded
import ProgramFlow.Collection.Numbering
import ProgramFlow.Collection.Queue
import ProgramFlow.Collection.Roster
import ProgramFlow.Collection.SortedMap
import ProgramFlow.Collection.SortedSet
import ProgramFlow.Config.Document
import ProgramFlow.Config.Error
import ProgramFlow.Config.Settings
import ProgramFlow.Constants.Fact
import ProgramFlow.Constants.Propagation
import ProgramFlow.Constants.Value
import ProgramFlow.Dataflow.Problem
import ProgramFlow.Dataflow.Solver
import ProgramFlow.DeadCode
import ProgramFlow.Document.Analysis
import ProgramFlow.Document.Decimal
import ProgramFlow.Document.Decode
import ProgramFlow.Document.Encode
import ProgramFlow.Document.Format
import ProgramFlow.Document.Json
import ProgramFlow.Document.Json.Reading
import ProgramFlow.Document.Program
import ProgramFlow.Document.Syntax
import ProgramFlow.Document.Yaml.Cursor
import ProgramFlow.Document.Yaml.Event
import ProgramFlow.Document.Yaml.Meaning
import ProgramFlow.Document.Yaml.Node
import ProgramFlow.Document.Yaml.Reading
import ProgramFlow.Document.Yaml.Scalar
import ProgramFlow.Document.Yaml.Tag
import ProgramFlow.Document.Yaml.Token
import ProgramFlow.Error
import ProgramFlow.Graph.ControlFlow
import ProgramFlow.Graph.Supergraph
import ProgramFlow.Id
import ProgramFlow.Interprocedural.Aliases
import ProgramFlow.Interprocedural.Constants
import ProgramFlow.Interprocedural.Problem
import ProgramFlow.Iteration
import ProgramFlow.Liveness
import ProgramFlow.Pipeline.Run
import ProgramFlow.Pipeline.Session
import ProgramFlow.PointsTo.CallGraph
import ProgramFlow.PointsTo.Context
import ProgramFlow.PointsTo.Elements
import ProgramFlow.PointsTo.FlowGraph
import ProgramFlow.PointsTo.Heap
import ProgramFlow.PointsTo.Pointers
import ProgramFlow.PointsTo.Result
import ProgramFlow.PointsTo.Sensitivity
import ProgramFlow.PointsTo.Solver
import ProgramFlow.Program.Basic
import ProgramFlow.Program.Builder
import ProgramFlow.Program.Dispatch
import ProgramFlow.Proofs.Collection.Numbering
import ProgramFlow.Proofs.Collection.Registers
import ProgramFlow.Proofs.Collection.SortedSet
import ProgramFlow.Proofs.Constants.Arithmetic
import ProgramFlow.Proofs.Constants.Canonical
import ProgramFlow.Proofs.Constants.Order
import ProgramFlow.Proofs.Constants.Soundness
import ProgramFlow.Proofs.Constants.Transfer
import ProgramFlow.Proofs.Dataflow.Analyses
import ProgramFlow.Proofs.Dataflow.Ascent
import ProgramFlow.Proofs.Dataflow.LeastSolution
import ProgramFlow.Proofs.Dataflow.LivePaths
import ProgramFlow.Proofs.Dataflow.Resumption
import ProgramFlow.Proofs.Dataflow.Schedules
import ProgramFlow.Proofs.Dataflow.Solution
import ProgramFlow.Proofs.Dataflow.System
import ProgramFlow.Proofs.Dataflow.WorkList
import ProgramFlow.Proofs.DeadCode.Classification
import ProgramFlow.Proofs.DeadCode.Detection
import ProgramFlow.Proofs.DeadCode.Feasibility
import ProgramFlow.Proofs.DeadCode.Reachability
import ProgramFlow.Proofs.DeadCode.Removal
import ProgramFlow.Proofs.Graph.Construction
import ProgramFlow.Proofs.Graph.ControlFlow
import ProgramFlow.Proofs.Graph.Linkage
import ProgramFlow.Proofs.Graph.Pairing
import ProgramFlow.Proofs.Graph.Shape
import ProgramFlow.Proofs.Graph.Supergraph
import ProgramFlow.Proofs.Interprocedural.Accesses
import ProgramFlow.Proofs.Interprocedural.AliasMaps
import ProgramFlow.Proofs.Interprocedural.AliasPairs
import ProgramFlow.Proofs.Interprocedural.Ascent
import ProgramFlow.Proofs.Interprocedural.Comparison
import ProgramFlow.Proofs.Interprocedural.Constants
import ProgramFlow.Proofs.Interprocedural.HeapSoundness
import ProgramFlow.Proofs.Interprocedural.LeastSolution
import ProgramFlow.Proofs.Interprocedural.Monotone
import ProgramFlow.Proofs.Interprocedural.Precision
import ProgramFlow.Proofs.Interprocedural.Refinement
import ProgramFlow.Proofs.Interprocedural.Soundness
import ProgramFlow.Proofs.Interprocedural.Unresolved
import ProgramFlow.Proofs.Iteration
import ProgramFlow.Proofs.Outcome
import ProgramFlow.Proofs.Pipeline.Coverage
import ProgramFlow.Proofs.Pipeline.Defaults
import ProgramFlow.Proofs.Pipeline.Failures
import ProgramFlow.Proofs.Pipeline.Precision
import ProgramFlow.Proofs.Pipeline.Stages
import ProgramFlow.Proofs.PointsTo.Accounting
import ProgramFlow.Proofs.PointsTo.Balance
import ProgramFlow.Proofs.PointsTo.CallPaths
import ProgramFlow.Proofs.PointsTo.Capacity
import ProgramFlow.Proofs.PointsTo.Completion
import ProgramFlow.Proofs.PointsTo.Contexts
import ProgramFlow.Proofs.PointsTo.Entries
import ProgramFlow.Proofs.PointsTo.Exactness
import ProgramFlow.Proofs.PointsTo.Holdings
import ProgramFlow.Proofs.PointsTo.Keeping
import ProgramFlow.Proofs.PointsTo.Naming
import ProgramFlow.Proofs.PointsTo.OverApproximation
import ProgramFlow.Proofs.PointsTo.Pointers
import ProgramFlow.Proofs.PointsTo.Precision
import ProgramFlow.Proofs.PointsTo.Projection
import ProgramFlow.Proofs.PointsTo.Queries
import ProgramFlow.Proofs.PointsTo.Reading
import ProgramFlow.Proofs.PointsTo.Reserve
import ProgramFlow.Proofs.PointsTo.Resolution
import ProgramFlow.Proofs.PointsTo.Resumption
import ProgramFlow.Proofs.PointsTo.Rules
import ProgramFlow.Proofs.PointsTo.Simulation
import ProgramFlow.Proofs.PointsTo.Steps
import ProgramFlow.Proofs.PointsTo.Strategy
import ProgramFlow.Proofs.PointsTo.Termination
import ProgramFlow.Proofs.PointsTo.Tracing
import ProgramFlow.Proofs.PointsTo.Triple
import ProgramFlow.Proofs.PointsTo.Views
import ProgramFlow.Proofs.Program.Abstract
import ProgramFlow.Proofs.Program.Activations
import ProgramFlow.Proofs.Program.Assembly
import ProgramFlow.Proofs.Program.Dispatch
import ProgramFlow.Proofs.Program.Evaluation
import ProgramFlow.Proofs.Program.Execution
import ProgramFlow.Proofs.Program.Grounded
import ProgramFlow.Proofs.Program.Layout
import ProgramFlow.Proofs.Program.Memory
import ProgramFlow.Proofs.Program.Validation
import ProgramFlow.Proofs.Program.Variables
import ProgramFlow.Syntax.Instr
import ProgramFlow.Syntax.Operator
import ProgramFlow.Syntax.Ty
