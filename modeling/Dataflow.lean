import Dataflow.Actions
import Dataflow.Graph.Drawing
import Dataflow.Graph.Search
import Dataflow.Solver.Record
import Dataflow.Tabular
import Dataflow.Proofs.GraphOrder
import Dataflow.Proofs.SolverSteps
import Dataflow.Proofs.SolverQueue
import Dataflow.Proofs.SolverFixedPoint
import Dataflow.Proofs.SolverLeast
import Dataflow.Proofs.FactOrder
import Dataflow.Proofs.MethodGraph
import Dataflow.Proofs.SolverTermination
import Dataflow.Proofs.LivenessPaths
import Dataflow.Proofs.ConstantsLaws
import Dataflow.Proofs.ConstantsSoundness
import Dataflow.Proofs.RunLength
import Dataflow.Proofs.ControlFlow
import Dataflow.Proofs.GraphBuilder
import Dataflow.Proofs.SolverRebuild
import Dataflow.Proofs.LivenessRuns
import Dataflow.Proofs.SolverDuality
import Dataflow.Proofs.ContainerMeaning
import Dataflow.Proofs.SharedTables
import Dataflow.Proofs.FactMeaning
import Dataflow.Proofs.SharedFacts
import Dataflow.Proofs.TransferContract
import Dataflow.Proofs.ValueOrigins
import Dataflow.Proofs.MethodExits
import Dataflow.Proofs.FactJoins
import Dataflow.Proofs.GraphWalk
import Dataflow.Proofs.ExprValue
import Dataflow.Proofs.AcyclicRuns
import Dataflow.Proofs.FactsGrow
import Dataflow.Proofs.QueueBalance
import Dataflow.Proofs.OperatorArithmetic
import Dataflow.Proofs.StackSearch
import Dataflow.Proofs.GraphView
import Dataflow.Proofs.StmtText
import Dataflow.Proofs.FactText
import Dataflow.Proofs.FactTables
import Dataflow.Proofs.QueueInvariant
import Dataflow.Proofs.RecordedRuns
import Dataflow.Proofs.ResultTable
