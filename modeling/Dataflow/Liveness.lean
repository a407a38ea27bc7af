import Dataflow.CompactSet
import Dataflow.FlowGraph
import Dataflow.Solver.Analysis

/-! Live variables: which variables may still be read before they are overwritten, before
and after each statement. -/

namespace Dataflow

namespace Liveness

/-- The variables live before a statement, given those live after it. -/
def before (stmt : Stmt) (live : CompactSet Var) : CompactSet Var :=
  let kept := match stmt.def? with
    | some x => (live.remove x).value
    | none => live
  (kept.addAll stmt.uses.toList).value

def transfer? (g : FlowGraph) (p : Point) (input output : CompactSet Var) :
    Option (Updated (CompactSet Var)) :=
  (g.stmt? p).map fun stmt => output.overwrite (before stmt input)

/-- Nothing is live where the method ends. A point outside the graph, which the solver
never visits, passes nothing. -/
def analysis (g : FlowGraph) : Analysis Point (CompactSet Var) where
  direction := .backward
  bottom := ∅
  boundary := ∅
  start _ := ∅
  join source target := (target.union source).value
  transfer p input output := (transfer? g p input output).getD ⟨output, false⟩

end Liveness

end Dataflow
