import Dataflow.Env
import Dataflow.FlowGraph
import Dataflow.Solver.Analysis
import Dataflow.Value

/-! Constant propagation: which integer variables hold a known constant before and after
each statement. Variables that cannot hold an integer are not recorded. -/

namespace Dataflow

/-- The value of an expression, given those of variables. An unknown operand makes a result
unknown; a failing division, a call or a new object has no value. -/
def Expr.value (values : Var → Value) : Expr → Value
  | .var x => values x
  | .literal n => .constant n
  | .binary op left right =>
    match left.value values, right.value values with
    | .constant m, .constant n =>
      match op.apply m n with
      | some result => .constant result
      | none => .undefined
    | .notConstant, _ => .notConstant
    | _, .notConstant => .notConstant
    | _, _ => .undefined
  | .call .. => .undefined
  | .create _ => .undefined

/-- The assignment of a statement, if its variable can hold an integer. -/
def Stmt.intAssignment? : Stmt → Option (Var × Expr)
  | .assign x value => if x.holdsInt then some (x, value) else none
  | _ => none

namespace Constants

/-- Parameters that can hold an integer may hold any. -/
def boundary (m : Method) : Env Var Value :=
  .ofList ((m.params.filter Var.holdsInt).map fun x => (x, .notConstant))

/-- Before its first visit, an assignment may yield any integer. -/
def start (stmt : Stmt) : Env Var Value :=
  match stmt.intAssignment? with
  | some (x, _) => .ofList [(x, .notConstant)]
  | none => ∅

def after (stmt : Stmt) (input : Env Var Value) : Env Var Value :=
  match stmt.intAssignment? with
  | some (x, value) => (input.set x (value.value input.get)).value
  | none => input

def start? (g : FlowGraph) (p : Point) : Option (Env Var Value) := (g.stmt? p).map start

def transfer? (g : FlowGraph) (p : Point) (input output : Env Var Value) :
    Option (Updated (Env Var Value)) :=
  (g.stmt? p).map fun stmt => output.overwrite (after stmt input)

/-- A point outside the graph, which the solver never visits, starts and passes nothing. -/
def analysis (g : FlowGraph) : Analysis Point (Env Var Value) where
  direction := .forward
  bottom := ∅
  boundary := boundary g.method
  start p := (start? g p).getD ∅
  join source target := (target.join source).value
  transfer p input output := (transfer? g p input output).getD ⟨output, false⟩

end Constants

end Dataflow
