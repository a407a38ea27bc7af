import Dataflow.Solver.Run

/-! Whole runs and their answers: the facts before and after every node, or the reason why
there are none. -/

namespace Dataflow

variable {ν φ : Type} [Ord ν]

structure Run (ν φ : Type) [Ord ν] where
  direction : Direction
  /-- The nodes in the order of their first visits. -/
  order : List ν
  last : State ν φ
  ending : Ending φ

/-- The facts of every node of a settled run, in the direction of the edges. -/
structure Solution (ν φ : Type) [Ord ν] where
  direction : Direction
  order : List ν
  flows : Std.TreeMap ν (Flow φ)
  iterations : Nat

inductive SolveError where
  | didNotConverge (iterations : Nat)
  /-- An edge names a node that the graph does not list. -/
  | illFormed
deriving DecidableEq

def SolveError.message : SolveError → String
  | didNotConverge iterations =>
    "The analysis did not converge within " ++ toString iterations ++ " iterations"
  | illFormed => "An edge leads out of the graph"

/-- Runs an analysis over a graph with at most `limit` visits. Without a limit the run
goes on until it ends, and there is no answer if it never does. -/
def solve (a : Analysis ν φ) (g : Graph ν) (limit : Option Nat) : Option (Run ν φ) :=
  let o := g.orient a.direction
  let begun := State.initial a o
  let ended := match limit with
    | some visits => some (begun.run a o visits)
    | none => begun.finish a o
  ended.map fun (last, ending) => ⟨a.direction, o.order, last, ending⟩

namespace Run

def visits (r : Run ν φ) : List (Visit ν φ) := r.last.history.reverse

def iterations (r : Run ν φ) : Nat := r.last.history.length

def outcome (r : Run ν φ) : Except SolveError (Solution ν φ) :=
  match r.ending with
  | .settled => .ok ⟨r.direction, r.order, r.last.flows, r.iterations⟩
  | .exhausted => .error (.didNotConverge r.iterations)
  | .broken .. => .error .illFormed

end Run

def Flow.before : Flow φ → Direction → φ
  | flow, .forward => flow.incoming
  | flow, .backward => flow.outgoing

def Flow.after : Flow φ → Direction → φ
  | flow, .forward => flow.outgoing
  | flow, .backward => flow.incoming

namespace Solution

def contains (s : Solution ν φ) (n : ν) : Bool := s.flows.contains n

def inFact? (s : Solution ν φ) (n : ν) : Option φ := (s.flows.get? n).map (·.before s.direction)

def outFact? (s : Solution ν φ) (n : ν) : Option φ := (s.flows.get? n).map (·.after s.direction)

/-- Every node with the facts before and after it, in the order of first visits. -/
def rows (s : Solution ν φ) : List (ν × φ × φ) :=
  s.order.filterMap fun n =>
    (s.flows.get? n).map fun flow => (n, flow.before s.direction, flow.after s.direction)

def missing [NodeName ν] (n : ν) : String := nodeName n ++ " is not a node of the analyzed graph"

end Solution

end Dataflow
