import Dataflow.Solver.Solution

/-! Two records of a run: every use made of the analysis, and the lines of a log. -/

namespace Dataflow

/-- One use of an analysis by the solver, with the facts involved. -/
inductive Callback (ν φ : Type) where
  | boundary (fact : φ)
  | start (node : ν) (fact : φ)
  /-- A source joined into a target, which is given as it was afterwards. -/
  | join (source target : φ)
  | transfer (node : ν) (input output : φ) (changed : Bool)

inductive LogLevel where
  | trace | debug | warn
deriving DecidableEq

def LogLevel.text : LogLevel → String
  | trace => "TRACE"
  | debug => "DEBUG"
  | warn => "WARN"

structure LogLine where
  level : LogLevel
  message : String
  fields : List (String × String)

variable {ν φ : Type} [Ord ν]

/-- The joins of one source after the other into a target; the latest comes first. -/
def joinsOf (a : Analysis ν φ) (target : φ) (sources : List φ) : List (Callback ν φ) :=
  (sources.foldl
    (fun (so : φ × List (Callback ν φ)) source =>
      let joined := a.join source so.1
      (joined, .join source joined :: so.2))
    (target, [])).2

def Visit.callbacks (a : Analysis ν φ) (v : Visit ν φ) : List (Callback ν φ) :=
  (joinsOf a v.before v.sources).reverse ++ [.transfer v.node v.input v.output v.changed]

namespace Run

/-- The boundary fact is made once, then a starting fact for every node in order; the
visits follow, and what a visit joined before it met a node without facts. -/
def callbacks (a : Analysis ν φ) (r : Run ν φ) : List (Callback ν φ) :=
  let broken := match r.ending with
    | .broken before sources => (joinsOf a before sources).reverse
    | _ => []
  .boundary a.boundary :: r.order.map (fun n => .start n (a.start n))
    ++ r.visits.flatMap (Visit.callbacks a) ++ broken

end Run

def Visit.log [NodeName ν] (v : Visit ν φ) : List LogLine :=
  ⟨.trace, "Processed node", [("node", nodeName v.node), ("changed", toString v.changed)]⟩ ::
    v.requeued.map fun m => ⟨.trace, "Requeued node", [("neighbour", nodeName m)]⟩

namespace Run

def log [NodeName ν] (r : Run ν φ) : List LogLine :=
  let opening : LogLine :=
    ⟨.debug, "Solving dataflow analysis to a fixed point",
      [("forward", toString (r.direction = .forward : Bool)), ("nodes", toString r.order.length)]⟩
  let closing : List LogLine := match r.ending with
    | .settled => [⟨.debug, "Reached fixed point", [("iterations", toString r.iterations)]⟩]
    | .exhausted =>
      [⟨.warn, "Dataflow analysis did not converge", [("iterations", toString r.iterations)]⟩]
    | .broken .. => []
  opening :: r.visits.flatMap Visit.log ++ closing

end Run

end Dataflow
