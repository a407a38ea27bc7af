import Dataflow.Solver.Analysis
import Dataflow.Solver.Worklist

/-! The worklist algorithm, one visit at a time. A visit joins what leaves the neighbours
on the inflow side into the fact kept as flowing into the node, passes it through the
node, and on a change puts the neighbours on the outflow side back in the queue. -/

namespace Dataflow

structure Visit (ν φ : Type) where
  node : ν
  /-- The incoming fact kept from before the visit. -/
  before : φ
  /-- The facts the inflow neighbours send, in the order they were joined. -/
  sources : List φ
  input : φ
  output : φ
  changed : Bool
  /-- The outflow neighbours put back in the queue. -/
  requeued : List ν

/-- A run under way; the latest visit comes first. -/
structure State (ν φ : Type) [Ord ν] where
  waiting : Worklist ν
  flows : Std.TreeMap ν (Flow φ)
  history : List (Visit ν φ)

/-- How a run ends: no node waits, the allowed visits are used up, or a visit met a
node without facts. What was joined before that is kept. -/
inductive Ending (φ : Type) where
  | settled
  | exhausted
  | broken (before : φ) (sources : List φ)

inductive Progress (ν φ : Type) [Ord ν] where
  | ended (ending : Ending φ)
  | moved (state : State ν φ)

variable {ν φ : Type} [Ord ν]

/-- Every node waits, in order. Facts flow in at the starts only. -/
def State.initial (a : Analysis ν φ) (o : Oriented ν) : State ν φ :=
  let order := o.order
  let starts := Std.TreeSet.ofList o.starts
  let flow (n : ν) : Flow φ := ⟨if starts.contains n then a.boundary else a.bottom, a.start n⟩
  { waiting := .ofList order
    flows := order.foldl (fun flows n => flows.insert n (flow n)) ∅
    history := [] }

/-- The visit of a node with the given facts whose inflow neighbours send `sources`,
while the nodes of `waiting` are queued. -/
def Visit.ofSources (a : Analysis ν φ) (o : Oriented ν) (waiting : Worklist ν) (n : ν)
    (flow : Flow φ) (sources : List φ) : Visit ν φ :=
  let input := sources.foldl (fun target source => a.join source target) flow.incoming
  let passed := a.transfer n input flow.outgoing
  let affected := if passed.changed then o.outflow.next n else []
  { node := n
    before := flow.incoming
    sources
    input
    output := passed.value
    changed := passed.changed
    requeued := distinct (affected.filter fun m => !waiting.contains m) }

namespace State

def outgoing? (s : State ν φ) (n : ν) : Option φ := (s.flows.get? n).map Flow.outgoing

/-- The facts leaving the listed nodes, up to the first node without facts. -/
def outgoingUntil (s : State ν φ) (nodes : List ν) : List φ :=
  ((nodes.map s.outgoing?).takeWhile Option.isSome).filterMap id

def step (a : Analysis ν φ) (o : Oriented ν) (s : State ν φ) : Progress ν φ :=
  match s.waiting.pop? with
  | none => .ended .settled
  | some (n, waiting) =>
    match s.flows.get? n with
    | none => .ended (.broken a.bottom [])
    | some flow =>
      let senders := o.inflow.next n
      match senders.mapM s.outgoing? with
      | none => .ended (.broken flow.incoming (s.outgoingUntil senders))
      | some sources =>
        let v := Visit.ofSources a o waiting n flow sources
        .moved
          { waiting := waiting.append v.requeued
            flows := s.flows.insert n ⟨v.input, v.output⟩
            history := v :: s.history }

def run (a : Analysis ν φ) (o : Oriented ν) : Nat → State ν φ → State ν φ × Ending φ
  | 0, s => (s, if s.waiting.isEmpty then .settled else .exhausted)
  | visits + 1, s =>
    match s.step a o with
    | .ended ending => (s, ending)
    | .moved s => run a o visits s

/-- Makes visits until the run ends. A run without an end comes to nothing. -/
def finish (a : Analysis ν φ) (o : Oriented ν) (s : State ν φ) : Option (State ν φ × Ending φ) :=
  match s.step a o with
  | .ended ending => some (s, ending)
  | .moved s => s |>.finish a o
partial_fixpoint

end State

end Dataflow
