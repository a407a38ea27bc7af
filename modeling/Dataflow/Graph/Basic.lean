import Dataflow.Graph.PostOrder

/-! Flow graphs as the solver sees them: an entry, exits, and edges listed from both ends.
A direction turns a graph into the one along which facts flow. -/

namespace Dataflow

inductive Direction where
  | forward | backward
deriving DecidableEq

/-- The names of nodes in messages and logs. -/
class NodeName (ν : Type) where
  nodeName : ν → String

export NodeName (nodeName)

instance : NodeName Nat := ⟨toString⟩

structure Graph (ν : Type) [Ord ν] where
  entry : ν
  exits : List ν
  nodes : List ν
  successors : Adjacency ν
  predecessors : Adjacency ν
  /-- A suggested order of first visits, in the direction of the edges. -/
  hint : Option (List ν)

/-- A graph seen along the flow of facts, which begins at the starts: every node receives
facts from the neighbours in `inflow` and passes them to those in `outflow`. -/
structure Oriented (ν : Type) [Ord ν] where
  starts : List ν
  nodes : List ν
  inflow : Adjacency ν
  outflow : Adjacency ν
  hint : Option (List ν)

variable {ν : Type} [Ord ν]

/-- The graph of a list of edges. Unless they are given, the edges seen from their targets
are the same ones, and the nodes are the entry and all ends of edges in ascending order. -/
def Graph.ofEdges (entry : ν) (exits : List ν) (edges : List (ν × ν)) (back : Option (List (ν × ν)))
    (nodes hint : Option (List ν)) : Graph ν :=
  { entry
    exits
    nodes := nodes.getD (Std.TreeSet.ofList (entry :: edges.flatMap fun (m, n) => [m, n])).toList
    successors := .ofEdges edges
    predecessors := .ofEdges ((back.getD edges).map Prod.swap)
    hint }

/-- Forward facts start at the entry and follow the edges. Backward facts start at the
exits and go against the edges, and against the suggested order. -/
def Graph.orient (g : Graph ν) : Direction → Oriented ν
  | .forward => ⟨[g.entry], g.nodes, g.predecessors, g.successors, g.hint⟩
  | .backward => ⟨g.exits, g.nodes, g.successors, g.predecessors, g.hint.map List.reverse⟩

/-- The order of first visits: the hinted order, or else the reverse post-order from the
starts, followed by the nodes it misses. -/
def Oriented.order (o : Oriented ν) : List ν :=
  distinct (o.hint.getD (o.outflow.reversePostOrder o.starts) ++ o.nodes)

end Dataflow
