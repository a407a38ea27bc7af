import Dataflow.Graph.Basic
import Dataflow.Graph.Drawing
import Dataflow.Method

/-! Control flow graphs of methods. Control goes from a statement to the next one or to
the target of a jump. A body is refused if it is empty, too long, or jumps out of itself. -/

namespace Dataflow

instance : NodeName Point := ⟨fun p => "StmtIndex(" ++ toString p.val ++ ")"⟩

inductive EdgeKind where
  | unconditional | conditional
deriving DecidableEq

def EdgeKind.text : EdgeKind → String
  | unconditional => ""
  | conditional => "<conditional>"

structure Edge where
  source : Point
  target : Point
  kind : EdgeKind
deriving DecidableEq

inductive BuildError where
  | emptyBody
  | tooLong (statements : Nat)
  | badJump (source target : Point)
deriving DecidableEq

def BuildError.message : BuildError → String
  | emptyBody => "The method has no statements"
  | tooLong statements => "The method has " ++ toString statements ++ " statements, which exceeds the limit"
  | badJump source target => "Invalid jump target " ++ toString target ++ " at " ++ toString source

/-- Where a statement passes control, in ascending order, given the point after it. A
branch to that point is one conditional edge. -/
def Stmt.transfers (next : Option Point) : Stmt → List (Point × EdgeKind)
  | .goto target => [(target, .unconditional)]
  | .ret _ => []
  | .branch _ target =>
    match next with
    | none => [(target, .conditional)]
    | some next =>
      if next = target then [(target, .conditional)]
      else if next.val < target.val then [(next, .unconditional), (target, .conditional)]
      else [(target, .conditional), (next, .unconditional)]
  | .nop | .assign .. | .invoke _ =>
    match next with
    | none => []
    | some next => [(next, .unconditional)]

/-- Whether control may leave the method at a statement, given the point after it. -/
def Stmt.leaves (next : Option Point) : Stmt → Bool
  | .ret _ => true
  | .goto _ => false
  | .nop | .assign .. | .invoke _ | .branch .. => next.isNone

namespace Method

def maxSize : Nat := 65535

def points (m : Method) : List Point := Point.below m.size

def contains (m : Method) (p : Point) : Bool := p.val < m.size

def after? (m : Method) (p : Point) : Option Point := p.next?.filter m.contains

def transfers (m : Method) (p : Point) : List (Point × EdgeKind) :=
  match m.stmt? p with
  | none => []
  | some stmt => stmt.transfers (m.after? p)

def leavesAt (m : Method) (p : Point) : Bool :=
  match m.stmt? p with
  | none => false
  | some stmt => stmt.leaves (m.after? p)

/-- The target of a jump at `p` that lies outside the body. -/
def badTarget? (m : Method) (p : Point) : Option Point :=
  (m.stmt? p).bind fun stmt => stmt.jump?.filter fun target => !m.contains target

def check (m : Method) : Except BuildError Unit :=
  if m.size = 0 then .error .emptyBody
  else if maxSize < m.size then .error (.tooLong m.size)
  else
    match m.points.findSome? fun p => (m.badTarget? p).map (p, ·) with
    | some (p, target) => .error (.badJump p target)
    | none => .ok ()

end Method

structure FlowGraph where
  method : Method
  /-- Every edge once, in ascending order of its ends. -/
  edges : List Edge
  graph : Graph Point

namespace FlowGraph

/-- The graph of a body, without a check. -/
def ofBody (m : Method) : FlowGraph :=
  let edges := m.points.flatMap fun p => (m.transfers p).map fun (target, kind) => ⟨p, target, kind⟩
  { method := m
    edges
    graph :=
      { entry := .entry
        exits := m.points.filter m.leavesAt
        nodes := m.points
        successors := .ofEdges (edges.map fun edge => (edge.source, edge.target))
        predecessors := .ofEdges (edges.map fun edge => (edge.target, edge.source))
        hint := none } }

def ofMethod? (m : Method) : Except BuildError FlowGraph := m.check.map fun _ => ofBody m

def contains (g : FlowGraph) (p : Point) : Bool := g.method.contains p

def stmt? (g : FlowGraph) (p : Point) : Option Stmt := g.method.stmt? p

def edge? (g : FlowGraph) (source target : Point) : Option EdgeKind :=
  (g.method.transfers source).lookup target

def nodeCount (g : FlowGraph) : Nat := g.graph.nodes.length

def statements (g : FlowGraph) : List (Point × Stmt) :=
  g.graph.nodes.filterMap fun p => (g.stmt? p).map (p, ·)

/-- The neighbours along or against the edges; a point outside the graph has none. -/
def neighbours (g : FlowGraph) (p : Point) : Direction → List Point
  | .forward => g.graph.successors.next p
  | .backward => g.graph.predecessors.next p

def neighbours? (g : FlowGraph) (p : Point) (d : Direction) : Option (List Point) :=
  if g.contains p then some (g.neighbours p d) else none

def drawing (g : FlowGraph) : Drawing where
  nodes := g.statements.map fun (p, stmt) => (p.val, stmt.text)
  edges := g.edges.map fun edge => (edge.source.val, edge.target.val, edge.kind.text)

end FlowGraph

end Dataflow
