import Dataflow.Graph.Adjacency

/-! Depth-first search with a stack: a node is taken from the stack, listed unless it is
marked, and its unmarked neighbours are put on the stack in order, so that the last of
them is taken first. -/

namespace Dataflow

/-- A search under way; nodes are found in front. -/
structure Search (ν : Type) [Ord ν] where
  stack : List ν
  marked : Std.TreeSet ν
  found : List ν

namespace Search

variable {ν : Type} [Ord ν]

def step? (next : Adjacency ν) (s : Search ν) : Option (Search ν) :=
  match s.stack with
  | [] => none
  | n :: stack =>
    if s.marked.contains n then some { s with stack }
    else
      let marked := s.marked.insert n
      let fresh := (next.next n).filter fun m => !marked.contains m
      some ⟨fresh.reverse ++ stack, marked, n :: s.found⟩

def run (next : Adjacency ν) : Nat → Search ν → Search ν
  | 0, s => s
  | fuel + 1, s =>
    match s.step? next with
    | some s => run next fuel s
    | none => s

end Search

namespace Adjacency

variable {ν : Type} [Ord ν]

/-- Searches from `start` with some nodes marked already. The start and every edge put
at most one node on the stack. -/
def search (next : Adjacency ν) (marked : Std.TreeSet ν) (start : ν) : Search ν :=
  Search.run next (next.edgeCount + 1) ⟨[start], marked, []⟩

/-- Searches from each start in turn and lists what each one finds. The marks are kept
from one start to the next, or cleared if `fresh`. -/
def searches (next : Adjacency ν) (fresh : Bool) (marked : Std.TreeSet ν) : List ν → List (List ν)
  | [] => []
  | start :: starts =>
    let s := next.search (if fresh then ∅ else marked) start
    s.found.reverse :: searches next fresh s.marked starts

/-- Whether a path leads from one node to another; every node reaches itself. -/
def connects (next : Adjacency ν) (source target : ν) : Bool :=
  (next.search ∅ source).marked.contains target

end Adjacency

end Dataflow
