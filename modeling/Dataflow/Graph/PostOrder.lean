import Dataflow.Graph.Adjacency

/-! Depth-first walk in reverse post-order. A node is finished once everything it leads
to has been seen, so outside cycles it is listed before its neighbours. -/

namespace Dataflow

/-- A walk under way. Each frame is a node with the neighbours still to be looked at,
the innermost first; nodes are finished in front. -/
structure PostOrderWalk (ν : Type) [Ord ν] where
  starts : List ν
  frames : List (ν × List ν)
  seen : Std.TreeSet ν
  finished : List ν

namespace PostOrderWalk

variable {ν : Type} [Ord ν]

def ofStarts (starts : List ν) : PostOrderWalk ν := ⟨starts, [], ∅, []⟩

def enter (next : Adjacency ν) (w : PostOrderWalk ν) (n : ν) : PostOrderWalk ν :=
  { w with frames := (n, next.next n) :: w.frames, seen := w.seen.insert n }

/-- Looks at one neighbour, closes an exhausted frame, or takes the next start. A walk
without frames and starts is over. -/
def step? (next : Adjacency ν) (w : PostOrderWalk ν) : Option (PostOrderWalk ν) :=
  match w.frames with
  | (n, m :: rest) :: frames =>
    let w := { w with frames := (n, rest) :: frames }
    some (if w.seen.contains m then w else w.enter next m)
  | (n, []) :: frames => some { w with frames, finished := n :: w.finished }
  | [] =>
    match w.starts with
    | s :: starts =>
      let w := { w with starts }
      some (if w.seen.contains s then w else w.enter next s)
    | [] => none

def run (next : Adjacency ν) : Nat → PostOrderWalk ν → PostOrderWalk ν
  | 0, w => w
  | fuel + 1, w =>
    match w.step? next with
    | some w => run next fuel w
    | none => w

end PostOrderWalk

/-- The nodes reachable from `starts`, in reverse post-order. Every start and every edge
is looked at once and opens at most one frame, which is closed once. -/
def Adjacency.reversePostOrder {ν : Type} [Ord ν] (next : Adjacency ν) (starts : List ν) : List ν :=
  ((PostOrderWalk.ofStarts starts).run next (2 * (starts.length + next.edgeCount))).finished

end Dataflow
