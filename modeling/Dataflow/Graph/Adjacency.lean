import Std.Data.TreeMap
import Std.Data.TreeSet

/-! Finite directed edges, indexed by the node they leave. Neighbours are listed in the
order of the edges, and a parallel edge lists its neighbour again. -/

namespace Dataflow

structure Adjacency (ν : Type) [Ord ν] where
  targets : Std.TreeMap ν (List ν)

namespace Adjacency

variable {ν : Type} [Ord ν]

def ofEdges (edges : List (ν × ν)) : Adjacency ν :=
  ⟨edges.foldr (fun edge table => table.insert edge.1 (edge.2 :: table.getD edge.1 [])) ∅⟩

/-- The neighbours of a node; a node that no edge leaves has none. -/
def next (a : Adjacency ν) (n : ν) : List ν := a.targets.getD n []

/-- A node's neighbours are the targets of its edges, in their order. -/
theorem next_ofEdges [Std.TransOrd ν] [Std.LawfulEqOrd ν] [DecidableEq ν] (edges : List (ν × ν)) (n : ν) :
    (ofEdges edges).next n = (edges.filter fun edge => edge.1 = n).map Prod.snd := by
  induction edges with
  | nil => simp [ofEdges, next]
  | cons edge edges ih =>
    simp only [ofEdges, next, List.foldr_cons] at ih ⊢
    rw [Std.TreeMap.getD_insert]
    by_cases same : edge.1 = n
    · subst same
      simp [ih]
    · simp [ih, same]

def edgeCount (a : Adjacency ν) : Nat := a.targets.foldl (fun count _ nodes => count + nodes.length) 0

end Adjacency

/-- The elements of a list that are not in `seen`, each at its first occurrence, behind
those kept so far, which are given last first. -/
def distinctFrom {ν : Type} [Ord ν] (seen : Std.TreeSet ν) (kept : List ν) : List ν → List ν
  | [] => kept.reverse
  | n :: rest =>
    if seen.contains n then distinctFrom seen kept rest
    else distinctFrom (seen.insert n) (n :: kept) rest

theorem distinctFrom_eq {ν : Type} [Ord ν] (seen : Std.TreeSet ν) (kept nodes : List ν) :
    distinctFrom seen kept nodes = kept.reverse ++ distinctFrom seen [] nodes := by
  induction nodes generalizing seen kept with
  | nil => simp [distinctFrom]
  | cons n rest ih =>
    simp only [distinctFrom]
    split
    · exact ih seen kept
    · rw [ih (seen.insert n) (n :: kept), ih (seen.insert n) [n]]
      simp

def distinct {ν : Type} [Ord ν] (nodes : List ν) : List ν := distinctFrom ∅ [] nodes

end Dataflow
