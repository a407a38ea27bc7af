import Std.Data.TreeSet

/-! Queues of nodes waiting for a visit. A node waits at most once: the marks say which
nodes wait, without a look through the queue. -/

namespace Dataflow

/-- The front is taken from first; the back holds later nodes, the latest first. -/
structure Worklist (ν : Type) [Ord ν] where
  front : List ν
  back : List ν
  marked : Std.TreeSet ν

namespace Worklist

variable {ν : Type} [Ord ν]

def ofList (nodes : List ν) : Worklist ν := ⟨nodes, [], Std.TreeSet.ofList nodes⟩

def toList (w : Worklist ν) : List ν := w.front ++ w.back.reverse

def isEmpty (w : Worklist ν) : Bool := w.front.isEmpty && w.back.isEmpty

def contains (w : Worklist ν) (n : ν) : Bool := w.marked.contains n

def pop? (w : Worklist ν) : Option (ν × Worklist ν) :=
  match w.front with
  | n :: front => some (n, ⟨front, w.back, w.marked.erase n⟩)
  | [] =>
    match w.back.reverse with
    | n :: front => some (n, ⟨front, [], w.marked.erase n⟩)
    | [] => none

def append (w : Worklist ν) (nodes : List ν) : Worklist ν :=
  ⟨w.front, nodes.reverse ++ w.back, w.marked.insertMany nodes⟩

theorem toList_ofList (nodes : List ν) : (ofList nodes).toList = nodes := by simp [ofList, toList]

theorem toList_append (w : Worklist ν) (nodes : List ν) : (w.append nodes).toList = w.toList ++ nodes := by
  simp [append, toList]

theorem isEmpty_iff (w : Worklist ν) : w.isEmpty = true ↔ w.toList = [] := by simp [isEmpty, toList]

theorem pop?_eq_none_iff (w : Worklist ν) : w.pop? = none ↔ w.toList = [] := by
  unfold pop? toList
  split
  next front => simp [front]
  next front => split <;> simp_all

theorem toList_of_pop? {w rest : Worklist ν} {n : ν} (popped : w.pop? = some (n, rest)) :
    w.toList = n :: rest.toList := by
  unfold pop? at popped
  unfold toList
  split at popped
  · grind
  · split at popped <;> grind

end Worklist

end Dataflow
