import Dataflow.CompactMap
import Dataflow.Updated

/-! Finite sets kept like `CompactMap`. They serve as facts: an operation that may
change a set tells whether it did. -/

namespace Dataflow

structure CompactSet (α : Type) [Ord α] where
  members : CompactMap α Unit

namespace CompactSet

variable {α : Type} [Ord α]

instance : EmptyCollection (CompactSet α) := ⟨⟨∅⟩⟩

instance : Inhabited (CompactSet α) := ⟨∅⟩

def size (s : CompactSet α) : Nat := s.members.size

def isEmpty (s : CompactSet α) : Bool := s.members.isEmpty

def toList (s : CompactSet α) : List α := s.members.keys

def contains (s : CompactSet α) (a : α) : Bool := s.members.contains a

/-- Changed when `a` was absent. -/
def add (s : CompactSet α) (a : α) : Updated (CompactSet α) :=
  let (old, members) := s.members.put a ()
  ⟨⟨members⟩, old.isNone⟩

def remove (s : CompactSet α) (a : α) : Updated (CompactSet α) :=
  let (old, members) := s.members.take a
  ⟨⟨members⟩, old.isSome⟩

def addAll (s : CompactSet α) (elements : List α) : Updated (CompactSet α) :=
  elements.foldl (fun so a => let next := so.value.add a; ⟨next.value, next.changed || so.changed⟩)
    ⟨s, false⟩

def union (s other : CompactSet α) : Updated (CompactSet α) := s.addAll other.toList

def removeAll (s : CompactSet α) (elements : List α) : CompactSet α :=
  elements.foldl (fun s a => (s.remove a).value) s

def clear (s : CompactSet α) : CompactSet α := ⟨s.members.clear⟩

def ofList (elements : List α) : CompactSet α := (addAll ∅ elements).value

instance : BEq (CompactSet α) := ⟨fun left right => left.members == right.members⟩

/-- Takes the content of `other`; changed unless the two were equal. -/
def overwrite (s other : CompactSet α) : Updated (CompactSet α) :=
  if s == other then ⟨s, false⟩ else ⟨other, true⟩

theorem contains_add [Std.TransOrd α] [Std.LawfulEqOrd α] (s : CompactSet α) (a other : α) :
    (s.add a).value.contains other = (compare a other == .eq || s.contains other) := by
  simp only [add, contains, CompactMap.contains, CompactMap.get?_put]
  split <;> simp_all

theorem contains_remove [Std.TransOrd α] [Std.LawfulEqOrd α] (s : CompactSet α) (a other : α) :
    (s.remove a).value.contains other = (compare a other != .eq && s.contains other) := by
  simp only [remove, contains, CompactMap.contains, CompactMap.get?_take]
  split <;> simp_all

/-- Elements in braces, sorted, in whatever order they are listed. -/
def textOf [ToString α] (elements : List α) : String :=
  let sorted := elements.mergeSort fun a b => (compare a b).isLE
  "\x7b" ++ ", ".intercalate (sorted.map toString) ++ "\x7d"

def text [ToString α] (s : CompactSet α) : String := textOf s.toList

instance [ToString α] : ToString (CompactSet α) := ⟨text⟩

def outline? (label : α → String) (s : CompactSet α) : Option String :=
  match s.toList with
  | [] => some "\x7b\x7d"
  | [a] => some ("\x7b" ++ label a ++ "\x7d")
  | _ => none

end CompactSet

end Dataflow
