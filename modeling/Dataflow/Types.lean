import Std.Data.TreeMap

/-! Types and variables of a method. Both carry a total order in which answers list
them: primitive types come before references, and variables go by name first. -/

namespace Dataflow

inductive Primitive where
  | boolean | char | float | double | byte | short | int | long
deriving DecidableEq

namespace Primitive

def rank : Primitive → Nat
  | boolean => 0
  | char => 1
  | float => 2
  | double => 3
  | byte => 4
  | short => 5
  | int => 6
  | long => 7

def name : Primitive → String
  | boolean => "boolean"
  | char => "char"
  | float => "float"
  | double => "double"
  | byte => "byte"
  | short => "short"
  | int => "int"
  | long => "long"

/-- Whether a 32-bit integer fits the arithmetic of this type. -/
def holdsInt : Primitive → Bool
  | byte | short | int | char | boolean => true
  | float | double | long => false

end Primitive

inductive Ty where
  | primitive (kind : Primitive)
  | reference (className : String)
deriving DecidableEq

namespace Ty

def text : Ty → String
  | primitive kind => kind.name
  | reference className => className

def holdsInt : Ty → Bool
  | primitive kind => kind.holdsInt
  | reference _ => false

/-- References sort after every primitive type and among themselves by class. -/
def sortKey : Ty → Nat × String
  | primitive kind => (kind.rank, "")
  | reference className => (8, className)

instance : ToString Ty := ⟨text⟩

instance : Ord Ty :=
  ⟨compareLex (compareOn fun ty => ty.sortKey.1) (compareOn fun ty => ty.sortKey.2)⟩

instance : Std.TransOrd Ty :=
  inferInstanceAs (Std.TransCmp
    (compareLex (compareOn fun ty : Ty => ty.sortKey.1) (compareOn fun ty : Ty => ty.sortKey.2)))

theorem sortKey_injective {left right : Ty} (same : left.sortKey = right.sortKey) : left = right := by
  cases left with
  | primitive first =>
    cases right with
    | primitive second => cases first <;> cases second <;> simp_all [sortKey, Primitive.rank]
    | reference _ => cases first <;> simp [sortKey, Primitive.rank] at same
  | reference first =>
    cases right with
    | primitive second => cases second <;> simp [sortKey, Primitive.rank] at same
    | reference second => simpa [sortKey] using same

instance : Std.LawfulEqOrd Ty where
  eq_of_compare {left right} equal := by
    have parts := Ordering.then_eq_eq.mp equal
    exact sortKey_injective (Prod.ext (Std.compare_eq_iff_eq.mp parts.1) (Std.compare_eq_iff_eq.mp parts.2))

end Ty

/-- A local variable. Two variables of one name and different types are different. -/
structure Var where
  name : String
  ty : Ty
deriving DecidableEq

namespace Var

def int (name : String) : Var := ⟨name, .primitive .int⟩

def holdsInt (x : Var) : Bool := x.ty.holdsInt

instance : ToString Var := ⟨name⟩

instance : Ord Var := ⟨compareLex (compareOn name) (compareOn ty)⟩

instance : Std.TransOrd Var :=
  inferInstanceAs (Std.TransCmp (compareLex (compareOn name) (compareOn ty)))

instance : Std.LawfulEqOrd Var where
  eq_of_compare {left right} equal := by
    have parts := Ordering.then_eq_eq.mp equal
    cases left
    cases right
    simpa using And.intro (Std.compare_eq_iff_eq.mp parts.1) (Std.compare_eq_iff_eq.mp parts.2)

end Var

end Dataflow
