import Dataflow.Semilattice

/-! What is known of an integer variable: nothing yet, one constant, or that no single
constant covers it. -/

namespace Dataflow

inductive Value where
  | undefined
  | constant (value : Int32)
  | notConstant
deriving DecidableEq

namespace Value

/-- Two different constants join to no constant. -/
protected def join : Value → Value → Value
  | notConstant, _ => notConstant
  | _, notConstant => notConstant
  | undefined, value => value
  | value, undefined => value
  | constant left, constant right => if left = right then constant left else notConstant

instance : Semilattice Value := ⟨undefined, Value.join⟩

instance : LawfulSemilattice Value where
  join_assoc a b c := by
    simp only [join]
    cases a <;> cases b <;> cases c <;> grind [Value.join]
  join_comm a b := by
    simp only [join]
    cases a <;> cases b <;> grind [Value.join]
  join_self a := by cases a <;> simp [join, Value.join]
  bottom_join a := by cases a <;> rfl

def isUndefined : Value → Bool
  | undefined => true
  | _ => false

def isNotConstant : Value → Bool
  | notConstant => true
  | _ => false

def constant? : Value → Option Int32
  | constant value => some value
  | _ => none

def text : Value → String
  | undefined => "UNDEF"
  | constant value => toString value.toInt
  | notConstant => "NAC"

instance : ToString Value := ⟨text⟩

def caseText : Value → String
  | undefined => "Undefined"
  | constant value => "Constant(" ++ toString value.toInt ++ ")"
  | notConstant => "NotAConstant"

end Value

end Dataflow
