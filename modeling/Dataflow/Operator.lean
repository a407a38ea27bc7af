/-! Binary operators on 32-bit integers. Results wrap to 32 bits; a division by zero
has none. -/

namespace Dataflow

namespace Operator

inductive Arithmetic where
  | add | sub | mul | div | rem
deriving DecidableEq

/-- Quotients are truncated toward zero, and a remainder takes the sign of `left`. -/
def Arithmetic.apply (op : Arithmetic) (left right : Int32) : Option Int32 :=
  match op with
  | .add => some (left + right)
  | .sub => some (left - right)
  | .mul => some (left * right)
  | .div => if right = 0 then none else some (left / right)
  | .rem => if right = 0 then none else some (left % right)

def Arithmetic.text : Arithmetic → String
  | .add => "+"
  | .sub => "-"
  | .mul => "*"
  | .div => "/"
  | .rem => "%"

inductive Comparison where
  | eq | ne | lt | gt | le | ge
deriving DecidableEq

def Comparison.apply (op : Comparison) (left right : Int32) : Bool :=
  match op with
  | .eq => left = right
  | .ne => left ≠ right
  | .lt => left < right
  | .gt => right < left
  | .le => left ≤ right
  | .ge => right ≤ left

def Comparison.text : Comparison → String
  | .eq => "=="
  | .ne => "!="
  | .lt => "<"
  | .gt => ">"
  | .le => "<="
  | .ge => ">="

inductive Bitwise where
  | or | and | xor
deriving DecidableEq

def Bitwise.apply (op : Bitwise) (left right : Int32) : Int32 :=
  match op with
  | .or => left ||| right
  | .and => left &&& right
  | .xor => left ^^^ right

def Bitwise.text : Bitwise → String
  | .or => "|"
  | .and => "&"
  | .xor => "^"

inductive Shift where
  | left | right | rightUnsigned
deriving DecidableEq

/-- Only the low five bits of `distance` count, also when it is negative. -/
def Shift.apply (op : Shift) (value distance : Int32) : Int32 :=
  match op with
  | .left => value <<< distance
  | .right => value >>> distance
  | .rightUnsigned => (value.toUInt32 >>> distance.toUInt32).toInt32

def Shift.text : Shift → String
  | .left => "<<"
  | .right => ">>"
  | .rightUnsigned => ">>>"

end Operator

inductive Operator where
  | arithmetic (op : Operator.Arithmetic)
  | comparison (op : Operator.Comparison)
  | bitwise (op : Operator.Bitwise)
  | shift (op : Operator.Shift)
deriving DecidableEq

namespace Operator

/-- A comparison yields one or zero. -/
def apply (op : Operator) (left right : Int32) : Option Int32 :=
  match op with
  | .arithmetic op => op.apply left right
  | .comparison op => some (if op.apply left right then 1 else 0)
  | .bitwise op => some (op.apply left right)
  | .shift op => some (op.apply left right)

def text : Operator → String
  | .arithmetic op => op.text
  | .comparison op => op.text
  | .bitwise op => op.text
  | .shift op => op.text

instance : ToString Operator := ⟨text⟩

/-- All operators, for reading one back from its text. -/
def all : List Operator :=
  [.arithmetic .add, .arithmetic .sub, .arithmetic .mul, .arithmetic .div, .arithmetic .rem,
   .comparison .eq, .comparison .ne, .comparison .lt, .comparison .gt, .comparison .le,
   .comparison .ge, .bitwise .or, .bitwise .and, .bitwise .xor,
   .shift .left, .shift .right, .shift .rightUnsigned]

def ofText? (symbol : String) : Option Operator := all.find? fun op => op.text == symbol

end Operator

end Dataflow
