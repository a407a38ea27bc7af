import Std.Data.TreeSet
import Dataflow.Operator
import Dataflow.Types

/-! Expressions over 32-bit integers, calls and new objects: equality, the variables
that occur in them, and their text. -/

namespace Dataflow

inductive Expr where
  | var (x : Var)
  | literal (value : Int32)
  | binary (op : Operator) (left right : Expr)
  | call (method : String) (args : List Expr)
  | create (className : String)

namespace Expr

mutual

def same : Expr → Expr → Bool
  | var x, var y => x == y
  | literal m, literal n => m == n
  | binary op left right, binary op' left' right' => op == op' && same left left' && same right right'
  | call method args, call method' args' => method == method' && sameAll args args'
  | create name, create name' => name == name'
  | _, _ => false

def sameAll : List Expr → List Expr → Bool
  | [], [] => true
  | arg :: args, arg' :: args' => same arg arg' && sameAll args args'
  | _, _ => false

end

mutual

private theorem eq_of_same : ∀ {left right : Expr}, same left right = true → left = right
  | var _, right, equal => by cases right <;> simp_all [same]
  | literal _, right, equal => by cases right <;> simp_all [same]
  | create _, right, equal => by cases right <;> simp_all [same]
  | binary _ first second, right, equal => by
    cases right with
    | binary =>
      simp only [same, Bool.and_eq_true, beq_iff_eq] at equal
      rw [equal.1.1, eq_of_same equal.1.2, eq_of_same equal.2]
    | _ => simp [same] at equal
  | call _ args, right, equal => by
    cases right with
    | call =>
      simp only [same, Bool.and_eq_true, beq_iff_eq] at equal
      rw [equal.1, eq_of_sameAll equal.2]
    | _ => simp [same] at equal

private theorem eq_of_sameAll : ∀ {left right : List Expr}, sameAll left right = true → left = right
  | [], [], _ => rfl
  | [], _ :: _, equal => by simp [sameAll] at equal
  | _ :: _, [], equal => by simp [sameAll] at equal
  | arg :: args, arg' :: args', equal => by
    simp only [sameAll, Bool.and_eq_true] at equal
    rw [eq_of_same equal.1, eq_of_sameAll equal.2]

end

mutual

private theorem same_self : ∀ e : Expr, same e e = true
  | var _ => by simp [same]
  | literal _ => by simp [same]
  | create _ => by simp [same]
  | binary _ left right => by simp [same, same_self left, same_self right]
  | call _ args => by simp [same, sameAll_self args]

private theorem sameAll_self : ∀ args : List Expr, sameAll args args = true
  | [] => by simp [sameAll]
  | arg :: args => by simp [sameAll, same_self arg, sameAll_self args]

end

instance : DecidableEq Expr := fun left right =>
  decidable_of_iff (same left right = true) ⟨eq_of_same, fun equal => equal ▸ same_self left⟩

mutual

/-- Every variable of the expression, call arguments included, from left to right. -/
def occurrences : Expr → List Var
  | var x => [x]
  | literal _ => []
  | binary _ left right => occurrences left ++ occurrences right
  | call _ args => occurrencesAll args
  | create _ => []

def occurrencesAll : List Expr → List Var
  | [] => []
  | arg :: args => occurrences arg ++ occurrencesAll args

end

/-- The variables the expression reads, each once and in order. -/
def uses (e : Expr) : Std.TreeSet Var := Std.TreeSet.ofList e.occurrences

def isBinary : Expr → Bool
  | binary .. => true
  | _ => false

mutual

/-- An operand that is itself a binary operation stands in parentheses. -/
def text : Expr → String
  | var x => x.name
  | literal value => toString value.toInt
  | binary op left right => operand left ++ " " ++ op.text ++ " " ++ operand right
  | call method args => method ++ "(" ++ ", ".intercalate (textAll args) ++ ")"
  | create className => "new " ++ className

def operand (e : Expr) : String :=
  if e.isBinary then "(" ++ text e ++ ")" else text e

def textAll : List Expr → List String
  | [] => []
  | arg :: args => text arg :: textAll args

end

instance : ToString Expr := ⟨text⟩

end Expr

end Dataflow
