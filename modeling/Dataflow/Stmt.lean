import Dataflow.Expr
import Dataflow.Point

/-! Statements: what each one writes and reads, where it may jump, and its text. -/

namespace Dataflow

inductive Stmt where
  | nop
  | assign (target : Var) (value : Expr)
  | invoke (call : Expr)
  | branch (condition : Expr) (target : Point)
  | goto (target : Point)
  | ret (value : Option Var)
deriving DecidableEq

namespace Stmt

def def? : Stmt → Option Var
  | assign target _ => some target
  | _ => none

/-- The variables a statement reads, each once and in order. -/
def uses : Stmt → Std.TreeSet Var
  | assign _ value => value.uses
  | invoke call => call.uses
  | branch condition _ => condition.uses
  | ret value => Std.TreeSet.ofList value.toList
  | nop | goto _ => ∅

def jump? : Stmt → Option Point
  | branch _ target => some target
  | goto target => some target
  | _ => none

def text : Stmt → String
  | nop => "nop"
  | assign target value => target.name ++ " = " ++ value.text
  | invoke call => call.text
  | branch condition target => "if " ++ condition.text ++ " goto " ++ toString target
  | goto target => "goto " ++ toString target
  | ret (some value) => "return " ++ value.name
  | ret none => "return"

instance : ToString Stmt := ⟨text⟩

end Stmt

end Dataflow
