import Dataflow.Stmt

/-! Methods: a name, parameters and a body of statements. A body may be any length,
though only its first 65536 statements have a point. -/

namespace Dataflow

structure Method where
  name : String
  params : List Var
  body : Array Stmt

namespace Method

def size (m : Method) : Nat := m.body.size

def stmt? (m : Method) (p : Point) : Option Stmt := m.body[p.val]?

/-- One statement a line, each behind its position. -/
def listing (m : Method) : String :=
  let params := ", ".intercalate (m.params.map fun x => x.ty.text ++ " " ++ x.name)
  let lines := m.body.toList.zipIdx.map fun (stmt, i) =>
    "    " ++ Point.label i ++ ": " ++ stmt.text ++ "\n"
  m.name ++ "(" ++ params ++ ") \x7b\n" ++ String.join lines ++ "\x7d"

instance : ToString Method := ⟨listing⟩

end Method

end Dataflow
