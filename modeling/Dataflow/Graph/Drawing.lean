/-! Drawings of directed graphs in the DOT language. -/

namespace Dataflow

structure Drawing where
  nodes : List (Nat × String)
  edges : List (Nat × Nat × String)

namespace Drawing

/-- A label between quotation marks: quotation marks and backslashes are escaped, and a
line ends flush left. -/
def quoted (label : String) : String :=
  let escape : Char → String
    | '"' => "\\\""
    | '\\' => "\\\\"
    | '\n' => "\\l"
    | c => c.toString
  "\"" ++ String.join (label.toList.map escape) ++ "\""

def attributes (label : String) : String := " [ label = " ++ quoted label ++ " ]\n"

def text (d : Drawing) : String :=
  let nodes := d.nodes.map fun (n, label) => "    " ++ toString n ++ attributes label
  let edges := d.edges.map fun (source, target, label) =>
    "    " ++ toString source ++ " -> " ++ toString target ++ attributes label
  "digraph \x7b\n" ++ String.join nodes ++ String.join edges ++ "\x7d\n"

end Drawing

end Dataflow
