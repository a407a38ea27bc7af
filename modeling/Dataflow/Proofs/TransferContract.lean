import Dataflow.Proofs.ConstantsLaws
import Dataflow.Proofs.LivenessPaths

/-! What the solver counts on when it passes a fact through a node: the outcome depends on what
flows in alone, grows with it, and is reported as a change exactly when it is one. Both analyses
of methods keep to this, whatever the statement at the node. -/

namespace Dataflow

def Operator.value (op : Operator) (left right : Value) : Value :=
  match left, right with
  | .constant m, .constant n =>
    match op.apply m n with
    | some result => .constant result
    | none => .undefined
  | .notConstant, _ => .notConstant
  | _, .notConstant => .notConstant
  | _, _ => .undefined

namespace Operator

variable (op : Operator) {left right more other : Value}

theorem value_notConstant_right (left : Value) : op.value left .notConstant = .notConstant := by
  cases left <;> rfl

theorem value_undefined_left (known : right ≠ .notConstant) : op.value .undefined right = .undefined := by
  cases right with
  | notConstant => exact absurd rfl known
  | undefined | constant => rfl

private theorem value_undefined_right (known : left ≠ .notConstant) : op.value left .undefined = .undefined := by
  cases left with
  | notConstant => exact absurd rfl known
  | undefined | constant => rfl

/-- Knowing less of the operands of an operation never tells more of its result. A division that
fails has no value, but it fails on two constants only, and above a constant there is nothing but
not being constant. -/
theorem value_mono (lower : left ≤ more) (upper : right ≤ other) : op.value left right ≤ op.value more other := by
  by_cases unknown : more = .notConstant ∨ other = .notConstant
  · have top : op.value more other = .notConstant := by
      rcases unknown with rfl | rfl
      · rfl
      · exact op.value_notConstant_right more
    rw [top]
    exact Value.le_notConstant _
  · rw [not_or] at unknown
    rcases Value.le_cases lower with rfl | impossible | rfl
    · have known : right ≠ .notConstant := by
        rintro rfl
        exact unknown.2 ((Value.le_notConstant other).antisymm upper)
      rw [op.value_undefined_left known]
      exact bot_le
    · exact absurd impossible unknown.1
    · rcases Value.le_cases upper with rfl | impossible | rfl
      · rw [op.value_undefined_right unknown.1]
        exact bot_le
      · exact absurd impossible unknown.2
      · exact le_rfl

end Operator

theorem Expr.value_binary (values : Var → Value) (op : Operator) (left right : Expr) :
    (binary op left right).value values = op.value (left.value values) (right.value values) := by
  rfl

theorem Expr.value_mono {values more : Var → Value} (le : values ≤ more) : ∀ e : Expr, e.value values ≤ e.value more
  | .var x => le x
  | .literal _ => le_rfl
  | .binary op left right => by
    rw [value_binary, value_binary]
    exact op.value_mono (value_mono le left) (value_mono le right)
  | .call .. => le_rfl
  | .create _ => le_rfl

/-- What the solver counts on when it passes facts through nodes. A fact gives every variable a
value, and a node has a say in the values of the variables it touches. -/
structure Analysis.TransferContract {ν φ V : Type} [BEq φ] [LE V] (a : Analysis ν φ) (nodes : List ν)
    (value : φ → Var → V) (touches : ν → Var → Prop) : Prop where
  /-- Facts are compared by the values they give. -/
  equal : ∀ fact other : φ, (fact == other) = true ↔ ∀ x, value fact x = value other x
  /-- What flowed out before has no bearing on what flows out now. -/
  determined : ∀ n ∈ nodes, ∀ input before others,
    ((a.transfer n input before).value == (a.transfer n input others).value) = true
  changed : ∀ n ∈ nodes, ∀ input before,
    (a.transfer n input before).changed = true ↔ ((a.transfer n input before).value == before) = false
  monotone : ∀ n ∈ nodes, ∀ input more before others, (∀ x, value input x ≤ value more x) →
    ∀ x, value (a.transfer n input before).value x ≤ value (a.transfer n more others).value x
  frame : ∀ n ∈ nodes, ∀ input before x, ¬touches n x → value (a.transfer n input before).value x = value input x
  again : ∀ n ∈ nodes, ∀ input before, (a.transfer n input (a.transfer n input before).value).changed = false

/-- A lawful analysis keeps to the contract if its transfer functions are monotone and leave
alone what their nodes do not touch. -/
theorem Analysis.Lawful.transferContract {ν φ L V : Type} [SemilatticeSup L] [BEq φ] [LE V] {a : Analysis ν φ}
    {nodes : List ν} {view : φ → L} {T : ν → L → L} {value : φ → Var → V} {touches : ν → Var → Prop}
    (law : a.Lawful nodes view T) (same : ∀ fact other : φ, (fact == other) = true ↔ view fact = view other)
    (equal : ∀ fact other, view fact = view other ↔ ∀ x, value fact x = value other x)
    (below : ∀ fact other, view fact ≤ view other ↔ ∀ x, value fact x ≤ value other x)
    (mono : ∀ n ∈ nodes, Monotone (T n))
    (frame : ∀ n ∈ nodes, ∀ input before x, ¬touches n x → value (a.transfer n input before).value x = value input x) :
    a.TransferContract nodes value touches := by
  have changed (n : ν) (member : n ∈ nodes) (input before : φ) :
      (a.transfer n input before).changed = true ↔ ((a.transfer n input before).value == before) = false := by
    rw [law.changed n member, ← Bool.not_eq_true, same]
  refine ⟨fun fact other => (same fact other).trans (equal fact other), ?_, changed, ?_, frame, ?_⟩
  · intro n member input before others
    rw [same, law.transfer n member, law.transfer n member]
  · intro n member input more before others le
    rw [← below] at le ⊢
    rw [law.transfer n member, law.transfer n member]
    exact mono n member le
  · intro n member input before
    rw [Bool.eq_false_iff, ne_eq, law.changed n member, law.transfer n member, law.transfer n member]
    exact not_not.mpr rfl

variable {m : Method} {g : FlowGraph} {p : Point} {x : Var}

namespace Constants

theorem passed_mono (g : FlowGraph) (p : Point) : Monotone (passed g p) := by
  intro values more le
  cases assigns : assignment? g p with
  | none =>
    rw [passed_silent assigns, passed_silent assigns]
    exact le
  | some assignment =>
    obtain ⟨x, value⟩ := assignment
    rw [passed_assigned assigns, passed_assigned assigns]
    exact update_le_update_iff.mpr ⟨value.value_mono le, fun y _ => le y⟩

theorem transferContract (built : FlowGraph.ofMethod? m = .ok g) :
    (analysis g).TransferContract g.graph.nodes Env.get fun p x => ∃ value, assignment? g p = some (x, value) := by
  have law := lawful built
  refine law.transferContract Env.beq_iff (fun _ _ => funext_iff) (fun _ _ => Iff.rfl) (fun p _ => passed_mono g p) ?_
  intro p member input before x untouched
  rw [law.transfer p member, passed_untouched untouched]

end Constants

namespace Liveness

theorem transferContract (built : FlowGraph.ofMethod? m = .ok g) :
    (analysis g).TransferContract g.graph.nodes CompactSet.contains fun p x => g.Writes p x ∨ g.Reads p x := by
  have law := lawful built
  have equal (live other : CompactSet Var) : live.elements = other.elements ↔ ∀ x, live.contains x = other.contains x := by
    rw [Set.ext_iff]
    exact forall_congr' fun x => Bool.eq_iff_iff.symm
  refine law.transferContract CompactSet.beq_iff equal (fun _ _ => Iff.rfl) (fun p _ => passed_mono g p) ?_
  intro p member input before x untouched
  rw [not_or] at untouched
  rw [Bool.eq_iff_iff, ← CompactSet.mem_elements, law.transfer p member]
  constructor
  · rintro (reads | ⟨-, live⟩)
    · exact absurd reads untouched.2
    · exact live
  · intro live
    exact Or.inr ⟨untouched.1, live⟩

end Liveness

/-- Both analyses of methods keep to the contract at every node of the graph, whose statement
always decides what flows out: constant propagation with values that rise from nothing known over
one constant to no constant, and touching only the integer variable a statement assigns; live
variables with sets that grow, touching only what a statement writes or reads. -/
theorem both_keep_contract (built : FlowGraph.ofMethod? m = .ok g) :
    (∀ v w : Value, v ≤ w ↔ v = .undefined ∨ w = .notConstant ∨ v = w) ∧
    (∀ p ∈ g.graph.nodes,
      (∀ input before, Constants.transfer? g p input before = some ((Constants.analysis g).transfer p input before)) ∧
      ∀ input before, Liveness.transfer? g p input before = some ((Liveness.analysis g).transfer p input before)) ∧
    (Constants.analysis g).TransferContract g.graph.nodes Env.get
      (fun p x => ∃ value, Constants.assignment? g p = some (x, value)) ∧
    (Liveness.analysis g).TransferContract g.graph.nodes CompactSet.contains
      (fun p x => g.Writes p x ∨ g.Reads p x) := by
  refine ⟨fun v w => Value.le_iff_cases, ?_, Constants.transferContract built, Liveness.transferContract built⟩
  intro p member
  obtain ⟨stmt, found⟩ := FlowGraph.stmt?_of_mem built member
  constructor
  · intro input before
    simp only [Constants.analysis, Constants.transfer?, found]
    rfl
  · intro input before
    simp only [Liveness.analysis, Liveness.transfer?, found]
    rfl

def quotient : Method where
  name := "quotient"
  params := [.int "d"]
  body := #[.assign (.int "q") (.binary (.arithmetic .div) (.literal 6) (.var (.int "d"))), .ret (some (.int "q"))]

/-- The quotient is unknown for an unknown divisor, stays so for the divisor zero, and is no
constant when the divisor is none. -/
theorem quotient_keeps_contract :
    (Constants.analysis (.ofBody quotient)).TransferContract (FlowGraph.ofBody quotient).graph.nodes Env.get
      (fun p x => ∃ value, Constants.assignment? (.ofBody quotient) p = some (x, value)) ∧
    (Liveness.analysis (.ofBody quotient)).TransferContract (FlowGraph.ofBody quotient).graph.nodes
      CompactSet.contains (fun p x => (FlowGraph.ofBody quotient).Writes p x ∨ (FlowGraph.ofBody quotient).Reads p x) ∧
    ([.undefined, .constant 0, .constant 2, .notConstant] : List Value).map (fun divisor =>
      ((Constants.analysis (.ofBody quotient)).transfer .entry (.ofList [(.int "d", divisor)]) ∅).value.get
        (.int "q")) = [.undefined, .undefined, .constant 3, .notConstant] := by
  have built : FlowGraph.ofMethod? quotient = .ok (.ofBody quotient) := rfl
  obtain ⟨-, -, constants, live⟩ := both_keep_contract built
  exact ⟨constants, live, rfl⟩

end Dataflow
