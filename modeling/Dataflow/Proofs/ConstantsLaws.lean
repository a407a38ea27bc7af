import Mathlib.Algebra.Order.BigOperators.Group.Finset
import Mathlib.Data.Finset.Basic
import Dataflow.Constants
import Dataflow.Proofs.MethodGraph
import Dataflow.Proofs.SolverTermination

/-! Constant propagation as an analysis of values per variable. Values are recorded for the
integer parameters and assigned integer variables only, and each rises twice at most. -/

namespace Dataflow

def Value.height : Value → Nat
  | undefined => 0
  | constant _ => 1
  | notConstant => 2

private theorem Value.height_le (v : Value) : v.height ≤ 2 := by
  cases v <;> simp [height]

private theorem Value.height_lt {v w : Value} (less : v < w) : v.height < w.height := by
  rcases le_cases less.le with rfl | rfl | rfl
  · cases w with
    | undefined => exact False.elim (lt_irrefl _ less)
    | constant | notConstant => simp [height]
  · cases v with
    | notConstant => exact False.elim (lt_irrefl _ less)
    | undefined | constant => simp [height]
  · exact False.elim (lt_irrefl _ less)

namespace Constants

variable {g : FlowGraph} {p : Point} {m : Method}

def assignment? (g : FlowGraph) (p : Point) : Option (Var × Expr) := (g.stmt? p).bind Stmt.intAssignment?

theorem assignment?_eq {stmt : Stmt} (found : g.stmt? p = some stmt) : assignment? g p = stmt.intAssignment? := by
  rw [assignment?, found, Option.bind_some]

def passed (g : FlowGraph) (p : Point) (values : Var → Value) : Var → Value :=
  match assignment? g p with
  | some (x, value) => Function.update values x (value.value values)
  | none => values

theorem passed_assigned {x : Var} {value : Expr} (assigns : assignment? g p = some (x, value))
    (values : Var → Value) : passed g p values = Function.update values x (value.value values) := by
  simp only [passed, assigns]

theorem passed_silent (silent : assignment? g p = none) (values : Var → Value) :
    passed g p values = values := by
  simp only [passed, silent]

theorem passed_untouched {x : Var} (untouched : ¬∃ value, assignment? g p = some (x, value)) (values : Var → Value) :
    passed g p values x = values x := by
  cases assigns : assignment? g p with
  | none => rw [passed_silent assigns]
  | some assignment =>
    obtain ⟨y, value⟩ := assignment
    have different : x ≠ y := by
      rintro rfl
      exact untouched ⟨value, assigns⟩
    rw [passed_assigned assigns, Function.update_of_ne different]

/-- What is recorded after a point was recorded before it or is assigned there. -/
theorem passed_above {x : Var} {values : Var → Value} (above : passed g p values x ≠ .undefined) :
    values x ≠ .undefined ∨ ∃ value, assignment? g p = some (x, value) := by
  by_cases assigned : ∃ value, assignment? g p = some (x, value)
  · exact Or.inr assigned
  · rw [passed_untouched assigned] at above
    exact Or.inl above

theorem get_after {stmt : Stmt} (found : g.stmt? p = some stmt) (input : Env Var Value) :
    (after stmt input).get = passed g p input.get := by
  have here := assignment?_eq found
  cases assigns : stmt.intAssignment? with
  | none =>
    rw [passed_silent (here.trans assigns)]
    simp only [after, assigns]
  | some assignment =>
    obtain ⟨x, value⟩ := assignment
    rw [passed_assigned (here.trans assigns)]
    simp only [after, assigns]
    funext y
    by_cases same : x = y
    · subst same
      rw [Env.get_set_self, Function.update_self]
    · rw [Env.get_set_other input same, Function.update_of_ne (Ne.symm same)]

theorem lawful (built : FlowGraph.ofMethod? m = .ok g) : (analysis g).Lawful g.graph.nodes Env.get (passed g) := by
  apply Analysis.Lawful.of_replace Env.get_overwrite Env.changed_overwrite
  · intro source target
    funext x
    exact Env.get_join target source x
  · intro p member
    obtain ⟨stmt, found⟩ := FlowGraph.stmt?_of_mem built member
    refine ⟨after stmt, ?_, get_after found⟩
    intro input output
    simp only [analysis, transfer?, found]
    rfl

/-- The variables that constant propagation follows. -/
def tracked (g : FlowGraph) : Finset Var :=
  ((g.method.params ++ g.method.body.toList.filterMap Stmt.def?).filter Var.holdsInt).toFinset

theorem assignment?_eq_some {x : Var} {value : Expr} (assigns : assignment? g p = some (x, value)) :
    g.stmt? p = some (.assign x value) ∧ x.holdsInt = true := by
  obtain ⟨stmt, found, assigned⟩ := Option.bind_eq_some_iff.mp assigns
  cases stmt with
  | assign y value' =>
    simp only [Stmt.intAssignment?] at assigned
    split at assigned
    next holds =>
      obtain ⟨rfl, rfl⟩ := Prod.mk.inj (Option.some.inj assigned)
      exact ⟨found, holds⟩
    next => cases assigned
  | _ => cases assigned

private theorem tracked_of_intAssignment? {x : Var} {value : Expr}
    (assigns : assignment? g p = some (x, value)) : x ∈ tracked g := by
  obtain ⟨found, holds⟩ := assignment?_eq_some assigns
  have inside := List.mem_of_getElem? (Array.getElem?_toList.trans found)
  rw [tracked, List.mem_toFinset, List.mem_filter, List.mem_append, List.mem_filterMap]
  exact ⟨Or.inr ⟨_, inside, rfl⟩, holds⟩

theorem recorded_sup {left right : Var → Value} {inside : Var → Prop} (first : ∀ x, left x ≠ .undefined → inside x)
    (second : ∀ x, right x ≠ .undefined → inside x) : ∀ x, (left ⊔ right) x ≠ .undefined → inside x := by
  intro x above
  by_cases unknown : left x = .undefined
  · apply second
    intro none
    apply above
    rw [Pi.sup_apply, unknown, none]
    rfl
  · exact first x unknown

def Recorded (g : FlowGraph) (values : Var → Value) : Prop := ∀ x, values x ≠ .undefined → x ∈ tracked g

theorem parameter_of_boundary {x : Var} (above : (boundary m).get x ≠ .undefined) :
    x ∈ m.params ∧ x.holdsInt = true := by
  rw [boundary, Env.get_ofList_same] at above
  split at above
  next parameter => exact List.mem_filter.mp parameter
  next => exact False.elim (above rfl)

private theorem boundary_above {x : Var} (above : (boundary g.method).get x ≠ .undefined) : x ∈ tracked g := by
  obtain ⟨member, holds⟩ := parameter_of_boundary above
  rw [tracked, List.mem_toFinset, List.mem_filter, List.mem_append]
  exact ⟨Or.inl member, holds⟩

theorem start_above {x : Var} (above : ((analysis g).start p).get x ≠ .undefined) :
    ∃ value, assignment? g p = some (x, value) := by
  simp only [analysis, start?] at above
  cases found : g.stmt? p with
  | none =>
    rw [found] at above
    exact False.elim (above rfl)
  | some stmt =>
    simp only [found, Option.map_some, Option.getD_some, start] at above
    rw [assignment?_eq found]
    cases assigns : stmt.intAssignment? with
    | none =>
      rw [assigns] at above
      exact False.elim (above rfl)
    | some assignment =>
      obtain ⟨y, value⟩ := assignment
      simp only [assigns] at above
      have bound : (Env.ofList [(y, Value.notConstant)]).get x = _ := Env.get_ofList_same Value.notConstant [y] x
      rw [bound] at above
      split at above
      next listed =>
        obtain rfl := List.mem_singleton.mp listed
        exact ⟨value, rfl⟩
      next => exact False.elim (above rfl)

theorem keeps (g : FlowGraph) : (analysis g).Keeps g.graph.nodes Env.get (passed g) (Recorded g) := by
  refine ⟨?_, fun x => boundary_above, ?_, fun left right => recorded_sup, ?_⟩
  · intro x above
    exact False.elim (above rfl)
  · intro p _ x above
    obtain ⟨value, assigns⟩ := start_above above
    exact tracked_of_intAssignment? assigns
  · intro p _ input inside x above
    rcases passed_above above with before | ⟨value, assigns⟩
    · exact inside x before
    · exact tracked_of_intAssignment? assigns

def rank (g : FlowGraph) (values : Var → Value) : Nat := ∑ x ∈ tracked g, (values x).height

private theorem rank_le (g : FlowGraph) (values : Var → Value) : rank g values ≤ (tracked g).card * 2 :=
  Finset.sum_le_card_nsmul (tracked g) _ 2 fun x _ => (values x).height_le

private theorem rank_lt {left right : Var → Value} (inside : Recorded g right) (less : left < right) :
    rank g left < rank g right := by
  obtain ⟨le, x, rises⟩ := Pi.lt_def.mp less
  have above : right x ≠ .undefined := by
    intro none
    rw [none] at rises
    exact not_lt_bot rises
  apply Finset.sum_lt_sum
  · intro y _
    rcases (le y).eq_or_lt with same | lower
    · rw [same]
    · exact (Value.height_lt lower).le
  · exact ⟨x, inside x above, Value.height_lt rises⟩

theorem growsAtMost (built : FlowGraph.ofMethod? m = .ok g) :
    (analysis g).GrowsAtMost g.graph Env.get ((tracked g).card * 2) :=
  (lawful built).growsAtMost_of_rank (FlowGraph.wellFormed built) (keeps g)
    (fun _ _ _ inside less => rank_lt inside less) (fun values _ => rank_le g values)

theorem exists_settles (built : FlowGraph.ofMethod? m = .ok g) : ∃ s, (analysis g).Settles g.graph none s := by
  obtain ⟨s, settles, -⟩ := (lawful built).exists_settles (FlowGraph.wellFormed built) (growsAtMost built)
  exact ⟨s, settles⟩

end Constants

end Dataflow
