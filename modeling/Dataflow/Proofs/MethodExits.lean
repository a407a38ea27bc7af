import Mathlib.Logic.Function.Iterate
import Mathlib.Tactic.Choose
import Dataflow.Proofs.ControlFlow

/-! Where control leaves a method. It stops at exits only, but a body need not have one: every
statement may lead on to another. -/

namespace Dataflow

namespace FlowGraph

variable {m : Method} {g : FlowGraph} {p q : Point}

/-- Control may go on for ever from a point. -/
def Endless (g : FlowGraph) (p : Point) : Prop :=
  ∃ path : Nat → Point, path 0 = p ∧ ∀ n, path (n + 1) ∈ g.neighbours (path n) .forward

/-- A statement passes control on unless it returns or is the last and does not jump. -/
theorem Depicts.exit_of_stuck (depicts : g.Depicts m) (admitted : m.Admitted) (inside : m.contains p = true)
    (stuck : ∀ q, ¬m.Passes p q) : p ∈ g.graph.exits := by
  have short : m.size ≤ 65535 := admitted.short
  have bound : p.val < m.size := of_decide_eq_true inside
  obtain ⟨stmt, found⟩ := Method.stmt?_of_contains inside
  refine (depicts.exits p).mpr ⟨stmt, found, ?_⟩
  have last (falls : stmt.FallsThrough) : p.val + 1 = m.size := by
    by_contra more
    exact stuck ⟨p.val + 1, by omega⟩ (.next found falls rfl (show p.val + 1 < m.size by omega))
  cases stmt with
  | ret value => exact Or.inl ⟨value, rfl⟩
  | goto target => exact absurd (.jump found rfl) (stuck target)
  | branch condition target => exact absurd (.jump found rfl) (stuck target)
  | nop | assign | invoke => exact Or.inr ⟨last trivial, nofun⟩

/-- Where every node leads on to a node, control may go on for ever. -/
theorem endless_of_onward (onward : ∀ p ∈ g.graph.nodes, ∃ q ∈ g.graph.nodes, q ∈ g.neighbours p .forward)
    (member : p ∈ g.graph.nodes) : g.Endless p := by
  choose! next inside follows using onward
  have stays (n : Nat) : next^[n] p ∈ g.graph.nodes := by
    induction n with
    | zero => exact member
    | succ n ih =>
      rw [Function.iterate_succ_apply']
      exact inside _ ih
  refine ⟨fun n => next^[n] p, rfl, ?_⟩
  intro n
  simp only [Function.iterate_succ_apply']
  exact follows _ (stays n)

/-- A graph has an exit if and only if some statement returns or the last one is no goto. A node
that leads nowhere is an exit, so in a graph without exits control may go on for ever from every
node. -/
theorem exits_exact (built : ofMethod? m = .ok g) :
    (g.graph.exits ≠ [] ↔ ∃ p stmt, m.stmt? p = some stmt ∧
      ((∃ value, stmt = .ret value) ∨ p.val + 1 = m.size ∧ ∀ target, stmt ≠ .goto target)) ∧
    (∀ p ∈ g.graph.nodes, g.neighbours p .forward = [] → p ∈ g.graph.exits) ∧
    (g.graph.exits = [] → ∀ p ∈ g.graph.nodes, g.Endless p) := by
  have wf := wellFormed built
  obtain ⟨admitted, rfl⟩ := ofMethod?_eq_ok_iff.mp built
  have depicts := depicts_ofBody admitted
  have exit_of_last {p : Point} (member : p ∈ (ofBody m).graph.nodes) (last : (ofBody m).neighbours p .forward = []) :
      p ∈ (ofBody m).graph.exits := by
    apply depicts.exit_of_stuck admitted ((mem_nodes built).mp member)
    intro q passes
    rw [← depicts.successors, last] at passes
    cases passes
  refine ⟨?_, fun p => exit_of_last, ?_⟩
  · rw [Ne, List.eq_nil_iff_forall_not_mem, not_forall_not]
    exact exists_congr depicts.exits
  · intro none p member
    refine endless_of_onward ?_ member
    intro q inside
    by_contra stuck
    have last : (ofBody m).neighbours q .forward = [] := by
      rw [List.eq_nil_iff_forall_not_mem]
      intro r follows
      exact stuck ⟨r, wf.target q r follows, follows⟩
    have exit := exit_of_last inside last
    rw [none] at exit
    cases exit

def spin : Method where
  name := "spin"
  params := []
  body := #[.goto .entry]

theorem spin_goes_on : (ofBody spin).graph.exits = [] ∧ (ofBody spin).Endless .entry := by
  have built : ofMethod? spin = .ok (ofBody spin) := rfl
  exact ⟨rfl, (exits_exact built).2.2 rfl .entry (by decide)⟩

theorem exit_not_promised : ¬∀ (m : Method) (g : FlowGraph), ofMethod? m = .ok g → g.graph.exits ≠ [] := by
  intro promise
  exact promise spin (ofBody spin) rfl rfl

end FlowGraph

end Dataflow
