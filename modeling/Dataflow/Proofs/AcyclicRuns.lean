import Dataflow.Proofs.GraphWalk
import Dataflow.Proofs.RunLength
import Dataflow.Proofs.SolverDuality

/-! Runs over graphs without cycles, whatever the analysis does. If the walk misses no node, first
visits go along the edges, so a change only ever meets nodes that still wait. -/

namespace Dataflow

variable {ν φ : Type} [Ord ν]

/-- No edges lead from a node back to it. -/
def Adjacency.Acyclic (next : Adjacency ν) : Prop := ∀ n, ¬Relation.TransGen (fun m k => k ∈ next.next m) n n

/-- Facts can flow to every node: forward ones from the entry, and backward ones from an exit. -/
def Graph.Covered (g : Graph ν) : Direction → Prop
  | .forward => ∀ n ∈ g.nodes, g.successors.Reaches g.entry n
  | .backward => ∀ n ∈ g.nodes, ∃ exit ∈ g.exits, g.successors.Reaches n exit

namespace Graph.WellFormed

variable {g : Graph ν}

private theorem turned (wf : g.WellFormed) :
    (fun m n => n ∈ g.predecessors.next m) = Function.swap fun m n => n ∈ g.successors.next m := by
  funext m n
  exact propext (wf.transposed n m).symm

private theorem acyclic_orient (wf : g.WellFormed) (acyclic : g.successors.Acyclic) (d : Direction) :
    (g.orient d).outflow.Acyclic := by
  cases d with
  | forward => exact acyclic
  | backward =>
    intro n cycle
    change Relation.TransGen (fun m k => k ∈ g.predecessors.next m) n n at cycle
    rw [wf.turned, Relation.transGen_swap] at cycle
    exact acyclic n cycle

private theorem reaches_predecessors (wf : g.WellFormed) {m n : ν} :
    g.predecessors.Reaches m n ↔ g.successors.Reaches n m := by
  rw [Adjacency.Reaches, wf.turned, Relation.reflTransGen_swap, Adjacency.Reaches]

theorem covered_iff [Std.TransOrd ν] [Std.LawfulEqOrd ν] (wf : g.WellFormed) (d : Direction) :
    g.Covered d ↔ ∀ n ∈ g.nodes, n ∈ (g.orient d).outflow.reversePostOrder (g.orient d).starts := by
  obtain ⟨-, reached, -⟩ := (g.orient d).outflow.reversePostOrder_sorted (g.orient d).starts
  simp only [reached]
  cases d with
  | forward =>
    change _ ↔ ∀ n ∈ g.nodes, ∃ s ∈ [g.entry], g.successors.Reaches s n
    simp only [Covered, List.mem_singleton, exists_eq_left]
  | backward =>
    change _ ↔ ∀ n ∈ g.nodes, ∃ exit ∈ g.exits, g.predecessors.Reaches exit n
    simp only [Covered, wf.reaches_predecessors]

end Graph.WellFormed

namespace Oriented

variable [Std.TransOrd ν] [Std.LawfulEqOrd ν] {o : Oriented ν}

/-- Facts flow from every node to nodes that stand behind it in the order of first visits only. -/
def Topological (o : Oriented ν) : Prop :=
  ∀ n later, n :: later <:+ o.order → ∀ m ∈ o.outflow.next n, m ∈ later

theorem topological (unhinted : o.hint = none) (acyclic : o.outflow.Acyclic)
    (covered : ∀ n ∈ o.nodes, n ∈ o.outflow.reversePostOrder o.starts) : o.Topological := by
  obtain ⟨-, -, sorted⟩ := o.outflow.reversePostOrder_sorted o.starts
  obtain ⟨rest, split, missed, -⟩ := o.exists_order_eq unhinted
  have none : rest = [] := by
    rw [List.eq_nil_iff_forall_not_mem]
    intro n member
    obtain ⟨listed, absent⟩ := (missed n).mp member
    exact absent (covered n listed)
  rw [none, List.append_nil] at split
  intro n later stands m edge
  rw [split] at stands
  rcases sorted n later stands m edge with behind | back
  · exact behind
  · exact False.elim (acyclic n (.head' edge back))

theorem Topological.before (topological : o.Topological) {n m : ν} {before later : List ν}
    (split : o.order = before ++ n :: later) (listed : m ∈ o.order) (edge : n ∈ o.outflow.next m) : m ∈ before := by
  have single := o.nodup_order
  rw [split] at listed single
  have fresh : n ∉ later := (List.nodup_cons.mp (List.nodup_append.mp single).2.1).1
  refine (List.mem_append.mp listed).resolve_right fun behind => ?_
  obtain ⟨between, after, here⟩ := List.append_of_mem behind
  have again : n ∈ after := topological m after ⟨before ++ between, by rw [split, here, List.append_assoc]⟩ n edge
  cases between with
  | nil =>
    obtain ⟨-, rfl⟩ := List.cons.inj here
    exact fresh again
  | cons first between =>
    obtain ⟨-, rfl⟩ := List.cons.inj here
    exact fresh (List.mem_append_right between (List.mem_cons_of_mem m again))

end Oriented

namespace State

variable [Std.TransOrd ν] [Std.LawfulEqOrd ν] {a : Analysis ν φ} {o : Oriented ν} {s : State ν φ}

/-- A run goes through the order once: the nodes visited so far and the ones that wait make it up,
and no visit has put a node back in the queue. -/
structure Sweeping (o : Oriented ν) (s : State ν φ) : Prop where
  order : s.visited.reverse ++ s.waiting.toList = o.order
  quiet : ∀ v ∈ s.history, v.requeued = []

theorem Sweeping.visit (sweeping : Sweeping o s) (orderly : Orderly o s) (topological : o.Topological) {n : ν}
    {rest : Worklist ν} (popped : s.waiting.pop? = some (n, rest)) (flow : Flow φ) (sources : List φ) :
    Sweeping o (s.visit a o n rest flow sources) := by
  obtain ⟨order, quiet⟩ := sweeping
  rw [Worklist.toList_of_pop? popped] at order
  -- Whatever the visit changes, those it concerns wait already.
  have none : (Visit.ofSources a o rest n flow sources).requeued = [] := by
    rw [List.eq_nil_iff_forall_not_mem]
    intro m requeued
    obtain ⟨-, edge, absent⟩ := mem_requeued.mp requeued
    have waits : m ∈ rest.toList := topological n rest.toList ⟨_, order⟩ m edge
    have marked := ((orderly.queue.pop? popped).1.marked m).mpr waits
    cases absent.symm.trans marked
  constructor
  · have visited : (s.visit a o n rest flow sources).visited = n :: s.visited := rfl
    rw [visit_waiting, none, visited, List.append_nil, List.reverse_cons, List.append_assoc]
    exact order
  · intro v made
    rcases List.mem_cons.mp made with rfl | earlier
    · exact none
    · exact quiet v earlier

theorem Reachable.sweeping (reached : Reachable a o s) (wf : o.WellFormed) (topological : o.Topological) :
    Sweeping o s := by
  induction reached using Reachable.visits with
  | initial => exact ⟨Worklist.toList_ofList _, nofun⟩
  | visit before popped found sent ih => exact ih.visit (before.orderly wf) topological popped _ _

omit [Std.TransOrd ν] [Std.LawfulEqOrd ν] in
private theorem Sweeping.length_le (sweeping : Sweeping o s) : s.history.length ≤ o.order.length := by
  rw [← sweeping.order, List.length_append, List.length_reverse, visited, List.length_map]
  exact Nat.le_add_right _ _

end State

variable [Std.TransOrd ν] [Std.LawfulEqOrd ν] {g : Graph ν}

/-- Without cycles, and with no suggested order, solving without a limit comes to an answer after as
many visits as there are nodes, if facts can flow to all of them. This holds of every analysis. Each
node is visited once, and after all the nodes that it receives facts from; no visit puts a node back
in the queue. -/
theorem Graph.WellFormed.visits_once_without_cycles (wf : g.WellFormed) (a : Analysis ν φ) (unhinted : g.hint = none)
    (acyclic : g.successors.Acyclic) (covered : g.Covered a.direction) :
    ∃ run s, solve a g none = some run ∧ run.outcome = .ok s ∧ s.iterations = {n | n ∈ g.nodes}.ncard ∧
      ((run.visits.map Visit.node).Nodup ∧ ∀ n, n ∈ run.visits.map Visit.node ↔ n ∈ g.nodes) ∧
      (∀ earlier v later, run.visits = earlier ++ v :: later →
        ∀ m ∈ (g.orient a.direction).inflow.next v.node, m ∈ earlier.map Visit.node) ∧
      ∀ v ∈ run.visits, v.requeued = [] := by
  have oriented := wf.orient a.direction
  have topological : (g.orient a.direction).Topological := by
    apply Oriented.topological _ (wf.acyclic_orient acyclic a.direction)
    · rw [g.nodes_orient]
      exact (wf.covered_iff a.direction).mp covered
    · cases a.direction with
      | forward => exact unhinted
      | backward => exact Option.map_eq_none_iff.mpr unhinted
  obtain ⟨s, ⟨run, solved, ok⟩, -⟩ := wf.settles_of_bounded (a := a) fun s reached =>
    (reached.sweeping oriented topological).length_le
  obtain ⟨reached, empty, iterations⟩ := Run.last_of_settled solved ok
  obtain ⟨order, quiet⟩ := reached.sweeping oriented topological
  have visits : run.visits.map Visit.node = (g.orient a.direction).order := by
    rw [← order, empty, List.append_nil, Run.visits, List.map_reverse]
    rfl
  refine ⟨run, s, solved, ok, ?_, ⟨?_, ?_⟩, ?_, ?_⟩
  · rw [iterations, ← g.nodes_orient a.direction, ← oriented.length_order, ← visits, Run.visits, List.length_map,
      List.length_reverse]
  · rw [visits]
    exact Oriented.nodup_order _
  · intro n
    rw [visits, oriented.mem_order, g.nodes_orient]
  · intro earlier v later split m edge
    rw [split, List.map_append, List.map_cons] at visits
    apply topological.before visits.symm
    · exact (oriented.mem_order m).mpr (oriented.sender m v.node edge)
    · exact (oriented.transposed m v.node).mpr edge
  · intro v made
    exact quiet v (List.mem_reverse.mp made)

namespace Tabular

/-- A graph with two exits and an edge that is listed twice, in which paths of different lengths
lead to the same node. -/
def ladder : Graph Nat :=
  .ofEdges 0 [4, 5] [(0, 2), (0, 1), (1, 2), (2, 3), (1, 3), (2, 3), (3, 4), (1, 5)] none none none

private theorem ladder_wellFormed : ladder.WellFormed := .ofEdges (by decide) (by decide)

private theorem ladder_acyclic : ladder.successors.Acyclic := by
  have ascending (m n : Nat) (edge : n ∈ ladder.successors.next m) : m < n := by
    have edges : ∀ edge ∈ [(0, 2), (0, 1), (1, 2), (2, 3), (1, 3), (2, 3), (3, 4), (1, 5)], edge.1 < edge.2 := by decide
    exact edges _ ((Adjacency.mem_next_ofEdges _ m n).mp edge)
  intro n cycle
  have less : n < n := Relation.transGen_minimal ascending n n cycle
  exact lt_irrefl n less

private theorem ladder_covered (d : Direction) : ladder.Covered d := by
  rw [ladder_wellFormed.covered_iff]
  cases d <;> decide

/-- Negating what flows in is not monotone, and a change is reported at every visit. -/
theorem ladder_visited_once : (∃ run s, solve oscillating ladder none = some run ∧ run.outcome = .ok s ∧
      s.iterations = {n | n ∈ ladder.nodes}.ncard ∧ ∀ v ∈ run.visits, v.requeued = []) ∧
    ∃ run s, solve (oscillating.toward .backward) ladder none = some run ∧ run.outcome = .ok s ∧
      s.iterations = {n | n ∈ ladder.nodes}.ncard ∧ ∀ v ∈ run.visits, v.requeued = [] := by
  constructor
  · obtain ⟨run, s, solved, ok, iterations, -, -, quiet⟩ := ladder_wellFormed.visits_once_without_cycles oscillating rfl
      ladder_acyclic (ladder_covered .forward)
    exact ⟨run, s, solved, ok, iterations, quiet⟩
  · obtain ⟨run, s, solved, ok, iterations, -, -, quiet⟩ := ladder_wellFormed.visits_once_without_cycles
      (oscillating.toward .backward) rfl ladder_acyclic (ladder_covered .backward)
    exact ⟨run, s, solved, ok, iterations, quiet⟩

end Tabular

end Dataflow
