import Mathlib.Data.Set.Function
import Mathlib.Order.Interval.Set.Defs
import Dataflow.Proofs.ControlFlow
import Dataflow.Proofs.StackSearch

/-! The graph of a method as others see it, through its positions, its lists of nodes and edges and
its neighbours, and what searches find that follow the neighbours. -/

namespace Dataflow

namespace FlowGraph

/-- What is seen of a graph. A node is known by its position in the body, and the lists of nodes,
statements and edges, the kinds of edges and the neighbours from both ends tell of the same graph. -/
structure Shows (g : FlowGraph) (m : Method) : Prop where
  nodes : g.graph.nodes.map Point.val = List.range m.size
  listed : g.statements.map Prod.fst = g.graph.nodes
  statements : ∀ p stmt, (p, stmt) ∈ g.statements ↔ m.stmt? p = some stmt
  count : g.nodeCount = m.size
  index : Set.BijOn Point.val {p | p ∈ g.graph.nodes} (Set.Iio g.nodeCount)
  inverse : ∀ p ∈ g.graph.nodes, ∀ i, Point.ofNat? i = some p ↔ i = p.val
  single : g.edges.Nodup
  edges : ∀ p q kind, ⟨p, q, kind⟩ ∈ g.edges ↔ g.edge? p q = some kind
  outgoing : ∀ p q, q ∈ g.neighbours p .forward ↔ ∃ kind, g.edge? p q = some kind
  incoming : ∀ p q, p ∈ g.neighbours q .backward ↔ ∃ kind, g.edge? p q = some kind
  outside : ∀ p, p ∉ g.graph.nodes → ∀ d, g.neighbours p d = []

variable {m : Method} {g : FlowGraph}

private theorem nodup_edges (m : Method) : (ofBody m).edges.Nodup := by
  apply (edges_ofBody_sorted m).imp
  rintro first second (less | ⟨-, less⟩) rfl
  · exact Nat.lt_irrefl _ less
  · exact Nat.lt_irrefl _ less

private theorem mem_statements_ofBody {p : Point} {stmt : Stmt} :
    (p, stmt) ∈ (ofBody m).statements ↔ m.stmt? p = some stmt := by
  simp only [statements, List.mem_filterMap, Option.map_eq_some_iff, Prod.mk.injEq]
  constructor
  · rintro ⟨_, _, _, found, rfl, rfl⟩
    exact found
  · intro found
    exact ⟨p, Method.mem_points.mpr (Method.contains_of_stmt? found), stmt, found, rfl, rfl⟩

private theorem map_statements (built : ofMethod? m = .ok g) : g.statements.map Prod.fst = g.graph.nodes := by
  have labelled : ∀ p ∈ g.graph.nodes, ((g.stmt? p).map (p, ·)).map Prod.fst = some p := by
    intro p member
    obtain ⟨stmt, found⟩ := stmt?_of_mem built member
    rw [found]
    rfl
  rw [statements, List.map_filterMap, List.filterMap_congr labelled, List.filterMap_some]

private theorem neighbours_outside (wf : g.graph.WellFormed) {p : Point} (outside : p ∉ g.graph.nodes) (d : Direction) :
    g.neighbours p d = [] := by
  rw [List.eq_nil_iff_forall_not_mem]
  intro q edge
  cases d with
  | forward => exact outside (wf.source p q edge)
  | backward => exact outside (wf.target q p ((wf.transposed q p).mpr edge))

private theorem bijOn_val (nodes : g.graph.nodes.map Point.val = List.range m.size) :
    Set.BijOn Point.val {p | p ∈ g.graph.nodes} (Set.Iio m.size) := by
  have places (i : Nat) : i ∈ g.graph.nodes.map Point.val ↔ i < m.size := by rw [nodes, List.mem_range]
  refine ⟨?_, fun p _ q _ same => Point.eq_of_val same, ?_⟩
  · intro p member
    exact (places p.val).mp (List.mem_map_of_mem member)
  · intro i below
    exact List.mem_map.mp ((places i).mpr below)

theorem shows (built : ofMethod? m = .ok g) : g.Shows m := by
  have wf := wellFormed built
  have listed := map_statements built
  obtain ⟨admitted, rfl⟩ := ofMethod?_eq_ok_iff.mp built
  have depicts := depicts_ofBody admitted
  have count : (ofBody m).nodeCount = m.size := by
    rw [nodeCount, ← List.length_map Point.val, depicts.nodes, List.length_range]
  have edge (p q : Point) : (∃ kind, (ofBody m).edge? p q = some kind) ↔ m.Passes p q :=
    Option.isSome_iff_exists.symm.trans (depicts.edge p q)
  constructor
  · exact depicts.nodes
  · exact listed
  · intro p stmt
    exact mem_statements_ofBody
  · exact count
  · rw [count]
    exact bijOn_val depicts.nodes
  · intro p _ i
    rw [Point.ofNat?_eq_some_iff, eq_comm]
  · exact nodup_edges m
  · exact depicts.edges
  · intro p q
    rw [edge, depicts.successors]
  · intro p q
    rw [edge, depicts.predecessors]
  · intro p outside d
    exact neighbours_outside wf outside d

/-- A search from the entry finds the nodes with which the order of first visits begins. -/
theorem exists_order_search (g : FlowGraph) (unhinted : g.graph.hint = none) :
    ∃ reached rest, (g.graph.orient .forward).order = reached ++ rest ∧
      (g.graph.successors.search ∅ g.graph.entry).found.Perm reached ∧
      ∀ n ∈ rest, ¬g.graph.successors.Reaches g.graph.entry n := by
  obtain ⟨rest, split, missed, -⟩ := (g.graph.orient .forward).exists_order_eq unhinted
  obtain ⟨single, walked, -⟩ := g.graph.successors.reversePostOrder_sorted [g.graph.entry]
  obtain ⟨-, once, finds, -⟩ := g.graph.successors.closed_empty.search g.graph.entry
  have reached (n : Point) : n ∈ g.graph.successors.reversePostOrder [g.graph.entry] ↔
      g.graph.successors.Reaches g.graph.entry n := by
    rw [walked]
    simp only [List.mem_singleton, exists_eq_left]
  refine ⟨g.graph.successors.reversePostOrder [g.graph.entry], rest, split, ?_, ?_⟩
  · rw [List.perm_ext_iff_of_nodup once single]
    intro n
    rw [finds, reached, and_iff_left Std.TreeSet.not_mem_emptyc]
  · intro n left leads
    exact ((missed n).mp left).2 ((reached n).mpr leads)

/-- What is seen of the graph of a method is one and the same graph. A search without marks comes to
an end and lists what its start leads to, each node once; from the entry these are the nodes with
which the order of first visits begins. Of searches that share their marks, each lists what its start
leads to and none before it has listed. -/
theorem view_exact (built : ofMethod? m = .ok g) : g.Shows m ∧
    (∀ start, (g.graph.successors.search ∅ start).stack = [] ∧
      (g.graph.successors.search ∅ start).found.Nodup ∧
      ∀ n, n ∈ (g.graph.successors.search ∅ start).found ↔ g.graph.successors.Reaches start n) ∧
    (∃ reached rest, (g.graph.orient .forward).order = reached ++ rest ∧
      (g.graph.successors.search ∅ g.graph.entry).found.Perm reached ∧
      ∀ n ∈ rest, ¬g.graph.successors.Reaches g.graph.entry n) ∧
    (∀ marked starts, g.graph.successors.searches true marked starts =
      starts.map fun start => (g.graph.successors.search ∅ start).found.reverse) ∧
    ∀ starts, (g.graph.successors.searches false ∅ starts).length = starts.length ∧
      ∀ earlier start found later,
        starts.zip (g.graph.successors.searches false ∅ starts) = earlier ++ (start, found) :: later →
          found.Nodup ∧ ∀ n, n ∈ found ↔ g.graph.successors.Reaches start n ∧ n ∉ earlier.flatMap Prod.snd := by
  have unhinted : g.graph.hint = none := by
    obtain ⟨-, rfl⟩ := ofMethod?_eq_ok_iff.mp built
    rfl
  have empty := g.graph.successors.closed_empty
  refine ⟨shows built, ?_, g.exists_order_search unhinted, g.graph.successors.searches_fresh, ?_⟩
  · intro start
    obtain ⟨done, single, finds, -⟩ := empty.search start
    refine ⟨done, single, fun n => ?_⟩
    rw [finds, and_iff_left Std.TreeSet.not_mem_emptyc]
  · intro starts
    obtain ⟨length, each⟩ := empty.searches starts
    refine ⟨length, ?_⟩
    intro earlier start found later split
    obtain ⟨single, finds⟩ := each earlier start found later split
    refine ⟨single, fun n => ?_⟩
    rw [finds, and_iff_right Std.TreeSet.not_mem_emptyc]

def detour : Method where
  name := "detour"
  params := [.int "x"]
  body := #[.branch (.var (.int "x")) ⟨3, by decide⟩, .goto .entry, .goto ⟨3, by decide⟩,
    .branch (.literal 0) ⟨5, by decide⟩, .nop, .ret none]

/-- Searches from the middle of the graph, its entry, a point outside it, the statement that nothing
leads to, and the entry again. -/
theorem detour_view : (ofBody detour).Shows detour ∧
    (ofBody detour).graph.successors.searches false ∅
        [⟨3, by decide⟩, .entry, ⟨9, by decide⟩, ⟨2, by decide⟩, .entry] =
      [[⟨3, by decide⟩, ⟨5, by decide⟩, ⟨4, by decide⟩], [.entry, ⟨1, by decide⟩], [⟨9, by decide⟩],
        [⟨2, by decide⟩], []] ∧
    (∀ n, n ∈ [.entry, ⟨1, by decide⟩] ↔ (ofBody detour).graph.successors.Reaches .entry n ∧
      n ∉ [⟨3, by decide⟩, ⟨5, by decide⟩, ⟨4, by decide⟩]) ∧
    ¬(ofBody detour).graph.successors.Reaches .entry ⟨2, by decide⟩ := by
  obtain ⟨shows, alone, -, -, shared⟩ := view_exact (m := detour) (g := ofBody detour) rfl
  obtain ⟨-, each⟩ := shared [⟨3, by decide⟩, .entry, ⟨9, by decide⟩, ⟨2, by decide⟩, .entry]
  obtain ⟨-, -, finds⟩ := alone .entry
  refine ⟨shows, rfl, (each [(_, _)] .entry _ [_, _, _] rfl).2, ?_⟩
  rw [← finds]
  decide

end FlowGraph

end Dataflow
