import Dataflow.FlowGraph
import Dataflow.Proofs.GraphOrder

/-! Which bodies have a graph, and what its nodes and edges are. -/

namespace Dataflow

theorem Point.eq_of_val {p q : Point} (same : p.val = q.val) : p = q := by
  cases p
  cases q
  simpa using same

theorem Point.ofNat?_eq_some_iff {n : Nat} {p : Point} : Point.ofNat? n = some p ↔ p.val = n := by
  unfold ofNat?
  split
  next fits =>
    rw [Option.some.injEq]
    exact ⟨fun same => same ▸ rfl, fun same => eq_of_val same.symm⟩
  next large =>
    have bound := p.val_lt
    simp only [reduceCtorEq, false_iff]
    omega

private theorem Point.mem_below {count : Nat} {p : Point} : p ∈ Point.below count ↔ p.val < count := by
  simp only [below, List.mem_filterMap, List.mem_range, ofNat?_eq_some_iff]
  constructor
  · rintro ⟨n, bound, rfl⟩
    exact bound
  · intro bound
    exact ⟨p.val, bound, rfl⟩

namespace Stmt

def FallsThrough : Stmt → Prop
  | nop | assign .. | invoke _ | branch .. => True
  | goto _ | ret _ => False

variable {stmt : Stmt} {next : Option Point} {q : Point} {kind : EdgeKind}

private theorem mem_transfers_branch {condition : Expr} {target : Point} :
    (q, kind) ∈ (branch condition target).transfers next ↔
      q = target ∧ kind = .conditional ∨ q ≠ target ∧ next = some q ∧ kind = .unconditional := by
  simp only [transfers]
  cases next with
  | none => simp
  | some next =>
    by_cases same : next = target
    · subst same
      simp only [if_pos, List.mem_singleton, Prod.mk.injEq, Option.some.injEq]
      constructor
      · exact Or.inl
      · rintro (edge | ⟨different, rfl, -⟩)
        · exact edge
        · exact False.elim (different rfl)
    · have either : (q, kind) ∈ (if next = target then [(target, EdgeKind.conditional)]
          else if next.val < target.val then [(next, .unconditional), (target, .conditional)]
          else [(target, .conditional), (next, .unconditional)]) ↔
          q = target ∧ kind = .conditional ∨ q = next ∧ kind = .unconditional := by
        rw [if_neg same]
        split
        · simp only [List.mem_cons, Prod.mk.injEq, List.not_mem_nil, or_false]
          exact or_comm
        · simp only [List.mem_cons, Prod.mk.injEq, List.not_mem_nil, or_false]
      rw [either, Option.some.injEq]
      constructor
      · rintro (edge | ⟨rfl, plain⟩)
        · exact Or.inl edge
        · exact Or.inr ⟨same, rfl, plain⟩
      · rintro (edge | ⟨-, rfl, plain⟩)
        · exact Or.inl edge
        · exact Or.inr ⟨rfl, plain⟩

/-- Control goes to the target of a jump or to the next point. The edge is conditional when
it leads from a branch to its target, also where that is the next point. -/
theorem mem_transfers_iff : (q, kind) ∈ stmt.transfers next ↔
    (stmt.jump? = some q ∨ stmt.FallsThrough ∧ next = some q) ∧
      (kind = .conditional ↔ ∃ condition, stmt = .branch condition q) := by
  cases stmt with
  | goto target => cases kind <;> simp [transfers, jump?, FallsThrough, eq_comm]
  | ret => simp [transfers, jump?, FallsThrough]
  | branch condition target =>
    rw [mem_transfers_branch]
    by_cases same : q = target
    · subst same
      simp [jump?]
    · have other : ¬target = q := fun equal => same equal.symm
      cases kind <;> simp [jump?, FallsThrough, same, other]
  | nop | assign | invoke => cases next <;> cases kind <;> simp [transfers, jump?, FallsThrough, eq_comm]

theorem transfers_sorted : (stmt.transfers next).Pairwise fun left right => left.1.val < right.1.val := by
  cases stmt with
  | goto | ret => simp [transfers]
  | nop | assign | invoke => cases next <;> simp [transfers]
  | branch condition target =>
    cases next with
    | none => simp [transfers]
    | some next =>
      simp only [transfers]
      split
      next => simp
      next different =>
        split
        next less => simpa using less
        next more =>
          have apart : next.val ≠ target.val := fun same => different (Point.eq_of_val same)
          have less : target.val < next.val := by omega
          simpa using less

end Stmt

namespace Method

/-- A body that has a graph: it is neither empty nor too long, and its jumps stay in it. -/
structure Admitted (m : Method) : Prop where
  nonempty : 0 < m.size
  short : m.size ≤ maxSize
  jumps : ∀ p stmt target, m.stmt? p = some stmt → stmt.jump? = some target → m.contains target = true

variable {m : Method} {p q : Point} {stmt : Stmt}

theorem mem_points : p ∈ m.points ↔ m.contains p = true := by
  rw [points, Point.mem_below, contains, decide_eq_true_iff]

theorem contains_of_stmt? (found : m.stmt? p = some stmt) : m.contains p = true := by
  obtain ⟨bound, -⟩ := Array.getElem?_eq_some_iff.mp found
  exact decide_eq_true bound

theorem stmt?_of_contains (inside : m.contains p = true) : ∃ stmt, m.stmt? p = some stmt :=
  ⟨_, Array.getElem?_eq_getElem (of_decide_eq_true inside)⟩

theorem badTarget?_eq_some_iff : m.badTarget? p = some q ↔
    ∃ stmt, m.stmt? p = some stmt ∧ stmt.jump? = some q ∧ m.contains q = false := by
  simp only [badTarget?, Option.bind_eq_some_iff, Option.filter_eq_some_iff, Bool.not_eq_eq_eq_not, Bool.not_true]

theorem check_eq_ok_iff : m.check = .ok () ↔ m.Admitted := by
  unfold check
  split
  next empty =>
    refine ⟨nofun, fun admitted => ?_⟩
    have nonempty := admitted.nonempty
    omega
  next nonempty =>
    split
    next long =>
      refine ⟨nofun, fun admitted => ?_⟩
      have short := admitted.short
      omega
    next short =>
      split
      next at' target found =>
        refine ⟨nofun, fun admitted => ?_⟩
        obtain ⟨p, -, bad⟩ := List.exists_of_findSome?_eq_some found
        obtain ⟨q, outside, -⟩ := Option.map_eq_some_iff.mp bad
        obtain ⟨stmt, at', jump, away⟩ := badTarget?_eq_some_iff.mp outside
        rw [admitted.jumps p stmt q at' jump] at away
        cases away
      next clean =>
        refine ⟨fun _ => ⟨by omega, by omega, ?_⟩, fun _ => rfl⟩
        intro p stmt q found jump
        have quiet := List.findSome?_eq_none_iff.mp clean p (mem_points.mpr (contains_of_stmt? found))
        rw [Option.map_eq_none_iff] at quiet
        cases inside : m.contains q with
        | true => rfl
        | false =>
          have bad : m.badTarget? p = some q := badTarget?_eq_some_iff.mpr ⟨stmt, found, jump, inside⟩
          cases bad.symm.trans quiet

theorem Admitted.contains_target (admitted : m.Admitted) {kind : EdgeKind} (passes : (q, kind) ∈ m.transfers p) :
    m.contains p = true ∧ m.contains q = true := by
  unfold transfers at passes
  cases found : m.stmt? p with
  | none =>
    rw [found] at passes
    cases passes
  | some stmt =>
    rw [found] at passes
    refine ⟨contains_of_stmt? found, ?_⟩
    rcases (Stmt.mem_transfers_iff.mp passes).1 with jump | ⟨-, next⟩
    · exact admitted.jumps p stmt q found jump
    · exact (Option.filter_eq_some_iff.mp next).2

end Method

namespace FlowGraph

variable {m : Method} {g : FlowGraph}

theorem mem_edges_ofBody {source target : Point} {kind : EdgeKind} :
    ⟨source, target, kind⟩ ∈ (ofBody m).edges ↔ (target, kind) ∈ m.transfers source := by
  simp only [ofBody, List.mem_flatMap, List.mem_map]
  constructor
  · intro listed
    obtain ⟨p, -, ⟨q, k⟩, passes, same⟩ := listed
    obtain ⟨rfl, rfl, rfl⟩ := Edge.mk.inj same
    exact passes
  · intro passes
    refine ⟨source, Method.mem_points.mpr ?_, (target, kind), passes, rfl⟩
    unfold Method.transfers at passes
    cases found : m.stmt? source with
    | none =>
      rw [found] at passes
      cases passes
    | some stmt => exact Method.contains_of_stmt? found

theorem mem_successors_ofBody {p q : Point} :
    q ∈ (ofBody m).graph.successors.next p ↔ ∃ kind, (q, kind) ∈ m.transfers p := by
  refine (Adjacency.mem_next_ofEdges _ p q).trans ?_
  rw [List.mem_map]
  constructor
  · intro listed
    obtain ⟨⟨source, target, kind⟩, member, same⟩ := listed
    obtain ⟨rfl, rfl⟩ := Prod.mk.inj same
    exact ⟨kind, mem_edges_ofBody.mp member⟩
  · intro edge
    obtain ⟨kind, passes⟩ := edge
    exact ⟨⟨p, q, kind⟩, mem_edges_ofBody.mpr passes, rfl⟩

theorem mem_predecessors_ofBody {p q : Point} :
    p ∈ (ofBody m).graph.predecessors.next q ↔ q ∈ (ofBody m).graph.successors.next p := by
  have swapped : (ofBody m).edges.map (fun edge => (edge.target, edge.source)) =
      ((ofBody m).edges.map fun edge => (edge.source, edge.target)).map Prod.swap := by
    rw [List.map_map]
    rfl
  have back : p ∈ (ofBody m).graph.predecessors.next q ↔
      (p, q) ∈ (ofBody m).edges.map fun edge => (edge.source, edge.target) := by
    rw [← Adjacency.mem_next_ofEdges_swap, ← swapped]
    rfl
  exact back.trans (Adjacency.mem_next_ofEdges _ p q).symm

theorem ofMethod?_eq_ok_iff : ofMethod? m = .ok g ↔ m.Admitted ∧ g = ofBody m := by
  rw [← Method.check_eq_ok_iff, ofMethod?]
  cases m.check with
  | error why => exact ⟨nofun, nofun⟩
  | ok =>
    constructor
    · intro built
      exact ⟨rfl, (Except.ok.inj built).symm⟩
    · intro body
      obtain ⟨-, rfl⟩ := body
      rfl

theorem wellFormed (built : ofMethod? m = .ok g) : g.graph.WellFormed := by
  obtain ⟨admitted, rfl⟩ := ofMethod?_eq_ok_iff.mp built
  have ends {p q : Point} (edge : q ∈ (ofBody m).graph.successors.next p) :
      m.contains p = true ∧ m.contains q = true := by
    obtain ⟨kind, passes⟩ := mem_successors_ofBody.mp edge
    exact admitted.contains_target passes
  constructor
  · intro p q
    exact mem_predecessors_ofBody.symm
  · intro p q edge
    exact Method.mem_points.mpr (ends edge).2
  · intro p q edge
    exact Method.mem_points.mpr (ends edge).1
  · exact Method.mem_points.mpr (decide_eq_true admitted.nonempty)
  · intro p leaves
    exact (List.mem_filter.mp leaves).1
  · exact nofun

theorem mem_nodes (built : ofMethod? m = .ok g) {p : Point} : p ∈ g.graph.nodes ↔ g.contains p = true := by
  obtain ⟨-, rfl⟩ := ofMethod?_eq_ok_iff.mp built
  exact Method.mem_points

theorem stmt?_of_mem (built : ofMethod? m = .ok g) {p : Point} (member : p ∈ g.graph.nodes) :
    ∃ stmt, g.stmt? p = some stmt :=
  Method.stmt?_of_contains ((mem_nodes built).mp member)

end FlowGraph

/-- A method that counts up to its parameter. -/
def countUp : Method where
  name := "countUp"
  params := [.int "n"]
  body := #[.assign (.int "i") (.literal 0),
    .branch (.binary (.comparison .ge) (.var (.int "i")) (.var (.int "n"))) ⟨4, by decide⟩,
    .assign (.int "i") (.binary (.arithmetic .add) (.var (.int "i")) (.literal 1)),
    .goto ⟨1, by decide⟩,
    .ret none]

theorem countUp_graph : FlowGraph.ofMethod? countUp = .ok (.ofBody countUp) := rfl

end Dataflow
