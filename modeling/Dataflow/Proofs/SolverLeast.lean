import Mathlib.Data.List.Nodup
import Mathlib.Order.Monotone.Basic
import Mathlib.Order.Max
import Dataflow.Proofs.SolverFixedPoint

/-! Which of all the solutions of the dataflow equations a run comes to. The fact assumed to
flow out of a node before its first visit is seen by the neighbours visited no later than the
node, and what they take in is never taken back; it is seen by no others. -/

namespace Dataflow

instance {L : Type} [LE L] : LE (Flow L) :=
  ⟨fun left right => left.incoming ≤ right.incoming ∧ left.outgoing ≤ right.outgoing⟩

/-- Families of facts are compared at the nodes of a graph only. -/
structure LeastOn {ν L : Type} [LE L] (nodes : List ν) (solves : (ν → Flow L) → Prop) (facts : ν → Flow L) : Prop where
  itself : solves facts
  least : ∀ other, solves other → ∀ n ∈ nodes, facts n ≤ other n

private theorem LeastOn.unique {ν L : Type} [PartialOrder L] {nodes : List ν} {solves : (ν → Flow L) → Prop}
    {left right : ν → Flow L}
    (first : LeastOn nodes solves left) (second : LeastOn nodes solves right) {n : ν} (member : n ∈ nodes) :
    left n = right n := by
  have forth := first.least right second.itself n member
  have back := second.least left first.itself n member
  have incoming := le_antisymm forth.1 back.1
  have outgoing := le_antisymm forth.2 back.2
  cases same : left n
  cases other : right n
  rw [same, other] at incoming outgoing
  exact congrArg₂ Flow.mk incoming outgoing

variable {ν φ L : Type} [Ord ν]

def Oriented.Precedes (o : Oriented ν) (m n : ν) : Prop :=
  ∃ i j : Nat, i < j ∧ o.order[i]? = some m ∧ o.order[j]? = some n

/-- What is assumed to flow out of a node flows into the neighbours it does not precede. -/
def Seeded [LE L] (o : Oriented ν) (start : ν → L) (facts : ν → Flow L) : Prop :=
  ∀ m n, n ∈ o.outflow.next m → ¬o.Precedes m n → start m ≤ (facts n).incoming

namespace State

variable {a : Analysis ν φ} {o : Oriented ν} {s : State ν φ}

private theorem Orderly.order_next (orderly : Orderly o s) {n : ν} {rest : Worklist ν}
    (popped : s.waiting.pop? = some (n, rest)) (due : s.history.length < o.order.length) :
    o.order[s.history.length]? = some n := by
  have pending := orderly.pending
  rw [Worklist.toList_of_pop? popped, List.drop_eq_getElem_cons due, List.cons_prefix_cons] at pending
  rw [List.getElem?_eq_getElem due, pending.1]

variable [Std.TransOrd ν] [Std.LawfulEqOrd ν]

theorem Orderly.mem_visited_iff (orderly : Orderly o s) (wf : o.WellFormed) {n : ν} (member : n ∈ o.nodes) :
    n ∈ s.visited ↔ n ∈ o.order.take s.history.length := by
  have first := orderly.first
  rw [List.map_reverse] at first
  rw [visited, ← List.mem_reverse, ← first]
  constructor
  · intro visited
    by_cases short : s.history.length ≤ o.order.length
    · rwa [List.take_of_length_le (by simpa using short)]
    · rw [first, List.take_of_length_le (by omega), wf.mem_order]
      exact member
  · exact List.mem_of_mem_take

private theorem Orderly.due (orderly : Orderly o s) (wf : o.WellFormed) {n : ν} (member : n ∈ o.nodes)
    (unvisited : n ∉ s.visited) : s.history.length < o.order.length := by
  by_contra done
  rw [orderly.mem_visited_iff wf member, List.take_of_length_le (by omega), wf.mem_order] at unvisited
  exact unvisited member

private theorem Orderly.precedes (orderly : Orderly o s) (wf : o.WellFormed) {m n : ν} {rest : Worklist ν}
    (popped : s.waiting.pop? = some (n, rest)) (unvisited : n ∉ s.visited) (member : m ∈ o.nodes)
    (visited : m ∈ s.visited) : o.Precedes m n := by
  have inside : n ∈ o.nodes := orderly.listed n (by simp [Worklist.toList_of_pop? popped])
  obtain ⟨i, earlier, found⟩ := List.mem_take_iff_getElem.mp ((orderly.mem_visited_iff wf member).mp visited)
  exact ⟨i, s.history.length, by omega, by rw [List.getElem?_eq_getElem (by omega), found],
    orderly.order_next popped (orderly.due wf inside unvisited)⟩

private theorem Orderly.not_precedes (orderly : Orderly o s) (wf : o.WellFormed) {m n : ν} {rest : Worklist ν}
    (popped : s.waiting.pop? = some (n, rest)) (member : m ∈ o.nodes) (unvisited : m ∉ s.visited) :
    ¬o.Precedes m n := by
  intro precedes
  obtain ⟨i, j, earlier, first, second⟩ := precedes
  have due := orderly.due wf member unvisited
  have next := orderly.order_next popped due
  obtain ⟨inside, found⟩ := List.getElem?_eq_some_iff.mp second
  have same : s.history.length = j := by
    rw [List.getElem?_eq_getElem due] at next
    exact (List.Nodup.getElem_inj_iff o.nodup_order).mp ((Option.some.inj next).trans found.symm)
  apply unvisited
  rw [orderly.mem_visited_iff wf member, List.mem_take_iff_getElem]
  obtain ⟨within, at'⟩ := List.getElem?_eq_some_iff.mp first
  exact ⟨i, by omega, at'⟩

/-- What is assumed to flow out of unvisited nodes is still there, and visited nodes have
taken in what they must. -/
structure Seeding [LE L] (a : Analysis ν φ) (o : Oriented ν) (view : φ → L) (s : State ν φ) : Prop where
  unvisited : ∀ n ∈ o.nodes, n ∉ s.visited → ∀ flow, s.flows.get? n = some flow → flow.outgoing = a.start n
  taken : ∀ m n, n ∈ o.outflow.next m → ¬o.Precedes m n → n ∈ s.visited →
    ∀ flow, s.flows.get? n = some flow → view (a.start m) ≤ view flow.incoming

structure Below [LE L] (view : φ → L) (facts : ν → Flow L) (s : State ν φ) : Prop where
  incoming : ∀ n flow, s.flows.get? n = some flow → view flow.incoming ≤ (facts n).incoming
  outgoing : ∀ n ∈ s.visited, ∀ flow, s.flows.get? n = some flow → view flow.outgoing ≤ (facts n).outgoing

theorem Seeding.initial [LE L] (wf : o.WellFormed) (view : φ → L) : Seeding a o view (State.initial a o) := by
  constructor
  · intro n member _ flow found
    obtain ⟨-, rfl⟩ := initial_flow wf found
    rfl
  · intro m n _ _ visited
    exact False.elim (List.not_mem_nil visited)

theorem Below.initial [Preorder L] (wf : o.WellFormed) {view : φ → L} {T : ν → L → L} {facts : ν → Flow L}
    (bottom : IsBot (view a.bottom)) (equations : Equations o (view a.boundary) T facts) :
    Below view facts (State.initial a o) := by
  constructor
  · intro n flow found
    obtain ⟨-, rfl⟩ := initial_flow wf found
    rcases startFlow_cases (a := a) (n := n) with ⟨start, same⟩ | ⟨-, same⟩
    · rw [same]
      exact equations.boundary n start
    · rw [same]
      exact bottom _
  · intro n visited
    exact False.elim (List.not_mem_nil visited)

variable [SemilatticeSup L] {view : φ → L} {T : ν → L → L} {n : ν} {rest : Worklist ν} {flow : Flow φ}
  {sources : List φ}

theorem Seeding.visit (seeding : Seeding a o view s) (orderly : Orderly o s) (wf : o.WellFormed)
    (law : a.Lawful o.nodes view T) (popped : s.waiting.pop? = some (n, rest)) (found : s.flows.get? n = some flow)
    (sent : (o.inflow.next n).map s.outgoing? = sources.map some) :
    Seeding a o view (s.visit a o n rest flow sources) := by
  constructor
  · intro m member fresh after held
    rw [mem_visited_visit, not_or] at fresh
    rcases visit_flow held with ⟨same, -⟩ | ⟨-, held⟩
    · exact False.elim (fresh.1 same)
    · exact seeding.unvisited m member fresh.2 after held
  · intro sender m edge late visited after held
    rcases visit_flow held with ⟨rfl, rfl⟩ | ⟨same, held⟩
    · by_cases again : m ∈ s.visited
      · exact (seeding.taken sender m edge late again flow found).trans (law.incoming_le_input rest m flow sources)
      · -- On its first visit a node sees the start facts of all that do not precede it.
        have incoming := (wf.transposed sender m).mp edge
        have member := wf.sender sender m incoming
        have waits : sender ∉ s.visited := fun gone => late (orderly.precedes wf popped again member gone)
        obtain ⟨other, holds⟩ := (orderly.known sender).mpr member
        rw [← seeding.unvisited sender member waits other holds]
        exact law.source_le_input rest m flow (outgoing_mem sent incoming holds)
    · have earlier : m ∈ s.visited := (mem_visited_visit.mp visited).resolve_left same
      exact seeding.taken sender m edge late earlier after held

theorem Below.visit {facts : ν → Flow L} (below : Below view facts s) (seeding : Seeding a o view s)
    (orderly : Orderly o s) (wf : o.WellFormed) (law : a.Lawful o.nodes view T)
    (monotone : ∀ n ∈ o.nodes, Monotone (T n)) (equations : Equations o (view a.boundary) T facts)
    (seeded : Seeded o (fun n => view (a.start n)) facts) (popped : s.waiting.pop? = some (n, rest))
    (found : s.flows.get? n = some flow) (sent : (o.inflow.next n).map s.outgoing? = sources.map some) :
    Below view facts (s.visit a o n rest flow sources) := by
  have inside : n ∈ o.nodes := (orderly.known n).mp ⟨flow, found⟩
  have input : view (Visit.ofSources a o rest n flow sources).input ≤ (facts n).incoming := by
    rw [law.input_le_iff]
    refine ⟨below.incoming n flow found, ?_⟩
    intro source member
    obtain ⟨m, incoming, other, holds, rfl⟩ := sender_of_mem sent member
    have edge := (wf.transposed m n).mpr incoming
    by_cases visited : m ∈ s.visited
    · exact (below.outgoing m visited other holds).trans (equations.received m n edge)
    · have sender := wf.sender m n incoming
      rw [seeding.unvisited m sender visited other holds]
      exact seeded m n edge (orderly.not_precedes wf popped sender visited)
  constructor
  · intro m after held
    rcases visit_flow held with ⟨rfl, rfl⟩ | ⟨-, held⟩
    · exact input
    · exact below.incoming m after held
  · intro m visited after held
    rcases visit_flow held with ⟨rfl, rfl⟩ | ⟨same, held⟩
    · rw [law.output_eq rest inside flow sources, equations.passed m inside]
      exact monotone m inside input
    · exact below.outgoing m ((mem_visited_visit.mp visited).resolve_left same) after held

theorem Reachable.seeding (reached : Reachable a o s) (wf : o.WellFormed) (law : a.Lawful o.nodes view T) :
    Seeding a o view s := by
  induction reached using Reachable.visits with
  | initial => exact .initial wf view
  | visit before popped found sent ih =>
    exact ih.visit (before.orderly wf) wf law popped found sent

/-- No state of a run gets above a solution that takes the seeds into account. -/
theorem Reachable.stays_below {facts : ν → Flow L} (reached : Reachable a o s) (wf : o.WellFormed)
    (law : a.Lawful o.nodes view T) (bottom : IsBot (view a.bottom)) (monotone : ∀ n ∈ o.nodes, Monotone (T n))
    (equations : Equations o (view a.boundary) T facts) (seeded : Seeded o (fun n => view (a.start n)) facts) :
    Below view facts s := by
  induction reached using Reachable.visits with
  | initial => exact .initial wf bottom equations
  | visit before popped found sent ih =>
    exact ih.visit (before.seeding wf law) (before.orderly wf) wf law monotone equations seeded popped found sent

private theorem Orderly.all_visited (orderly : Orderly o s) (wf : o.WellFormed) (empty : s.waiting.toList = [])
    {n : ν} (member : n ∈ o.nodes) : n ∈ s.visited := by
  by_contra unvisited
  have due := orderly.due wf member unvisited
  have pending := orderly.pending
  rw [empty, List.prefix_nil, List.drop_eq_nil_iff] at pending
  omega

end State

private theorem Graph.Similar.equations [LE L] {g h : Graph ν} (similar : g.Similar h) (left : g.WellFormed)
    (right : h.WellFormed) (d : Direction) {boundary : L} {T : ν → L → L} {facts : ν → Flow L}
    (equations : Equations (g.orient d) boundary T facts) : Equations (h.orient d) boundary T facts := by
  constructor
  · intro n start
    exact equations.boundary n ((similar.starts d n).mpr start)
  · intro m n edge
    exact equations.received m n ((similar.outflow left right d m n).mpr edge)
  · intro n member
    rw [Graph.nodes_orient] at member
    apply equations.passed
    rw [Graph.nodes_orient]
    exact (similar.nodes n).mpr member

namespace Analysis.Settles

variable [Std.TransOrd ν] [Std.LawfulEqOrd ν] [SemilatticeSup L] {a : Analysis ν φ} {g : Graph ν}
  {limit : Option Nat} {s : Solution ν φ} {view : φ → L} {T : ν → L → L}

theorem facts_seeded (settles : a.Settles g limit s) (wf : g.WellFormed) (law : a.Lawful g.nodes view T) :
    Seeded (g.orient a.direction) (fun n => view (a.start n)) (fun n => (s.facts a.bottom n).map view) := by
  have oriented := wf.orient a.direction
  rw [← g.nodes_orient a.direction] at law
  obtain ⟨last, reached, empty, rfl⟩ := settles.reached
  have orderly := reached.orderly oriented
  intro m n edge late
  have member := oriented.receiver m n edge
  obtain ⟨flow, found⟩ := (orderly.known n).mpr member
  have visited := orderly.all_visited oriented empty member
  beta_reduce
  rw [Solution.facts_eq found]
  exact (reached.seeding oriented law).taken m n edge late visited flow found

/-- No family of facts that solves the equations and takes in the seeds is below what a run
settles on. -/
theorem facts_le (settles : a.Settles g limit s) (wf : g.WellFormed) (law : a.Lawful g.nodes view T)
    (bottom : IsBot (view a.bottom)) (monotone : ∀ n ∈ g.nodes, Monotone (T n)) {facts : ν → Flow L}
    (equations : Equations (g.orient a.direction) (view a.boundary) T facts)
    (seeded : Seeded (g.orient a.direction) (fun n => view (a.start n)) facts) {n : ν} (member : n ∈ g.nodes) :
    (s.facts a.bottom n).map view ≤ facts n := by
  have oriented := wf.orient a.direction
  rw [← g.nodes_orient a.direction] at law monotone member
  obtain ⟨last, reached, empty, rfl⟩ := settles.reached
  have orderly := reached.orderly oriented
  have below := reached.stays_below oriented law bottom monotone equations seeded
  obtain ⟨flow, found⟩ := (orderly.known n).mpr member
  rw [Solution.facts_eq found]
  have visited := orderly.all_visited oriented empty member
  exact ⟨below.incoming n flow found, below.outgoing n visited flow found⟩

theorem facts_least (settles : a.Settles g limit s) (wf : g.WellFormed) (law : a.Lawful g.nodes view T)
    (bottom : IsBot (view a.bottom)) (monotone : ∀ n ∈ g.nodes, Monotone (T n))
    (unseeded : ∀ n ∈ g.nodes, IsBot (view (a.start n))) :
    LeastOn g.nodes (Equations (g.orient a.direction) (view a.boundary) T)
      (fun n => (s.facts a.bottom n).map view) := by
  have oriented := wf.orient a.direction
  refine ⟨settles.facts_equations wf law, ?_⟩
  intro other equations n member
  apply settles.facts_le wf law bottom monotone equations _ member
  intro m receiver edge _
  have sender := oriented.sender m receiver ((oriented.transposed m receiver).mp edge)
  rw [Graph.nodes_orient] at sender
  exact unseeded m sender _

end Analysis.Settles

variable [Std.TransOrd ν] [Std.LawfulEqOrd ν] [SemilatticeSup L] {a : Analysis ν φ} {g : Graph ν}
  {limit : Option Nat} {s : Solution ν φ} {view : φ → L} {T : ν → L → L}

/-- The facts of a settled run are the least that solve the dataflow equations and take in
the facts assumed to flow out of nodes before their first visit, which reach the neighbours
visited no later. If those facts say nothing, the result does not depend on any order. -/
theorem Analysis.Settles.least_solution (settles : a.Settles g limit s) (wf : g.WellFormed)
    (law : a.Lawful g.nodes view T) (bottom : IsBot (view a.bottom)) (monotone : ∀ n ∈ g.nodes, Monotone (T n)) :
    ∃ facts : ν → Flow φ, (∀ n ∈ g.nodes, s.Holds a.direction n (facts n)) ∧
      LeastOn g.nodes (fun family => Equations (g.orient a.direction) (view a.boundary) T family ∧
        Seeded (g.orient a.direction) (fun n => view (a.start n)) family) (fun n => (facts n).map view) ∧
      ((∀ n ∈ g.nodes, IsBot (view (a.start n))) →
        LeastOn g.nodes (Equations (g.orient a.direction) (view a.boundary) T) (fun n => (facts n).map view) ∧
        ∀ h otherLimit other, h.WellFormed → g.Similar h → a.Settles h otherLimit other →
          ∀ n ∈ g.nodes, ∃ flow, other.Holds a.direction n flow ∧ flow.map view = (facts n).map view) := by
  refine ⟨s.facts a.bottom, ?_, ?_, ?_⟩
  · intro n member
    exact settles.facts_hold wf member
  · refine ⟨⟨settles.facts_equations wf law, settles.facts_seeded wf law⟩, ?_⟩
    intro family solution n member
    exact settles.facts_le wf law bottom monotone solution.1 solution.2 member
  · intro unseeded
    have least := settles.facts_least wf law bottom monotone unseeded
    refine ⟨least, ?_⟩
    intro h otherLimit other wellFormed similar resettles n member
    have lawful : a.Lawful h.nodes view T := law.fewer (fun m inside => (similar.nodes m).mpr inside)
    have again := resettles.facts_least wellFormed lawful bottom
      (fun m inside => monotone m ((similar.nodes m).mpr inside))
      (fun m inside => unseeded m ((similar.nodes m).mpr inside))
    have within : LeastOn g.nodes (Equations (g.orient a.direction) (view a.boundary) T)
        (fun m => (other.facts a.bottom m).map view) := by
      refine ⟨similar.symm.equations wellFormed wf a.direction again.itself, ?_⟩
      intro family solution m inside
      exact again.least family (similar.equations wf wellFormed a.direction solution) m ((similar.nodes m).mp inside)
    exact ⟨_, resettles.facts_hold wellFormed ((similar.nodes n).mp member), within.unique least member⟩

namespace Tabular

/-- The same graph listed in another order, with an order of first visits. -/
def knotBackwards : Graph Nat :=
  .ofEdges 0 [3] [(1, 3), (5, 1), (1, 3), (1, 1), (2, 1), (1, 2), (0, 1)] none none (some [5, 3, 2])

def plainTrail : GenKill := { trail with start := ∅ }

theorem trail_least : (∃ s : Solution Nat (CompactSet Nat), ∃ facts : Nat → Flow (CompactSet Nat),
      (∀ n ∈ knot.nodes, s.Holds .forward n (facts n)) ∧
      LeastOn knot.nodes (fun family => Equations (knot.orient .forward) trail.analysis.boundary.elements trail.passed
        family ∧ Seeded (knot.orient .forward) (fun n => (trail.analysis.start n).elements) family)
        (fun n => (facts n).map CompactSet.elements)) ∧
    ∃ s other : Solution Nat (CompactSet Nat), plainTrail.analysis.Settles knot (some 20) s ∧
      plainTrail.analysis.Settles knotBackwards none other ∧ ∃ facts : Nat → Flow (CompactSet Nat),
      (∀ n ∈ knot.nodes, s.Holds .forward n (facts n)) ∧
      LeastOn knot.nodes (Equations (knot.orient .forward) plainTrail.analysis.boundary.elements plainTrail.passed)
        (fun n => (facts n).map CompactSet.elements) ∧
      ∀ n ∈ knot.nodes, ∃ flow, other.Holds .forward n flow ∧
        flow.map CompactSet.elements = (facts n).map CompactSet.elements := by
  have bottom : IsBot (∅ : CompactSet Nat).elements := CompactSet.isBot_empty
  constructor
  · obtain ⟨s, settles⟩ := trail_settles
    obtain ⟨facts, told, least, -⟩ := settles.least_solution knot_wellFormed (GenKill.lawful rfl rfl knot.nodes) bottom
      (fun n _ => trail.passed_mono n)
    exact ⟨s, facts, told, least⟩
  · obtain ⟨s, settles⟩ : ∃ s, plainTrail.analysis.Settles knot (some 20) s := Analysis.Settles.of_run rfl
    obtain ⟨other, resettles⟩ : ∃ s, plainTrail.analysis.Settles knotBackwards (some 20) s :=
      Analysis.Settles.of_run rfl
    have unlimited := resettles.unlimited
    obtain ⟨facts, told, -, plain⟩ := settles.least_solution knot_wellFormed (GenKill.lawful rfl rfl knot.nodes) bottom
      (fun n _ => plainTrail.passed_mono n)
    obtain ⟨least, same⟩ := plain (fun _ _ => bottom)
    have wellFormed : knotBackwards.WellFormed := .ofEdges (by decide) (by decide)
    have similar : knot.Similar knotBackwards := .ofEdges (by decide) (by decide)
    exact ⟨s, other, settles, unlimited, facts, told, least, same knotBackwards none other wellFormed similar unlimited⟩

end Tabular

end Dataflow
