import Dataflow.Proofs.AnalysisLaws
import Dataflow.Proofs.SolverQueue

/-! Nothing is left to do when a run settles. The invariant is that every node that does
not wait is stable: it has taken in all that flows to it and has passed it on. -/

namespace Dataflow

variable {ν φ L : Type} [Ord ν]

def Flow.map {α β : Type} (f : α → β) (flow : Flow α) : Flow β := ⟨f flow.incoming, f flow.outgoing⟩

/-- The dataflow equations: the boundary flows into the starts, what flows out of a node flows
into its neighbours, and a node passes on what its transfer function makes of what flows in. -/
structure Equations [LE L] (o : Oriented ν) (boundary : L) (T : ν → L → L) (facts : ν → Flow L) : Prop where
  boundary : ∀ n ∈ o.starts, boundary ≤ (facts n).incoming
  received : ∀ m n, n ∈ o.outflow.next m → (facts m).outgoing ≤ (facts n).incoming
  passed : ∀ n ∈ o.nodes, (facts n).outgoing = T n (facts n).incoming

def Solution.facts (s : Solution ν φ) (nothing : φ) (n : ν) : Flow φ :=
  (s.flows.get? n).getD ⟨nothing, nothing⟩

theorem Solution.facts_eq {s : Solution ν φ} {nothing : φ} {n : ν} {flow : Flow φ}
    (found : s.flows.get? n = some flow) : s.facts nothing n = flow := by
  rw [Solution.facts, found]
  rfl

variable [SemilatticeSup L]

namespace State

/-- A node is stable when it has taken in what its neighbours send and passed it on. -/
def Stable (o : Oriented ν) (view : φ → L) (T : ν → L → L) (s : State ν φ) (n : ν) : Prop :=
  ∀ flow, s.flows.get? n = some flow → view flow.outgoing = T n (view flow.incoming) ∧
    ∀ m ∈ o.inflow.next n, ∀ other, s.flows.get? m = some other → view other.outgoing ≤ view flow.incoming

/-- Only waiting nodes are unstable, and the boundary has entered at every start. -/
structure Settling (a : Analysis ν φ) (o : Oriented ν) (view : φ → L) (T : ν → L → L) (s : State ν φ) : Prop where
  boundary : ∀ n ∈ o.starts, ∀ flow, s.flows.get? n = some flow → view a.boundary ≤ view flow.incoming
  stable : ∀ n ∈ o.nodes, n ∉ s.waiting.toList → s.Stable o view T n

variable [Std.TransOrd ν] [Std.LawfulEqOrd ν] {a : Analysis ν φ} {o : Oriented ν} {view : φ → L} {T : ν → L → L}

theorem Settling.initial (wf : o.WellFormed) : Settling a o view T (State.initial a o) := by
  constructor
  · intro n start flow found
    obtain ⟨-, rfl⟩ := initial_flow wf found
    rcases startFlow_cases (a := a) (n := n) with ⟨-, same⟩ | ⟨inner, -⟩
    · rw [same]
    · exact False.elim (inner start)
  · intro n member idle
    rw [State.initial, Worklist.toList_ofList, wf.mem_order] at idle
    exact False.elim (idle member)

private theorem visit_keeps_idle {s : State ν φ} (orderly : Orderly o s) {n : ν} {rest : Worklist ν}
    (popped : s.waiting.pop? = some (n, rest)) {flow : Flow φ} {sources : List φ} {m : ν}
    (idle : m ∉ (s.visit a o n rest flow sources).waiting.toList) :
    (m ≠ n → m ∉ s.waiting.toList) ∧
      (m ∈ o.outflow.next n → (Visit.ofSources a o rest n flow sources).changed = false) := by
  rw [visit_waiting, List.mem_append, not_or] at idle
  obtain ⟨gone, ignored⟩ := idle
  constructor
  · intro different waiting
    rw [Worklist.toList_of_pop? popped, List.mem_cons] at waiting
    exact waiting.elim different gone
  · intro edge
    by_contra changed
    rw [Bool.not_eq_false] at changed
    apply ignored
    refine mem_requeued.mpr ⟨changed, edge, ?_⟩
    rw [Bool.eq_false_iff]
    exact fun queued => gone (((orderly.queue.pop? popped).1.marked m).mp queued)

/-- A visit makes its node stable. It can unsettle only nodes it sends something new to,
and it puts those in the queue, itself included. -/
theorem Settling.visit {s : State ν φ} (settling : Settling a o view T s) (orderly : Orderly o s)
    (wf : o.WellFormed) (law : a.Lawful o.nodes view T) {n : ν} {rest : Worklist ν} {flow : Flow φ} {sources : List φ}
    (popped : s.waiting.pop? = some (n, rest)) (found : s.flows.get? n = some flow)
    (sent : (o.inflow.next n).map s.outgoing? = sources.map some) :
    Settling a o view T (s.visit a o n rest flow sources) := by
  have member : n ∈ o.nodes := (orderly.known n).mp ⟨flow, found⟩
  constructor
  · intro m start after held
    rcases visit_flow held with ⟨rfl, rfl⟩ | ⟨-, held⟩
    · exact (settling.boundary m start flow found).trans (law.incoming_le_input rest m flow sources)
    · exact settling.boundary m start after held
  · intro m inside idle after held
    obtain ⟨wasIdle, quiet⟩ := visit_keeps_idle orderly popped idle
    -- What `n` sends to an idle node is what it sent before.
    have unmoved : m ∈ o.outflow.next n →
        view (Visit.ofSources a o rest n flow sources).output = view flow.outgoing :=
      fun edge => law.output_eq_outgoing member (quiet edge)
    rcases visit_flow held with ⟨rfl, rfl⟩ | ⟨same, held⟩
    · refine ⟨law.output_eq rest member flow sources, ?_⟩
      intro sender edge other holds
      rcases visit_flow holds with ⟨rfl, rfl⟩ | ⟨-, holds⟩
      · rw [unmoved ((wf.transposed sender sender).mpr edge)]
        exact law.source_le_input rest sender flow (outgoing_mem sent edge found)
      · exact law.source_le_input rest m flow (outgoing_mem sent edge holds)
    · obtain ⟨passed, received⟩ := settling.stable m inside (wasIdle same) after held
      refine ⟨passed, ?_⟩
      intro sender edge other holds
      rcases visit_flow holds with ⟨rfl, rfl⟩ | ⟨-, holds⟩
      · rw [unmoved ((wf.transposed sender m).mpr edge)]
        exact received sender edge flow found
      · exact received sender edge other holds

theorem Reachable.settling {s : State ν φ} (reached : Reachable a o s) (wf : o.WellFormed)
    (law : a.Lawful o.nodes view T) : Settling a o view T s := by
  induction reached using Reachable.visits with
  | initial => exact .initial wf
  | visit before popped found sent ih =>
    exact ih.visit (before.orderly wf) wf law popped found sent

end State

namespace Analysis.Settles

variable [Std.TransOrd ν] [Std.LawfulEqOrd ν] {a : Analysis ν φ} {g : Graph ν} {limit : Option Nat}
  {s : Solution ν φ} {view : φ → L} {T : ν → L → L}

theorem facts_hold (settles : a.Settles g limit s) (wf : g.WellFormed) {n : ν} (member : n ∈ g.nodes) :
    s.Holds a.direction n (s.facts a.bottom n) := by
  rw [← g.nodes_orient a.direction] at member
  have found : ∃ flow, s.flows.get? n = some flow := by
    obtain ⟨last, reached, -, rfl⟩ := settles.reached
    exact ((reached.orderly (wf.orient a.direction)).known n).mpr member
  obtain ⟨flow, found⟩ := found
  rw [Solution.facts_eq found]
  exact settles.holds found

theorem facts_equations (settles : a.Settles g limit s) (wf : g.WellFormed) (law : a.Lawful g.nodes view T) :
    Equations (g.orient a.direction) (view a.boundary) T (fun n => (s.facts a.bottom n).map view) := by
  have oriented := wf.orient a.direction
  rw [← g.nodes_orient a.direction] at law
  obtain ⟨last, reached, empty, same⟩ := settles.reached
  have told {n : ν} {flow : Flow φ} (found : last.flows.get? n = some flow) : s.facts a.bottom n = flow := by
    subst same
    exact Solution.facts_eq found
  have orderly := reached.orderly oriented
  have settling := reached.settling oriented law
  have idle (n : ν) : n ∉ last.waiting.toList := by simp [empty]
  refine ⟨?_, ?_, ?_⟩
  · intro n start
    obtain ⟨flow, found⟩ := (orderly.known n).mpr (oriented.starts n start)
    rw [told found]
    exact settling.boundary n start flow found
  · intro m n edge
    have incoming := (oriented.transposed m n).mp edge
    have member := oriented.receiver m n edge
    obtain ⟨flow, found⟩ := (orderly.known n).mpr member
    obtain ⟨other, held⟩ := (orderly.known m).mpr (oriented.sender m n incoming)
    rw [told found, told held]
    exact (settling.stable n member (idle n) flow found).2 m incoming other held
  · intro n member
    obtain ⟨flow, found⟩ := (orderly.known n).mpr member
    rw [told found]
    exact (settling.stable n member (idle n) flow found).1

/-- A settled run has come to a fixed point at every node: what flows out is what the node
makes of what flows in, another transfer reports no change, and neither joining what a
neighbour sends nor the boundary of a start adds anything to what flowed in. -/
theorem fixed_point (settles : a.Settles g limit s) (wf : g.WellFormed) (law : a.Lawful g.nodes view T)
    {n : ν} (member : n ∈ g.nodes) :
    ∃ flow, s.Holds a.direction n flow ∧ view flow.outgoing = T n (view flow.incoming) ∧
      (a.transfer n flow.incoming flow.outgoing).changed = false ∧
      (∀ m ∈ (g.orient a.direction).inflow.next n, ∃ other, s.Holds a.direction m other ∧
        view (a.join other.outgoing flow.incoming) = view flow.incoming) ∧
      (n ∈ (g.orient a.direction).starts → view a.boundary ≤ view flow.incoming) := by
  have oriented := wf.orient a.direction
  have equations := settles.facts_equations wf law
  have passed := equations.passed n (by rwa [Graph.nodes_orient])
  refine ⟨s.facts a.bottom n, settles.facts_hold wf member, passed, ?_, ?_, equations.boundary n⟩
  · rw [Bool.eq_false_iff]
    intro changed
    apply (law.changed n member _ _).mp changed
    rw [law.transfer n member]
    exact passed.symm
  · intro m edge
    have sender := oriented.sender m n edge
    rw [Graph.nodes_orient] at sender
    refine ⟨s.facts a.bottom m, settles.facts_hold wf sender, ?_⟩
    have received := equations.received m n ((oriented.transposed m n).mpr edge)
    rw [law.join]
    exact sup_eq_left.mpr received

end Analysis.Settles

namespace Tabular

/-- A graph with a loop of two nodes, one of which follows itself, a repeated edge, and a
node that is not reached. -/
def knot : Graph Nat := .ofEdges 0 [3] [(0, 1), (1, 2), (2, 1), (1, 1), (1, 3), (5, 1), (1, 3)] none none none

theorem knot_wellFormed : knot.WellFormed := .ofEdges (by decide) (by decide)

/-- Which nodes have been passed. Node 2 starts with a fact of its own, and node 3 forgets
the boundary. -/
def trail : GenKill where
  direction := .forward
  boundary := [7]
  start := .ofList [(2, [9])]
  gen := ∅
  kill := .ofList [(3, [7])]
  self := true
  inPlace := false
  report := .actual

theorem trail_settles : ∃ s, trail.analysis.Settles knot (some 20) s := Analysis.Settles.of_run rfl

theorem trail_fixed_point : ∃ s : Solution Nat (CompactSet Nat), ∃ flow, s.Holds .forward 1 flow ∧
    flow.outgoing.elements = trail.passed 1 flow.incoming.elements ∧
    (trail.analysis.transfer 1 flow.incoming flow.outgoing).changed = false ∧
    (∀ m ∈ knot.predecessors.next 1, ∃ other, s.Holds .forward m other ∧
      (trail.analysis.join other.outgoing flow.incoming).elements = flow.incoming.elements) ∧
    (1 ∈ [0] → trail.analysis.boundary.elements ≤ flow.incoming.elements) := by
  obtain ⟨s, settles⟩ := trail_settles
  have member : 1 ∈ knot.nodes := by decide
  exact ⟨s, settles.fixed_point knot_wellFormed (GenKill.lawful rfl rfl knot.nodes) member⟩

end Tabular

end Dataflow
