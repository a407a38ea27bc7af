import Mathlib.Data.Fintype.Order
import Dataflow.Proofs.ConstantsLaws
import Dataflow.Proofs.LivenessPaths

/-! Bounds on the number of visits, counted in the nodes and edges of a graph. They hold
whether or not the transfer functions are monotone: what flows into a node never shrinks,
and only its growth can bring the neighbours back into the queue. -/

namespace Dataflow

variable {ν φ L : Type} [Ord ν]

/-- The ordered pairs of adjacent nodes, each counted once. -/
def Graph.adjacent (g : Graph ν) : Set (ν × ν) := {pair | pair.2 ∈ g.successors.next pair.1}

/-- One visit for every node, and `height + 1` for every pair of adjacent nodes. -/
noncomputable def Graph.visitLimit (g : Graph ν) (height : Nat) : Nat :=
  {n | n ∈ g.nodes}.ncard + g.adjacent.ncard * (height + 1)

private theorem ncard_of_nodup {α : Type} {items : List α} (single : items.Nodup) :
    {x | x ∈ items}.ncard = items.length := by
  classical
  rw [← List.coe_toFinset, Set.ncard_coe_finset, List.toFinset_card_of_nodup single]

variable [Std.TransOrd ν] [Std.LawfulEqOrd ν]

namespace Oriented.WellFormed

variable {o : Oriented ν}

theorem length_order (wf : o.WellFormed) : o.order.length = {n | n ∈ o.nodes}.ncard := by
  rw [← ncard_of_nodup o.nodup_order]
  simp only [wf.mem_order]

private theorem edgeCount_eq (wf : o.WellFormed) :
    o.edgeCount = {pair : ν × ν | pair.2 ∈ o.outflow.next pair.1}.ncard := by
  let pairs := o.order.flatMap fun m => (distinct (o.outflow.next m)).map fun n => (m, n)
  have single : pairs.Nodup := by
    rw [List.nodup_flatMap]
    constructor
    · intro m _
      exact (nodup_distinct _).map fun _ _ same => (Prod.mk.inj same).2
    · apply o.nodup_order.imp
      intro m k different pair left right
      obtain ⟨_, _, rfl⟩ := List.mem_map.mp left
      obtain ⟨_, _, same⟩ := List.mem_map.mp right
      exact different (Prod.mk.inj same).1.symm
  have member (pair : ν × ν) : pair ∈ pairs ↔ pair.2 ∈ o.outflow.next pair.1 := by
    simp only [pairs, List.mem_flatMap, List.mem_map, mem_distinct, wf.mem_order]
    constructor
    · rintro ⟨m, -, n, edge, rfl⟩
      exact edge
    · intro edge
      exact ⟨pair.1, wf.sender _ _ ((wf.transposed _ _).mp edge), pair.2, edge, rfl⟩
  have length : pairs.length = o.edgeCount := by
    simp only [pairs, List.length_flatMap, List.length_map]
    rfl
  rw [← length, ← ncard_of_nodup single]
  simp only [member]

end Oriented.WellFormed

namespace Graph.WellFormed

variable {g : Graph ν}

private theorem edgeCount_orient (wf : g.WellFormed) (d : Direction) : (g.orient d).edgeCount = g.adjacent.ncard := by
  rw [(wf.orient d).edgeCount_eq]
  cases d with
  | forward => rfl
  | backward =>
    have turned : {pair : ν × ν | pair.2 ∈ g.predecessors.next pair.1} = Prod.swap '' g.adjacent := by
      ext ⟨m, n⟩
      rw [Set.mem_image]
      constructor
      · intro edge
        exact ⟨(n, m), (wf.transposed n m).mpr edge, rfl⟩
      · rintro ⟨⟨source, target⟩, edge, same⟩
        obtain ⟨rfl, rfl⟩ := Prod.mk.inj same
        exact (wf.transposed source target).mp edge
    exact (congrArg Set.ncard turned).trans (Set.ncard_image_of_injective _ Prod.swap_injective)

private theorem visitLimit_eq (wf : g.WellFormed) (d : Direction) (height : Nat) :
    g.visitLimit height = (g.orient d).order.length + (g.orient d).edgeCount * (height + 1) := by
  rw [visitLimit, wf.edgeCount_orient, (wf.orient d).length_order, g.nodes_orient]

end Graph.WellFormed

variable [SemilatticeSup L]

theorem Analysis.Lawful.settles_within {a : Analysis ν φ} {g : Graph ν} {view : φ → L} {T : ν → L → L}
    (law : a.Lawful g.nodes view T) (wf : g.WellFormed) {height : Nat} (grows : a.GrowsAtMost g view height) :
    ∃ s, a.Settles g none s ∧ s.iterations ≤ g.visitLimit height := by
  rw [wf.visitLimit_eq a.direction]
  exact law.exists_settles wf grows

/-- If what flows into a node grows at most `height` times, solving without a limit comes to
an answer within one visit for every node and `height + 1` for every pair of adjacent nodes,
and looks up no node without facts. For constant propagation the height is twice the number
of variables it follows, for live variables the number of variables that are read. -/
theorem runs_settle_in_time :
    (∀ {ν φ L : Type} [Ord ν] [Std.TransOrd ν] [Std.LawfulEqOrd ν] [SemilatticeSup L] (a : Analysis ν φ) (g : Graph ν)
      (view : φ → L) (T : ν → L → L) (height : Nat), g.WellFormed → a.Lawful g.nodes view T →
      a.GrowsAtMost g view height →
        (∃ s, a.Settles g none s ∧ s.iterations ≤ g.visitLimit height) ∧
        ∀ state, State.Reachable a (g.orient a.direction) state → ∀ before sources,
          state.step a (g.orient a.direction) ≠ .ended (.broken before sources)) ∧
    ∀ m g, FlowGraph.ofMethod? m = .ok g →
      (∃ s, (Constants.analysis g).Settles g.graph none s ∧
        s.iterations ≤ g.graph.visitLimit (2 * (Constants.tracked g).card)) ∧
      ∃ s, (Liveness.analysis g).Settles g.graph none s ∧
        s.iterations ≤ g.graph.visitLimit (Liveness.readVars g).ncard := by
  constructor
  · intro ν φ L _ _ _ _ a g view T height wf law grows
    refine ⟨law.settles_within wf grows, ?_⟩
    intro state reached
    exact reached.unbroken (wf.orient a.direction)
  · intro m g built
    have wf := FlowGraph.wellFormed built
    constructor
    · rw [Nat.mul_comm]
      exact (Constants.lawful built).settles_within wf (Constants.growsAtMost built)
    · exact (Liveness.lawful built).settles_within wf (Liveness.growsAtMost built)

namespace Tabular

/-- Every node negates what flows in, so its transfer function is not monotone. -/
def negation : Analysis Nat Bool where
  direction := .forward
  bottom := false
  boundary := false
  start _ := false
  join source target := target || source
  transfer _ input output := ⟨!input, (!input) != output⟩

theorem negation_lawful (nodes : List Nat) : negation.Lawful nodes id (fun _ input => !input) := by
  refine ⟨fun _ _ => rfl, fun _ _ _ _ => rfl, ?_⟩
  intro n _ input output
  change ((!input) != output) = true ↔ (!input) ≠ output
  exact bne_iff_ne

private theorem negation_growsAtMost {g : Graph Nat} (wf : g.WellFormed) : negation.GrowsAtMost g id 1 := by
  have keeps : negation.Keeps g.nodes id (fun _ input => !input) (fun _ => True) :=
    ⟨trivial, trivial, fun _ _ => trivial, fun _ _ _ _ => trivial, fun _ _ _ _ => trivial⟩
  have strict (left right : Bool) (less : left < right) : left.toNat < right.toNat := by
    revert left right
    decide
  exact (negation_lawful g.nodes).growsAtMost_of_rank wf keeps (fun left right _ _ => strict left right)
    (fun fact _ => fact.toNat_le)

theorem negation_settles_in_time : (∃ s, negation.Settles knot none s ∧ s.iterations ≤ knot.visitLimit 1) ∧
    (∃ s, (Constants.analysis (.ofBody countUp)).Settles (FlowGraph.ofBody countUp).graph none s ∧
      s.iterations ≤ (FlowGraph.ofBody countUp).graph.visitLimit (2 * (Constants.tracked (.ofBody countUp)).card)) ∧
    ∃ s, (Liveness.analysis (.ofBody countUp)).Settles (FlowGraph.ofBody countUp).graph none s ∧
      s.iterations ≤ (FlowGraph.ofBody countUp).graph.visitLimit (Liveness.readVars (.ofBody countUp)).ncard := by
  obtain ⟨general, special⟩ := runs_settle_in_time
  have settles := (general negation knot id _ 1 knot_wellFormed (negation_lawful knot.nodes)
    (negation_growsAtMost knot_wellFormed)).1
  exact ⟨settles, special countUp (.ofBody countUp) countUp_graph⟩

end Tabular

end Dataflow
