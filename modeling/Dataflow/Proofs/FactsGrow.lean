import Mathlib.Data.List.TakeWhile
import Mathlib.Order.Monotone.Basic
import Dataflow.Proofs.ConstantsSoundness
import Dataflow.Proofs.SolverLimit
import Dataflow.Proofs.TransferContract

/-! How the facts of a node move in the course of a run. What flows into it grows with every fact
that is joined in, whatever nodes make of their facts. What flows out of it grows from its first
visit on, if the node passes on a monotone function of what flows in. -/

namespace Dataflow

variable {ν φ L : Type} [Ord ν]

namespace State

/-- The facts that are joined into a node next: what its neighbours send, if it is its turn. -/
def due (o : Oriented ν) (s : State ν φ) (n : ν) : List φ :=
  match s.waiting.pop? with
  | some (next, _) => if compare next n = .eq then s.outgoingUntil (o.inflow.next n) else []
  | none => []

/-- What flows into a node once some of the facts that are due have been joined in. -/
def incoming? (a : Analysis ν φ) (o : Oriented ν) (s : State ν φ) (n : ν) (joins : Nat) : Option φ :=
  (s.flows.get? n).map fun flow =>
    ((s.due o n).take joins).foldl (fun target source => a.join source target) flow.incoming

section Moments

variable {a : Analysis ν φ} {o : Oriented ν} {s : State ν φ} {n m : ν} {rest : Worklist ν} {sources : List φ}

private theorem outgoingUntil_eq {senders : List ν} (sent : senders.map s.outgoing? = sources.map some) :
    s.outgoingUntil senders = sources := by
  rw [outgoingUntil, sent, List.takeWhile_eq_self_iff.mpr, List.filterMap_map, Function.id_comp, List.filterMap_some]
  intro fact member
  obtain ⟨source, -, rfl⟩ := List.mem_map.mp member
  rfl

private theorem due_idle (empty : s.waiting.toList = []) : s.due o n = [] := by
  rw [due, (Worklist.pop?_eq_none_iff _).mpr empty]

variable [Std.LawfulEqOrd ν]

private theorem due_self (popped : s.waiting.pop? = some (n, rest))
    (sent : (o.inflow.next n).map s.outgoing? = sources.map some) : s.due o n = sources := by
  simp only [due, popped]
  rw [if_pos (Std.LawfulEqOrd.compare_eq_iff_eq.mpr rfl), outgoingUntil_eq sent]

private theorem due_other (popped : s.waiting.pop? = some (n, rest)) (different : m ≠ n) : s.due o m = [] := by
  simp only [due, popped]
  exact if_neg fun same => different (Std.LawfulEqOrd.compare_eq_iff_eq.mp same).symm

end Moments

section Runs

variable {a : Analysis ν φ} {o : Oriented ν}

private theorem moved_of_visit {s : State ν φ} {limit i : Nat} {v : Visit ν φ}
    (made : (s.run a o limit).1.history.reverse[s.history.length + i]? = some v) :
    ∃ more after, s.step a o = .moved after ∧
      (after.run a o more).1.history.reverse[s.history.length + i]? = some v := by
  have none : s.history.reverse[s.history.length + i]? = none := by
    rw [List.getElem?_eq_none_iff, List.length_reverse]
    exact Nat.le_add_right _ _
  cases limit with
  | zero => cases none.symm.trans made
  | succ more =>
    cases reached : s.step a o with
    | ended ending =>
      rw [run, reached] at made
      cases none.symm.trans made
    | moved after =>
      rw [run, reached] at made
      exact ⟨more, after, rfl, made⟩

theorem run_visit {s : State ν φ} {limit i : Nat} {v : Visit ν φ}
    (made : (s.run a o limit).1.history.reverse[s.history.length + i]? = some v) :
    (s.run a o i).1.step a o = .moved (s.run a o (i + 1)).1 ∧
      (s.run a o (i + 1)).1.history = v :: (s.run a o i).1.history := by
  induction i generalizing s limit with
  | zero =>
    obtain ⟨more, after, reached, made⟩ := moved_of_visit made
    obtain ⟨w, visited⟩ := history_of_moved reached
    obtain ⟨later, same⟩ := history_run (a := a) (o := o) after more
    have here : (later ++ w :: s.history).reverse[s.history.length]? = some w := by simp
    rw [← same, visited, Nat.add_zero, here] at made
    obtain rfl := Option.some.inj made
    simp only [run, reached]
    exact ⟨trivial, visited⟩
  | succ i ih =>
    obtain ⟨more, after, reached, made⟩ := moved_of_visit made
    obtain ⟨w, visited⟩ := history_of_moved reached
    rw [run, run, reached]
    apply @ih after more
    rw [visited, List.length_cons, Nat.add_right_comm]
    exact made

end Runs

section Growth

variable {a : Analysis ν φ} {o : Oriented ν} {s after : State ν φ} {n : ν} {flow : Flow φ} {joins more : Nat}
  {fact other : φ}

private theorem incoming?_of_flow (found : s.flows.get? n = some flow) (joins : Nat) : s.incoming? a o n joins =
    some (((s.due o n).take joins).foldl (fun target source => a.join source target) flow.incoming) := by
  rw [incoming?, found, Option.map_some]

variable [SemilatticeSup L] {view : φ → L}

private theorem incoming?_mono (join : ∀ source target, view (a.join source target) = view target ⊔ view source)
    (le : joins ≤ more) (first : s.incoming? a o n joins = some fact) (second : s.incoming? a o n more = some other) :
    view fact ≤ view other := by
  obtain ⟨flow, found, rfl⟩ := Option.map_eq_some_iff.mp first
  rw [incoming?_of_flow found] at second
  obtain rfl := Option.some.inj second
  exact Analysis.joined_mono join (List.take_prefix_take_left le).subset flow.incoming

variable [Std.TransOrd ν] [Std.LawfulEqOrd ν]

theorem incoming?_step (join : ∀ source target, view (a.join source target) = view target ⊔ view source)
    (moved : s.step a o = .moved after) (first : s.incoming? a o n joins = some fact)
    (second : after.incoming? a o n 0 = some other) : view fact ≤ view other := by
  obtain ⟨m, rest, kept, sources, popped, known, sent, rfl⟩ := step_moved moved
  obtain ⟨flow, found, rfl⟩ := Option.map_eq_some_iff.mp first
  by_cases same : n = m
  · subst same
    obtain rfl := Option.some.inj (known.symm.trans found)
    rw [incoming?_of_flow (visit_get?_self ..)] at second
    obtain rfl := Option.some.inj second
    rw [due_self popped sent]
    exact Analysis.joined_mono join (List.take_subset joins sources) kept.incoming
  · rw [incoming?_of_flow ((visit_get?_other s same ..).trans found)] at second
    obtain rfl := Option.some.inj second
    rw [due_other popped same, List.take_nil]
    exact le_rfl

private theorem Reachable.incoming?_next (reached : Reachable a o s) (wf : o.WellFormed)
    (join : ∀ source target, view (a.join source target) = view target ⊔ view source) (visits : Nat)
    (first : (s.run a o visits).1.incoming? a o n joins = some fact)
    (second : (s.run a o (visits + 1)).1.incoming? a o n 0 = some other) : view fact ≤ view other := by
  rcases run_next s visits with moved | ⟨⟨ending, ended⟩, same⟩
  · exact incoming?_step join moved first second
  · rcases step_ended ended with ⟨-, empty⟩ | ⟨before, sources, rfl⟩
    · rw [same] at second
      obtain ⟨flow, found, rfl⟩ := Option.map_eq_some_iff.mp first
      rw [incoming?_of_flow found] at second
      obtain rfl := Option.some.inj second
      rw [due_idle empty, List.take_nil, List.take_nil]
    · exact False.elim ((reached.run visits).unbroken wf before sources ended)

omit [SemilatticeSup L]

private theorem flow_of_visit {v : Visit ν φ} (moved : s.step a o = .moved after)
    (made : after.history = v :: s.history) : after.flows.get? v.node = some ⟨v.input, v.output⟩ := by
  obtain ⟨m, rest, kept, sources, -, -, -, rfl⟩ := step_moved moved
  obtain ⟨rfl, -⟩ := List.cons.inj made
  exact visit_get?_self ..

private theorem Reachable.unvisited (reached : Reachable a o s) (wf : o.WellFormed) (member : n ∈ o.nodes)
    (fresh : n ∉ s.visited) : s.flows.get? n = some (startFlow a o n) := by
  classical
  induction reached using Reachable.visits with
  | initial => rw [initial_get? wf, if_pos member]
  | visit before popped found sent ih =>
    rw [mem_visited_visit, not_or] at fresh
    rw [visit_get?_other _ fresh.1]
    exact ih fresh.2

private theorem Reachable.passes_on (reached : Reachable a o s) {T : L → L}
    (transfer : ∀ input output, view (a.transfer n input output).value = T (view input)) (visited : n ∈ s.visited)
    (found : s.flows.get? n = some flow) : view flow.outgoing = T (view flow.incoming) := by
  induction reached using Reachable.visits with
  | initial => exact False.elim (List.not_mem_nil visited)
  | visit before popped known sent ih =>
    rcases visit_flow found with ⟨rfl, rfl⟩ | ⟨same, held⟩
    · exact transfer _ _
    · exact ih ((mem_visited_visit.mp visited).resolve_left same) held

end Growth

end State

/-- What flows into a node at every moment of a run: after some visits, and some joins of the one
that comes next. -/
def Analysis.Receives (a : Analysis ν φ) (g : Graph ν) (n : ν) (facts : Nat → Nat → φ) : Prop :=
  ∀ visits joins, (Run.within a g visits).last.incoming? a (g.orient a.direction) n joins = some (facts visits joins)

/-- What flows out of a node after some visits of a run. -/
def Analysis.Sends (a : Analysis ν φ) (g : Graph ν) (n : ν) (facts : Nat → φ) : Prop :=
  ∀ visits, (Run.within a g visits).last.outgoing? n = some (facts visits)

section Moments

variable [Std.TransOrd ν] [Std.LawfulEqOrd ν] {a : Analysis ν φ} {g : Graph ν} {n : ν} {facts : Nat → Nat → φ}
  {sent : Nat → φ}

private theorem Graph.WellFormed.flow_within (wf : g.WellFormed) (a : Analysis ν φ) (member : n ∈ g.nodes)
    (visits : Nat) : ∃ flow, (Run.within a g visits).last.flows.get? n = some flow := by
  rw [← g.nodes_orient a.direction] at member
  exact ((State.Reachable.initial.run visits).orderly (wf.orient a.direction)).known n |>.mpr member

theorem Graph.WellFormed.exists_receives (wf : g.WellFormed) (a : Analysis ν φ) (member : n ∈ g.nodes) :
    ∃ facts, a.Receives g n facts := by
  choose flow found using wf.flow_within a member
  exact ⟨_, fun visits joins => State.incoming?_of_flow (found visits) joins⟩

theorem Graph.WellFormed.exists_sends (wf : g.WellFormed) (a : Analysis ν φ) (member : n ∈ g.nodes) :
    ∃ sent, a.Sends g n sent := by
  choose flow found using wf.flow_within a member
  exact ⟨fun visits => (flow visits).outgoing, fun visits => by rw [State.outgoing?, found, Option.map_some]⟩

namespace Analysis

omit [Std.TransOrd ν] [Std.LawfulEqOrd ν] in
private theorem Receives.kept (receives : a.Receives g n facts) {visits : Nat} {flow : Flow φ}
    (found : (Run.within a g visits).last.flows.get? n = some flow) : facts visits 0 = flow.incoming := by
  have first := receives visits 0
  rw [State.incoming?_of_flow found] at first
  exact (Option.some.inj first).symm

omit [Std.TransOrd ν] [Std.LawfulEqOrd ν] in
private theorem Sends.kept (sends : a.Sends g n sent) {visits : Nat} {flow : Flow φ}
    (found : (Run.within a g visits).last.flows.get? n = some flow) : sent visits = flow.outgoing := by
  have first := sends visits
  rw [State.outgoing?, found] at first
  exact (Option.some.inj first).symm

theorem Receives.input (receives : a.Receives g n facts) {limit : Option Nat} {run : Run ν φ}
    (solved : solve a g limit = some run) {i : Nat} {v : Visit ν φ} (made : run.visits[i]? = some v)
    (here : v.node = n) : facts (i + 1) 0 = v.input := by
  obtain ⟨visits, rfl, -⟩ := Run.eq_within solved
  have first : (State.initial a (g.orient a.direction)).history.length + i = i := Nat.zero_add i
  rw [Run.visits, ← first] at made
  obtain ⟨moved, visited⟩ := State.run_visit made
  have found := State.flow_of_visit moved visited
  rw [here] at found
  exact receives.kept found

variable [SemilatticeSup L] {view : φ → L}

theorem Receives.grows (receives : a.Receives g n facts) (wf : g.WellFormed)
    (join : ∀ source target, view (a.join source target) = view target ⊔ view source) {visits joins later more : Nat}
    (order : visits < later ∨ visits = later ∧ joins ≤ more) : view (facts visits joins) ≤ view (facts later more) := by
  have within (visits : Nat) {joins more : Nat} (le : joins ≤ more) :
      view (facts visits joins) ≤ view (facts visits more) :=
    State.incoming?_mono join le (receives visits joins) (receives visits more)
  have next (visits joins : Nat) : view (facts visits joins) ≤ view (facts (visits + 1) 0) :=
    State.Reachable.initial.incoming?_next (wf.orient a.direction) join visits (receives visits joins)
      (receives (visits + 1) 0)
  have kept : Monotone fun visits => view (facts visits 0) := monotone_nat_of_le_succ fun visits => next visits 0
  rcases order with before | ⟨rfl, le⟩
  · calc view (facts visits joins)
      _ ≤ view (facts (visits + 1) 0) := next visits joins
      _ ≤ view (facts later 0) := kept before
      _ ≤ view (facts later more) := within later (Nat.zero_le more)
  · exact within visits le

theorem Sends.grows (sends : a.Sends g n sent) (wf : g.WellFormed) (member : n ∈ g.nodes)
    (join : ∀ source target, view (a.join source target) = view target ⊔ view source) {T : L → L} (mono : Monotone T)
    (transfer : ∀ input output, view (a.transfer n input output).value = T (view input)) {visits later : Nat}
    (le : visits ≤ later) (visited : n ∈ (Run.within a g visits).last.visited) :
    n ∈ (Run.within a g later).last.visited ∧ view (sent visits) ≤ view (sent later) := by
  obtain ⟨facts, receives⟩ := wf.exists_receives a member
  have passed {visits : Nat} (visited : n ∈ (Run.within a g visits).last.visited) :
      view (sent visits) = T (view (facts visits 0)) := by
    obtain ⟨flow, found⟩ := wf.flow_within a member visits
    rw [sends.kept found, receives.kept found]
    exact (State.Reachable.initial.run visits).passes_on transfer visited found
  have still : n ∈ (Run.within a g later).last.visited :=
    ((State.history_run_of_le le).map Visit.node).subset visited
  refine ⟨still, ?_⟩
  rw [passed visited, passed still]
  apply mono
  apply receives.grows wf join
  exact (Nat.lt_or_eq_of_le le).imp_right fun same => ⟨same, le_rfl⟩

end Analysis

end Moments

/-- In the course of a run, however long, what flows into a node never moves back if joins are least
upper bounds: a visit takes in something above all that flowed in at earlier moments, from the
boundary or the bottom on, whatever nodes make of their facts. If the node passes on a monotone
function of what flows in, then neither does what flows out of it, once its first visit has replaced
what was assumed. In constant propagation, a variable that is no constant before a point stays so,
and one that is a constant stays that constant until it is none. -/
theorem facts_never_move_back :
    (∀ {ν φ L : Type} [Ord ν] [Std.TransOrd ν] [Std.LawfulEqOrd ν] [SemilatticeSup L] (a : Analysis ν φ) (g : Graph ν)
      (view : φ → L), g.WellFormed → (∀ source target, view (a.join source target) = view target ⊔ view source) →
      ∀ n ∈ g.nodes, ∃ facts, a.Receives g n facts ∧
        ((n ∈ (g.orient a.direction).starts → facts 0 0 = a.boundary) ∧
          (n ∉ (g.orient a.direction).starts → facts 0 0 = a.bottom)) ∧
        (∀ visits joins later more, visits < later ∨ visits = later ∧ joins ≤ more →
          view (facts visits joins) ≤ view (facts later more)) ∧
        (∀ limit run, solve a g limit = some run → ∀ (i : Nat) v, run.visits[i]? = some v → v.node = n →
          facts (i + 1) 0 = v.input ∧ ∀ visits joins, visits ≤ i → view (facts visits joins) ≤ view v.input) ∧
        ∀ T : L → L, Monotone T → (∀ input output, view (a.transfer n input output).value = T (view input)) →
          ∃ sent, a.Sends g n sent ∧
            (∀ visits, n ∉ (Run.within a g visits).last.visited → sent visits = a.start n) ∧
            ∀ visits later, visits ≤ later → n ∈ (Run.within a g visits).last.visited →
              n ∈ (Run.within a g later).last.visited ∧ view (sent visits) ≤ view (sent later)) ∧
    ∀ m g, FlowGraph.ofMethod? m = .ok g → ∀ p ∈ g.graph.nodes,
      ∃ facts, (Constants.analysis g).Receives g.graph p facts ∧
        ∀ visits joins later more, visits < later ∨ visits = later ∧ joins ≤ more → ∀ x,
          ((facts visits joins).get x = .notConstant → (facts later more).get x = .notConstant) ∧
          ∀ c, (facts visits joins).get x = .constant c →
            (facts later more).get x = .notConstant ∨ (facts later more).get x = .constant c := by
  constructor
  · intro ν φ L _ _ _ _ a g view wf join n member
    obtain ⟨facts, receives⟩ := wf.exists_receives a member
    have oriented := wf.orient a.direction
    have inside : n ∈ (g.orient a.direction).nodes := by rwa [g.nodes_orient]
    have begun : facts 0 0 = (State.startFlow a (g.orient a.direction) n).incoming :=
      receives.kept (State.Reachable.initial.unvisited oriented inside List.not_mem_nil)
    refine ⟨facts, receives, ?_, ?_, ?_, ?_⟩
    · rw [begun]
      rcases State.startFlow_cases (a := a) (o := g.orient a.direction) (n := n) with ⟨start, same⟩ | ⟨other, same⟩
      · exact ⟨fun _ => same, fun none => absurd start none⟩
      · exact ⟨fun start => absurd start other, fun _ => same⟩
    · intro visits joins later more order
      exact receives.grows wf join order
    · intro limit run solved i v made here
      have input := receives.input solved made here
      refine ⟨input, ?_⟩
      intro visits joins before
      rw [← input]
      exact receives.grows wf join (Or.inl (Nat.lt_succ_of_le before))
    · intro T mono transfer
      obtain ⟨sent, sends⟩ := wf.exists_sends a member
      refine ⟨sent, sends, ?_, fun visits later => sends.grows wf member join mono transfer⟩
      intro visits fresh
      exact sends.kept ((State.Reachable.initial.run visits).unvisited oriented inside fresh)
  · intro m g built p member
    have wf := FlowGraph.wellFormed built
    obtain ⟨facts, receives⟩ := wf.exists_receives (Constants.analysis g) member
    refine ⟨facts, receives, ?_⟩
    intro visits joins later more order x
    have le : (facts visits joins).get x ≤ (facts later more).get x :=
      receives.grows wf (Constants.lawful built).join order x
    constructor
    · intro unknown
      rw [unknown] at le
      exact (Value.le_notConstant _).antisymm le
    · intro c known
      rw [known] at le
      exact Value.constant_le_iff.mp le

/-- Negation is not monotone, but what flows into the nodes of the knot grows. The assignment before
the loop is assumed to yield any integer, and yields zero from its first visit on; zero is what
flows into the loop until its end sends something else. -/
theorem countUp_facts_grow : (∃ facts, Tabular.negation.Receives Tabular.knot 1 facts ∧ facts 0 0 = false ∧
      ∀ visits joins later more, visits < later ∨ visits = later ∧ joins ≤ more →
        facts visits joins ≤ facts later more) ∧
    (∃ sent, (Constants.analysis (.ofBody countUp)).Sends (FlowGraph.ofBody countUp).graph .entry sent ∧
      [(sent 0).get (.int "i"), (sent 1).get (.int "i")] = [.notConstant, .constant 0] ∧
      ∀ later, 1 ≤ later → (sent 1).get (.int "i") ≤ (sent later).get (.int "i")) ∧
    ∃ facts, (Constants.analysis (.ofBody countUp)).Receives (FlowGraph.ofBody countUp).graph ⟨1, by decide⟩ facts ∧
      [(facts 2 0).get (.int "i"), (facts 6 0).get (.int "i")] = [.constant 0, .notConstant] ∧
      ∀ later, 6 ≤ later → (facts later 0).get (.int "i") = .notConstant := by
  have built := countUp_graph
  have wf := FlowGraph.wellFormed built
  obtain ⟨general, special⟩ := facts_never_move_back
  refine ⟨?_, ?_, ?_⟩
  · obtain ⟨facts, receives, start, grows, -⟩ := general Tabular.negation Tabular.knot id Tabular.knot_wellFormed
      (Tabular.negation_lawful []).join 1 (by decide)
    exact ⟨facts, receives, start.2 (by decide), grows⟩
  · have law := Constants.lawful built
    obtain ⟨-, -, -, -, -, outgoing⟩ :=
      general (Constants.analysis (.ofBody countUp)) _ Env.get wf law.join .entry wf.entry
    obtain ⟨sent, sends, -, grows⟩ := outgoing _ (Constants.passed_mono _ _) (law.transfer .entry wf.entry)
    obtain ⟨first, second, assumed, passed, values⟩ : ∃ first second,
        (Run.within (Constants.analysis (.ofBody countUp)) (FlowGraph.ofBody countUp).graph 0).last.outgoing? .entry =
          some first ∧
        (Run.within (Constants.analysis (.ofBody countUp)) (FlowGraph.ofBody countUp).graph 1).last.outgoing? .entry =
          some second ∧
        [first.get (.int "i"), second.get (.int "i")] = [.notConstant, .constant 0] := ⟨_, _, rfl, rfl, rfl⟩
    obtain rfl := Option.some.inj ((sends 0).symm.trans assumed)
    obtain rfl := Option.some.inj ((sends 1).symm.trans passed)
    exact ⟨sent, sends, values, fun later le => (grows 1 later le (by decide)).2 _⟩
  · obtain ⟨facts, receives, grows⟩ := special countUp (.ofBody countUp) built ⟨1, by decide⟩ (by decide)
    obtain ⟨first, second, before, after, values⟩ : ∃ first second,
        (Run.within (Constants.analysis (.ofBody countUp)) (FlowGraph.ofBody countUp).graph 2).last.incoming?
          (Constants.analysis (.ofBody countUp)) ((FlowGraph.ofBody countUp).graph.orient .forward) ⟨1, by decide⟩ 0 =
          some first ∧
        (Run.within (Constants.analysis (.ofBody countUp)) (FlowGraph.ofBody countUp).graph 6).last.incoming?
          (Constants.analysis (.ofBody countUp)) ((FlowGraph.ofBody countUp).graph.orient .forward) ⟨1, by decide⟩ 0 =
          some second ∧
        [first.get (.int "i"), second.get (.int "i")] = [.constant 0, .notConstant] := ⟨_, _, rfl, rfl, rfl⟩
    obtain rfl := Option.some.inj ((receives 2 0).symm.trans before)
    obtain rfl := Option.some.inj ((receives 6 0).symm.trans after)
    have unknown : (facts 6 0).get (.int "i") = .notConstant := (List.cons.inj (List.cons.inj values).2).1
    refine ⟨facts, receives, values, ?_⟩
    intro later le
    exact (grows 6 0 later 0 ((Nat.lt_or_eq_of_le le).imp_right fun same => ⟨same, le_rfl⟩) _).1 unknown

end Dataflow
