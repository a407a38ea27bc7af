import Mathlib.Logic.Relation
import Dataflow.Proofs.ConstantsLaws
import Dataflow.Proofs.LivenessPaths

/-! Where the values that constant propagation records come from. At no moment of a run is anything
recorded for a variable unless a parameter enters with it or some assignment to it lies behind, and
nothing is ever recorded for a variable that cannot hold an integer. -/

namespace Dataflow

/-- Control may pass from one point to another along edges, one at least. -/
def FlowGraph.Leads (g : FlowGraph) : Point → Point → Prop :=
  Relation.TransGen fun p q => q ∈ g.neighbours p .forward

/-- Control may get to a point from the entry, which it may be. -/
def FlowGraph.Reached (g : FlowGraph) : Point → Prop :=
  Relation.ReflTransGen (fun p q => q ∈ g.neighbours p .forward) g.graph.entry

/-- The facts of a node at some moment of a run: those kept for it or, during its visit, those
with some of what its neighbours send already joined. -/
inductive State.Moment {ν φ : Type} [Ord ν] (a : Analysis ν φ) (o : Oriented ν) (s : State ν φ) (n : ν) :
    Flow φ → Prop where
  | kept {flow : Flow φ} (found : s.flows.get? n = some flow) : Moment a o s n flow
  | joining {rest : Worklist ν} {flow : Flow φ} {sources : List φ} (popped : s.waiting.pop? = some (n, rest))
      (found : s.flows.get? n = some flow) (sent : (o.inflow.next n).map s.outgoing? = sources.map some)
      (joined : Nat) :
      Moment a o s n
        ⟨(sources.take joined).foldl (fun target source => a.join source target) flow.incoming, flow.outgoing⟩

namespace Constants

/-- What may bring a value of a variable to a point. -/
inductive Origin (g : FlowGraph) (x : Var) (p : Point) : Prop where
  | parameter (listed : x ∈ g.method.params) (reached : g.Reached p)
  | assignment {d : Point} (writes : g.Writes d x) (leads : g.Leads d p)

def Sourced (g : FlowGraph) (p : Point) (values : Var → Value) : Prop :=
  ∀ x, values x ≠ .undefined → x.holdsInt = true ∧ Origin g x p

/-- The facts of a point say nothing that has no origin: what is recorded before it has one, and
what is recorded after it was recorded before it or is assigned there. -/
structure Explained (g : FlowGraph) (p : Point) (flow : Flow (Env Var Value)) : Prop where
  incoming : Sourced g p flow.incoming.get
  outgoing : ∀ x, flow.outgoing.get x ≠ .undefined →
    x.holdsInt = true ∧ (flow.incoming.get x ≠ .undefined ∨ g.Writes p x)

variable {g : FlowGraph} {p q : Point} {x : Var} {m : Method}

private theorem Origin.onward (origin : Origin g x p) (step : q ∈ g.neighbours p .forward) : Origin g x q := by
  cases origin with
  | parameter listed reached => exact .parameter listed (reached.tail step)
  | assignment writes leads => exact .assignment writes (leads.tail step)

private theorem Sourced.sup {left right : Var → Value} (first : Sourced g p left) (second : Sourced g p right) :
    Sourced g p (left ⊔ right) :=
  recorded_sup first second

private theorem sourced_unknown : Sourced g p (∅ : Env Var Value).get := fun _ above => False.elim (above rfl)

private theorem sourced_boundary : Sourced g g.graph.entry (boundary g.method).get := by
  intro x above
  obtain ⟨listed, holds⟩ := parameter_of_boundary above
  exact ⟨holds, .parameter listed .refl⟩

theorem Explained.sent {flow : Flow (Env Var Value)} (explained : Explained g p flow)
    (step : q ∈ g.neighbours p .forward) : Sourced g q flow.outgoing.get := by
  intro x above
  obtain ⟨holds, before | writes⟩ := explained.outgoing x above
  · exact ⟨holds, (explained.incoming x before).2.onward step⟩
  · exact ⟨holds, .assignment writes (.single step)⟩

private theorem writes_of_assignment? {value : Expr} (assigns : assignment? g p = some (x, value)) :
    x.holdsInt = true ∧ g.Writes p x := by
  obtain ⟨found, holds⟩ := assignment?_eq_some assigns
  exact ⟨holds, _, found, rfl⟩

private theorem recorded_after {values : Var → Value} (sourced : Sourced g p values)
    (above : passed g p values x ≠ .undefined) : x.holdsInt = true ∧ (values x ≠ .undefined ∨ g.Writes p x) := by
  rcases passed_above above with before | ⟨value, assigns⟩
  · exact ⟨(sourced x before).1, Or.inl before⟩
  · obtain ⟨holds, writes⟩ := writes_of_assignment? assigns
    exact ⟨holds, Or.inr writes⟩

private theorem recorded_at_start (above : ((analysis g).start p).get x ≠ .undefined) :
    x.holdsInt = true ∧ g.Writes p x := by
  obtain ⟨value, assigns⟩ := start_above above
  exact writes_of_assignment? assigns

def AllExplained (g : FlowGraph) (s : State Point (Env Var Value)) : Prop :=
  ∀ p flow, s.flows.get? p = some flow → Explained g p flow

private theorem allExplained_initial (wf : g.graph.WellFormed) :
    AllExplained g (State.initial (analysis g) (g.graph.orient .forward)) := by
  intro p flow found
  obtain ⟨-, rfl⟩ := State.initial_flow (wf.orient .forward) found
  constructor
  · rcases State.startFlow_cases (a := analysis g) (o := g.graph.orient .forward) (n := p) with ⟨start, same⟩ | ⟨-, same⟩
    · obtain rfl := List.mem_singleton.mp start
      rw [same]
      exact sourced_boundary
    · rw [same]
      exact sourced_unknown
  · intro x above
    obtain ⟨holds, writes⟩ := recorded_at_start above
    exact ⟨holds, Or.inr writes⟩

variable {s : State Point (Env Var Value)} {flow : Flow (Env Var Value)} {sources : List (Env Var Value)}

/-- Whatever part of what a visit takes in has an origin. -/
theorem AllExplained.input (explained : AllExplained g s) (built : FlowGraph.ofMethod? m = .ok g)
    (found : s.flows.get? p = some flow)
    (sent : ∀ source ∈ sources, ∃ q ∈ g.graph.predecessors.next p, ∃ other, s.flows.get? q = some other ∧
      other.outgoing = source) (rest : Worklist Point) :
    Sourced g p (Visit.ofSources (analysis g) (g.graph.orient .forward) rest p flow sources).input.get := by
  have wf := FlowGraph.wellFormed built
  refine (lawful built).input_inside rest p (fun _ _ => Sourced.sup) (explained p flow found).incoming ?_
  intro source member
  obtain ⟨q, edge, other, held, rfl⟩ := sent source member
  exact (explained q other held).sent ((wf.transposed q p).mpr edge)

theorem AllExplained.visit (explained : AllExplained g s) (built : FlowGraph.ofMethod? m = .ok g)
    {rest : Worklist Point} (member : p ∈ (g.graph.orient .forward).nodes) (found : s.flows.get? p = some flow)
    (sent : (g.graph.predecessors.next p).map s.outgoing? = sources.map some) :
    AllExplained g (s.visit (analysis g) (g.graph.orient .forward) p rest flow sources) := by
  intro q after held
  rcases State.visit_flow held with ⟨rfl, rfl⟩ | ⟨-, held⟩
  · have sourced := explained.input built found (fun source listed => State.sender_of_mem sent listed) rest
    refine ⟨sourced, ?_⟩
    intro x above
    have law : (analysis g).Lawful (g.graph.orient .forward).nodes Env.get (passed g) := lawful built
    rw [law.output_eq rest member flow sources] at above
    exact recorded_after sourced above
  · exact explained q after held

theorem allExplained (built : FlowGraph.ofMethod? m = .ok g)
    (reached : State.Reachable (analysis g) (g.graph.orient .forward) s) : AllExplained g s := by
  have wf := FlowGraph.wellFormed built
  induction reached using State.Reachable.visits with
  | initial => exact allExplained_initial wf
  | visit before popped found sent ih =>
    have orderly := before.orderly (wf.orient .forward)
    exact ih.visit built ((orderly.known _).mp ⟨_, found⟩) found sent

private theorem AllExplained.moment (explained : AllExplained g s) (built : FlowGraph.ofMethod? m = .ok g)
    (moment : s.Moment (analysis g) (g.graph.orient .forward) p flow) : Explained g p flow := by
  cases moment with
  | kept found => exact explained p flow found
  | @joining rest kept sources popped found sent joined =>
    have law := lawful built
    have some_sent : ∀ source ∈ sources.take joined, ∃ q ∈ g.graph.predecessors.next p, ∃ other,
        s.flows.get? q = some other ∧ other.outgoing = source :=
      fun source listed => State.sender_of_mem sent (List.mem_of_mem_take listed)
    refine ⟨explained.input built found some_sent rest, ?_⟩
    intro x above
    obtain ⟨holds, before | writes⟩ := (explained p kept found).outgoing x above
    · have le := law.incoming_le_input (o := g.graph.orient .forward) rest p kept (sources.take joined) x
      exact ⟨holds, Or.inl (ne_bot_of_le_ne_bot before le)⟩
    · exact ⟨holds, Or.inr writes⟩

def Bindable (g : FlowGraph) (x : Var) : Prop := x.holdsInt = true ∧ (x ∈ g.method.params ∨ ∃ d, g.Writes d x)

private theorem Sourced.bindable {values : Var → Value} (sourced : Sourced g p values) (above : values x ≠ .undefined) :
    Bindable g x := by
  obtain ⟨holds, ⟨listed, -⟩ | ⟨writes, -⟩⟩ := sourced x above
  · exact ⟨holds, Or.inl listed⟩
  · exact ⟨holds, Or.inr ⟨_, writes⟩⟩

private theorem Explained.bindable (explained : Explained g p flow) (above : flow.outgoing.get x ≠ .undefined) :
    Bindable g x := by
  obtain ⟨holds, before | writes⟩ := explained.outgoing x above
  · exact explained.incoming.bindable before
  · exact ⟨holds, Or.inr ⟨p, writes⟩⟩

private theorem Explained.unknown (explained : Explained g p flow) (unbindable : ¬Bindable g x) :
    flow.incoming.get x = .undefined ∧ flow.outgoing.get x = .undefined := by
  constructor
  · by_contra above
    exact unbindable (explained.incoming.bindable above)
  · by_contra above
    exact unbindable (explained.bindable above)

/-- At every moment of a run, and in every solution, what is recorded for a variable at a node has
an origin: the variable can hold an integer, and it is a parameter and control may get to the node,
or it is assigned where control may lead on to the node; what is recorded after the node was recorded
before it or is assigned there. Of other variables nothing is ever recorded. -/
theorem values_have_origins (built : FlowGraph.ofMethod? m = .ok g) :
    (∀ s, State.Reachable (analysis g) (g.graph.orient .forward) s → ∀ p ∈ g.graph.nodes,
      (∃ flow, s.flows.get? p = some flow) ∧
      ∀ flow, s.Moment (analysis g) (g.graph.orient .forward) p flow → Explained g p flow ∧
        ∀ x, ¬Bindable g x → flow.incoming.get x = .undefined ∧ flow.outgoing.get x = .undefined) ∧
    ∀ limit solution, (analysis g).Settles g.graph limit solution → ∀ p ∈ g.graph.nodes,
      ∃ flow, solution.Holds .forward p flow ∧ Explained g p flow ∧
        ∀ x, ¬Bindable g x → flow.incoming.get x = .undefined ∧ flow.outgoing.get x = .undefined := by
  have wf := FlowGraph.wellFormed built
  have known {s : State Point (Env Var Value)} (reached : State.Reachable (analysis g) (g.graph.orient .forward) s)
      {p : Point} (member : p ∈ g.graph.nodes) : ∃ flow, s.flows.get? p = some flow :=
    ((reached.orderly (wf.orient .forward)).known p).mpr member
  constructor
  · intro s reached p member
    refine ⟨known reached member, ?_⟩
    intro flow moment
    have explained := (allExplained built reached).moment built moment
    exact ⟨explained, fun x unbindable => explained.unknown unbindable⟩
  · intro limit solution settles p member
    obtain ⟨last, reached, -, rfl⟩ := settles.reached
    obtain ⟨flow, found⟩ := known reached member
    have explained := allExplained built reached p flow found
    exact ⟨flow, settles.holds found, explained, fun x unbindable => explained.unknown unbindable⟩

def sideEntrance : Method where
  name := "sideEntrance"
  params := [.int "n"]
  body := #[.assign ⟨"it", .reference "Object"⟩ (.create "Object"), .ret none, .assign (.int "k") (.literal 7),
    .goto .entry]

/-- The run records values that come from the parameter and from the code that nothing leads to, and
none for the object. -/
theorem sideEntrance_has_origins : ∃ s flow,
    State.Reachable (analysis (.ofBody sideEntrance)) ((FlowGraph.ofBody sideEntrance).graph.orient .forward) s ∧
    s.flows.get? .entry = some flow ∧ Explained (.ofBody sideEntrance) .entry flow ∧
    [flow.incoming.get (.int "n"), flow.incoming.get (.int "k")] = [.notConstant, .constant 7] ∧
    flow.outgoing.get ⟨"it", .reference "Object"⟩ = .undefined := by
  have built : FlowGraph.ofMethod? sideEntrance = .ok (.ofBody sideEntrance) := rfl
  obtain ⟨s, reached, flow, found, known⟩ : ∃ s,
      State.Reachable (analysis (.ofBody sideEntrance)) ((FlowGraph.ofBody sideEntrance).graph.orient .forward) s ∧
      ∃ flow, s.flows.get? .entry = some flow ∧
        [flow.incoming.get (.int "n"), flow.incoming.get (.int "k")] = [.notConstant, .constant 7] :=
    ⟨_, State.Reachable.initial.run 5, _, rfl, rfl⟩
  obtain ⟨-, origins⟩ := (values_have_origins built).1 s reached .entry (by decide)
  obtain ⟨explained, unknown⟩ := origins flow (.kept found)
  have other : ¬Bindable (.ofBody sideEntrance) ⟨"it", .reference "Object"⟩ := fun bindable => nomatch bindable.1
  exact ⟨s, flow, reached, found, explained, known, (unknown _ other).2⟩

end Constants

end Dataflow
