import Dataflow.Proofs.SolverLeast
import Dataflow.Proofs.SolverTermination

/-! A solver that keeps nothing of what flowed into a node, and at every visit joins it anew
from what its neighbours send now. If transfer functions are monotone and nothing is assumed
to flow out of nodes before their first visit, what a node sends only grows, so whatever was
joined before is below what is joined anew, and both solvers make the same visits. -/

namespace Dataflow

variable {ν φ L : Type} [Ord ν]

namespace State

/-- Visits the next waiting node as if nothing had flowed into it before: the boundary at a
start and nothing elsewhere, joined with what the neighbours send. -/
def rebuild (a : Analysis ν φ) (o : Oriented ν) (s : State ν φ) : Progress ν φ :=
  match s.waiting.pop? with
  | none => .ended .settled
  | some (n, waiting) =>
    match s.flows.get? n with
    | none => .ended (.broken a.bottom [])
    | some flow =>
      let begun := (startFlow a o n).incoming
      let senders := o.inflow.next n
      match senders.mapM s.outgoing? with
      | none => .ended (.broken begun (s.outgoingUntil senders))
      | some sources => .moved (s.visit a o n waiting ⟨begun, flow.outgoing⟩ sources)

def rebuildRun (a : Analysis ν φ) (o : Oriented ν) : Nat → State ν φ → State ν φ × Ending φ
  | 0, s => (s, if s.waiting.isEmpty then .settled else .exhausted)
  | visits + 1, s =>
    match s.rebuild a o with
    | .ended ending => (s, ending)
    | .moved s => rebuildRun a o visits s

end State

/-- Two visits of one node with the same facts, the same word on a change, and the same nodes
put back in the queue. -/
structure Visit.Alike (view : φ → L) (v w : Visit ν φ) : Prop where
  node : w.node = v.node
  input : view w.input = view v.input
  output : view w.output = view v.output
  changed : w.changed = v.changed
  requeued : w.requeued = v.requeued

/-- Two states with the same queue and the same facts, after visits that were alike. -/
structure State.Alike (view : φ → L) (s t : State ν φ) : Prop where
  waiting : t.waiting = s.waiting
  flows : ∀ n, (t.flows.get? n).map (Flow.map view) = (s.flows.get? n).map (Flow.map view)
  history : List.Forall₂ (Visit.Alike view) s.history t.history

namespace State

variable {a : Analysis ν φ} {o : Oriented ν} {s t : State ν φ} {n : ν} {rest : Worklist ν} {flow : Flow φ}
  {sources : List φ} {view : φ → L} {T : ν → L → L}

private theorem rebuild_of_visit (popped : s.waiting.pop? = some (n, rest)) (found : s.flows.get? n = some flow)
    (sent : (o.inflow.next n).map s.outgoing? = sources.map some) :
    s.rebuild a o = .moved (s.visit a o n rest ⟨(startFlow a o n).incoming, flow.outgoing⟩ sources) := by
  simp only [rebuild, popped, found, mapM_eq_some_iff.mpr sent]

theorem rebuild_moved {after : State ν φ} (moved : s.rebuild a o = .moved after) :
    ∃ n rest flow sources, s.waiting.pop? = some (n, rest) ∧ s.flows.get? n = some flow ∧
      (o.inflow.next n).map s.outgoing? = sources.map some ∧
      after = s.visit a o n rest ⟨(startFlow a o n).incoming, flow.outgoing⟩ sources := by
  unfold rebuild at moved
  split at moved
  next => cases moved
  next n rest popped =>
    split at moved
    next => cases moved
    next flow found =>
      simp only at moved
      split at moved
      next => cases moved
      next sources sent =>
        obtain rfl := Progress.moved.inj moved
        exact ⟨n, rest, flow, sources, popped, found, mapM_eq_some_iff.mp sent, rfl⟩

/-- What flows into a node is joined from what it began with and the facts that leave all its
inflow neighbours now, one after the other. What flowed in before has no part in it. -/
theorem rebuild_incoming [Std.TransOrd ν] [Std.LawfulEqOrd ν] {after : State ν φ}
    (moved : s.rebuild a o = .moved after) :
    ∃ n rest, ∃ (sources : List φ) (outgoing : φ), s.waiting.pop? = some (n, rest) ∧
      (o.inflow.next n).map s.outgoing? = sources.map some ∧
      after.flows.get? n =
        some ⟨sources.foldl (fun target source => a.join source target) (startFlow a o n).incoming, outgoing⟩ := by
  obtain ⟨n, rest, flow, sources, popped, -, sent, rfl⟩ := rebuild_moved moved
  exact ⟨n, rest, sources, _, popped, sent, visit_get?_self s n rest _ sources⟩

theorem Alike.refl (view : φ → L) (s : State ν φ) : Alike view s s := by
  refine ⟨rfl, fun _ => rfl, ?_⟩
  rw [List.forall₂_same]
  intro v _
  exact ⟨rfl, rfl, rfl, rfl, rfl⟩

private theorem Alike.holds (alike : Alike view s t) (found : s.flows.get? n = some flow) :
    ∃ other, t.flows.get? n = some other ∧ other.map view = flow.map view := by
  have same := alike.flows n
  rw [found] at same
  exact Option.map_eq_some_iff.mp same

private theorem Alike.sent (alike : Alike view s t) {senders : List ν}
    (sent : senders.map s.outgoing? = sources.map some) :
    ∃ others : List φ, senders.map t.outgoing? = others.map some ∧ others.map view = sources.map view := by
  induction senders generalizing sources with
  | nil =>
    obtain rfl := List.map_eq_nil_iff.mp sent.symm
    exact ⟨[], rfl, rfl⟩
  | cons m senders ih =>
    cases sources with
    | nil => cases sent
    | cons source sources =>
      rw [List.map_cons, List.map_cons, List.cons.injEq] at sent
      obtain ⟨flow, found, sends⟩ := Option.map_eq_some_iff.mp sent.1
      obtain ⟨other, held, same⟩ := alike.holds found
      obtain ⟨others, rest, equal⟩ := ih sent.2
      refine ⟨other.outgoing :: others, ?_, ?_⟩
      · rw [List.map_cons, List.map_cons, rest, outgoing?, held]
        rfl
      · have outgoing : view other.outgoing = view flow.outgoing := congrArg Flow.outgoing same
        rw [List.map_cons, List.map_cons, equal, outgoing, sends]

variable [SemilatticeSup L]

private theorem view_input (law : a.Lawful o.nodes view T) (rest : Worklist ν) :
    view (Visit.ofSources a o rest n flow sources).input = (sources.map view).foldl (· ⊔ ·) (view flow.incoming) := by
  simp only [Visit.ofSources]
  generalize flow.incoming = target
  induction sources generalizing target with
  | nil => rfl
  | cons source sources ih =>
    rw [List.foldl_cons, ih, law.join]
    rfl

/-- Among lawful facts, what is joined anew is the least upper bound of what the node began with
and what its neighbours send now. -/
theorem rebuild_isLUB [Std.TransOrd ν] [Std.LawfulEqOrd ν] (law : a.Lawful o.nodes view T) {after : State ν φ}
    (moved : s.rebuild a o = .moved after) :
    ∃ n rest flow, s.waiting.pop? = some (n, rest) ∧ after.flows.get? n = some flow ∧
      IsLUB {x | x = view (startFlow a o n).incoming ∨ ∃ m ∈ o.inflow.next n, ∃ other, s.flows.get? m = some other ∧
        x = view other.outgoing} (view flow.incoming) := by
  obtain ⟨n, rest, flow, sources, popped, -, sent, rfl⟩ := rebuild_moved moved
  refine ⟨n, rest, _, popped, visit_get?_self s n rest _ sources, ?_, ?_⟩
  · rintro x (rfl | ⟨m, edge, other, found, rfl⟩)
    · exact law.incoming_le_input rest n _ sources
    · exact law.source_le_input rest n _ (outgoing_mem sent edge found)
  · intro bound above
    rw [law.input_le_iff]
    refine ⟨above (Or.inl rfl), ?_⟩
    intro source member
    obtain ⟨m, edge, other, found, rfl⟩ := sender_of_mem sent member
    exact above (Or.inr ⟨m, edge, other, found, rfl⟩)

variable [Std.TransOrd ν] [Std.LawfulEqOrd ν]

/-- What a node sends only grows: on its first visit from nothing, and after that because
what flows in grows. -/
theorem Reachable.outgoing_le_output (reached : Reachable a o s) (wf : o.WellFormed) (law : a.Lawful o.nodes view T)
    (monotone : ∀ n ∈ o.nodes, Monotone (T n)) (unseeded : ∀ n ∈ o.nodes, IsBot (view (a.start n)))
    (found : s.flows.get? n = some flow) (rest : Worklist ν) (sources : List φ) :
    view flow.outgoing ≤ view (Visit.ofSources a o rest n flow sources).output := by
  have member : n ∈ o.nodes := ((reached.orderly wf).known n).mp ⟨flow, found⟩
  by_cases visited : n ∈ s.visited
  · rw [(reached.paced wf law).passed n visited flow found, law.output_eq rest member]
    exact monotone n member (law.incoming_le_input rest n flow sources)
  · have seeding : Seeding a o view s := reached.seeding wf law
    rw [seeding.unvisited n member visited flow found]
    exact unseeded n member _

/-- What is kept as flowing into a node lies between what it began with and that joined with
what its neighbours send now. -/
structure Spanned (a : Analysis ν φ) (o : Oriented ν) (view : φ → L) (s : State ν φ) : Prop where
  above : ∀ n flow, s.flows.get? n = some flow → view (startFlow a o n).incoming ≤ view flow.incoming
  within : ∀ n flow, s.flows.get? n = some flow → ∀ bound, view (startFlow a o n).incoming ≤ bound →
    (∀ m ∈ o.inflow.next n, ∀ other, s.flows.get? m = some other → view other.outgoing ≤ bound) →
    view flow.incoming ≤ bound

theorem Spanned.initial (wf : o.WellFormed) : Spanned a o view (State.initial a o) := by
  constructor
  · intro n flow found
    obtain ⟨-, rfl⟩ := initial_flow wf found
    exact le_rfl
  · intro n flow found bound begun _
    obtain ⟨-, rfl⟩ := initial_flow wf found
    exact begun

theorem Spanned.visit (spanned : Spanned a o view s) (law : a.Lawful o.nodes view T)
    (grows : view flow.outgoing ≤ view (Visit.ofSources a o rest n flow sources).output)
    (found : s.flows.get? n = some flow) (sent : (o.inflow.next n).map s.outgoing? = sources.map some) :
    Spanned a o view (s.visit a o n rest flow sources) := by
  -- A bound on what is sent after the visit bounds what was sent before it.
  have earlier {m : ν} {other : Flow φ} {bound : L} (held : s.flows.get? m = some other)
      (later : ∀ after, (s.visit a o n rest flow sources).flows.get? m = some after → view after.outgoing ≤ bound) :
      view other.outgoing ≤ bound := by
    by_cases same : m = n
    · subst same
      obtain rfl := Option.some.inj (found.symm.trans held)
      exact grows.trans (later _ (visit_get?_self s m rest flow sources))
    · exact later other ((visit_get?_other s same rest flow sources).trans held)
  constructor
  · intro m after held
    rcases visit_flow held with ⟨rfl, rfl⟩ | ⟨-, held⟩
    · exact (spanned.above m flow found).trans (law.incoming_le_input rest m flow sources)
    · exact spanned.above m after held
  · intro m after held bound begun sends
    have before {flow : Flow φ} (held : s.flows.get? m = some flow) : view flow.incoming ≤ bound := by
      apply spanned.within m flow held bound begun
      intro sender edge other at'
      exact earlier at' (sends sender edge)
    rcases visit_flow held with ⟨rfl, rfl⟩ | ⟨-, held⟩
    · rw [law.input_le_iff]
      refine ⟨before found, ?_⟩
      intro source member
      obtain ⟨sender, edge, other, at', rfl⟩ := sender_of_mem sent member
      exact earlier at' (sends sender edge)
    · exact before held

theorem Reachable.spanned (reached : Reachable a o s) (wf : o.WellFormed) (law : a.Lawful o.nodes view T)
    (monotone : ∀ n ∈ o.nodes, Monotone (T n)) (unseeded : ∀ n ∈ o.nodes, IsBot (view (a.start n))) :
    Spanned a o view s := by
  induction reached using Reachable.visits with
  | initial => exact .initial wf
  | visit before popped found sent ih =>
    exact ih.visit law (before.outgoing_le_output wf law monotone unseeded found _ _) found sent

omit [Std.TransOrd ν] [Std.LawfulEqOrd ν] in
/-- Joining anew what is sent now gives what joining it into what is kept gives. -/
theorem Spanned.input_eq (spanned : Spanned a o view s) (law : a.Lawful o.nodes view T) (rest : Worklist ν)
    (found : s.flows.get? n = some flow) (sent : (o.inflow.next n).map s.outgoing? = sources.map some)
    (outgoing : φ) : view (Visit.ofSources a o rest n ⟨(startFlow a o n).incoming, outgoing⟩ sources).input =
      view (Visit.ofSources a o rest n flow sources).input := by
  apply le_antisymm
  · rw [law.input_le_iff]
    refine ⟨(spanned.above n flow found).trans (law.incoming_le_input rest n flow sources), ?_⟩
    intro source member
    exact law.source_le_input rest n flow member
  · rw [law.input_le_iff]
    constructor
    · apply spanned.within n flow found
      · exact law.incoming_le_input rest n ⟨(startFlow a o n).incoming, outgoing⟩ sources
      · intro m edge other held
        exact law.source_le_input rest n _ (outgoing_mem sent edge held)
    · intro source member
      exact law.source_le_input rest n _ member

omit [SemilatticeSup L] [Std.TransOrd ν] [Std.LawfulEqOrd ν] in
private theorem requeued_congr {other : Flow φ} {others : List φ}
    (same : (Visit.ofSources a o rest n other others).changed = (Visit.ofSources a o rest n flow sources).changed) :
    (Visit.ofSources a o rest n other others).requeued = (Visit.ofSources a o rest n flow sources).requeued := by
  simp only [Visit.ofSources] at same ⊢
  rw [same]

/-- The visits that the two solvers make from states that are alike are alike, and so are the
states they leave. -/
theorem Alike.visit (alike : Alike view s t) (spanned : Spanned a o view s) (law : a.Lawful o.nodes view T)
    (member : n ∈ o.nodes) (popped : s.waiting.pop? = some (n, rest)) (found : s.flows.get? n = some flow)
    (sent : (o.inflow.next n).map s.outgoing? = sources.map some) :
    ∃ after, t.rebuild a o = .moved after ∧ Alike view (s.visit a o n rest flow sources) after := by
  obtain ⟨other, held, same⟩ := alike.holds found
  obtain ⟨others, resent, equal⟩ := alike.sent sent
  have next : t.waiting.pop? = some (n, rest) := by rw [alike.waiting, popped]
  let begun : Flow φ := ⟨(startFlow a o n).incoming, other.outgoing⟩
  have input : view (Visit.ofSources a o rest n begun others).input =
      view (Visit.ofSources a o rest n flow sources).input := by
    rw [view_input law, equal, ← view_input law rest]
    exact spanned.input_eq law rest found sent other.outgoing
  have output : view (Visit.ofSources a o rest n begun others).output =
      view (Visit.ofSources a o rest n flow sources).output := by
    rw [law.output_eq rest member, law.output_eq rest member, input]
  have changed : (Visit.ofSources a o rest n begun others).changed =
      (Visit.ofSources a o rest n flow sources).changed := by
    have outgoing : view other.outgoing = view flow.outgoing := congrArg Flow.outgoing same
    have first : (Visit.ofSources a o rest n flow sources).changed = true ↔
        view (Visit.ofSources a o rest n flow sources).output ≠ view flow.outgoing := law.changed n member _ _
    have second : (Visit.ofSources a o rest n begun others).changed = true ↔
        view (Visit.ofSources a o rest n begun others).output ≠ view other.outgoing := law.changed n member _ _
    rw [Bool.eq_iff_iff, first, second, output, outgoing]
  have requeued := requeued_congr changed
  refine ⟨_, rebuild_of_visit next held resent, ?_, ?_, ?_⟩
  · exact congrArg rest.append requeued
  · intro m
    by_cases here : m = n
    · subst here
      rw [visit_get?_self, visit_get?_self]
      exact congrArg some (congrArg₂ Flow.mk input output)
    · rw [visit_get?_other t here, visit_get?_other s here]
      exact alike.flows m
  · exact .cons ⟨rfl, input, output, changed, requeued⟩ alike.history

theorem Reachable.run_alike (reached : Reachable a o s) (wf : o.WellFormed) (law : a.Lawful o.nodes view T)
    (monotone : ∀ n ∈ o.nodes, Monotone (T n)) (unseeded : ∀ n ∈ o.nodes, IsBot (view (a.start n)))
    (alike : Alike view s t) (visits : Nat) :
    Alike view (s.run a o visits).1 (t.rebuildRun a o visits).1 ∧
      (t.rebuildRun a o visits).2 = (s.run a o visits).2 := by
  induction visits generalizing s t with
  | zero => exact ⟨alike, by rw [State.run, rebuildRun, alike.waiting]⟩
  | succ visits ih =>
    rw [State.run, rebuildRun]
    have orderly := reached.orderly wf
    by_cases waits : s.waiting.toList = []
    · have empty := (Worklist.pop?_eq_none_iff _).mpr waits
      have ended : s.step a o = .ended .settled := by rw [State.step, empty]
      have stopped : t.rebuild a o = .ended .settled := by rw [State.rebuild, alike.waiting, empty]
      rw [ended, stopped]
      exact ⟨alike, rfl⟩
    · obtain ⟨after, moved⟩ := orderly.moves wf waits
      obtain ⟨n, rest, flow, sources, popped, found, sent, rfl⟩ := step_moved moved
      have member : n ∈ o.nodes := (orderly.known n).mp ⟨flow, found⟩
      have spanned := reached.spanned wf law monotone unseeded
      obtain ⟨rebuilt, matched, again⟩ := alike.visit spanned law member popped found sent
      rw [moved, matched]
      exact ih (reached.step moved) again

end State

variable [Std.TransOrd ν] [Std.LawfulEqOrd ν] [SemilatticeSup L] {a : Analysis ν φ} {g : Graph ν} {view : φ → L}
  {T : ν → L → L}

/-- While facts only grow, it makes no difference whether what flows into a node is kept or
joined anew: after any number of visits both solvers have made visits that are alike, with
the same queue, and they end alike, with the same facts after as many visits. -/
theorem rebuilding_makes_no_difference (wf : g.WellFormed) (law : a.Lawful g.nodes view T)
    (monotone : ∀ n ∈ g.nodes, Monotone (T n)) (unseeded : ∀ n ∈ g.nodes, IsBot (view (a.start n))) :
    let o := g.orient a.direction
    let begun := State.initial a o
    (∀ visits, State.Alike view (begun.run a o visits).1 (begun.rebuildRun a o visits).1 ∧
      (begun.rebuildRun a o visits).2 = (begun.run a o visits).2) ∧
    (∀ limit s, a.Settles g limit s → ∃ visits rebuilt, begun.rebuildRun a o visits = (rebuilt, .settled) ∧
      rebuilt.history.length = s.iterations ∧ ∀ n ∈ g.nodes, ∃ flow other, s.Holds a.direction n flow ∧
        rebuilt.flows.get? n = some other ∧ other.map view = flow.map view) ∧
    ∀ visits, (begun.rebuildRun a o visits).2 = .settled → ∃ s, a.Settles g none s := by
  intro o begun
  have oriented := wf.orient a.direction
  have lockstep (visits : Nat) : State.Alike view (begun.run a o visits).1 (begun.rebuildRun a o visits).1 ∧
      (begun.rebuildRun a o visits).2 = (begun.run a o visits).2 := by
    rw [← g.nodes_orient a.direction] at law monotone unseeded
    exact State.Reachable.initial.run_alike oriented law monotone unseeded (.refl view begun) visits
  refine ⟨lockstep, ?_, ?_⟩
  · intro limit s settles
    obtain ⟨visits, last, same, rfl⟩ := settles.ran
    obtain ⟨alike, ended⟩ := lockstep visits
    have ran : begun.run a o visits = (last, .settled) := same
    have reached := State.Reachable.initial (a := a) (o := o) |>.run visits
    rw [ran] at alike ended reached
    refine ⟨visits, _, Prod.ext rfl ended, alike.history.length_eq.symm, ?_⟩
    intro n member
    rw [← g.nodes_orient a.direction] at member
    obtain ⟨flow, found⟩ := ((reached.orderly oriented).known n).mpr member
    obtain ⟨other, held, equal⟩ := alike.holds found
    exact ⟨flow, other, settles.holds found, held, equal⟩
  · intro visits settled
    rw [(lockstep visits).2] at settled
    obtain ⟨s, settles⟩ := Analysis.Settles.of_run settled
    exact ⟨s, settles.unlimited⟩

namespace Tabular

theorem plainTrail_rebuilt : let begun := State.initial plainTrail.analysis (knot.orient .forward)
    (∀ visits, State.Alike CompactSet.elements (begun.run plainTrail.analysis (knot.orient .forward) visits).1
      (begun.rebuildRun plainTrail.analysis (knot.orient .forward) visits).1) ∧
    ∃ s visits rebuilt, plainTrail.analysis.Settles knot (some 20) s ∧
      begun.rebuildRun plainTrail.analysis (knot.orient .forward) visits = (rebuilt, .settled) ∧
      rebuilt.history.length = s.iterations := by
  obtain ⟨s, settles⟩ : ∃ s, plainTrail.analysis.Settles knot (some 20) s := Analysis.Settles.of_run rfl
  obtain ⟨lockstep, rebuilds, -⟩ := rebuilding_makes_no_difference knot_wellFormed (GenKill.lawful rfl rfl knot.nodes)
    (fun n _ => plainTrail.passed_mono n) (fun _ _ => CompactSet.isBot_empty)
  obtain ⟨visits, rebuilt, ends, length, -⟩ := rebuilds (some 20) s settles
  exact ⟨fun visits => (lockstep visits).1, s, visits, rebuilt, settles, ends, length⟩

end Tabular

end Dataflow
