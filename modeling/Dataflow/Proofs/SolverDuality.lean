import Dataflow.Proofs.SolverLimit

/-! The two directions are one: an analysis that goes against the edges of a graph makes the
visits that it makes along the edges of the graph turned around. -/

namespace Dataflow

variable {ν φ : Type} [Ord ν]

/-- The graph with its edges turned around, whose one exit becomes the entry. An order
suggested along the edges is turned around with them. -/
def Graph.reversed (g : Graph ν) (exit : ν) : Graph ν :=
  { entry := exit
    exits := [g.entry]
    nodes := g.nodes
    successors := g.predecessors
    predecessors := g.successors
    hint := g.hint.map List.reverse }

def Analysis.toward (a : Analysis ν φ) (d : Direction) : Analysis ν φ := { a with direction := d }

variable {g : Graph ν} {exit : ν}

theorem Graph.WellFormed.reversed (wf : g.WellFormed) (single : g.exits = [exit]) : (g.reversed exit).WellFormed := by
  refine ⟨fun m n => (wf.transposed n m).symm, ?_, ?_, ?_, ?_, ?_⟩
  · intro m n edge
    exact wf.source n m ((wf.transposed n m).mpr edge)
  · intro m n edge
    exact wf.target n m ((wf.transposed n m).mpr edge)
  · exact wf.exits exit (by rw [single]; exact List.mem_singleton_self exit)
  · intro n member
    obtain rfl := List.mem_singleton.mp member
    exact wf.entry
  · intro hint found n member
    obtain ⟨original, given, rfl⟩ := Option.map_eq_some_iff.mp found
    exact wf.hinted original given n (List.mem_reverse.mp member)

private theorem Graph.orient_reversed (single : g.exits = [exit]) :
    (g.reversed exit).orient .forward = g.orient .backward := by
  simp only [orient, reversed, single]

namespace State

variable {a : Analysis ν φ} {o : Oriented ν}

private theorem run_toward (d : Direction) (s : State ν φ) (visits : Nat) :
    s.run (a.toward d) o visits = s.run a o visits := by
  induction visits generalizing s with
  | zero => rfl
  | succ visits ih =>
    have step : s.step (a.toward d) o = s.step a o := rfl
    rw [run, run, step]
    cases s.step a o with
    | ended ending => rfl
    | moved after => exact ih after

private theorem finish_toward (d : Direction) (s : State ν φ) : s.finish (a.toward d) o = s.finish a o := by
  ext ended
  rw [finish_eq_some_iff, finish_eq_some_iff]
  simp only [run_toward]

end State

/-- Forward on the reversed graph, a run is the one that goes backward on the graph. -/
theorem solve_reversed (a : Analysis ν φ) (single : g.exits = [exit]) (limit : Option Nat) :
    solve (a.toward .forward) (g.reversed exit) limit =
      (solve (a.toward .backward) g limit).map fun run => { run with direction := .forward } := by
  have forth : (g.reversed exit).orient (a.toward .forward).direction = g.orient .backward := g.orient_reversed single
  have back : g.orient (a.toward .backward).direction = g.orient .backward := rfl
  cases limit with
  | some visits =>
    simp only [solve, forth, back, State.run_toward, Option.map_some]
    rfl
  | none =>
    simp only [solve, forth, back, State.finish_toward, Option.map_map]
    rfl

variable [Std.TransOrd ν] [Std.LawfulEqOrd ν]

/-- It makes no difference whether an analysis goes backward on a graph with one exit or
forward on the graph turned around: if one run comes to an end so does the other, after the
same visits in the same order, and either both are cut off after as many visits or both
settle, where the fact before a node in one solution is the fact after it in the other. -/
theorem Graph.WellFormed.turning_around (wf : g.WellFormed) (single : g.exits = [exit]) (a : Analysis ν φ)
    (limit : Option Nat) : (g.reversed exit).WellFormed ∧
    (solve (a.toward .backward) g limit = none ↔ solve (a.toward .forward) (g.reversed exit) limit = none) ∧
    ∀ back forth, solve (a.toward .backward) g limit = some back →
      solve (a.toward .forward) (g.reversed exit) limit = some forth →
      forth.order = back.order ∧ forth.visits = back.visits ∧ forth.iterations = back.iterations ∧
      ((∃ visits, back.outcome = .error (.didNotConverge visits) ∧ forth.outcome = .error (.didNotConverge visits)) ∨
        ∃ s t, back.outcome = .ok s ∧ forth.outcome = .ok t ∧ t.order = s.order ∧ t.iterations = s.iterations ∧
          ∀ n, t.inFact? n = s.outFact? n ∧ t.outFact? n = s.inFact? n) := by
  have turned := solve_reversed a single limit
  refine ⟨wf.reversed single, ?_, ?_⟩
  · rw [turned, Option.map_eq_none_iff]
  · intro back forth solved also
    rw [solved, Option.map_some] at turned
    obtain rfl := Option.some.inj (turned.symm.trans also)
    refine ⟨rfl, rfl, rfl, ?_⟩
    obtain ⟨visits, rfl, -⟩ := Run.eq_within solved
    rcases wf.run_ending (a.toward .backward) visits with settled | cut
    · right
      exact ⟨_, _, Run.outcome_eq_ok_iff.mpr ⟨settled, rfl⟩, Run.outcome_eq_ok_iff.mpr ⟨settled, rfl⟩, rfl, rfl,
        fun n => ⟨rfl, rfl⟩⟩
    · left
      refine ⟨(Run.within (a.toward .backward) g visits).iterations, ?_, ?_⟩
      · rw [Run.outcome, cut]
      · rw [Run.outcome, cut]
        rfl

namespace Tabular

/-- The trail through the knot, which has one exit, and through the knot turned around. -/
theorem knot_turned_around : knot.WellFormed ∧ knot.exits = [3] ∧
    ∃ back forth, solve (trail.analysis.toward .backward) knot (some 20) = some back ∧
      solve (trail.analysis.toward .forward) (knot.reversed 3) (some 20) = some forth ∧
      forth.visits = back.visits ∧ ∃ s t, back.outcome = .ok s ∧ forth.outcome = .ok t ∧
        ∀ n, t.inFact? n = s.outFact? n ∧ t.outFact? n = s.inFact? n := by
  obtain ⟨-, -, same⟩ := knot_wellFormed.turning_around rfl trail.analysis (some 20)
  obtain ⟨-, visits, -, outcome⟩ := same _ _ rfl rfl
  refine ⟨knot_wellFormed, rfl, _, _, rfl, rfl, visits, ?_⟩
  rcases outcome with ⟨visits, impossible, -⟩ | ⟨s, t, left, right, -, -, facts⟩
  · cases impossible
  · exact ⟨s, t, left, right, facts⟩

end Tabular

end Dataflow
