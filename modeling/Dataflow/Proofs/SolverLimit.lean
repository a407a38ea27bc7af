import Dataflow.Proofs.RunLength
import Dataflow.Solver.Record

/-! What a limit on the number of visits does to a run: it cuts the run off and changes
nothing before that, whatever the analysis does, even if the run would never end. -/

namespace Dataflow

variable {ν φ : Type} [Ord ν]

namespace State

variable {a : Analysis ν φ} {o : Oriented ν} {s : State ν φ} {visits : Nat}

/-- Goes on with a run that was cut off. A run that has come to an end stays there. -/
def resume (a : Analysis ν φ) (o : Oriented ν) (visits : Nat) : State ν φ × Ending φ → State ν φ × Ending φ
  | (s, .exhausted) => s.run a o visits
  | (s, ending) => (s, ending)

private theorem run_add (s : State ν φ) (first second : Nat) :
    s.run a o (first + second) = resume a o second (s.run a o first) := by
  induction first generalizing s with
  | zero =>
    rw [Nat.zero_add]
    by_cases empty : s.waiting.toList = []
    · rw [run_idle empty, run_idle empty]
      rfl
    · rw [run_zero empty]
      rfl
  | succ first ih =>
    rw [Nat.succ_add, run, run]
    cases reached : s.step a o with
    | ended ending =>
      rcases step_ended reached with ⟨rfl, -⟩ | ⟨before, sources, rfl⟩ <;> rfl
    | moved after => exact ih after

theorem run_of_le {more : Nat} (whole : (s.run a o visits).2 ≠ .exhausted) (le : visits ≤ more) :
    s.run a o more = s.run a o visits := by
  obtain ⟨rest, rfl⟩ := Nat.exists_eq_add_of_le le
  rw [run_add]
  revert whole
  generalize s.run a o visits = ended
  intro whole
  obtain ⟨last, ending⟩ := ended
  cases ending with
  | exhausted => exact False.elim (whole rfl)
  | settled => rfl
  | broken before sources => rfl

theorem history_run (s : State ν φ) (visits : Nat) : s.history <:+ (s.run a o visits).1.history := by
  induction visits generalizing s with
  | zero => exact List.suffix_rfl
  | succ visits ih =>
    rw [run]
    cases reached : s.step a o with
    | ended ending => exact List.suffix_rfl
    | moved after =>
      obtain ⟨v, visited⟩ := history_of_moved reached
      have later := ih after
      rw [visited] at later
      exact (List.suffix_cons v s.history).trans later

private theorem length_run_le (s : State ν φ) (visits : Nat) :
    (s.run a o visits).1.history.length ≤ s.history.length + visits := by
  induction visits generalizing s with
  | zero => exact Nat.le_refl _
  | succ visits ih =>
    rw [run]
    cases reached : s.step a o with
    | ended ending => exact Nat.le_add_right _ _
    | moved after =>
      obtain ⟨v, visited⟩ := history_of_moved reached
      have length := ih after
      rw [visited, List.length_cons] at length
      dsimp only
      omega

/-- The states a run passes through are those that limits cut it off at. -/
theorem Reachable.eq_run (reached : Reachable a o s) :
    ((State.initial a o).run a o s.history.length).1 = s := by
  induction reached with
  | initial => rfl
  | @step s after before moved ih =>
    obtain ⟨v, visited⟩ := history_of_moved moved
    rw [visited, List.length_cons]
    rcases run_next (State.initial a o) s.history.length with next | ⟨⟨ending, ended⟩, -⟩
    · rw [ih, moved] at next
      exact (Progress.moved.inj next).symm
    · rw [ih, moved] at ended
      cases ended

/-- Under a larger limit a run makes the same visits first. -/
theorem history_run_of_le {more : Nat} (le : visits ≤ more) :
    (s.run a o visits).1.history <:+ (s.run a o more).1.history := by
  by_cases cut : (s.run a o visits).2 = .exhausted
  · obtain ⟨rest, rfl⟩ := Nat.exists_eq_add_of_le le
    have stopped : s.run a o visits = ((s.run a o visits).1, .exhausted) := Prod.ext rfl cut
    rw [run_add, stopped]
    exact history_run _ rest
  · rw [run_of_le cut le]

theorem Reachable.run_settled (reached : Reachable a o s) (empty : s.waiting.toList = []) :
    (State.initial a o).run a o s.history.length = (s, .settled) := by
  have same := reached.eq_run
  have whole : ((State.initial a o).run a o s.history.length).2 ≠ .exhausted := by
    intro cut
    have waits := (run_exhausted cut).2
    rw [same] at waits
    exact waits empty
  have ended := step_of_run whole
  rw [same, step_idle empty] at ended
  exact Prod.ext same (Progress.ended.inj ended).symm

def callbacks (a : Analysis ν φ) (o : Oriented ν) (s : State ν φ) : List (Callback ν φ) :=
  .boundary a.boundary :: o.order.map (fun n => .start n (a.start n)) ++
    s.history.reverse.flatMap (Visit.callbacks a)

private theorem callbacks_prefix {t : State ν φ} (earlier : s.history <:+ t.history) :
    s.callbacks a o <+: t.callbacks a o := by
  rw [callbacks, callbacks, List.prefix_append_right_inj]
  exact (List.reverse_prefix.mpr earlier).flatMap _

end State

/-- A run that was cut off because it used up all the visits it may make. -/
def Analysis.CutOff (a : Analysis ν φ) (g : Graph ν) (limit : Nat) (run : Run ν φ) : Prop :=
  solve a g (some limit) = some run ∧ run.outcome = .error (.didNotConverge limit)

namespace Analysis.Settles

variable {a : Analysis ν φ} {g : Graph ν} {s : Solution ν φ} {visits : Nat}

theorem iterations_le (settles : a.Settles g (some visits) s) : s.iterations ≤ visits := by
  obtain ⟨run, solved, ok⟩ := settles
  obtain rfl := Option.some.inj solved
  obtain ⟨-, rfl⟩ := Run.outcome_eq_ok_iff.mp ok
  exact (State.length_run_le _ visits).trans (Nat.le_of_eq (Nat.zero_add visits))

private theorem of_le {more : Nat} (settles : a.Settles g (some visits) s) (le : visits ≤ more) :
    a.Settles g (some more) s := by
  obtain ⟨run, solved, ok⟩ := settles
  refine ⟨run, ?_, ok⟩
  obtain rfl := Option.some.inj solved
  obtain ⟨settled, -⟩ := Run.outcome_eq_ok_iff.mp ok
  have whole : ((State.initial a (g.orient a.direction)).run a (g.orient a.direction) visits).2 ≠ .exhausted := by
    intro cut
    cases settled.symm.trans cut
  simp only [solve, State.run_of_le whole le, Option.map_some]

private theorem of_iterations {limit : Option Nat} (settles : a.Settles g limit s) :
    a.Settles g (some s.iterations) s := by
  obtain ⟨last, reached, empty, rfl⟩ := settles.reached
  have settled := reached.run_settled empty
  refine ⟨_, rfl, Run.outcome_eq_ok_iff.mpr ⟨congrArg Prod.snd settled, ?_⟩⟩
  simp only [settled, Run.iterations]

end Analysis.Settles

namespace Run

variable {a : Analysis ν φ} {g : Graph ν} {o : Oriented ν} {run : Run ν φ} {limit : Option Nat}

def within (a : Analysis ν φ) (g : Graph ν) (visits : Nat) : Run ν φ :=
  let o := g.orient a.direction
  let ended := (State.initial a o).run a o visits
  ⟨a.direction, o.order, ended.1, ended.2⟩

/-- Without a limit, a run that ends is that of so many visits that it is not cut off. -/
theorem eq_within (solved : solve a g limit = some run) :
    ∃ visits, run = within a g visits ∧ (limit = some visits ∨ run.ending ≠ .exhausted) := by
  obtain ⟨⟨last, ending⟩, ended, rfl⟩ := Option.map_eq_some_iff.mp solved
  cases limit with
  | some visits =>
    refine ⟨visits, ?_, Or.inl rfl⟩
    rw [within, Option.some.inj ended]
  | none =>
    obtain ⟨visits, same, whole⟩ := State.finish_eq_some_iff.mp ended
    refine ⟨visits, ?_, Or.inr whole⟩
    rw [within, same]

private theorem history_within {visits : Nat} (enough : ∀ most ∈ limit, visits ≤ most)
    (solved : solve a g limit = some run) : (within a g visits).last.history <:+ run.last.history := by
  obtain ⟨made, rfl, same | whole⟩ := eq_within solved
  · exact State.history_run_of_le (enough made same)
  · rcases Nat.le_total visits made with le | le
    · exact State.history_run_of_le le
    · have same := State.run_of_le whole le
      rw [within, same]
      exact List.suffix_rfl

theorem order_eq (solved : solve a g limit = some run) : run.order = (g.orient a.direction).order := by
  obtain ⟨visits, rfl, -⟩ := eq_within solved
  rfl

theorem last_of_settled {s : Solution ν φ} (solved : solve a g limit = some run) (ok : run.outcome = .ok s) :
    State.Reachable a (g.orient a.direction) run.last ∧ run.last.waiting.toList = [] ∧
      s.iterations = run.last.history.length := by
  obtain ⟨settled, rfl⟩ := outcome_eq_ok_iff.mp ok
  obtain ⟨visits, rfl, -⟩ := eq_within solved
  exact ⟨State.Reachable.initial.run visits, State.run_settled settled, rfl⟩

private theorem last_callbacks (same : run.order = o.order) : run.last.callbacks a o <+: run.callbacks a := by
  rw [callbacks, same]
  exact List.prefix_append _ _

private theorem callbacks_of_exhausted (same : run.order = o.order) (cut : run.ending = .exhausted) :
    run.callbacks a = run.last.callbacks a o := by
  rw [callbacks, same, cut]
  exact List.append_nil _

end Run

variable [Std.TransOrd ν] [Std.LawfulEqOrd ν] {g : Graph ν}

theorem Graph.WellFormed.run_ending (wf : g.WellFormed) (a : Analysis ν φ) (visits : Nat) :
    (Run.within a g visits).ending = .settled ∨ (Run.within a g visits).ending = .exhausted :=
  State.Reachable.initial.run_ending (wf.orient a.direction) visits

theorem Graph.WellFormed.cut_off (wf : g.WellFormed) (a : Analysis ν φ) (limit : Nat)
    (unsettled : ¬∃ s, a.Settles g (some limit) s) :
    a.CutOff g limit (.within a g limit) ∧ (Run.within a g limit).ending = .exhausted := by
  have cut := (wf.run_ending a limit).resolve_left fun settled => unsettled (Analysis.Settles.of_run settled)
  refine ⟨⟨rfl, ?_⟩, cut⟩
  have length := (State.run_exhausted cut).1
  rw [Run.outcome, cut]
  dsimp only
  rw [Run.iterations, Run.within, length]
  exact congrArg (fun visits => Except.error (SolveError.didNotConverge visits)) (Nat.zero_add limit)

/-- A limit only cuts a run off. A run settles within a limit if and only if the run without
a limit comes to an empty queue after at most as many visits, with the same solution. It is
cut off otherwise, after exactly as many visits as the limit allows, and has used the analysis
up to then as any run under a larger limit or under none does, whether that one ends or not. -/
theorem Graph.WellFormed.limit_only_cuts (wf : g.WellFormed) (a : Analysis ν φ) (limit : Nat) :
    (∀ s, a.Settles g (some limit) s ↔ a.Settles g none s ∧ s.iterations ≤ limit) ∧
    ((∃ s, a.Settles g (some limit) s) ↔ ∃ last, State.Reachable a (g.orient a.direction) last ∧
      last.waiting.toList = [] ∧ last.history.length ≤ limit) ∧
    ((¬∃ s, a.Settles g (some limit) s) → ∃ run, a.CutOff g limit run ∧ run.visits.length = limit ∧
      (∀ larger other, (∀ most ∈ larger, limit ≤ most) → solve a g larger = some other →
        run.callbacks a <+: other.callbacks a) ∧
      ∀ s, State.Reachable a (g.orient a.direction) s → limit ≤ s.history.length →
        run.callbacks a <+: s.callbacks a (g.orient a.direction)) ∧
    ∀ more, limit ≤ more → (∀ s, a.Settles g (some limit) s → a.Settles g (some more) s) ∧
      ((∃ run, a.CutOff g more run) → ∃ run, a.CutOff g limit run) := by
  refine ⟨?_, ?_, ?_, ?_⟩
  · intro s
    constructor
    · intro settles
      exact ⟨settles.unlimited, settles.iterations_le⟩
    · intro ⟨settles, le⟩
      exact settles.of_iterations.of_le le
  · constructor
    · intro ⟨s, settles⟩
      obtain ⟨last, reached, empty, told⟩ := settles.reached
      refine ⟨last, reached, empty, ?_⟩
      have le := settles.iterations_le
      rwa [told] at le
    · intro ⟨last, reached, empty, le⟩
      obtain ⟨s, settles⟩ := Analysis.Settles.of_run (congrArg Prod.snd (reached.run_settled empty))
      exact ⟨s, settles.of_le le⟩
  · intro unsettled
    obtain ⟨stopped, cut⟩ := wf.cut_off a limit unsettled
    have length := (State.run_exhausted cut).1
    have same := Run.callbacks_of_exhausted (a := a) (o := g.orient a.direction) rfl cut
    refine ⟨.within a g limit, stopped, ?_, ?_, ?_⟩
    · rw [Run.visits, List.length_reverse, Run.within, length]
      exact Nat.zero_add limit
    · intro larger other enough solved
      rw [same]
      have later := State.callbacks_prefix (a := a) (o := g.orient a.direction) (Run.history_within enough solved)
      exact later.trans (Run.last_callbacks (Run.order_eq solved))
    · intro s reached le
      rw [same]
      have later := State.history_run_of_le (s := State.initial a (g.orient a.direction)) (a := a)
        (o := g.orient a.direction) le
      rw [reached.eq_run] at later
      exact State.callbacks_prefix later
  · intro more le
    refine ⟨fun s settles => settles.of_le le, ?_⟩
    intro ⟨run, solved, failed⟩
    have unsettled : ¬∃ s, a.Settles g (some limit) s := by
      intro ⟨s, settles⟩
      obtain ⟨other, again, ok⟩ := settles.of_le le
      obtain rfl := Option.some.inj (solved.symm.trans again)
      cases failed.symm.trans ok
    exact ⟨_, (wf.cut_off a limit unsettled).1⟩

namespace Tabular

/-- The trail through the knot takes nine visits: eight are one too few. -/
theorem trail_cut_off : (∃ run, trail.analysis.CutOff knot 8 run ∧ run.visits.length = 8 ∧
      ∀ whole, solve trail.analysis knot none = some whole →
        run.callbacks trail.analysis <+: whole.callbacks trail.analysis) ∧
    ∃ s, trail.analysis.Settles knot (some 9) s ∧ trail.analysis.Settles knot none s ∧ s.iterations ≤ 9 := by
  have unsettled : ¬∃ s, trail.analysis.Settles knot (some 8) s := by
    intro ⟨s, run, solved, ok⟩
    obtain rfl := Option.some.inj solved
    cases (Run.outcome_eq_ok_iff.mp ok).1
  obtain ⟨-, -, cuts, -⟩ := knot_wellFormed.limit_only_cuts trail.analysis 8
  obtain ⟨run, stopped, length, same, -⟩ := cuts unsettled
  obtain ⟨s, settles⟩ : ∃ s, trail.analysis.Settles knot (some 9) s := Analysis.Settles.of_run rfl
  obtain ⟨settled, -⟩ := knot_wellFormed.limit_only_cuts trail.analysis 9
  exact ⟨⟨run, stopped, length, fun whole => same none whole nofun⟩, s, settles, (settled s).mp settles⟩

end Tabular

end Dataflow
