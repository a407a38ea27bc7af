import Dataflow.Proofs.GraphOrder
import Dataflow.Solver.Solution

/-! What one visit of the solver reads and changes, how runs of a given length end, and what a
run without a limit has to do with them. -/

namespace Dataflow

theorem mapM_eq_some_iff {α β : Type} {f : α → Option β} {items : List α} {results : List β} :
    items.mapM f = some results ↔ items.map f = results.map some := by
  induction items generalizing results with
  | nil => cases results <;> simp
  | cons item items ih =>
    rw [List.mapM_cons, List.map_cons]
    cases results with
    | nil =>
      cases f item <;> cases items.mapM f <;> simp
    | cons result results =>
      rw [List.map_cons, List.cons.injEq, ← ih]
      cases f item <;> cases items.mapM f <;> simp

theorem exists_map_some {α β : Type} {f : α → Option β} {items : List α}
    (known : ∀ item ∈ items, ∃ result, f item = some result) : ∃ results : List β, items.map f = results.map some := by
  induction items with
  | nil => exact ⟨[], rfl⟩
  | cons item items ih =>
    obtain ⟨result, found⟩ := known item List.mem_cons_self
    obtain ⟨results, rest⟩ := ih fun other member => known other (List.mem_cons_of_mem item member)
    refine ⟨result :: results, ?_⟩
    rw [List.map_cons, found, rest, List.map_cons]

variable {ν φ : Type} [Ord ν]

namespace State

/-- The state after the visit of `n`, taken from a queue that leaves `rest`. -/
def visit (a : Analysis ν φ) (o : Oriented ν) (s : State ν φ) (n : ν) (rest : Worklist ν) (flow : Flow φ)
    (sources : List φ) : State ν φ :=
  let v := Visit.ofSources a o rest n flow sources
  { waiting := rest.append v.requeued
    flows := s.flows.insert n ⟨v.input, v.output⟩
    history := v :: s.history }

def visited (s : State ν φ) : List ν := s.history.map Visit.node

theorem mem_visited_visit {a : Analysis ν φ} {o : Oriented ν} {s : State ν φ} {n m : ν} {rest : Worklist ν}
    {flow : Flow φ} {sources : List φ} : m ∈ (s.visit a o n rest flow sources).visited ↔ m = n ∨ m ∈ s.visited := by
  rw [visited, visit, List.map_cons, List.mem_cons]
  rfl

/-- A step takes the next node and joins what all its inflow neighbours send. -/
theorem step_moved {a : Analysis ν φ} {o : Oriented ν} {s after : State ν φ} (moved : s.step a o = .moved after) :
    ∃ n rest flow sources, s.waiting.pop? = some (n, rest) ∧ s.flows.get? n = some flow ∧
      (o.inflow.next n).map s.outgoing? = sources.map some ∧ after = s.visit a o n rest flow sources := by
  unfold step at moved
  split at moved
  next => cases moved
  next n rest popped =>
    split at moved
    next => cases moved
    next flow found =>
      simp only at moved
      split at moved
      next => cases moved
      next sources sent =>
        obtain rfl := Progress.moved.inj moved
        exact ⟨n, rest, flow, sources, popped, found, mapM_eq_some_iff.mp sent, rfl⟩

theorem step_of_visit {a : Analysis ν φ} {o : Oriented ν} {s : State ν φ} {n : ν} {rest : Worklist ν}
    {flow : Flow φ} {sources : List φ} (popped : s.waiting.pop? = some (n, rest))
    (found : s.flows.get? n = some flow) (sent : (o.inflow.next n).map s.outgoing? = sources.map some) :
    s.step a o = .moved (s.visit a o n rest flow sources) := by
  simp only [step, popped, found, mapM_eq_some_iff.mpr sent]
  rfl

theorem step_ended {a : Analysis ν φ} {o : Oriented ν} {s : State ν φ} {ending : Ending φ}
    (ended : s.step a o = .ended ending) :
    ending = .settled ∧ s.waiting.toList = [] ∨ ∃ before sources, ending = .broken before sources := by
  unfold step at ended
  split at ended
  next empty =>
    obtain rfl := Progress.ended.inj ended
    exact Or.inl ⟨rfl, (Worklist.pop?_eq_none_iff _).mp empty⟩
  next =>
    split at ended
    next =>
      obtain rfl := Progress.ended.inj ended
      exact Or.inr ⟨_, _, rfl⟩
    next =>
      simp only at ended
      split at ended
      next =>
        obtain rfl := Progress.ended.inj ended
        exact Or.inr ⟨_, _, rfl⟩
      next => cases ended

theorem outgoing_mem {s : State ν φ} {senders : List ν} {sources : List φ}
    (sent : senders.map s.outgoing? = sources.map some) {m : ν} (member : m ∈ senders) {other : Flow φ}
    (found : s.flows.get? m = some other) : other.outgoing ∈ sources := by
  have listed : some other.outgoing ∈ sources.map some := by
    rw [← sent]
    exact List.mem_map.mpr ⟨m, member, by rw [outgoing?, found]; rfl⟩
  simpa using listed

theorem sender_of_mem {s : State ν φ} {senders : List ν} {sources : List φ}
    (sent : senders.map s.outgoing? = sources.map some) {source : φ} (member : source ∈ sources) :
    ∃ m ∈ senders, ∃ other, s.flows.get? m = some other ∧ other.outgoing = source := by
  have listed : some source ∈ senders.map s.outgoing? := by
    rw [sent]
    exact List.mem_map.mpr ⟨source, member, rfl⟩
  obtain ⟨m, inside, same⟩ := List.mem_map.mp listed
  obtain ⟨other, found, equal⟩ := Option.map_eq_some_iff.mp same
  exact ⟨m, inside, other, found, equal⟩

/-- The states a run passes through. -/
inductive Reachable (a : Analysis ν φ) (o : Oriented ν) : State ν φ → Prop where
  | initial : Reachable a o (State.initial a o)
  | step {s after : State ν φ} (before : Reachable a o s) (moved : s.step a o = .moved after) :
      Reachable a o after

/-- What holds at the start of a run and is kept by every visit holds of every state. -/
@[elab_as_elim]
theorem Reachable.visits {a : Analysis ν φ} {o : Oriented ν} {motive : ∀ s : State ν φ, Reachable a o s → Prop}
    (initial : motive (State.initial a o) .initial)
    (visit : ∀ {s : State ν φ} {n : ν} {rest : Worklist ν} {flow : Flow φ} {sources : List φ}
      (before : Reachable a o s) (popped : s.waiting.pop? = some (n, rest)) (found : s.flows.get? n = some flow)
      (sent : (o.inflow.next n).map s.outgoing? = sources.map some), motive s before →
      motive (s.visit a o n rest flow sources) (before.step (step_of_visit popped found sent)))
    {s : State ν φ} (reached : Reachable a o s) : motive s reached := by
  induction reached with
  | initial => exact initial
  | step before moved ih =>
    obtain ⟨n, rest, flow, sources, popped, found, sent, rfl⟩ := step_moved moved
    exact visit before popped found sent ih

theorem Reachable.run {a : Analysis ν φ} {o : Oriented ν} {s : State ν φ} (reached : Reachable a o s)
    (visits : Nat) : Reachable a o (s.run a o visits).1 := by
  induction visits generalizing s with
  | zero => exact reached
  | succ visits ih =>
    simp only [State.run]
    split
    next => exact reached
    next after moved => exact ih (reached.step moved)

section Endings

variable {a : Analysis ν φ} {o : Oriented ν} {s : State ν φ} {visits : Nat}

theorem step_idle (empty : s.waiting.toList = []) : s.step a o = .ended .settled := by
  rw [step, (Worklist.pop?_eq_none_iff _).mpr empty]

theorem run_idle (empty : s.waiting.toList = []) (visits : Nat) : s.run a o visits = (s, .settled) := by
  cases visits with
  | zero => rw [run, if_pos ((Worklist.isEmpty_iff _).mpr empty)]
  | succ visits => rw [run, step_idle empty]

theorem run_zero (waits : s.waiting.toList ≠ []) : s.run a o 0 = (s, .exhausted) := by
  rw [run, if_neg (fun empty => waits ((Worklist.isEmpty_iff _).mp empty))]

theorem run_next (s : State ν φ) (visits : Nat) :
    (s.run a o visits).1.step a o = .moved (s.run a o (visits + 1)).1 ∨
      (∃ ending, (s.run a o visits).1.step a o = .ended ending) ∧
        (s.run a o (visits + 1)).1 = (s.run a o visits).1 := by
  induction visits generalizing s with
  | zero =>
    simp only [run]
    cases reached : s.step a o with
    | ended ending => exact Or.inr ⟨⟨ending, rfl⟩, rfl⟩
    | moved after => exact Or.inl rfl
  | succ visits ih =>
    rw [run, run]
    cases reached : s.step a o with
    | ended ending => exact Or.inr ⟨⟨ending, reached⟩, rfl⟩
    | moved after => exact ih after

theorem step_of_run (whole : (s.run a o visits).2 ≠ .exhausted) :
    (s.run a o visits).1.step a o = .ended (s.run a o visits).2 := by
  induction visits generalizing s with
  | zero =>
    by_cases empty : s.waiting.toList = []
    · rw [run_idle empty]
      exact step_idle empty
    · rw [run_zero empty] at whole
      exact False.elim (whole rfl)
  | succ visits ih =>
    rw [run] at whole ⊢
    cases reached : s.step a o with
    | ended ending => exact reached
    | moved after =>
      rw [reached] at whole
      exact ih whole

theorem run_settled (settled : (s.run a o visits).2 = .settled) : (s.run a o visits).1.waiting.toList = [] := by
  have whole : (s.run a o visits).2 ≠ .exhausted := by
    rw [settled]
    exact nofun
  rcases step_ended (step_of_run whole) with ⟨-, empty⟩ | ⟨_, _, broken⟩
  · exact empty
  · cases settled.symm.trans broken

theorem history_of_moved {after : State ν φ} (moved : s.step a o = .moved after) :
    ∃ v : Visit ν φ, after.history = v :: s.history := by
  obtain ⟨n, rest, flow, sources, -, -, -, rfl⟩ := step_moved moved
  exact ⟨_, rfl⟩

/-- A run that is cut off has made all the visits it may make, and still has nodes waiting. -/
theorem run_exhausted (cut : (s.run a o visits).2 = .exhausted) :
    (s.run a o visits).1.history.length = s.history.length + visits ∧ (s.run a o visits).1.waiting.toList ≠ [] := by
  induction visits generalizing s with
  | zero =>
    rw [run] at cut ⊢
    refine ⟨rfl, ?_⟩
    intro empty
    rw [if_pos ((Worklist.isEmpty_iff _).mpr empty)] at cut
    cases cut
  | succ visits ih =>
    rw [run] at cut ⊢
    cases reached : s.step a o with
    | ended ending =>
      rw [reached] at cut
      obtain rfl : ending = .exhausted := cut
      rcases step_ended reached with ⟨impossible, -⟩ | ⟨_, _, impossible⟩ <;> cases impossible
    | moved after =>
      rw [reached] at cut
      obtain ⟨length, waits⟩ := ih cut
      obtain ⟨v, visited⟩ := history_of_moved reached
      refine ⟨?_, waits⟩
      rw [length, visited, List.length_cons]
      omega

end Endings

/-- A run without a limit comes to what some limited run comes to that is not cut off. -/
theorem finish_eq_some_iff {a : Analysis ν φ} {o : Oriented ν} {s : State ν φ} {ended : State ν φ × Ending φ} :
    s.finish a o = some ended ↔ ∃ visits, s.run a o visits = ended ∧ ended.2 ≠ .exhausted := by
  constructor
  · intro finished
    refine finish.partial_correctness a o
      (fun s ended => ∃ visits, s.run a o visits = ended ∧ ended.2 ≠ .exhausted) ?_ s ended finished
    intro finish ih s ended finished
    split at finished
    next ending stopped =>
      obtain rfl := Option.some.inj finished
      refine ⟨1, by simp [State.run, stopped], ?_⟩
      rintro rfl
      rcases step_ended stopped with ⟨impossible, _⟩ | ⟨_, _, impossible⟩ <;> cases impossible
    next after moved =>
      obtain ⟨visits, same, whole⟩ := ih after ended finished
      exact ⟨visits + 1, by simpa [State.run, moved] using same, whole⟩
  · intro limited
    obtain ⟨visits, same, whole⟩ := limited
    induction visits generalizing s with
    | zero =>
      simp only [State.run] at same
      split at same
      next empty =>
        have none : s.waiting.pop? = none :=
          (Worklist.pop?_eq_none_iff _).mpr ((Worklist.isEmpty_iff _).mp empty)
        rw [State.finish, step, none]
        exact congrArg some same
      next =>
        subst same
        exact False.elim (whole rfl)
    | succ visits ih =>
      simp only [State.run] at same
      rw [State.finish]
      split
      next ending stopped =>
        simp only [stopped] at same
        exact congrArg some same
      next after moved =>
        simp only [moved] at same
        exact ih same

end State

/-- An analysis settles on a solution if solving with the given limit succeeds with it. -/
def Analysis.Settles (a : Analysis ν φ) (g : Graph ν) (limit : Option Nat) (s : Solution ν φ) : Prop :=
  ∃ run, solve a g limit = some run ∧ run.outcome = .ok s

/-- A solution tells the facts of a flow for a node: those before and after it, in the
direction of the edges. -/
def Solution.Holds (s : Solution ν φ) (d : Direction) (n : ν) (flow : Flow φ) : Prop :=
  s.inFact? n = some (flow.before d) ∧ s.outFact? n = some (flow.after d)

theorem Run.outcome_eq_ok_iff {run : Run ν φ} {s : Solution ν φ} : run.outcome = .ok s ↔
    run.ending = .settled ∧ ⟨run.direction, run.order, run.last.flows, run.iterations⟩ = s := by
  unfold outcome
  split <;> simp [*]

namespace Analysis.Settles

variable {a : Analysis ν φ} {g : Graph ν} {limit : Option Nat} {s : Solution ν φ}

/-- A solution holds the facts that some number of visits leaves, after which no node waits. -/
theorem ran (settles : a.Settles g limit s) :
    ∃ visits last, (State.initial a (g.orient a.direction)).run a (g.orient a.direction) visits = (last, .settled) ∧
      s = ⟨a.direction, (g.orient a.direction).order, last.flows, last.history.length⟩ := by
  obtain ⟨run, solved, ok⟩ := settles
  obtain ⟨⟨last, ending⟩, ended, rfl⟩ := Option.map_eq_some_iff.mp solved
  obtain ⟨settled, rfl⟩ := Run.outcome_eq_ok_iff.mp ok
  obtain rfl : ending = .settled := settled
  cases limit with
  | some visits => exact ⟨visits, last, Option.some.inj ended, rfl⟩
  | none =>
    obtain ⟨visits, same, -⟩ := State.finish_eq_some_iff.mp ended
    exact ⟨visits, last, same, rfl⟩

theorem reached (settles : a.Settles g limit s) :
    ∃ last, State.Reachable a (g.orient a.direction) last ∧ last.waiting.toList = [] ∧
      s = ⟨a.direction, (g.orient a.direction).order, last.flows, last.history.length⟩ := by
  obtain ⟨visits, last, same, told⟩ := settles.ran
  have reached := State.Reachable.initial (a := a) (o := g.orient a.direction) |>.run visits
  have empty := State.run_settled (congrArg Prod.snd same)
  rw [same] at reached empty
  exact ⟨last, reached, empty, told⟩

theorem holds (settles : a.Settles g limit s) {n : ν} {flow : Flow φ} (found : s.flows.get? n = some flow) :
    s.Holds a.direction n flow := by
  obtain ⟨last, -, -, rfl⟩ := settles.reached
  simp only [Solution.Holds, Solution.inFact?, Solution.outFact?]
  rw [found]
  exact ⟨rfl, rfl⟩

theorem of_run {visits : Nat} (settled : ((State.initial a (g.orient a.direction)).run a (g.orient a.direction)
    visits).2 = .settled) : ∃ s, a.Settles g (some visits) s :=
  ⟨_, _, rfl, Run.outcome_eq_ok_iff.mpr ⟨settled, rfl⟩⟩

theorem unlimited {visits : Nat} (settles : a.Settles g (some visits) s) : a.Settles g none s := by
  obtain ⟨run, solved, ok⟩ := settles
  refine ⟨run, ?_, ok⟩
  obtain ⟨settled, -⟩ := Run.outcome_eq_ok_iff.mp ok
  obtain rfl := Option.some.inj solved
  have finished : (State.initial a (g.orient a.direction)).finish a (g.orient a.direction) =
      some ((State.initial a (g.orient a.direction)).run a (g.orient a.direction) visits) := by
    refine State.finish_eq_some_iff.mpr ⟨visits, rfl, ?_⟩
    intro exhausted
    cases settled.symm.trans exhausted
  simp only [solve, finished]
  rfl

end Analysis.Settles

end Dataflow
