import Dataflow.Proofs.SolverLimit

/-! Runs that write down the uses they make of an analysis as they make them: while the facts
are prepared, with every fact that a visit joins, and when it passes the outcome through its
node. They come to the same end as other runs, and the record agrees with what is put
together afterwards from the visits. -/

namespace Dataflow

/-- A result, and the uses of an analysis on the way to it. -/
structure Recorded (ν φ α : Type) where
  result : α
  uses : List (Callback ν φ)

variable {ν φ : Type}

namespace Recorded

instance : Monad (Recorded ν φ) where
  pure result := ⟨result, []⟩
  bind first next := ⟨(next first.result).result, first.uses ++ (next first.result).uses⟩

variable {α β : Type}

@[simp]
theorem pure_eq (result : α) : (pure result : Recorded ν φ α) = ⟨result, []⟩ := rfl

@[simp]
theorem bind_eq (first : Recorded ν φ α) (next : α → Recorded ν φ β) :
    first >>= next = ⟨(next first.result).result, first.uses ++ (next first.result).uses⟩ := rfl

end Recorded

namespace Analysis

variable (a : Analysis ν φ)

def useBoundary : Recorded ν φ φ := ⟨a.boundary, [.boundary a.boundary]⟩

def useStart (n : ν) : Recorded ν φ φ := ⟨a.start n, [.start n (a.start n)]⟩

def useJoin (source target : φ) : Recorded ν φ φ :=
  let joined := a.join source target
  ⟨joined, [.join source joined]⟩

def useTransfer (n : ν) (input output : φ) : Recorded ν φ (Updated φ) :=
  let passed := a.transfer n input output
  ⟨passed, [.transfer n input passed.value passed.changed]⟩

end Analysis

theorem joinsOf_cons (a : Analysis ν φ) (target source : φ) (sources : List φ) :
    joinsOf a target (source :: sources) =
      joinsOf a (a.join source target) sources ++ [.join source (a.join source target)] := by
  have folded (sources : List φ) (so : φ × List (Callback ν φ)) :
      (sources.foldl (fun so source => (a.join source so.1, Callback.join source (a.join source so.1) :: so.2)) so).2 =
        joinsOf a so.1 sources ++ so.2 := by
    induction sources generalizing so with
    | nil => rfl
    | cons source sources ih =>
      have first : joinsOf a so.1 (source :: sources) = _ := ih (a.join source so.1, [.join source (a.join source so.1)])
      rw [List.foldl_cons, ih, first, List.append_assoc]
      rfl
  exact folded sources (a.join source target, [.join source (a.join source target)])

variable [Ord ν]

namespace State

def prepare (a : Analysis ν φ) (o : Oriented ν) : Recorded ν φ (State ν φ) := do
  let order := o.order
  let starts := Std.TreeSet.ofList o.starts
  let boundary ← a.useBoundary
  let flows ← order.foldlM (fun flows n => do
    let outgoing ← a.useStart n
    pure (flows.insert n ⟨if starts.contains n then boundary else a.bottom, outgoing⟩)) ∅
  pure { waiting := .ofList order, flows, history := [] }

/-- Joins what the senders send into a fact, one after the other, and tells what was joined.
If one of them has no facts, it ends there, without a fact to pass on. -/
def receive (a : Analysis ν φ) (s : State ν φ) : List ν → φ → Recorded ν φ (List φ × Option φ)
  | [], target => pure ([], some target)
  | n :: senders, target =>
    match s.outgoing? n with
    | none => pure ([], none)
    | some source => do
      let joined ← a.useJoin source target
      let (sources, input?) ← receive a s senders joined
      pure (source :: sources, input?)

def record (a : Analysis ν φ) (o : Oriented ν) (s : State ν φ) : Recorded ν φ (Progress ν φ) :=
  match s.waiting.pop? with
  | none => pure (.ended .settled)
  | some (n, waiting) =>
    match s.flows.get? n with
    | none => pure (.ended (.broken a.bottom []))
    | some flow => do
      let (sources, input?) ← s.receive a (o.inflow.next n) flow.incoming
      match input? with
      | none => pure (.ended (.broken flow.incoming sources))
      | some input =>
        let passed ← a.useTransfer n input flow.outgoing
        let affected := if passed.changed then o.outflow.next n else []
        let requeued := distinct (affected.filter fun m => !waiting.contains m)
        pure (.moved
          { waiting := waiting.append requeued
            flows := s.flows.insert n ⟨input, passed.value⟩
            history := ⟨n, flow.incoming, sources, input, passed.value, passed.changed, requeued⟩ :: s.history })

end State

namespace Recorded

def run (a : Analysis ν φ) (o : Oriented ν) :
    Nat → Recorded ν φ (State ν φ) → Recorded ν φ (State ν φ × Ending φ)
  | 0, ⟨s, uses⟩ => ⟨(s, if s.waiting.isEmpty then .settled else .exhausted), uses⟩
  | visits + 1, ⟨s, uses⟩ =>
    match s.record a o with
    | ⟨.ended ending, more⟩ => ⟨(s, ending), uses ++ more⟩
    | ⟨.moved after, more⟩ => run a o visits ⟨after, uses ++ more⟩

def finish (a : Analysis ν φ) (o : Oriented ν) (begun : Recorded ν φ (State ν φ)) :
    Option (Recorded ν φ (State ν φ × Ending φ)) :=
  match begun.result.record a o with
  | ⟨.ended ending, more⟩ => some ⟨(begun.result, ending), begun.uses ++ more⟩
  | ⟨.moved after, more⟩ => (⟨after, begun.uses ++ more⟩ : Recorded ν φ (State ν φ)) |>.finish a o
partial_fixpoint

end Recorded

/-- Runs an analysis over a graph as `solve` does, and writes down its uses. -/
def recordSolve (a : Analysis ν φ) (g : Graph ν) (limit : Option Nat) : Option (Recorded ν φ (Run ν φ)) :=
  let o := g.orient a.direction
  let begun := State.prepare a o
  let ended := match limit with
    | some visits => some (begun.run a o visits)
    | none => begun.finish a o
  ended.map fun ⟨(last, ending), uses⟩ => ⟨⟨a.direction, o.order, last, ending⟩, uses⟩

/-- What a visit joined before it met a node without facts. -/
def Ending.joins (a : Analysis ν φ) : Ending φ → List (Callback ν φ)
  | .broken before sources => (joinsOf a before sources).reverse
  | .settled | .exhausted => []

namespace State

variable (a : Analysis ν φ) (o : Oriented ν)

/-- The preparation makes the boundary fact, and then a starting fact for every node in order. -/
theorem prepare_eq : prepare a o =
    ⟨State.initial a o, .boundary a.boundary :: o.order.map fun n => .start n (a.start n)⟩ := by
  have folded (into : ν → φ) (nodes : List ν) (flows : Std.TreeMap ν (Flow φ)) :
      nodes.foldlM (fun flows n => (do
        let outgoing ← a.useStart n
        pure (flows.insert n ⟨into n, outgoing⟩) : Recorded ν φ _)) flows =
        ⟨nodes.foldl (fun flows n => flows.insert n ⟨into n, a.start n⟩) flows,
          nodes.map fun n => .start n (a.start n)⟩ := by
    induction nodes generalizing flows with
    | nil => rfl
    | cons n nodes ih =>
      rw [List.foldlM_cons, Recorded.bind_eq, ih]
      rfl
  have facts := folded (fun n => if (Std.TreeSet.ofList o.starts).contains n then a.boundary else a.bottom) o.order ∅
  simp only [prepare, Recorded.bind_eq, Recorded.pure_eq, Analysis.useBoundary] at facts ⊢
  rw [facts, List.append_nil]
  rfl

variable {a o}

private theorem outgoingUntil_cons (s : State ν φ) (n : ν) (senders : List ν) : s.outgoingUntil (n :: senders) =
    match s.outgoing? n with
    | none => []
    | some source => source :: s.outgoingUntil senders := by
  cases found : s.outgoing? n <;> simp [outgoingUntil, found]

private theorem receive_eq (s : State ν φ) (senders : List ν) (target : φ) : s.receive a senders target =
    ⟨(s.outgoingUntil senders,
        (senders.mapM s.outgoing?).map (List.foldl (fun target source => a.join source target) target)),
      (joinsOf a target (s.outgoingUntil senders)).reverse⟩ := by
  induction senders generalizing target with
  | nil => rfl
  | cons n senders ih =>
    rw [receive, outgoingUntil_cons, List.mapM_cons]
    cases found : s.outgoing? n with
    | none => rfl
    | some source =>
      simp only [Recorded.bind_eq, Recorded.pure_eq, Analysis.useJoin, ih, joinsOf_cons]
      cases senders.mapM s.outgoing? <;> simp

private theorem outgoingUntil_of_sent {s : State ν φ} {senders : List ν} {sources : List φ}
    (sent : senders.map s.outgoing? = sources.map some) : s.outgoingUntil senders = sources := by
  induction senders generalizing sources with
  | nil =>
    obtain rfl := List.map_eq_nil_iff.mp sent.symm
    rfl
  | cons n senders ih =>
    cases sources with
    | nil => cases sent
    | cons source sources =>
      obtain ⟨found, rest⟩ := List.cons.inj sent
      rw [outgoingUntil_cons, found, ih rest]

/-- A step and its record come to the same. A step that ends a run uses the analysis only for
what is joined before a node turns out to have no facts; any other makes the uses of its visit. -/
theorem record_cases (a : Analysis ν φ) (o : Oriented ν) (s : State ν φ) :
    (∃ ending, s.step a o = .ended ending ∧ s.record a o = ⟨.ended ending, ending.joins a⟩) ∨
    ∃ after uses, s.step a o = .moved after ∧ s.record a o = ⟨.moved after, uses⟩ ∧
      after.callbacks a o = s.callbacks a o ++ uses := by
  cases popped : s.waiting.pop? with
  | none =>
    refine Or.inl ⟨.settled, by simp only [step, popped], ?_⟩
    simp only [record, popped]
    rfl
  | some taken =>
    obtain ⟨n, rest⟩ := taken
    cases found : s.flows.get? n with
    | none =>
      refine Or.inl ⟨.broken a.bottom [], by simp only [step, popped, found], ?_⟩
      simp only [record, popped, found]
      rfl
    | some flow =>
      have received := s.receive_eq (a := a) (o.inflow.next n) flow.incoming
      cases sent : (o.inflow.next n).mapM s.outgoing? with
      | none =>
        refine Or.inl ⟨.broken flow.incoming (s.outgoingUntil (o.inflow.next n)), ?_, ?_⟩
        · simp only [step, popped, found, sent]
        · simp only [record, popped, found, received, sent, Recorded.bind_eq, Recorded.pure_eq, Option.map_none,
            List.append_nil]
          rfl
      | some sources =>
        have same := mapM_eq_some_iff.mp sent
        rw [sent, outgoingUntil_of_sent same] at received
        refine Or.inr ⟨_, (Visit.ofSources a o rest n flow sources).callbacks a, step_of_visit popped found same, ?_, ?_⟩
        · simp only [record, popped, found, received, Recorded.bind_eq, Recorded.pure_eq, Option.map_some]
          rfl
        · rw [callbacks, callbacks, visit, List.reverse_cons, List.flatMap_append, List.flatMap_singleton,
            List.append_assoc]

/-- What comes of a run, with the record that is put together from its visits. -/
def told (a : Analysis ν φ) (o : Oriented ν) (ended : State ν φ × Ending φ) : Recorded ν φ (State ν φ × Ending φ) :=
  ⟨ended, ended.1.callbacks a o ++ ended.2.joins a⟩

theorem recorded_run (s : State ν φ) (visits : Nat) :
    Recorded.run a o visits ⟨s, s.callbacks a o⟩ = told a o (s.run a o visits) := by
  induction visits generalizing s with
  | zero =>
    rw [Recorded.run, run, told]
    split <;> simp [Ending.joins]
  | succ visits ih =>
    rw [Recorded.run, run]
    rcases record_cases a o s with ⟨ending, ended, recorded⟩ | ⟨after, uses, moved, recorded, made⟩
    · simp only [ended, recorded]
      rfl
    · simp only [moved, recorded, ← made]
      exact ih after

theorem recorded_finish (s : State ν φ) :
    Recorded.finish a o ⟨s, s.callbacks a o⟩ = (s.finish a o).map (told a o) := by
  refine Option.ext fun ended => ?_
  rw [Option.map_eq_some_iff]
  constructor
  · intro finished
    refine Recorded.finish.partial_correctness a o (fun begun ended => ∀ s, begun = ⟨s, s.callbacks a o⟩ →
      ∃ last, s.finish a o = some last ∧ told a o last = ended) ?_ _ ended finished s rfl
    rintro finish ih _ ended finished s rfl
    rw [State.finish]
    rcases record_cases a o s with ⟨ending, stopped, recorded⟩ | ⟨after, uses, moved, recorded, made⟩
    · simp only [recorded] at finished
      simp only [stopped]
      exact ⟨_, rfl, Option.some.inj finished⟩
    · simp only [recorded, ← made] at finished
      simp only [moved]
      exact ih _ ended finished after rfl
  · rintro ⟨last, finished, rfl⟩
    refine finish.partial_correctness a o (fun s last => Recorded.finish a o ⟨s, s.callbacks a o⟩ = some (told a o last))
      ?_ s last finished
    intro finish ih s last finished
    rw [Recorded.finish]
    rcases record_cases a o s with ⟨ending, stopped, recorded⟩ | ⟨after, uses, moved, recorded, made⟩
    · simp only [stopped] at finished
      obtain rfl := Option.some.inj finished
      simp only [recorded]
      rfl
    · simp only [moved] at finished
      simp only [recorded, ← made]
      exact ih after last finished

/-- The states that a recorded run passes through, with what it has written down. -/
inductive Recording (a : Analysis ν φ) (o : Oriented ν) : List (Callback ν φ) → State ν φ → Prop where
  | prepared : Recording a o (prepare a o).uses (prepare a o).result
  | step {uses more : List (Callback ν φ)} {s after : State ν φ} (before : Recording a o uses s)
      (moved : s.record a o = ⟨.moved after, more⟩) : Recording a o (uses ++ more) after

private theorem callbacks_initial (a : Analysis ν φ) (o : Oriented ν) :
    (State.initial a o).callbacks a o = .boundary a.boundary :: o.order.map fun n => .start n (a.start n) :=
  List.append_nil _

/-- Up to any state that a run passes through, its record is the one told by the visits. -/
theorem recording_iff {uses : List (Callback ν φ)} {s : State ν φ} :
    Recording a o uses s ↔ Reachable a o s ∧ uses = s.callbacks a o := by
  constructor
  · intro recording
    induction recording with
    | prepared =>
      rw [prepare_eq, callbacks_initial]
      exact ⟨.initial, rfl⟩
    | @step _ more s after _ recorded ih =>
      obtain ⟨reached, rfl⟩ := ih
      rcases record_cases a o s with ⟨ending, -, other⟩ | ⟨next, uses, moved, other, made⟩
      · cases recorded.symm.trans other
      · obtain ⟨rfl, rfl⟩ : after = next ∧ more = uses := by simpa using recorded.symm.trans other
        exact ⟨reached.step moved, made.symm⟩
  · rintro ⟨reached, rfl⟩
    induction reached with
    | initial =>
      have begun := Recording.prepared (a := a) (o := o)
      rwa [prepare_eq, ← callbacks_initial] at begun
    | @step s after _ moved ih =>
      rcases record_cases a o s with ⟨ending, ended, -⟩ | ⟨next, uses, other, recorded, made⟩
      · cases ended.symm.trans moved
      · obtain rfl := Progress.moved.inj (moved.symm.trans other)
        rw [made]
        exact ih.step recorded

end State

private theorem Run.callbacks_eq (a : Analysis ν φ) (o : Oriented ν) (d : Direction) (ended : State ν φ × Ending φ) :
    (⟨d, o.order, ended.1, ended.2⟩ : Run ν φ).callbacks a = ended.1.callbacks a o ++ ended.2.joins a := by
  obtain ⟨last, ending⟩ := ended
  cases ending <;> rfl

/-- Writing down the uses of an analysis as they are made changes nothing about a run, and gives
the uses that its visits tell, whatever the analysis does, and however the run ends. -/
theorem recordSolve_eq (a : Analysis ν φ) (g : Graph ν) (limit : Option Nat) :
    recordSolve a g limit = (solve a g limit).map fun run => ⟨run, run.callbacks a⟩ := by
  unfold recordSolve solve
  simp only [State.prepare_eq, ← State.callbacks_initial, State.recorded_run, State.recorded_finish]
  cases limit with
  | some visits => simp [State.told, Run.callbacks_eq]
  | none => simp [State.told, Run.callbacks_eq, Function.comp_def]

end Dataflow
