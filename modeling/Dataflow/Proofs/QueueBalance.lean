import Dataflow.Proofs.SolverLimit

/-! What the events of a run say about its queue: every node that was put in was taken out or still
waits, and a node is put back only because of the visit before. -/

namespace Dataflow

/-- A node was taken from the queue and visited, or was put back in the queue. -/
inductive Event (ν : Type) where
  | processed (node : ν) (changed : Bool)
  | requeued (node : ν)

namespace Event

variable {ν : Type}

def line [NodeName ν] : Event ν → LogLine
  | processed n changed => ⟨.trace, "Processed node", [("node", nodeName n), ("changed", toString changed)]⟩
  | requeued n => ⟨.trace, "Requeued node", [("neighbour", nodeName n)]⟩

def processed? : Event ν → Option ν
  | processed n _ => some n
  | requeued _ => none

def requeued? : Event ν → Option ν
  | processed _ _ => none
  | requeued n => some n

/-- The queue after an event. A visit takes the first node, and one that is put back goes last. -/
def replay (waiting : List ν) : Event ν → List ν
  | processed _ _ => waiting.tail
  | requeued n => waiting ++ [n]

private theorem foldl_replay_requeued (waiting nodes : List ν) :
    (nodes.map requeued).foldl replay waiting = waiting ++ nodes := by
  induction nodes generalizing waiting with
  | nil => exact (List.append_nil waiting).symm
  | cons n nodes ih =>
    rw [List.map_cons, List.foldl_cons, ih, replay, List.append_assoc]
    rfl

private theorem requeued_cases {events before after : List (Event ν)} {n v : ν} {changed : Bool} {nodes : List ν}
    (split : events ++ processed n changed :: nodes.map requeued = before ++ requeued v :: after) :
    (∃ rest, events = before ++ requeued v :: rest) ∨
      ∃ first others, nodes = first ++ v :: others ∧ before = events ++ processed n changed :: first.map requeued := by
  rcases List.append_eq_append_iff.mp split with ⟨between, rfl, made⟩ | ⟨between, rfl, made⟩
  · cases between with
    | nil => cases made
    | cons event between =>
      obtain ⟨rfl, mapped⟩ := List.cons.inj (made.trans (List.cons_append ..))
      obtain ⟨first, last, rfl, rfl, behind⟩ := List.map_eq_append_iff.mp mapped
      obtain ⟨w, others, rfl, same, -⟩ := List.map_eq_cons_iff.mp behind
      obtain rfl := Event.requeued.inj same
      exact Or.inr ⟨first, others, rfl, rfl⟩
  · cases between with
    | nil => cases made
    | cons event between =>
      obtain ⟨rfl, -⟩ := List.cons.inj made
      exact Or.inl ⟨between, rfl⟩

end Event

variable {ν φ : Type}

def Visit.events (v : Visit ν φ) : List (Event ν) := .processed v.node v.changed :: v.requeued.map .requeued

private theorem Visit.log_eq [NodeName ν] (v : Visit ν φ) : v.log = v.events.map Event.line := by
  rw [log, events, List.map_cons, List.map_map]
  rfl

variable [Ord ν]

/-- The last visit changed what flows out of a node upstream, and it put back a node that did not
wait. -/
structure PutBack (o : Oriented ν) (before : List (Event ν)) (v : ν) : Prop where
  cause : ∃ (earlier : List (Event ν)) (n : ν) (others : List ν),
    before = earlier ++ .processed n true :: others.map .requeued ∧ n ∈ o.inflow.next v
  absent : v ∉ before.foldl Event.replay o.order

namespace State

def events (s : State ν φ) : List (Event ν) := s.history.reverse.flatMap Visit.events

def processed (s : State ν φ) : List ν := s.events.filterMap Event.processed?

def requeued (s : State ν φ) : List ν := s.events.filterMap Event.requeued?

variable {a : Analysis ν φ} {o : Oriented ν} {s : State ν φ} {n : ν} {rest : Worklist ν} {flow : Flow φ}
  {sources : List φ}

private theorem events_visit : (s.visit a o n rest flow sources).events =
    s.events ++ .processed n (Visit.ofSources a o rest n flow sources).changed ::
      (Visit.ofSources a o rest n flow sources).requeued.map .requeued := by
  rw [events, visit, List.reverse_cons, List.flatMap_append, List.flatMap_singleton]
  rfl

private theorem processed_visit : (s.visit a o n rest flow sources).processed = s.processed ++ [n] := by
  have none : (Event.processed? ∘ Event.requeued : ν → Option ν) = fun _ => none := rfl
  rw [processed, events_visit, List.filterMap_append, List.filterMap_cons, List.filterMap_map, none]
  exact congrArg (fun others => s.processed ++ n :: others) (List.filterMap_none _)

private theorem requeued_visit : (s.visit a o n rest flow sources).requeued =
    s.requeued ++ (Visit.ofSources a o rest n flow sources).requeued := by
  have all : (Event.requeued? ∘ Event.requeued : ν → Option ν) = some := rfl
  rw [requeued, events_visit, List.filterMap_append, List.filterMap_cons, List.filterMap_map, all]
  exact congrArg (s.requeued ++ ·) List.filterMap_some

/-- The events account for the queue. They tell of one visit each, and replayed over the order of
first visits they leave the nodes that wait. Each node waited as often as it was first due or put
back, so it was taken out as often or waits still. -/
structure Balanced (o : Oriented ν) (s : State ν φ) : Prop where
  visits : s.processed.length = s.history.length
  replayed : s.events.foldl Event.replay o.order = s.waiting.toList
  balance : (s.processed ++ s.waiting.toList).Perm (o.order ++ s.requeued)
  putBack : ∀ before v after, s.events = before ++ .requeued v :: after → PutBack o before v

theorem Balanced.initial : Balanced o (State.initial a o) := by
  have waiting : (State.initial a o).waiting.toList = o.order := Worklist.toList_ofList _
  refine ⟨rfl, waiting.symm, ?_, ?_⟩
  · rw [waiting]
    exact .of_eq (List.append_nil o.order).symm
  · intro before v after split
    cases (List.append_eq_nil_iff.mp split.symm).2

/-- A node waits for every time that it was due or put back and has not been taken out. -/
theorem Balanced.count [DecidableEq ν] (balanced : Balanced o s) (v : ν) :
    s.processed.count v + s.waiting.toList.count v = o.order.count v + s.requeued.count v := by
  rw [← List.count_append, ← List.count_append]
  exact balanced.balance.count_eq v

variable [Std.TransOrd ν] [Std.LawfulEqOrd ν]

/-- What a visit puts back is downstream of its node and, one by one, not yet in the queue. -/
theorem Balanced.visit (balanced : Balanced o s) (orderly : Orderly o s) (wf : o.WellFormed)
    (popped : s.waiting.pop? = some (n, rest)) (flow : Flow φ) (sources : List φ) :
    Balanced o (s.visit a o n rest flow sources) := by
  obtain ⟨visits, replayed, balance, putBack⟩ := balanced
  have waiting := Worklist.toList_of_pop? popped
  have valid := (orderly.queue.pop? popped).1
  rw [waiting] at replayed balance
  have taken (changed : Bool) (nodes : List ν) :
      (s.events ++ Event.processed n changed :: nodes.map .requeued).foldl Event.replay o.order =
        rest.toList ++ nodes := by
    rw [List.foldl_append, replayed, List.foldl_cons, Event.foldl_replay_requeued]
    rfl
  constructor
  · rw [processed_visit, List.length_append, visits]
    rfl
  · rw [events_visit, taken, visit_waiting]
  · rw [processed_visit, visit_waiting, requeued_visit]
    simpa only [List.append_assoc, List.cons_append, List.nil_append] using balance.append_right _
  · intro before v after split
    rw [events_visit] at split
    rcases Event.requeued_cases split with ⟨others, earlier⟩ | ⟨first, others, nodes, rfl⟩
    · exact putBack before v others earlier
    · obtain ⟨changed, edge, fresh⟩ := mem_requeued.mp (nodes ▸ List.mem_append_right first List.mem_cons_self)
      have single : (Visit.ofSources a o rest n flow sources).requeued.Nodup := nodup_distinct _
      rw [changed] at split ⊢
      refine ⟨⟨s.events, n, first, rfl, (wf.transposed n v).mp edge⟩, ?_⟩
      rw [taken, List.mem_append, not_or]
      constructor
      · intro waits
        cases fresh.symm.trans ((valid.marked v).mpr waits)
      · rw [nodes] at single
        exact fun again => (List.nodup_append.mp single).2.2 v again v List.mem_cons_self rfl

theorem Reachable.balanced (reached : Reachable a o s) (wf : o.WellFormed) : Balanced o s := by
  induction reached using Reachable.visits with
  | initial => exact .initial
  | visit before popped found sent ih => exact ih.visit (before.orderly wf) wf popped _ _

end State

namespace Run

variable {a : Analysis ν φ} {g : Graph ν} {limit : Option Nat} {run : Run ν φ}

private theorem reachable_last (solved : solve a g limit = some run) :
    State.Reachable a (g.orient a.direction) run.last := by
  obtain ⟨visits, rfl, -⟩ := eq_within solved
  exact State.Reachable.initial.run visits

private theorem outcome_eq_didNotConverge_iff {visits : Nat} :
    run.outcome = .error (.didNotConverge visits) ↔ run.ending = .exhausted ∧ run.iterations = visits := by
  unfold outcome
  split <;> simp [*]

private theorem waiting_of_cut {visits : Nat} (solved : solve a g limit = some run)
    (cut : run.outcome = .error (.didNotConverge visits)) :
    run.last.waiting.toList ≠ [] ∧ run.last.history.length = visits := by
  obtain ⟨exhausted, made⟩ := outcome_eq_didNotConverge_iff.mp cut
  obtain ⟨most, rfl, -⟩ := eq_within solved
  exact ⟨(State.run_exhausted exhausted).2, made⟩

/-- The log tells of the events in its finest lines. -/
theorem log_eq [NodeName ν] (run : Run ν φ) : run.log.filter (·.level = .trace) = run.last.events.map Event.line := by
  have lines : run.visits.flatMap Visit.log = run.last.events.map Event.line := by
    rw [State.events, List.map_flatMap, visits]
    exact congrArg (fun f => List.flatMap f _) (funext Visit.log_eq)
  have all : (run.last.events.map Event.line).filter (·.level = .trace) = run.last.events.map Event.line := by
    rw [List.filter_eq_self]
    intro line told
    obtain ⟨event, -, rfl⟩ := List.mem_map.mp told
    cases event <;> rfl
  rw [log, lines, List.cons_append, List.filter_cons_of_neg Bool.false_ne_true, List.filter_append, all]
  cases run.ending <;> exact List.append_nil _

end Run

variable [Std.TransOrd ν] [Std.LawfulEqOrd ν] [DecidableEq ν] [NodeName ν] {g : Graph ν}

/-- Along every run, whatever the analysis does, the queue is what the events make of the order of
first visits. A node is put back only by the visit before, of a node upstream whose outgoing fact
changed, and only if it does not wait. So a run that settles visits every node once and once more
for each time that it was put back. A run that is cut off has made as many visits as it tells, none
of them unaccounted for, and owes a visit to some node. -/
theorem Graph.WellFormed.queue_balances (wf : g.WellFormed) (a : Analysis ν φ) :
    (∀ s, State.Reachable a (g.orient a.direction) s →
      s.events.foldl Event.replay (g.orient a.direction).order = s.waiting.toList ∧
      ∀ before v after, s.events = before ++ .requeued v :: after → PutBack (g.orient a.direction) before v) ∧
    ∀ limit run, solve a g limit = some run → State.Reachable a (g.orient a.direction) run.last ∧
      run.log.filter (·.level = .trace) = run.last.events.map Event.line ∧
      (∀ s, run.outcome = .ok s →
        (∀ v ∈ g.nodes, run.last.processed.count v = 1 + run.last.requeued.count v) ∧
        s.iterations = {n | n ∈ g.nodes}.ncard + run.last.requeued.length) ∧
      ∀ visits, run.outcome = .error (.didNotConverge visits) → run.last.processed.length = visits ∧
        (∀ v, run.last.processed.count v ≤ 1 + run.last.requeued.count v) ∧
        ∃ v ∈ g.nodes, run.last.processed.count v < 1 + run.last.requeued.count v := by
  have oriented := wf.orient a.direction
  have listed (v : ν) : v ∈ (g.orient a.direction).order ↔ v ∈ g.nodes := by
    rw [oriented.mem_order, g.nodes_orient]
  constructor
  · intro s reached
    have balanced := reached.balanced oriented
    exact ⟨balanced.replayed, balanced.putBack⟩
  · intro limit run solved
    have reached := Run.reachable_last solved
    have balanced := reached.balanced oriented
    refine ⟨reached, run.log_eq, ?_, ?_⟩
    · intro s ok
      obtain ⟨-, empty, iterations⟩ := Run.last_of_settled solved ok
      constructor
      · intro v member
        have count := balanced.count v
        rwa [empty, List.count_eq_one_of_mem (Oriented.nodup_order _) ((listed v).mpr member)] at count
      · have total := balanced.balance.length_eq
        rw [empty, List.append_nil, balanced.visits, List.length_append, oriented.length_order, g.nodes_orient] at total
        exact iterations.trans total
    · intro visits cut
      obtain ⟨waits, length⟩ := Run.waiting_of_cut solved cut
      have below (v : ν) : run.last.processed.count v + run.last.waiting.toList.count v ≤
          1 + run.last.requeued.count v := by
        rw [balanced.count v]
        exact Nat.add_le_add_right (List.nodup_iff_count_le_one.mp (Oriented.nodup_order _) v) _
      refine ⟨balanced.visits.trans length, fun v => (Nat.le_add_right _ _).trans (below v), ?_⟩
      obtain ⟨v, waiting⟩ := List.exists_mem_of_ne_nil _ waits
      have member := (reached.orderly oriented).listed v waiting
      rw [g.nodes_orient] at member
      have counted := List.count_pos_iff.mpr waiting
      exact ⟨v, member, Nat.lt_of_lt_of_le (Nat.lt_add_of_pos_right counted) (below v)⟩

namespace Tabular

/-- On the trail through the knot, node 1 follows itself and is put back twice: by its own first
visit, and by its second, which also puts back both of its other neighbours. -/
theorem trail_balances :
    (∃ run s, solve trail.analysis knot (some 9) = some run ∧ run.outcome = .ok s ∧
      run.last.processed.count 1 = 1 + run.last.requeued.count 1 ∧ run.last.requeued = [1, 2, 1, 3] ∧
      s.iterations = {n | n ∈ knot.nodes}.ncard + 4 ∧
      PutBack (knot.orient .forward) [.processed 0 true, .processed 1 true] 1) ∧
    ∃ run, solve trail.analysis knot (some 8) = some run ∧ run.outcome = .error (.didNotConverge 8) ∧
      run.last.processed.length = 8 ∧ ∃ v ∈ knot.nodes, run.last.processed.count v < 1 + run.last.requeued.count v := by
  obtain ⟨along, whole⟩ := knot_wellFormed.queue_balances trail.analysis
  constructor
  · obtain ⟨s, run, solved, ok⟩ : ∃ s, trail.analysis.Settles knot (some 9) s := Analysis.Settles.of_run rfl
    obtain ⟨reached, -, settled, -⟩ := whole (some 9) run solved
    obtain ⟨counts, iterations⟩ := settled s ok
    obtain rfl := Option.some.inj solved
    refine ⟨_, s, solved, ok, counts 1 (by decide), rfl, iterations, ?_⟩
    exact (along _ reached).2 _ 1 _ rfl
  · have solved : solve trail.analysis knot (some 8) = some (.within trail.analysis knot 8) := rfl
    have cut : (Run.within trail.analysis knot 8).outcome = .error (.didNotConverge 8) := rfl
    obtain ⟨-, -, -, stopped⟩ := whole (some 8) _ solved
    obtain ⟨length, -, owed⟩ := stopped 8 cut
    exact ⟨_, solved, cut, length, owed⟩

end Tabular

end Dataflow
