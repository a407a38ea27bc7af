import Dataflow.Proofs.FactTables
import Dataflow.Proofs.GraphWalk
import Dataflow.Proofs.RecordedRuns
import Dataflow.Proofs.SolverDuality

/-! The result of a run as a table. Its rows are the nodes of the graph in the order in which they
were first queued, and what is asked of a node is answered from its own row, even if the facts are
kept in lists beside the nodes. -/

namespace Dataflow

variable {ν φ : Type} [Ord ν]

/-- Suggested nodes stand first, in the order in which they first occur in the suggestion, and then
the others, as they are listed. -/
def Follows (suggestion nodes order : List ν) : Prop :=
  ∃ first rest, order = first ++ rest ∧
    ((∀ n, n ∈ first ↔ n ∈ suggestion) ∧ first.Pairwise (OccursFirst suggestion)) ∧
    (∀ n, n ∈ rest ↔ n ∈ nodes ∧ n ∉ suggestion) ∧ rest.Pairwise (OccursFirst nodes)

private theorem follows_distinct [Std.TransOrd ν] [Std.LawfulEqOrd ν] (suggestion nodes : List ν) :
    Follows suggestion nodes (distinct (suggestion ++ nodes)) := by
  obtain ⟨rest, split, others⟩ := exists_distinct_append suggestion nodes
  exact ⟨distinct suggestion, rest, split, ⟨mem_distinct suggestion, distinctFrom_occursFirst ∅ suggestion⟩, others⟩

/-- Nodes listed along the edges, turned the way that facts flow. -/
def Direction.turn : Direction → List ν → List ν
  | .forward, nodes => nodes
  | .backward, nodes => nodes.reverse

private theorem Graph.follows_hint [Std.TransOrd ν] [Std.LawfulEqOrd ν] (g : Graph ν) (d : Direction) {hint : List ν}
    (given : g.hint = some hint) : Follows (d.turn hint) g.nodes (g.orient d).order := by
  have follows := follows_distinct (d.turn hint) g.nodes
  cases d with
  | forward =>
    rw [Oriented.order, orient, given]
    exact follows
  | backward =>
    rw [Oriented.order, orient, given]
    exact follows

private theorem Graph.follows_walk [Std.TransOrd ν] [Std.LawfulEqOrd ν] (g : Graph ν) (d : Direction)
    (unhinted : g.hint = none) :
    Follows ((g.orient d).outflow.reversePostOrder (g.orient d).starts) g.nodes (g.orient d).order := by
  have follows := follows_distinct ((g.orient d).outflow.reversePostOrder (g.orient d).starts) (g.orient d).nodes
  have none : (g.orient d).hint = none := by
    cases d with
    | forward => exact unhinted
    | backward => exact Option.map_eq_none_iff.mpr unhinted
  rw [Oriented.order, none, Option.getD_none, ← g.nodes_orient d]
  exact follows

def Solution.nodes (s : Solution ν φ) : List ν := s.rows.map Prod.fst

/-- Every node has one row, no other node has any, and what is told of a node stands in its row. -/
structure Solution.Covers (s : Solution ν φ) (nodes : List ν) : Prop where
  single : s.nodes.Nodup
  rows : ∀ n, n ∈ s.nodes ↔ n ∈ nodes
  contains : ∀ n, s.contains n = true ↔ n ∈ s.nodes
  facts : ∀ n before after, (n, before, after) ∈ s.rows ↔ s.inFact? n = some before ∧ s.outFact? n = some after
  foreign : ∀ n, n ∉ nodes → s.inFact? n = none ∧ s.outFact? n = none

/-- The facts of a solution, for the nodes of its order and no others. -/
structure Solution.Records (s : Solution ν φ) (into out : ν → φ) : Prop where
  inside : ∀ n ∈ s.order, s.flows.get? n = some ⟨into n, out n⟩
  outside : ∀ n, n ∉ s.order → s.flows.get? n = none

namespace Solution.Records

variable {s : Solution ν φ} {into out : ν → φ} {n : ν}

private theorem rows (records : s.Records into out) : s.rows =
    s.order.map fun n => (n, Flow.before ⟨into n, out n⟩ s.direction, Flow.after ⟨into n, out n⟩ s.direction) := by
  rw [Solution.rows, ← List.filterMap_eq_map]
  refine List.filterMap_congr fun n listed => ?_
  rw [records.inside n listed]
  rfl

private theorem nodes (records : s.Records into out) : s.nodes = s.order := by
  rw [Solution.nodes, records.rows, List.map_map]
  exact List.map_id s.order

open Classical in
private theorem inFact? (records : s.Records into out) (n : ν) :
    s.inFact? n = if n ∈ s.order then some (Flow.before ⟨into n, out n⟩ s.direction) else none := by
  rw [Solution.inFact?]
  split
  next listed => rw [records.inside n listed, Option.map_some]
  next absent => rw [records.outside n absent, Option.map_none]

open Classical in
private theorem outFact? (records : s.Records into out) (n : ν) :
    s.outFact? n = if n ∈ s.order then some (Flow.after ⟨into n, out n⟩ s.direction) else none := by
  rw [Solution.outFact?]
  split
  next listed => rw [records.inside n listed, Option.map_some]
  next absent => rw [records.outside n absent, Option.map_none]

variable [Std.TransOrd ν]

private theorem contains (records : s.Records into out) (n : ν) : s.contains n = true ↔ n ∈ s.order := by
  have told : s.contains n = (s.flows.get? n).isSome := Std.TreeMap.contains_eq_isSome_getElem?
  rw [told]
  by_cases listed : n ∈ s.order
  · rw [records.inside n listed]
    exact iff_of_true rfl listed
  · rw [records.outside n listed]
    exact iff_of_false Bool.false_ne_true listed

theorem covers (records : s.Records into out) (single : s.order.Nodup) {nodes : List ν}
    (same : ∀ n, n ∈ s.order ↔ n ∈ nodes) : s.Covers nodes := by
  refine ⟨?_, ?_, ?_, ?_, ?_⟩
  · rwa [records.nodes]
  · rwa [records.nodes]
  · rw [records.nodes]
    exact records.contains
  · intro n before after
    rw [records.rows, records.inFact?, records.outFact?, List.mem_map]
    constructor
    · rintro ⟨m, listed, told⟩
      obtain ⟨rfl, rfl, rfl⟩ : m = n ∧ _ = before ∧ _ = after := by simpa only [Prod.mk.injEq] using told
      exact ⟨if_pos listed, if_pos listed⟩
    · intro ⟨entering, leaving⟩
      by_cases listed : n ∈ s.order
      · rw [if_pos listed] at entering leaving
        obtain rfl := Option.some.inj entering
        obtain rfl := Option.some.inj leaving
        exact ⟨n, listed, rfl⟩
      · rw [if_neg listed] at entering
        cases entering
  · intro n foreign
    rw [← same] at foreign
    rw [records.inFact?, records.outFact?]
    exact ⟨if_neg foreign, if_neg foreign⟩

end Solution.Records

namespace FactTable

def before (t : FactTable ν φ) : Direction → List φ
  | .forward => t.incoming
  | .backward => t.outgoing

def after (t : FactTable ν φ) : Direction → List φ
  | .forward => t.outgoing
  | .backward => t.incoming

def rows (t : FactTable ν φ) (d : Direction) : List (ν × φ × φ) := t.nodes.zip ((t.before d).zip (t.after d))

def contains (t : FactTable ν φ) (n : ν) : Bool := t.index.contains n

def inFact? (t : FactTable ν φ) (d : Direction) (n : ν) : Option φ :=
  (t.index.get? n).bind fun place => (t.before d)[place]?

def outFact? (t : FactTable ν φ) (d : Direction) (n : ν) : Option φ :=
  (t.index.get? n).bind fun place => (t.after d)[place]?

variable {nodes : List ν} {into out : ν → φ} {d : Direction}

private theorem before_fill : (fill nodes into out).before d = nodes.map fun n => Flow.before ⟨into n, out n⟩ d := by
  cases d <;> rfl

private theorem after_fill : (fill nodes into out).after d = nodes.map fun n => Flow.after ⟨into n, out n⟩ d := by
  cases d <;> rfl

private theorem rows_fill : (fill nodes into out).rows d =
    nodes.map fun n => (n, Flow.before ⟨into n, out n⟩ d, Flow.after ⟨into n, out n⟩ d) := by
  have zipped {β : Type} (f : ν → β) : nodes.zip (nodes.map f) = nodes.map fun n => (n, f n) := by
    have both := List.zip_map' (f := id) (g := f) (l := nodes)
    rwa [List.map_id] at both
  rw [rows, before_fill, after_fill, List.zip_map']
  exact zipped _

variable [Std.TransOrd ν] [Std.LawfulEqOrd ν]

open Classical in
private theorem bind_places {β : Type} (single : nodes.Nodup) (f : ν → β) (n : ν) :
    ((places nodes).get? n).bind (fun place => (nodes.map f)[place]?) = if n ∈ nodes then some (f n) else none := by
  split
  next member =>
    obtain ⟨place, listed⟩ := List.mem_iff_getElem?.mp member
    rw [(get?_places single n place).mpr listed, Option.bind_some, List.getElem?_map, listed, Option.map_some]
  next absent =>
    cases told : (places nodes).get? n with
    | none => rfl
    | some place => exact absurd (List.mem_of_getElem? ((get?_places single n place).mp told)) absent

private theorem contains_fill (single : nodes.Nodup) (n : ν) : (fill nodes into out).contains n = true ↔ n ∈ nodes := by
  rw [contains, fill, Std.TreeMap.contains_eq_isSome_getElem?, ← Std.TreeMap.get?_eq_getElem?, Option.isSome_iff_exists,
    List.mem_iff_getElem?]
  exact exists_congr fun place => get?_places single n place

private theorem fill_tells {s : Solution ν φ} (records : s.Records into out) (single : s.order.Nodup) :
    (fill s.order into out).rows s.direction = s.rows ∧
      ∀ n, (fill s.order into out).contains n = s.contains n ∧
        (fill s.order into out).inFact? s.direction n = s.inFact? n ∧
        (fill s.order into out).outFact? s.direction n = s.outFact? n := by
  refine ⟨rows_fill.trans records.rows.symm, fun n => ⟨?_, ?_, ?_⟩⟩
  · rw [Bool.eq_iff_iff, contains_fill single, records.contains]
  · rw [inFact?, before_fill, records.inFact?]
    exact bind_places single _ n
  · rw [outFact?, after_fill, records.outFact?]
    exact bind_places single _ n

end FactTable

def Callback.prepares : Callback ν φ → Bool
  | .boundary _ => true
  | .start _ _ => true
  | .join _ _ => false
  | .transfer _ _ _ _ => false

omit [Ord ν] in
private theorem prepares_of_mem_joinsOf {a : Analysis ν φ} {target : φ} {sources : List φ} {use : Callback ν φ}
    (member : use ∈ joinsOf a target sources) : use.prepares = false := by
  induction sources generalizing target with
  | nil => cases member
  | cons source sources ih =>
    rw [joinsOf_cons, List.mem_append, List.mem_singleton] at member
    rcases member with later | rfl
    · exact ih later
    · rfl

omit [Ord ν] in
private theorem Visit.prepares_of_mem_callbacks {a : Analysis ν φ} {v : Visit ν φ} {use : Callback ν φ}
    (member : use ∈ v.callbacks a) : use.prepares = false := by
  rw [callbacks, List.mem_append, List.mem_reverse, List.mem_singleton] at member
  rcases member with joined | rfl
  · exact prepares_of_mem_joinsOf joined
  · rfl

variable {a : Analysis ν φ} {o : Oriented ν}

/-- A run that has come to an empty queue comes to no other state with an empty queue. -/
theorem State.Reachable.eq_of_idle {s t : State ν φ} (reached : Reachable a o s) (other : Reachable a o t)
    (empty : s.waiting.toList = []) (empty' : t.waiting.toList = []) : s = t := by
  have later {s t : State ν φ} (first : Reachable a o s) (second : Reachable a o t) (empty : s.waiting.toList = [])
      (empty' : t.waiting.toList = []) (le : s.history.length ≤ t.history.length) : s = t := by
    have settled := first.run_settled empty
    have whole : ((State.initial a o).run a o s.history.length).2 ≠ .exhausted := by
      rw [settled]
      exact nofun
    have same := run_of_le whole le
    rw [settled, second.run_settled empty'] at same
    exact (Prod.mk.inj same).1.symm
  rcases Nat.le_total s.history.length t.history.length with le | le
  · exact later reached other empty empty' le
  · exact (later other reached empty' empty le).symm

/-- A settled run has used the analysis to prepare the facts, and then only to change them. -/
theorem Run.callbacks_of_settled {g : Graph ν} {limit : Option Nat} {run : Run ν φ}
    (solved : solve a g limit = some run) (settled : run.ending = .settled) :
    recordSolve a g limit = some ⟨run, run.callbacks a⟩ ∧
    ∃ uses, run.callbacks a = (State.prepare a (g.orient a.direction)).uses ++ uses ∧
      ∀ use ∈ uses, use.prepares = false := by
  refine ⟨?_, run.visits.flatMap (Visit.callbacks a), ?_, ?_⟩
  · rw [recordSolve_eq, solved, Option.map_some]
  · rw [callbacks, settled, List.append_nil, order_eq solved, State.prepare_eq]
  · intro use member
    obtain ⟨v, -, made⟩ := List.mem_flatMap.mp member
    exact Visit.prepares_of_mem_callbacks made

variable [Std.TransOrd ν] [Std.LawfulEqOrd ν] {g : Graph ν}

private theorem TableRun.Shows.records {r : TableRun ν φ} {last : State ν φ} (shows : r.Shows o last)
    (orderly : State.Orderly o last) (wf : o.WellFormed) (d : Direction) :
    ∃ into out, r.table = .fill o.order into out ∧
      (⟨d, o.order, last.flows, last.history.length⟩ : Solution ν φ).Records into out := by
  obtain ⟨into, out, table, facts⟩ := shows.facts
  refine ⟨into, out, table, facts, ?_⟩
  intro n absent
  cases found : last.flows.get? n with
  | none => rfl
  | some flow => exact absurd ((wf.mem_order n).mpr ((orderly.known n).mp ⟨flow, found⟩)) absent

/-- The result of a settled run covers the graph. Every node has one row, in the order in which the
nodes were first queued: if an order is suggested, it comes first, turned the way that facts flow,
and the nodes it misses follow as the graph lists them. What is told of a node stands in its row,
and nothing is told of others. As its uses of the analysis were written down, the starting fact of
each node was made once, in the order of the rows, after the fact of the boundary. Facts kept in
lists, with an index of the places of the nodes, come to the same rows and answers. -/
theorem Graph.WellFormed.result_covers_graph (wf : g.WellFormed) (a : Analysis ν φ) {limit : Option Nat} {run : Run ν φ}
    {s : Solution ν φ} (solved : solve a g limit = some run) (ok : run.outcome = .ok s) :
    s.Covers g.nodes ∧ s.nodes = (State.initial a (g.orient a.direction)).waiting.toList ∧
    (∀ hint, g.hint = some hint → Follows (a.direction.turn hint) g.nodes s.nodes) ∧
    (g.hint = none → Follows ((g.orient a.direction).outflow.reversePostOrder (g.orient a.direction).starts) g.nodes
      s.nodes) ∧
    (recordSolve a g limit = some ⟨run, run.callbacks a⟩ ∧
      ∃ uses, run.callbacks a = .boundary a.boundary :: s.nodes.map (fun n => .start n (a.start n)) ++ uses ∧
        ∀ use ∈ uses, use.prepares = false) ∧
    (∃ done r, TableRun.Reached a (g.orient a.direction) limit done r ∧ r.queue = []) ∧
    ∀ done r, TableRun.Reached a (g.orient a.direction) limit done r → r.queue = [] →
      r.iterations = s.iterations ∧ r.table.rows a.direction = s.rows ∧
        ∀ n, r.table.contains n = s.contains n ∧ r.table.inFact? a.direction n = s.inFact? n ∧
          r.table.outFact? a.direction n = s.outFact? n := by
  have oriented := wf.orient a.direction
  have single := (g.orient a.direction).nodup_order
  obtain ⟨settled, told⟩ := Run.outcome_eq_ok_iff.mp ok
  obtain ⟨reached, empty, -⟩ := Run.last_of_settled solved ok
  obtain rfl : (⟨a.direction, (g.orient a.direction).order, run.last.flows, run.last.history.length⟩ : Solution ν φ) = s := by
    obtain ⟨visits, rfl, -⟩ := Run.eq_within solved
    exact told
  have orderly := reached.orderly oriented
  have allowed : ∀ most ∈ limit, run.last.history.length ≤ most := by
    rintro most rfl
    exact Analysis.Settles.iterations_le ⟨run, solved, ok⟩
  obtain ⟨r, tabled, shows⟩ := TableRun.exists_reached reached oriented allowed
  obtain ⟨into, out, -, records⟩ := shows.records orderly oriented a.direction
  refine ⟨?_, ?_, ?_, ?_, ?_, ?_, ?_⟩
  · refine records.covers single fun n => ?_
    rw [← g.nodes_orient a.direction]
    exact oriented.mem_order n
  · rw [records.nodes, State.initial, Worklist.toList_ofList]
  · rw [records.nodes]
    exact fun hint => g.follows_hint a.direction
  · rw [records.nodes]
    exact g.follows_walk a.direction
  · rw [records.nodes]
    have uses := Run.callbacks_of_settled solved settled
    rwa [State.prepare_eq] at uses
  · refine ⟨_, r, tabled, ?_⟩
    rw [shows.queue, empty]
  · intro done r tabled idle
    obtain ⟨t, other, shows, -⟩ := tabled.shows oriented
    obtain rfl : t = run.last := other.eq_of_idle reached (shows.queue.symm.trans idle) empty
    obtain ⟨into, out, table, records⟩ := shows.records orderly oriented a.direction
    rw [table]
    exact ⟨shows.iterations, FactTable.fill_tells records single⟩

namespace Tabular

def fork : Graph Nat := .ofEdges 0 [3] [(0, 1), (0, 2), (1, 3), (2, 3)] none none (some [0, 2, 2, 1])

private theorem fork_wellFormed : fork.WellFormed := .ofEdges (by decide) (by decide)

theorem fork_covered :
    (∃ run s, solve trail.analysis fork none = some run ∧ run.outcome = .ok s ∧ s.nodes = [0, 2, 1, 3] ∧
      s.Covers fork.nodes ∧ Follows [0, 2, 2, 1] fork.nodes s.nodes) ∧
    ∃ run s, solve (trail.analysis.toward .backward) fork none = some run ∧ run.outcome = .ok s ∧
      s.nodes = [1, 2, 0, 3] ∧ s.Covers fork.nodes ∧ Follows [1, 2, 2, 0] fork.nodes s.nodes := by
  have settles (d : Direction) : ∃ s, (trail.analysis.toward d).Settles fork none s := by
    have enough : ∃ s, (trail.analysis.toward d).Settles fork (some 20) s := by
      cases d <;> exact Analysis.Settles.of_run rfl
    exact enough.imp fun s within => within.unlimited
  constructor
  · obtain ⟨s, run, solved, ok⟩ := settles .forward
    obtain ⟨covers, queued, hinted, -⟩ := fork_wellFormed.result_covers_graph _ solved ok
    exact ⟨run, s, solved, ok, queued, covers, hinted [0, 2, 2, 1] rfl⟩
  · obtain ⟨s, run, solved, ok⟩ := settles .backward
    obtain ⟨covers, queued, hinted, -⟩ := fork_wellFormed.result_covers_graph _ solved ok
    exact ⟨run, s, solved, ok, queued, covers, hinted [0, 2, 2, 1] rfl⟩

end Tabular

end Dataflow
