import Dataflow.Proofs.FactTables

/-! What the queue of a run holds, whatever the analysis does: each waiting node once and the marks
of no others, the nodes still to be visited for the first time in front and in order, and behind
them nodes that have been visited. -/

namespace Dataflow

variable {ν φ : Type} [Ord ν]

/-- The queue after visits of the nodes `done`, in that order. The nodes marked are those that wait.
Each waits once, so there are no more of them than nodes, and has a place in the tables. First come
the nodes that have not been visited, which end the order of first visits. -/
structure Oriented.Queue (o : Oriented ν) (done waiting : List ν) (marked placed : ν → Prop) : Prop where
  marked : ∀ n, marked n ↔ n ∈ waiting
  single : waiting.Nodup
  bound : waiting.length ≤ {n | n ∈ o.nodes}.ncard
  placed : ∀ n ∈ waiting, placed n
  pending : ∃ due again, waiting = due ++ again ∧ due <:+ o.order ∧ (∀ n, n ∈ due ↔ n ∈ o.nodes ∧ n ∉ done) ∧
    ∀ n ∈ again, n ∈ done
  visits : done <+: o.order ∨ o.order <+: done

def FactTable.Has (t : FactTable ν φ) (n : ν) : Prop :=
  ∃ place, t.index.get? n = some place ∧ t.nodes[place]? = some n ∧ place < t.incoming.length ∧
    place < t.outgoing.length

variable [Std.TransOrd ν] [Std.LawfulEqOrd ν]

private theorem FactTable.has_fill {nodes : List ν} (single : nodes.Nodup) (into out : ν → φ) {n : ν}
    (member : n ∈ nodes) : (fill nodes into out).Has n := by
  obtain ⟨place, listed⟩ := List.mem_iff_getElem?.mp member
  obtain ⟨inside, -⟩ := List.getElem?_eq_some_iff.mp listed
  refine ⟨place, (get?_places single n place).mpr listed, listed, ?_, ?_⟩
  · rwa [fill, List.length_map]
  · rwa [fill, List.length_map]

namespace State.Orderly

variable {a : Analysis ν φ} {o : Oriented ν} {s : State ν φ}

omit [Std.TransOrd ν] [Std.LawfulEqOrd ν] in
theorem visits (orderly : Orderly o s) : s.visited.reverse <+: o.order ∨ o.order <+: s.visited.reverse := by
  have first : s.visited.reverse.take o.order.length = o.order.take s.history.length := by
    rw [visited, ← List.map_reverse]
    exact orderly.first
  have length : s.visited.reverse.length = s.history.length := by rw [List.length_reverse, visited, List.length_map]
  rcases Nat.le_total s.history.length o.order.length with le | le
  · left
    rw [List.take_of_length_le (length.trans_le le)] at first
    exact first ▸ List.take_prefix _ _
  · right
    rw [List.take_of_length_le le] at first
    exact first ▸ List.take_prefix _ _

private theorem mem_due_iff (orderly : Orderly o s) (wf : o.WellFormed) (n : ν) :
    n ∈ o.order.drop s.history.length ↔ n ∈ o.nodes ∧ n ∉ s.visited := by
  have single := o.nodup_order
  rw [← List.take_append_drop s.history.length o.order, List.nodup_append] at single
  rw [← wf.mem_order]
  constructor
  · intro due
    have member := List.mem_of_mem_drop due
    refine ⟨member, fun visited => ?_⟩
    rw [orderly.mem_visited_iff wf ((wf.mem_order n).mp member)] at visited
    exact single.2.2 n visited n due rfl
  · rintro ⟨member, unvisited⟩
    rw [orderly.mem_visited_iff wf ((wf.mem_order n).mp member)] at unvisited
    rw [← List.take_append_drop s.history.length o.order, List.mem_append] at member
    exact member.resolve_left unvisited

private theorem keeps (orderly : Orderly o s) (wf : o.WellFormed) {placed : ν → Prop}
    (known : ∀ n ∈ o.order, placed n) :
    o.Queue s.visited.reverse s.waiting.toList (s.waiting.contains · = true) placed := by
  have listed : ∀ n ∈ s.waiting.toList, n ∈ o.order := fun n waits => (wf.mem_order n).mpr (orderly.listed n waits)
  obtain ⟨again, split⟩ := orderly.pending
  have single := orderly.queue.single
  refine ⟨orderly.queue.marked, single, ?_, fun n waits => known n (listed n waits), ?_, orderly.visits⟩
  · rw [← wf.length_order]
    exact (List.subperm_of_subset single listed).length_le
  · refine ⟨_, again, split.symm, List.drop_suffix _ _, ?_, ?_⟩
    · intro n
      rw [List.mem_reverse]
      exact orderly.mem_due_iff wf n
    · -- A node that has not been visited stands in front, and no node stands in the queue twice.
      intro n later
      rw [← split, List.nodup_append] at single
      have waits : n ∈ s.waiting.toList := split ▸ List.mem_append_right _ later
      by_contra unvisited
      rw [List.mem_reverse] at unvisited
      exact single.2.2 n ((orderly.mem_due_iff wf n).mpr ⟨orderly.listed n waits, unvisited⟩) n later rfl

end State.Orderly

/-- At the head of the loop, whatever the analysis does, the queue is as it should be: the marks are
those of the nodes in it, no node is in it twice, so it is never longer than there are nodes, each
node in it has its facts, and the nodes not visited yet stand in front, as in the order of first
visits, so that the first visits are made in that order. This holds of a queue with a set beside it
and of facts in lists with an index, which show the states of the run, under any limit. -/
theorem Graph.WellFormed.queue_invariant {g : Graph ν} (wf : g.WellFormed) (a : Analysis ν φ) :
    (∀ s, State.Reachable a (g.orient a.direction) s →
      (g.orient a.direction).Queue s.visited.reverse s.waiting.toList (s.waiting.contains · = true)
        (fun n => ∃ flow, s.flows.get? n = some flow)) ∧
    (∀ limit done r, TableRun.Reached a (g.orient a.direction) limit done r →
      (g.orient a.direction).Queue done r.queue (· ∈ r.queued) r.table.Has ∧ r.iterations = done.length ∧
      ∃ s, State.Reachable a (g.orient a.direction) s ∧ r.Shows (g.orient a.direction) s) ∧
    ∀ limit s, State.Reachable a (g.orient a.direction) s → (∀ most ∈ limit, s.history.length ≤ most) →
      ∃ r, TableRun.Reached a (g.orient a.direction) limit s.visited.reverse r ∧ r.Shows (g.orient a.direction) s := by
  have oriented := wf.orient a.direction
  refine ⟨?_, ?_, fun limit s reached allowed => TableRun.exists_reached reached oriented allowed⟩
  · intro s reached
    have orderly := reached.orderly oriented
    exact orderly.keeps oriented fun n listed => (orderly.known n).mpr ((oriented.mem_order n).mp listed)
  · intro limit done r reached
    obtain ⟨s, state, shows, rfl⟩ := reached.shows oriented
    obtain ⟨into, out, table, -⟩ := shows.facts
    have kept := (state.orderly oriented).keeps oriented fun n listed =>
      FactTable.has_fill (g.orient a.direction).nodup_order into out listed
    refine ⟨⟨?_, ?_, ?_, ?_, ?_, kept.visits⟩, ?_, s, state, shows⟩
    · exact shows.queued
    · rw [shows.queue]
      exact kept.single
    · rw [shows.queue]
      exact kept.bound
    · rw [shows.queue, table]
      exact kept.placed
    · rw [shows.queue]
      exact kept.pending
    · rw [shows.iterations, List.length_reverse, State.visited, List.length_map]

namespace Tabular

def restless : Graph Nat := .ofEdges 0 [1] [(0, 0), (0, 1)] none none none

private theorem restless_wellFormed : restless.WellFormed := .ofEdges (by decide) (by decide)

/-- A node puts itself back in the queue, behind the one that still waits. -/
theorem restless_queue : ∃ r, TableRun.Reached oscillating (restless.orient .forward) (some 4) [0, 1, 0] r ∧
    r.queue = [0, 1] ∧ (restless.orient .forward).Queue [0, 1, 0] r.queue (· ∈ r.queued) r.table.Has := by
  have first : TableRun.Reached oscillating (restless.orient .forward) (some 4) [0] _ := .step .initial rfl rfl
  have second : TableRun.Reached oscillating (restless.orient .forward) (some 4) [0, 1] _ := .step first rfl rfl
  have third : TableRun.Reached oscillating (restless.orient .forward) (some 4) [0, 1, 0] _ := .step second rfl rfl
  obtain ⟨-, tables, -⟩ := restless_wellFormed.queue_invariant oscillating
  exact ⟨_, third, rfl, (tables _ _ _ third).1⟩

end Tabular

end Dataflow
