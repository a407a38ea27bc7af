import Mathlib.Data.List.Nodup
import Dataflow.Proofs.SolverLimit

/-! Runs that keep their facts in lists. A node has one place in all the lists, which an index
tells, and beside the queue stands a set of the nodes in it. Step by step, such a run shows the
states of a run whose facts are kept by node. -/

namespace Dataflow

variable {ν φ : Type} [Ord ν]

def places (nodes : List ν) : Std.TreeMap ν Nat := .ofList nodes.zipIdx

theorem get?_places [Std.TransOrd ν] [Std.LawfulEqOrd ν] {nodes : List ν} (single : nodes.Nodup) (n : ν) (place : Nat) :
    (places nodes).get? n = some place ↔ nodes[place]? = some n := by
  classical
  have found {place : Nat} (listed : nodes[place]? = some n) : (places nodes).get? n = some place := by
    refine Std.TreeMap.getElem?_ofList_of_mem Std.ReflCmp.compare_self ?_ (List.mk_mem_zipIdx_iff_getElem?.mpr listed)
    rw [← List.zipIdx_map_fst 0 nodes, List.Nodup, List.pairwise_map] at single
    exact single.imp fun different same => different (Std.LawfulEqOrd.compare_eq_iff_eq.mp same)
  constructor
  · intro told
    by_cases member : n ∈ nodes
    · obtain ⟨other, listed⟩ := List.mem_iff_getElem?.mp member
      obtain rfl := Option.some.inj ((found listed).symm.trans told)
      exact listed
    · have absent : (nodes.zipIdx.map Prod.fst).contains n = false := by
        rw [List.zipIdx_map_fst, Bool.eq_false_iff, ne_eq, List.contains_iff_mem]
        exact member
      have none : (places nodes).get? n = none := Std.TreeMap.getElem?_ofList_of_contains_eq_false absent
      cases none.symm.trans told
  · exact found

private theorem distinctFrom_filter [Std.TransOrd ν] [Std.LawfulEqOrd ν] {p : ν → Bool} {seen marked : Std.TreeSet ν}
    (known : ∀ n, n ∈ marked ↔ n ∈ seen ∨ p n = false) (nodes : List ν) :
    distinctFrom seen [] (nodes.filter p) = distinctFrom marked [] nodes := by
  induction nodes generalizing seen marked with
  | nil => rfl
  | cons m nodes ih =>
    have here := known m
    cases kept : p m with
    | false =>
      rw [List.filter_cons_of_neg (Bool.eq_false_iff.mp kept), distinctFrom,
        if_pos (Std.TreeSet.contains_iff_mem.mpr (here.mpr (Or.inr kept))), ih known]
    | true =>
      rw [kept, or_iff_left Bool.false_ne_true.symm] at here
      simp only [List.filter_cons_of_pos kept, distinctFrom, Std.TreeSet.contains_iff_mem, here]
      split
      next => exact ih known
      next =>
        rw [distinctFrom_eq (seen.insert m), distinctFrom_eq (marked.insert m), ih]
        intro n
        rw [mem_insert_iff, mem_insert_iff, known, or_assoc]

/-- Facts in two lists, in the order of the nodes, and an index of the places. -/
structure FactTable (ν φ : Type) [Ord ν] where
  nodes : List ν
  index : Std.TreeMap ν Nat
  incoming : List φ
  outgoing : List φ

namespace FactTable

def fill (nodes : List ν) (into out : ν → φ) : FactTable ν φ := ⟨nodes, places nodes, nodes.map into, nodes.map out⟩

def join? (a : Analysis ν φ) (place : Nat) (t : FactTable ν φ) (sender : ν) : Option (FactTable ν φ) := do
  let source ← t.outgoing[← t.index.get? sender]?
  let target ← t.incoming[place]?
  some { t with incoming := t.incoming.set place (a.join source target) }

/-- Visits a node, and tells whether what leaves it has changed. Without a place for the node or for
a neighbour on the inflow side there is no result. -/
def visit? (a : Analysis ν φ) (o : Oriented ν) (t : FactTable ν φ) (n : ν) : Option (FactTable ν φ × Bool) := do
  let place ← t.index.get? n
  let t ← (o.inflow.next n).foldlM (join? a place) t
  let passed := a.transfer n (← t.incoming[place]?) (← t.outgoing[place]?)
  some ({ t with outgoing := t.outgoing.set place passed.value }, passed.changed)

omit [Ord ν] in
private theorem set_map {β : Type} [DecidableEq ν] {nodes : List ν} (single : nodes.Nodup) {n : ν} {place : Nat}
    (listed : nodes[place]? = some n) (f : ν → β) (y : β) :
    (nodes.map f).set place y = nodes.map (Function.update f n y) := by
  obtain ⟨inside, rfl⟩ := List.getElem?_eq_some_iff.mp listed
  rw [single.map_update, if_pos (List.getElem_mem inside), single.idxOf_getElem]

variable {nodes : List ν} {n : ν} {place : Nat} {into out : ν → φ}

private theorem incoming_fill (listed : nodes[place]? = some n) :
    (fill nodes into out).incoming[place]? = some (into n) := by
  rw [fill, List.getElem?_map, listed, Option.map_some]

private theorem outgoing_fill (listed : nodes[place]? = some n) :
    (fill nodes into out).outgoing[place]? = some (out n) := by
  rw [fill, List.getElem?_map, listed, Option.map_some]

variable [Std.TransOrd ν] [Std.LawfulEqOrd ν] [DecidableEq ν]

private theorem join?_fill (a : Analysis ν φ) (single : nodes.Nodup) (listed : nodes[place]? = some n) {sender : ν}
    (known : sender ∈ nodes) : (fill nodes into out).join? a place sender =
      some (fill nodes (Function.update into n (a.join (out sender) (into n))) out) := by
  obtain ⟨origin, found⟩ := List.mem_iff_getElem?.mp known
  have told : (fill nodes into out).index.get? sender = some origin := (get?_places single sender origin).mpr found
  simp only [join?, told, outgoing_fill found, incoming_fill listed, Option.bind_eq_bind, Option.bind_some]
  rw [fill, set_map single listed]
  rfl

private theorem foldlM_join?_fill (a : Analysis ν φ) (single : nodes.Nodup) (listed : nodes[place]? = some n)
    {senders : List ν} (known : ∀ m ∈ senders, m ∈ nodes) : senders.foldlM (join? a place) (fill nodes into out) =
      some (fill nodes (Function.update into n
        ((senders.map out).foldl (fun target source => a.join source target) (into n))) out) := by
  induction senders generalizing into with
  | nil =>
    rw [List.map_nil, List.foldl_nil, Function.update_eq_self]
    rfl
  | cons sender senders ih =>
    obtain ⟨first, others⟩ := List.forall_mem_cons.mp known
    -- A join changes nothing that any node sends, so it does not matter whether `n` is a sender.
    rw [List.foldlM_cons, join?_fill a single listed first, Option.bind_eq_bind, Option.bind_some, ih others,
      Function.update_idem, Function.update_self]
    rfl

/-- A visit joins what all its senders send, and passes it through the node. -/
theorem visit?_fill (a : Analysis ν φ) (o : Oriented ν) (single : nodes.Nodup) (member : n ∈ nodes)
    (known : ∀ m ∈ o.inflow.next n, m ∈ nodes) :
    let input := ((o.inflow.next n).map out).foldl (fun target source => a.join source target) (into n)
    let passed := a.transfer n input (out n)
    (fill nodes into out).visit? a o n =
      some (fill nodes (Function.update into n input) (Function.update out n passed.value), passed.changed) := by
  intro input passed
  obtain ⟨place, listed⟩ := List.mem_iff_getElem?.mp member
  have told : (fill nodes into out).index.get? n = some place := (get?_places single n place).mpr listed
  have joined : (o.inflow.next n).foldlM (join? a place) (fill nodes into out) =
      some (fill nodes (Function.update into n input) out) := foldlM_join?_fill a single listed known
  simp only [visit?, told, joined, incoming_fill listed, outgoing_fill listed, Function.update_self, Option.bind_eq_bind,
    Option.bind_some]
  rw [fill, set_map single listed]
  rfl

end FactTable

/-- A run that keeps its facts in lists, and beside its queue a set of the nodes in it. -/
structure TableRun (ν φ : Type) [Ord ν] where
  queue : List ν
  queued : Std.TreeSet ν
  table : FactTable ν φ
  iterations : Nat

namespace TableRun

def initial (a : Analysis ν φ) (o : Oriented ν) : TableRun ν φ :=
  { queue := o.order
    queued := .ofList o.order
    table := .fill o.order (fun n => (State.startFlow a o n).incoming) a.start
    iterations := 0 }

def enqueue (r : TableRun ν φ) (n : ν) : TableRun ν φ :=
  if r.queued.contains n then r else { r with queue := r.queue ++ [n], queued := r.queued.insert n }

/-- Takes the next node out of the queue and the set and visits it, unless the limit is reached. -/
def step? (a : Analysis ν φ) (o : Oriented ν) (limit : Option Nat) (r : TableRun ν φ) : Option (TableRun ν φ) :=
  match r.queue with
  | [] => none
  | n :: queue =>
    let taken := { r with queue, queued := r.queued.erase n }
    if limit.any (· ≤ taken.iterations) then none
    else
      (taken.table.visit? a o n).map fun (table, changed) =>
        let visited := { taken with table, iterations := taken.iterations + 1 }
        (if changed then o.outflow.next n else []).foldl enqueue visited

inductive Reached (a : Analysis ν φ) (o : Oriented ν) (limit : Option Nat) : List ν → TableRun ν φ → Prop where
  | initial : Reached a o limit [] (initial a o)
  | step {done queue : List ν} {n : ν} {r after : TableRun ν φ} (before : Reached a o limit done r)
      (waits : r.queue = n :: queue) (moved : r.step? a o limit = some after) : Reached a o limit (done ++ [n]) after

/-- The same nodes wait, as many visits have been made, and the facts of a node are in its place. -/
structure Shows (o : Oriented ν) (r : TableRun ν φ) (s : State ν φ) : Prop where
  queue : r.queue = s.waiting.toList
  queued : ∀ n, n ∈ r.queued ↔ n ∈ r.queue
  iterations : r.iterations = s.history.length
  facts : ∃ into out, r.table = .fill o.order into out ∧ ∀ n ∈ o.order, s.flows.get? n = some ⟨into n, out n⟩

variable [Std.TransOrd ν] [Std.LawfulEqOrd ν] {a : Analysis ν φ} {o : Oriented ν} {limit : Option Nat}
  {r : TableRun ν φ} {s : State ν φ} {n : ν}

private theorem foldl_enqueue (r : TableRun ν φ) (nodes : List ν) : ∃ marked : Std.TreeSet ν,
    nodes.foldl enqueue r = { r with queue := r.queue ++ distinctFrom r.queued [] nodes, queued := marked } ∧
      ∀ n, n ∈ marked ↔ n ∈ r.queued ∨ n ∈ nodes := by
  induction nodes generalizing r with
  | nil =>
    refine ⟨r.queued, ?_, by simp⟩
    rw [distinctFrom, List.reverse_nil, List.append_nil]
    rfl
  | cons m nodes ih =>
    rw [List.foldl_cons, enqueue, distinctFrom]
    split
    next queued =>
      rw [Std.TreeSet.contains_iff_mem] at queued
      obtain ⟨marked, same, known⟩ := ih r
      exact ⟨marked, same, fun n => (known n).trans (mem_or_mem_cons queued)⟩
    next =>
      obtain ⟨marked, same, known⟩ := ih { r with queue := r.queue ++ [m], queued := r.queued.insert m }
      refine ⟨marked, ?_, fun n => (known n).trans mem_insert_or_mem⟩
      rw [same, distinctFrom_eq (r.queued.insert m) [m], List.append_assoc]
      rfl

private theorem shows_initial (a : Analysis ν φ) (wf : o.WellFormed) : (initial a o).Shows o (State.initial a o) := by
  classical
  refine ⟨?_, ?_, rfl, _, _, rfl, ?_⟩
  · rw [State.initial, Worklist.toList_ofList]
    rfl
  · intro n
    rw [initial, Std.TreeSet.mem_ofList, List.contains_iff_mem]
  · intro n member
    rw [State.initial_get? wf, if_pos ((wf.mem_order n).mp member)]
    rfl

private theorem queue_foldl_enqueue {rest : Worklist ν} (valid : rest.Valid) (same : r.queue = rest.toList)
    (queued : ∀ m, m ∈ r.queued ↔ m ∈ r.queue) (affected : List ν) :
    (affected.foldl enqueue r).queue = rest.toList ++ distinct (affected.filter fun m => !rest.contains m) ∧
      (∀ m, m ∈ (affected.foldl enqueue r).queued ↔ m ∈ (affected.foldl enqueue r).queue) ∧
      (affected.foldl enqueue r).table = r.table ∧ (affected.foldl enqueue r).iterations = r.iterations := by
  obtain ⟨marked, enqueued, known⟩ := foldl_enqueue r affected
  rw [enqueued]
  refine ⟨?_, ?_, rfl, rfl⟩
  · rw [distinct, distinctFrom_filter, same]
    intro m
    rw [Bool.not_eq_false', valid.marked, queued, same, or_iff_right Std.TreeSet.not_mem_emptyc]
  · intro m
    rw [known, List.mem_append, mem_distinctFrom, queued]
    by_cases waiting : m ∈ r.queue <;> simp [waiting]

omit [Std.TransOrd ν] [Std.LawfulEqOrd ν] in
private theorem sources_eq {senders : List ν} {sources : List φ} {into out : ν → φ}
    (facts : ∀ m ∈ senders, s.flows.get? m = some ⟨into m, out m⟩) (sent : senders.map s.outgoing? = sources.map some) :
    sources = senders.map out := by
  apply List.map_injective_iff.mpr (Option.some_injective φ)
  rw [← sent, List.map_map]
  refine List.map_congr_left fun m sender => ?_
  rw [State.outgoing?, facts m sender]
  rfl

private theorem facts_visit [DecidableEq ν] {into out : ν → φ} {m : ν} (held : s.flows.get? m = some ⟨into m, out m⟩)
    (rest : Worklist ν) (flow : Flow φ) (sources : List φ) :
    (s.visit a o n rest flow sources).flows.get? m =
      some ⟨Function.update into n (Visit.ofSources a o rest n flow sources).input m,
        Function.update out n (Visit.ofSources a o rest n flow sources).output m⟩ := by
  by_cases same : m = n
  · subst same
    rw [State.visit_get?_self, Function.update_self, Function.update_self]
  · rw [State.visit_get?_other s same, Function.update_of_ne same, Function.update_of_ne same]
    exact held

/-- As long as the limit allows it, both runs visit the same node. -/
theorem Shows.visit (shows : r.Shows o s) (orderly : State.Orderly o s) (wf : o.WellFormed)
    (allowed : limit.any (· ≤ r.iterations) = false) {rest : Worklist ν} {flow : Flow φ} {sources : List φ}
    (popped : s.waiting.pop? = some (n, rest)) (found : s.flows.get? n = some flow)
    (sent : (o.inflow.next n).map s.outgoing? = sources.map some) :
    ∃ after, r.step? a o limit = some after ∧ after.Shows o (s.visit a o n rest flow sources) := by
  classical
  obtain ⟨valid, fresh⟩ := orderly.queue.pop? popped
  have waits : r.queue = n :: rest.toList := by rw [shows.queue, Worklist.toList_of_pop? popped]
  obtain ⟨into, out, table, facts⟩ := shows.facts
  have listed (m : ν) (inside : m ∈ o.nodes) : m ∈ o.order := (wf.mem_order m).mpr inside
  have member : n ∈ o.order := listed n (orderly.listed n (by rw [← shows.queue, waits]; exact List.mem_cons_self))
  have known : ∀ m ∈ o.inflow.next n, m ∈ o.order := fun m edge => listed m (wf.sender m n edge)
  obtain rfl : flow = ⟨into n, out n⟩ := Option.some.inj (found.symm.trans (facts n member))
  obtain rfl := sources_eq (fun m edge => facts m (known m edge)) sent
  let v := Visit.ofSources a o rest n ⟨into n, out n⟩ ((o.inflow.next n).map out)
  let visited : TableRun ν φ :=
    { queue := rest.toList
      queued := r.queued.erase n
      table := .fill o.order (Function.update into n v.input) (Function.update out n v.output)
      iterations := r.iterations + 1 }
  have passed : r.table.visit? a o n = some (visited.table, v.changed) := by
    rw [table]
    exact FactTable.visit?_fill a o o.nodup_order member known
  -- The node is out of the set before its neighbours are enqueued, so it may be one of them.
  have erased (m : ν) : m ∈ visited.queued ↔ m ∈ visited.queue := by
    rw [Std.TreeSet.mem_erase, shows.queued, waits, List.mem_cons, ne_eq, Std.LawfulEqOrd.compare_eq_iff_eq]
    rw [← Bool.not_eq_true, valid.marked] at fresh
    grind
  obtain ⟨queue, queued, kept, iterations⟩ :=
    queue_foldl_enqueue valid rfl erased (if v.changed then o.outflow.next n else [])
  refine ⟨(if v.changed then o.outflow.next n else []).foldl enqueue visited, ?_, ?_, queued, ?_, _, _, kept,
    fun m inside => facts_visit (facts m inside) rest _ _⟩
  · simp only [step?, waits, allowed, passed]
    rfl
  · rw [queue, State.visit_waiting]
    rfl
  · rw [iterations]
    exact congrArg (· + 1) shows.iterations

/-- A run that keeps its facts in lists shows a state, and has visited the same nodes. -/
theorem Reached.shows {done : List ν} (reached : Reached a o limit done r) (wf : o.WellFormed) :
    ∃ s, State.Reachable a o s ∧ r.Shows o s ∧ done = s.visited.reverse := by
  induction reached with
  | initial => exact ⟨_, .initial, shows_initial a wf, rfl⟩
  | @step done queue n r after before waits moved ih =>
    obtain ⟨s, reached, shows, rfl⟩ := ih
    have allowed : limit.any (· ≤ r.iterations) = false := by
      rw [Bool.eq_false_iff]
      intro cut
      simp only [step?, waits, cut, if_true] at moved
      cases moved
    have nonempty : s.waiting.toList ≠ [] := by
      rw [← shows.queue, waits]
      exact List.cons_ne_nil n queue
    obtain ⟨next, progress⟩ := (reached.orderly wf).moves (a := a) wf nonempty
    obtain ⟨m, rest, flow, sources, popped, found, sent, rfl⟩ := State.step_moved progress
    obtain ⟨same, moved', shows'⟩ := shows.visit (reached.orderly wf) wf allowed popped found sent
    obtain rfl := Option.some.inj (moved.symm.trans moved')
    have heads : n :: queue = m :: rest.toList := by rw [← waits, shows.queue, Worklist.toList_of_pop? popped]
    obtain ⟨rfl, -⟩ := List.cons.inj heads
    exact ⟨_, reached.step progress, shows', (List.reverse_cons ..).symm⟩

/-- Every state is shown, if the limit allows as many visits. -/
theorem exists_reached (reached : State.Reachable a o s) (wf : o.WellFormed)
    (allowed : ∀ most ∈ limit, s.history.length ≤ most) :
    ∃ r, Reached a o limit s.visited.reverse r ∧ r.Shows o s := by
  induction reached using State.Reachable.visits with
  | initial => exact ⟨_, .initial, shows_initial a wf⟩
  | @visit s n rest flow sources before popped found sent ih =>
    have fewer : ∀ most ∈ limit, s.history.length < most := allowed
    obtain ⟨r, reached, shows⟩ := ih fun most given => (fewer most given).le
    have within : limit.any (· ≤ r.iterations) = false := by
      rw [Option.any_eq_false, shows.iterations]
      intro most given
      exact decide_eq_false (Nat.not_le.mpr (fewer most given))
    obtain ⟨after, moved, shows'⟩ := shows.visit (before.orderly wf) wf within popped found sent
    have waits : r.queue = n :: rest.toList := by rw [shows.queue, Worklist.toList_of_pop? popped]
    have done : (s.visit a o n rest flow sources).visited.reverse = s.visited.reverse ++ [n] := List.reverse_cons ..
    rw [done]
    exact ⟨after, reached.step waits moved, shows'⟩

end TableRun

end Dataflow
