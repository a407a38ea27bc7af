import Dataflow.Proofs.SolverSteps

/-! The bookkeeping of a run: which nodes wait, which have facts, and in which order nodes
are visited for the first time. Nothing here depends on what the analysis does. -/

namespace Dataflow

namespace Worklist

variable {ν : Type} [Ord ν]

/-- The marks are those of the waiting nodes, and no node waits twice. -/
structure Valid (w : Worklist ν) : Prop where
  marked : ∀ n, w.contains n = true ↔ n ∈ w.toList
  single : w.toList.Nodup

private theorem contains_of_pop? [Std.TransOrd ν] [Std.LawfulEqOrd ν] {w rest : Worklist ν} {n : ν}
    (popped : w.pop? = some (n, rest)) (m : ν) :
    rest.contains m = true ↔ m ≠ n ∧ w.contains m = true := by
  have erased : rest.marked = w.marked.erase n := by
    unfold pop? at popped
    split at popped
    · obtain ⟨rfl, rfl⟩ := Prod.mk.inj (Option.some.inj popped)
      rfl
    · split at popped
      · obtain ⟨rfl, rfl⟩ := Prod.mk.inj (Option.some.inj popped)
        rfl
      · cases popped
  simp only [contains, erased, Std.TreeSet.contains_iff_mem, Std.TreeSet.mem_erase, ne_eq,
    Std.LawfulEqOrd.compare_eq_iff_eq, eq_comm (a := m)]

private theorem contains_append [Std.TransOrd ν] [Std.LawfulEqOrd ν] (w : Worklist ν) (nodes : List ν) (m : ν) :
    (w.append nodes).contains m = true ↔ w.contains m = true ∨ m ∈ nodes := by
  classical
  simp only [contains, append, Std.TreeSet.contains_iff_mem, Std.TreeSet.mem_insertMany_list,
    List.contains_iff_mem]

namespace Valid

variable [Std.TransOrd ν] [Std.LawfulEqOrd ν]

theorem ofList {nodes : List ν} (single : nodes.Nodup) : (Worklist.ofList nodes).Valid := by
  classical
  refine ⟨?_, by rwa [toList_ofList]⟩
  intro n
  rw [toList_ofList, Worklist.contains, Worklist.ofList, Std.TreeSet.contains_iff_mem, Std.TreeSet.mem_ofList,
    List.contains_iff_mem]

theorem pop? {w rest : Worklist ν} {n : ν} (valid : w.Valid) (popped : w.pop? = some (n, rest)) :
    rest.Valid ∧ rest.contains n = false := by
  have waiting := toList_of_pop? popped
  have single := valid.single
  rw [waiting, List.nodup_cons] at single
  refine ⟨⟨?_, single.2⟩, ?_⟩
  · intro m
    rw [contains_of_pop? popped, valid.marked, waiting, List.mem_cons]
    constructor
    · rintro ⟨different, same | member⟩
      · exact False.elim (different same)
      · exact member
    · intro member
      exact ⟨fun same => single.1 (same ▸ member), Or.inr member⟩
  · rw [Bool.eq_false_iff]
    intro marked
    exact ((contains_of_pop? popped n).mp marked).1 rfl

theorem append {w : Worklist ν} {nodes : List ν} (valid : w.Valid) (single : nodes.Nodup)
    (fresh : ∀ n ∈ nodes, w.contains n = false) : (w.append nodes).Valid := by
  constructor
  · intro m
    rw [contains_append, toList_append, List.mem_append, valid.marked]
  · rw [toList_append, List.nodup_append]
    refine ⟨valid.single, single, ?_⟩
    rintro m waiting n new rfl
    exact absurd ((valid.marked m).mpr waiting) (Bool.eq_false_iff.mp (fresh m new))

end Valid

end Worklist

private theorem pending_cons {α : Type} {order waiting : List α} {n : α} {visited : Nat}
    (pending : order.drop visited <+: n :: waiting) (due : visited < order.length) :
    order[visited] = n ∧ order.drop (visited + 1) <+: waiting := by
  rw [List.drop_eq_getElem_cons due, List.cons_prefix_cons] at pending
  exact pending

variable {ν φ : Type} [Ord ν]

theorem State.visit_waiting {a : Analysis ν φ} {o : Oriented ν} (s : State ν φ) (n : ν) (rest : Worklist ν)
    (flow : Flow φ) (sources : List φ) : (s.visit a o n rest flow sources).waiting.toList =
      rest.toList ++ (Visit.ofSources a o rest n flow sources).requeued := by
  rw [visit, Worklist.toList_append]

variable [Std.TransOrd ν] [Std.LawfulEqOrd ν]

private theorem get?_insert (flows : Std.TreeMap ν (Flow φ)) (n m : ν) (flow : Flow φ) [Decidable (n = m)] :
    (flows.insert n flow).get? m = if n = m then some flow else flows.get? m := by
  simp only [Std.TreeMap.get?_eq_getElem?, Std.TreeMap.getElem?_insert, Std.LawfulEqOrd.compare_eq_iff_eq]

private theorem get?_foldl_insert (nodes : List ν) (flow : ν → Flow φ) (flows : Std.TreeMap ν (Flow φ)) (m : ν) :
    (nodes.foldl (fun flows n => flows.insert n (flow n)) flows).get? m =
      open Classical in if m ∈ nodes then some (flow m) else flows.get? m := by
  classical
  induction nodes generalizing flows with
  | nil => simp
  | cons n nodes ih =>
    rw [List.foldl_cons, ih, get?_insert]
    by_cases later : m ∈ nodes
    · simp [later]
    · by_cases same : n = m
      · subst same
        simp [later]
      · have other : ¬m = n := fun equal => same equal.symm
        simp [later, same, other]

namespace State

variable {a : Analysis ν φ} {o : Oriented ν} {n : ν}

def startFlow (a : Analysis ν φ) (o : Oriented ν) (n : ν) : Flow φ :=
  ⟨if (Std.TreeSet.ofList o.starts).contains n then a.boundary else a.bottom, a.start n⟩

private theorem startFlow_incoming [Decidable (n ∈ o.starts)] :
    (startFlow a o n).incoming = if n ∈ o.starts then a.boundary else a.bottom := by
  classical
  simp only [startFlow, Std.TreeSet.contains_iff_mem, Std.TreeSet.mem_ofList, List.contains_iff_mem]

theorem initial_get? (wf : o.WellFormed) (n : ν) [Decidable (n ∈ o.nodes)] :
    (State.initial a o).flows.get? n = if n ∈ o.nodes then some (startFlow a o n) else none := by
  classical
  simp only [State.initial, get?_foldl_insert, wf.mem_order]
  rfl

theorem startFlow_cases : n ∈ o.starts ∧ (startFlow a o n).incoming = a.boundary ∨
    n ∉ o.starts ∧ (startFlow a o n).incoming = a.bottom := by
  classical
  rw [startFlow_incoming]
  by_cases start : n ∈ o.starts <;> simp [start]

theorem initial_flow (wf : o.WellFormed) {flow : Flow φ} (found : (State.initial a o).flows.get? n = some flow) :
    n ∈ o.nodes ∧ flow = startFlow a o n := by
  classical
  rw [initial_get? wf] at found
  by_cases member : n ∈ o.nodes
  · rw [if_pos member] at found
    exact ⟨member, (Option.some.inj found).symm⟩
  · rw [if_neg member] at found
    cases found

theorem visit_get?_self (s : State ν φ) (n : ν) (rest : Worklist ν) (flow : Flow φ) (sources : List φ) :
    (s.visit a o n rest flow sources).flows.get? n =
      some ⟨(Visit.ofSources a o rest n flow sources).input, (Visit.ofSources a o rest n flow sources).output⟩ := by
  classical
  rw [visit, get?_insert, if_pos rfl]

theorem visit_get?_other (s : State ν φ) {n m : ν} (different : m ≠ n) (rest : Worklist ν) (flow : Flow φ)
    (sources : List φ) : (s.visit a o n rest flow sources).flows.get? m = s.flows.get? m := by
  classical
  rw [visit, get?_insert, if_neg (Ne.symm different)]

/-- After a visit, the facts of a node are those of the visit or those it had. -/
theorem visit_flow {s : State ν φ} {m : ν} {rest : Worklist ν} {flow after : Flow φ} {sources : List φ}
    (held : (s.visit a o n rest flow sources).flows.get? m = some after) :
    m = n ∧ after = ⟨(Visit.ofSources a o rest n flow sources).input, (Visit.ofSources a o rest n flow sources).output⟩ ∨
      m ≠ n ∧ s.flows.get? m = some after := by
  by_cases same : m = n
  · left
    subst same
    rw [visit_get?_self] at held
    exact ⟨rfl, (Option.some.inj held).symm⟩
  · right
    rw [visit_get?_other s same] at held
    exact ⟨same, held⟩

theorem mem_requeued {rest : Worklist ν} {n m : ν} {flow : Flow φ} {sources : List φ} :
    m ∈ (Visit.ofSources a o rest n flow sources).requeued ↔
      (Visit.ofSources a o rest n flow sources).changed = true ∧ m ∈ o.outflow.next n ∧ rest.contains m = false := by
  simp only [Visit.ofSources, mem_distinct, List.mem_filter, Bool.not_eq_eq_eq_not, Bool.not_true]
  split
  next changed => simp [changed]
  next same => simp [same]

/-- Every state of a run keeps its books: the queue is valid, exactly the nodes of the graph
have facts, and first visits follow the order, those still due standing in front. -/
structure Orderly (o : Oriented ν) (s : State ν φ) : Prop where
  queue : s.waiting.Valid
  listed : ∀ n ∈ s.waiting.toList, n ∈ o.nodes
  known : ∀ n, (∃ flow, s.flows.get? n = some flow) ↔ n ∈ o.nodes
  pending : o.order.drop s.history.length <+: s.waiting.toList
  first : (s.history.reverse.map Visit.node).take o.order.length = o.order.take s.history.length

theorem Orderly.initial (wf : o.WellFormed) : Orderly o (State.initial a o) := by
  classical
  refine ⟨Worklist.Valid.ofList o.nodup_order, ?_, ?_, ?_, by simp [State.initial]⟩
  · intro n waiting
    rw [State.initial, Worklist.toList_ofList] at waiting
    exact (wf.mem_order n).mp waiting
  · intro n
    rw [initial_get? wf n]
    by_cases member : n ∈ o.nodes <;> simp [member]
  · rw [State.initial, Worklist.toList_ofList]
    exact List.prefix_rfl

theorem Orderly.visit {s : State ν φ} (orderly : Orderly o s) (wf : o.WellFormed) {n : ν} {rest : Worklist ν}
    (popped : s.waiting.pop? = some (n, rest)) (flow : Flow φ) (sources : List φ) :
    Orderly o (s.visit a o n rest flow sources) := by
  have waiting := Worklist.toList_of_pop? popped
  obtain ⟨valid, taken⟩ := orderly.queue.pop? popped
  have member : n ∈ o.nodes := orderly.listed n (by simp [waiting])
  refine ⟨?_, ?_, ?_, ?_, ?_⟩
  · exact valid.append (nodup_distinct _) (fun m requeued => (mem_requeued.mp requeued).2.2)
  · intro m queued
    rw [visit_waiting, List.mem_append] at queued
    rcases queued with old | requeued
    · exact orderly.listed m (by simp [waiting, old])
    · exact wf.receiver n m (mem_requeued.mp requeued).2.1
  · intro m
    by_cases same : m = n
    · subst same
      rw [visit_get?_self]
      exact ⟨fun _ => member, fun _ => ⟨_, rfl⟩⟩
    · rw [visit_get?_other s same]
      exact orderly.known m
  · rw [visit_waiting]
    by_cases due : s.history.length < o.order.length
    · exact (pending_cons (waiting ▸ orderly.pending) due).2.trans (List.prefix_append _ _)
    · rw [State.visit, List.length_cons, List.drop_eq_nil_of_le (by omega)]
      exact List.nil_prefix
  · have first := orderly.first
    simp only [State.visit, List.reverse_cons, List.map_append, List.length_cons]
    by_cases due : s.history.length < o.order.length
    · obtain ⟨next, _⟩ := pending_cons (waiting ▸ orderly.pending) due
      rw [List.take_of_length_le (by simp; omega)] at first ⊢
      rw [first, List.take_succ_eq_append_getElem due, next]
      rfl
    · rw [List.take_append_of_le_length (by simp; omega), first, List.take_of_length_le (by omega),
        List.take_of_length_le (by omega)]

theorem Reachable.orderly {s : State ν φ} (reached : Reachable a o s) (wf : o.WellFormed) : Orderly o s := by
  induction reached using Reachable.visits with
  | initial => exact .initial wf
  | visit before popped found sent ih =>
    exact ih.visit wf popped _ _

end State

end Dataflow
