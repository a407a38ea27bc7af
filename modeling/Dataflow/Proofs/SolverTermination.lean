import Mathlib.Data.List.Perm.Subperm
import Dataflow.Proofs.SolverFixedPoint

/-! How long a run can take. A node only puts others back in the queue when what flows out
of it changes. That happens once at its first visit, and after that only when what flows in
has grown since its last visit, so a bound on how often that grows bounds the run. -/

namespace Dataflow

variable {ν φ L : Type} [Ord ν]

def Oriented.degree (o : Oriented ν) (n : ν) : Nat := (distinct (o.outflow.next n)).length

def Oriented.edgeCount (o : Oriented ν) : Nat := (o.order.map o.degree).sum

namespace State

def count (s : State ν φ) (test : Visit ν φ → Bool) (n : ν) : Nat :=
  s.history.countP fun v => test v && compare v.node n == .eq

def changes (s : State ν φ) (n : ν) : Nat := s.count Visit.changed n

open Classical in
/-- How often what flows into a node has grown. -/
noncomputable def rises (view : φ → L) (s : State ν φ) (n : ν) : Nat :=
  s.count (fun v => decide (view v.before ≠ view v.input)) n

variable {a : Analysis ν φ} {o : Oriented ν} {s : State ν φ} {n m : ν} {rest : Worklist ν} {flow : Flow φ}
  {sources : List φ}

/-- Every visit so far, and every one already due, is the first of its node or was caused by
a change. -/
def Accounted (o : Oriented ν) (s : State ν φ) : Prop :=
  s.history.length + s.waiting.toList.length ≤
    o.order.length + (o.order.map fun n => o.degree n * s.changes n).sum

theorem Accounted.initial : Accounted o (State.initial a o) := by
  unfold Accounted
  rw [State.initial, Worklist.toList_ofList]
  simp

theorem Orderly.moves (orderly : Orderly o s) (wf : o.WellFormed) (waits : s.waiting.toList ≠ []) :
    ∃ after, s.step a o = .moved after := by
  cases popped : s.waiting.pop? with
  | none => exact False.elim (waits ((Worklist.pop?_eq_none_iff _).mp popped))
  | some next =>
    obtain ⟨n, rest⟩ := next
    obtain ⟨flow, found⟩ := (orderly.known n).mpr (orderly.listed n (by simp [Worklist.toList_of_pop? popped]))
    have known : ∀ m ∈ o.inflow.next n, ∃ fact, s.outgoing? m = some fact := by
      intro m edge
      obtain ⟨other, held⟩ := (orderly.known m).mpr (wf.sender m n edge)
      exact ⟨other.outgoing, by rw [outgoing?, held]; rfl⟩
    obtain ⟨sources, sent⟩ := exists_map_some known
    exact ⟨_, step_of_visit popped found sent⟩

variable [Std.LawfulEqOrd ν]

private theorem count_visit_self (test : Visit ν φ → Bool) : (s.visit a o n rest flow sources).count test n =
    s.count test n + if test (Visit.ofSources a o rest n flow sources) then 1 else 0 := by
  have same : (Visit.ofSources a o rest n flow sources).node = n := rfl
  have equal : (compare n n == .eq) = true := by
    rw [beq_iff_eq, Std.LawfulEqOrd.compare_eq_iff_eq]
  rw [count, visit, List.countP_cons, same, equal, Bool.and_true]
  rfl

private theorem count_visit_other (test : Visit ν φ → Bool) (different : m ≠ n) :
    (s.visit a o n rest flow sources).count test m = s.count test m := by
  have node : (Visit.ofSources a o rest n flow sources).node = n := rfl
  have other : (compare n m == .eq) = false := by
    rw [beq_eq_false_iff_ne, ne_eq, Std.LawfulEqOrd.compare_eq_iff_eq]
    exact fun same => different same.symm
  rw [count, visit, List.countP_cons, node, other, Bool.and_false]
  rfl

private theorem changes_visit_self : (s.visit a o n rest flow sources).changes n =
    s.changes n + if (Visit.ofSources a o rest n flow sources).changed then 1 else 0 :=
  count_visit_self _

private theorem changes_visit_other (different : m ≠ n) : (s.visit a o n rest flow sources).changes m = s.changes m :=
  count_visit_other _ different

open Classical in
private theorem rises_visit_self (view : φ → L) : (s.visit a o n rest flow sources).rises view n = s.rises view n +
    if view flow.incoming = view (Visit.ofSources a o rest n flow sources).input then 0 else 1 := by
  have before : (Visit.ofSources a o rest n flow sources).before = flow.incoming := rfl
  rw [rises, count_visit_self, before]
  by_cases still : view flow.incoming = view (Visit.ofSources a o rest n flow sources).input <;> simp [still, rises]

private theorem rises_visit_other (view : φ → L) (different : m ≠ n) :
    (s.visit a o n rest flow sources).rises view m = s.rises view m :=
  count_visit_other _ different

private theorem count_eq_zero (test : Visit ν φ → Bool) (unvisited : n ∉ s.visited) : s.count test n = 0 := by
  rw [count, List.countP_eq_zero]
  intro v member counted
  rw [Bool.and_eq_true, beq_iff_eq, Std.LawfulEqOrd.compare_eq_iff_eq] at counted
  exact unvisited (List.mem_map.mpr ⟨v, member, counted.2⟩)

variable {view : φ → L} {T : ν → L → L}

/-- Visited nodes pass on a function of what flows in, so what flows out of them changes no
more often than what flows in grows, apart from the first visit. -/
structure Paced (view : φ → L) (T : ν → L → L) (s : State ν φ) : Prop where
  passed : ∀ n ∈ s.visited, ∀ flow, s.flows.get? n = some flow → view flow.outgoing = T n (view flow.incoming)
  changes : ∀ n, s.changes n ≤ s.rises view n + 1

theorem Paced.initial : Paced view T (State.initial a o) := by
  constructor
  · intro n visited
    exact False.elim (List.not_mem_nil visited)
  · intro n
    have none : (State.initial a o).changes n = 0 := count_eq_zero _ List.not_mem_nil
    omega

variable [Std.TransOrd ν]

/-- On a well formed graph every node that is looked up has facts. -/
theorem Reachable.unbroken (reached : Reachable a o s) (wf : o.WellFormed) (before : φ) (sources : List φ) :
    s.step a o ≠ .ended (.broken before sources) := by
  intro broken
  by_cases waits : s.waiting.toList = []
  · rw [step_idle waits] at broken
    cases broken
  · obtain ⟨after, moved⟩ := (reached.orderly wf).moves wf waits
    cases moved.symm.trans broken

/-- On a well formed graph a run settles or is cut off. -/
theorem Reachable.run_ending (reached : Reachable a o s) (wf : o.WellFormed) (visits : Nat) :
    (s.run a o visits).2 = .settled ∨ (s.run a o visits).2 = .exhausted := by
  by_cases cut : (s.run a o visits).2 = .exhausted
  · exact Or.inr cut
  · left
    have ended := step_of_run cut
    rcases step_ended ended with ⟨settled, -⟩ | ⟨before, sources, broken⟩
    · exact settled
    · rw [broken] at ended
      exact False.elim ((reached.run visits).unbroken wf before sources ended)

private theorem requeued_length_le : (Visit.ofSources a o rest n flow sources).requeued.length ≤
    o.degree n * if (Visit.ofSources a o rest n flow sources).changed then 1 else 0 := by
  have single : (Visit.ofSources a o rest n flow sources).requeued.Nodup := nodup_distinct _
  cases changed : (Visit.ofSources a o rest n flow sources).changed with
  | true =>
    rw [if_pos rfl, Nat.mul_one]
    apply List.Subperm.length_le
    apply single.subperm
    intro m requeued
    exact (mem_distinct _ m).mpr (mem_requeued.mp requeued).2.1
  | false =>
    have none : (Visit.ofSources a o rest n flow sources).requeued = [] := by
      rw [List.eq_nil_iff_forall_not_mem]
      intro m requeued
      cases changed.symm.trans (mem_requeued.mp requeued).1
    rw [none]
    exact Nat.zero_le _

theorem Accounted.visit (accounted : Accounted o s) (orderly : Orderly o s) (wf : o.WellFormed)
    (popped : s.waiting.pop? = some (n, rest)) (flow : Flow φ) (sources : List φ) :
    Accounted o (s.visit a o n rest flow sources) := by
  have waiting := Worklist.toList_of_pop? popped
  have listed : n ∈ o.order := (wf.mem_order n).mpr (orderly.listed n (by simp [waiting]))
  have requeued : (Visit.ofSources a o rest n flow sources).requeued.length ≤
    o.degree n * if (Visit.ofSources a o rest n flow sources).changed then 1 else 0 := requeued_length_le
  have self : (s.visit a o n rest flow sources).changes n =
    s.changes n + if (Visit.ofSources a o rest n flow sources).changed then 1 else 0 := changes_visit_self
  have sum : (o.order.map fun m => o.degree m * s.changes m).sum +
      (Visit.ofSources a o rest n flow sources).requeued.length ≤
      (o.order.map fun m => o.degree m * (s.visit a o n rest flow sources).changes m).sum := by
    apply sum_map_add_le listed
    · intro m _
      apply Nat.mul_le_mul_left
      by_cases same : m = n
      · rw [same, self]
        exact Nat.le_add_right _ _
      · exact (changes_visit_other same).ge
    · rw [self, Nat.mul_add]
      omega
  unfold Accounted at accounted ⊢
  rw [waiting, List.length_cons] at accounted
  rw [visit_waiting, List.length_append]
  have history : (s.visit a o n rest flow sources).history.length = s.history.length + 1 := rfl
  omega

theorem Reachable.accounted (reached : Reachable a o s) (wf : o.WellFormed) : Accounted o s := by
  induction reached using Reachable.visits with
  | initial => exact .initial
  | visit before popped found sent ih =>
    exact ih.visit (before.orderly wf) wf popped _ _

variable [SemilatticeSup L]

theorem Paced.visit (paced : Paced view T s) (law : a.Lawful o.nodes view T) (member : n ∈ o.nodes)
    (found : s.flows.get? n = some flow) (rest : Worklist ν) (sources : List φ) :
    Paced view T (s.visit a o n rest flow sources) := by
  constructor
  · intro m visited after held
    rcases visit_flow held with ⟨rfl, rfl⟩ | ⟨same, held⟩
    · exact law.output_eq rest member flow sources
    · exact paced.passed m ((mem_visited_visit.mp visited).resolve_left same) after held
  · intro m
    have before := paced.changes m
    by_cases same : m = n
    · subst same
      rw [changes_visit_self, rises_visit_self]
      by_cases visited : m ∈ s.visited
      · by_cases still : view flow.incoming = view (Visit.ofSources a o rest m flow sources).input
        · -- What flows in is what it was, so nothing else flows out.
          have quiet : (Visit.ofSources a o rest m flow sources).changed = false := by
            rw [Bool.eq_false_iff]
            intro changed
            apply (law.changed m member _ _).mp changed
            rw [law.transfer m member, paced.passed m visited flow found, still]
            rfl
          rw [quiet, if_neg Bool.false_ne_true]
          omega
        · rw [if_neg still]
          split <;> omega
      · have none : s.changes m = 0 := count_eq_zero _ visited
        rw [none]
        split <;> omega
    · rw [changes_visit_other same, rises_visit_other view same]
      exact before

theorem Reachable.paced (reached : Reachable a o s) (wf : o.WellFormed) (law : a.Lawful o.nodes view T) :
    Paced view T s := by
  induction reached using Reachable.visits with
  | initial => exact .initial
  | visit before popped found sent ih =>
    exact ih.visit law (((before.orderly wf).known _).mp ⟨_, found⟩) found _ _

/-- If what flows into a node never grows more than `height` times, there are no more visits
than one for every node and `height + 1` for every edge. -/
theorem Reachable.visits_le (reached : Reachable a o s) (wf : o.WellFormed) (law : a.Lawful o.nodes view T)
    {height : Nat} (bounded : ∀ n ∈ o.nodes, s.rises view n ≤ height) :
    s.history.length ≤ o.order.length + o.edgeCount * (height + 1) := by
  have accounted := reached.accounted wf
  have paced := reached.paced wf law
  have sum : (o.order.map fun n => o.degree n * s.changes n).sum ≤
      (o.order.map fun n => o.degree n * (height + 1)).sum := by
    apply List.sum_le_sum
    intro n listed
    have changes := paced.changes n
    have rises := bounded n ((wf.mem_order n).mp listed)
    apply Nat.mul_le_mul_left
    omega
  have scaled : (o.order.map fun n => o.degree n * (height + 1)).sum = o.edgeCount * (height + 1) :=
    List.sum_map_mul_right _ _ _
  unfold Accounted at accounted
  omega

/-- Every fact has the property, and what flows into a node has grown no more often than it
ranks. -/
structure Ranked (inside : L → Prop) (rank : L → Nat) (view : φ → L) (s : State ν φ) : Prop where
  incoming : ∀ n flow, s.flows.get? n = some flow → inside (view flow.incoming)
  outgoing : ∀ n flow, s.flows.get? n = some flow → inside (view flow.outgoing)
  rises : ∀ n flow, s.flows.get? n = some flow → s.rises view n ≤ rank (view flow.incoming)

variable {inside : L → Prop} {rank : L → Nat}

theorem Ranked.initial (wf : o.WellFormed) (keeps : a.Keeps o.nodes view T inside) :
    Ranked inside rank view (State.initial a o) := by
  constructor
  · intro n flow found
    obtain ⟨-, rfl⟩ := initial_flow wf found
    rcases startFlow_cases (a := a) (o := o) (n := n) with ⟨-, same⟩ | ⟨-, same⟩
    · rw [same]
      exact keeps.boundary
    · rw [same]
      exact keeps.bottom
  · intro n flow found
    obtain ⟨member, rfl⟩ := initial_flow wf found
    exact keeps.start n member
  · intro n flow _
    have none : (State.initial a o).rises view n = 0 := count_eq_zero _ List.not_mem_nil
    omega

theorem Ranked.visit (ranked : Ranked inside rank view s) (law : a.Lawful o.nodes view T)
    (keeps : a.Keeps o.nodes view T inside)
    (strict : ∀ left right, inside left → inside right → left < right → rank left < rank right)
    (member : n ∈ o.nodes) (found : s.flows.get? n = some flow) (rest : Worklist ν)
    (sent : (o.inflow.next n).map s.outgoing? = sources.map some) :
    Ranked inside rank view (s.visit a o n rest flow sources) := by
  have before := ranked.incoming n flow found
  have input : inside (view (Visit.ofSources a o rest n flow sources).input) := by
    apply law.input_inside rest n keeps.join before
    intro source listed
    obtain ⟨m, -, other, held, rfl⟩ := sender_of_mem sent listed
    exact ranked.outgoing m other held
  constructor
  · intro m after held
    rcases visit_flow held with ⟨rfl, rfl⟩ | ⟨-, held⟩
    · exact input
    · exact ranked.incoming m after held
  · intro m after held
    rcases visit_flow held with ⟨rfl, rfl⟩ | ⟨-, held⟩
    · rw [law.output_eq rest member flow sources]
      exact keeps.transfer m member _ input
    · exact ranked.outgoing m after held
  · intro m after held
    rcases visit_flow held with ⟨rfl, rfl⟩ | ⟨same, held⟩
    · have rises := ranked.rises m flow found
      have grows := law.incoming_le_input rest m flow sources
      rw [rises_visit_self]
      split
      next still =>
        rw [← still]
        exact rises
      next grown =>
        have rank := strict _ _ before input (lt_of_le_of_ne grows grown)
        dsimp only
        omega
    · rw [rises_visit_other view same]
      exact ranked.rises m after held

theorem Reachable.ranked (reached : Reachable a o s) (wf : o.WellFormed) (law : a.Lawful o.nodes view T)
    (keeps : a.Keeps o.nodes view T inside)
    (strict : ∀ left right, inside left → inside right → left < right → rank left < rank right) :
    Ranked inside rank view s := by
  induction reached using Reachable.visits with
  | initial => exact .initial wf keeps
  | visit before popped found sent ih =>
    exact ih.visit law keeps strict (((before.orderly wf).known _).mp ⟨_, found⟩) found _ sent

end State

/-- What flows into a node grows at most `height` times, however long a run goes on. -/
def Analysis.GrowsAtMost (a : Analysis ν φ) (g : Graph ν) (view : φ → L) (height : Nat) : Prop :=
  ∀ s, State.Reachable a (g.orient a.direction) s → ∀ n ∈ g.nodes, s.rises view n ≤ height

/-- If the number of visits is bounded, a run settles within the bound. -/
theorem Graph.WellFormed.settles_of_bounded [Std.TransOrd ν] [Std.LawfulEqOrd ν] {g : Graph ν} (wf : g.WellFormed)
    {a : Analysis ν φ} {limit : Nat}
    (bounded : ∀ s, State.Reachable a (g.orient a.direction) s → s.history.length ≤ limit) :
    ∃ s, a.Settles g none s ∧ s.iterations ≤ limit := by
  have begun := State.Reachable.initial (a := a) (o := g.orient a.direction)
  have settled : ((State.initial a (g.orient a.direction)).run a (g.orient a.direction) (limit + 1)).2 = .settled := by
    rcases begun.run_ending (wf.orient a.direction) (limit + 1) with settled | cut
    · exact settled
    · have enough := bounded _ (begun.run (limit + 1))
      have length := (State.run_exhausted cut).1
      omega
  obtain ⟨s, settles⟩ := Analysis.Settles.of_run settled
  obtain ⟨last, reached, -, rfl⟩ := settles.reached
  exact ⟨_, settles.unlimited, bounded last reached⟩

namespace Analysis.Lawful

variable [Std.TransOrd ν] [Std.LawfulEqOrd ν] [SemilatticeSup L] {a : Analysis ν φ} {g : Graph ν} {view : φ → L}
  {T : ν → L → L}

/-- If what flows into the nodes grows boundedly often, a run settles, and soon. -/
theorem exists_settles (law : a.Lawful g.nodes view T) (wf : g.WellFormed) {height : Nat}
    (grows : a.GrowsAtMost g view height) :
    ∃ s, a.Settles g none s ∧ s.iterations ≤
      (g.orient a.direction).order.length + (g.orient a.direction).edgeCount * (height + 1) := by
  rw [← g.nodes_orient a.direction] at law
  apply wf.settles_of_bounded
  intro s reached
  apply reached.visits_le (wf.orient a.direction) law
  rw [Graph.nodes_orient]
  exact grows s reached

/-- Facts of bounded rank cannot grow more often than they rank. -/
theorem growsAtMost_of_rank (law : a.Lawful g.nodes view T) (wf : g.WellFormed) {inside : L → Prop} {rank : L → Nat}
    {height : Nat} (keeps : a.Keeps g.nodes view T inside)
    (strict : ∀ left right, inside left → inside right → left < right → rank left < rank right)
    (bounded : ∀ fact, inside fact → rank fact ≤ height) : a.GrowsAtMost g view height := by
  intro s reached n member
  have oriented := wf.orient a.direction
  rw [← g.nodes_orient a.direction] at law keeps member
  have ranked := reached.ranked oriented law keeps strict
  obtain ⟨flow, found⟩ := ((reached.orderly oriented).known n).mpr member
  exact (ranked.rises n flow found).trans (bounded _ (ranked.incoming n flow found))

end Analysis.Lawful

end Dataflow
