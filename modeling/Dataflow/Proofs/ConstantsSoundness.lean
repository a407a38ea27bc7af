import Dataflow.Proofs.ConstantsLaws

/-! What constant propagation says of the integers that variables hold when a method runs.
A run follows any path from the entry, whatever the branches would decide, and stops at an
assignment whose right-hand side has no integer. -/

namespace Dataflow

/-- The integers that variables hold. Variables may be unbound. -/
abbrev Memory := Var → Option Int32

/-- The integer an expression comes to. It has none if it reads an unbound variable, divides
by zero, or calls a method or makes an object anywhere. -/
def Expr.eval (memory : Memory) : Expr → Option Int32
  | .var x => memory x
  | .literal n => some n
  | .binary op left right =>
    match left.eval memory, right.eval memory with
    | some m, some n => op.apply m n
    | _, _ => none
  | .call .. => none
  | .create _ => none

/-- The memory after a statement, unless a run stops there. Nothing but an assignment to a
variable that can hold an integer changes it. -/
def Stmt.exec (memory : Memory) (stmt : Stmt) : Option Memory :=
  match stmt.intAssignment? with
  | some (x, value) => (value.eval memory).map fun n => Function.update memory x (some n)
  | none => some memory

/-- A run begins with any integers in the parameters that can hold one, and nothing else. -/
def Method.Begins (m : Method) (memory : Memory) : Prop :=
  ∀ x, (memory x).isSome = true ↔ x ∈ m.params ∧ x.holdsInt = true

/-- A run along some path from the entry arrives at a point. -/
inductive FlowGraph.Arrives (g : FlowGraph) : Point → Memory → Prop where
  | entry {memory : Memory} (begins : g.method.Begins memory) : Arrives g g.graph.entry memory
  | step {p q : Point} {stmt : Stmt} {memory after : Memory} (arrives : Arrives g p memory)
      (found : g.stmt? p = some stmt) (runs : stmt.exec memory = some after)
      (passes : q ∈ g.neighbours p .forward) : Arrives g q after

private theorem FlowGraph.Arrives.mem_nodes {g : FlowGraph} {p : Point} {memory : Memory} (arrives : g.Arrives p memory)
    (wf : g.graph.WellFormed) : p ∈ g.graph.nodes := by
  cases arrives with
  | entry => exact wf.entry
  | step _ _ _ passes => exact wf.target _ p passes

theorem Value.constant_le_iff {n : Int32} {v : Value} : constant n ≤ v ↔ v = notConstant ∨ v = constant n := by
  constructor
  · intro le
    rcases le_cases le with impossible | unknown | same
    · cases impossible
    · exact Or.inl unknown
    · exact Or.inr same.symm
  · intro covers
    rcases covers with rfl | rfl
    · exact (le_iff _ _).mpr rfl
    · exact le_rfl

namespace Constants

def Covers (values : Var → Value) (memory : Memory) : Prop := ∀ x n, memory x = some n → .constant n ≤ values x

variable {values : Var → Value} {memory after : Memory}

private theorem Covers.mono {more : Var → Value} (covers : Covers values memory) (le : values ≤ more) :
    Covers more memory :=
  fun x n holds => (covers x n holds).trans (le x)

theorem Covers.value (covers : Covers values memory) :
    ∀ {e : Expr} {n : Int32}, e.eval memory = some n → .constant n ≤ e.value values
  | .var x, n, comes => covers x n comes
  | .literal k, n, comes => by
    obtain rfl := Option.some.inj comes
    exact le_rfl
  | .call .., n, comes => nomatch comes
  | .create _, n, comes => nomatch comes
  | .binary op left right, n, comes => by
    simp only [Expr.eval] at comes
    split at comes
    next first second toFirst toSecond =>
      have lower := Value.constant_le_iff.mp (covers.value toFirst)
      have upper := Value.constant_le_iff.mp (covers.value toSecond)
      rw [Value.constant_le_iff]
      simp only [Expr.value]
      rcases lower with unknown | known
      · left
        rw [unknown]
      · rcases upper with unknown | same
        · left
          rw [known, unknown]
        · right
          rw [known, same]
          simp only [comes]
    next => cases comes

variable {m : Method} {g : FlowGraph} {p : Point} {s : Solution Point (Env Var Value)} {limit : Option Nat}

theorem Covers.passed {stmt : Stmt} (covers : Covers values memory) (found : g.stmt? p = some stmt)
    (runs : stmt.exec memory = some after) : Covers (passed g p values) after := by
  have here := assignment?_eq found
  cases assigns : stmt.intAssignment? with
  | none =>
    simp only [Stmt.exec, assigns] at runs
    obtain rfl := Option.some.inj runs
    rw [passed_silent (here.trans assigns)]
    exact covers
  | some assignment =>
    obtain ⟨x, value⟩ := assignment
    simp only [Stmt.exec, assigns] at runs
    obtain ⟨k, comes, rfl⟩ := Option.map_eq_some_iff.mp runs
    rw [passed_assigned (here.trans assigns)]
    intro y n holds
    by_cases same : y = x
    · subst same
      rw [Function.update_self] at holds ⊢
      obtain rfl := Option.some.inj holds
      exact covers.value comes
    · rw [Function.update_of_ne same] at holds ⊢
      exact covers y n holds

private theorem boundary_covers (begins : m.Begins memory) : Covers (boundary m).get memory := by
  intro x n holds
  have parameter := (begins x).mp (Option.isSome_of_eq_some holds)
  rw [boundary, Env.get_ofList_same, if_pos (List.mem_filter.mpr parameter), Value.constant_le_iff]
  exact Or.inl rfl

/-- What the solution says before a point covers every run that arrives there. -/
theorem arrives_covers (built : FlowGraph.ofMethod? m = .ok g) (settles : (analysis g).Settles g.graph limit s)
    (arrives : g.Arrives p memory) : Covers (s.facts ∅ p).incoming.get memory := by
  have wf := FlowGraph.wellFormed built
  have equations := settles.facts_equations wf (lawful built)
  induction arrives with
  | entry begins =>
    have boundary := equations.boundary g.graph.entry (List.mem_singleton_self _)
    exact (boundary_covers begins).mono boundary
  | @step p q stmt memory after arrives found runs passes ih =>
    have passed := equations.passed p (wf.source p q passes)
    apply Covers.mono _ (equations.received p q passes)
    rw [passed]
    exact ih.passed found runs

/-- Constant propagation is sound: whenever a run arrives at a statement, every variable that
holds an integer is known to be no constant or to be the constant it holds, before the
statement, and after it if the run goes on. -/
theorem constants_sound (built : FlowGraph.ofMethod? m = .ok g) :
    (∃ s, (analysis g).Settles g.graph none s) ∧ ∀ limit s, (analysis g).Settles g.graph limit s →
      ∀ p memory, g.Arrives p memory → ∃ before after, s.inFact? p = some before ∧ s.outFact? p = some after ∧
        (∀ x n, memory x = some n → before.get x = .notConstant ∨ before.get x = .constant n) ∧
        (∀ stmt later, g.stmt? p = some stmt → stmt.exec memory = some later →
          ∀ x n, later x = some n → after.get x = .notConstant ∨ after.get x = .constant n) := by
  refine ⟨exists_settles built, ?_⟩
  intro limit s settles p memory arrives
  have wf := FlowGraph.wellFormed built
  have member := arrives.mem_nodes wf
  have told := settles.facts_hold wf member
  have covers := arrives_covers built settles arrives
  have passed : (s.facts ∅ p).outgoing.get = passed g p (s.facts ∅ p).incoming.get :=
    (settles.facts_equations wf (lawful built)).passed p member
  refine ⟨_, _, told.1, told.2, ?_, ?_⟩
  · intro x n holds
    exact Value.constant_le_iff.mp (covers x n holds)
  · intro stmt later here runs x n holds
    have after : Covers (s.facts ∅ p).outgoing.get later := by
      rw [passed]
      exact covers.passed here runs
    exact Value.constant_le_iff.mp (after x n holds)

theorem countUp_sound : ∃ s before, (analysis (.ofBody countUp)).Settles (FlowGraph.ofBody countUp).graph none s ∧
    s.inFact? ⟨1, by decide⟩ = some before ∧
    (before.get (.int "i") = .notConstant ∨ before.get (.int "i") = .constant 0) := by
  let begun : Memory := fun x => if x = .int "n" then some 5 else none
  have begins : countUp.Begins begun := by
    intro x
    simp only [begun, countUp, List.mem_singleton]
    split
    next parameter =>
      subst parameter
      decide
    next other => simp [other]
  have first : (Stmt.assign (.int "i") (.literal 0)).exec begun = some (Function.update begun (.int "i") (some 0)) := rfl
  have arrives : (FlowGraph.ofBody countUp).Arrives ⟨1, by decide⟩ (Function.update begun (.int "i") (some 0)) :=
    .step (.entry begins) rfl first (by decide)
  obtain ⟨⟨s, settles⟩, sound⟩ := constants_sound countUp_graph
  obtain ⟨before, after, known, -, covers, -⟩ := sound none s settles _ _ arrives
  exact ⟨s, before, settles, known, covers (.int "i") 0 (Function.update_self ..)⟩

end Constants

end Dataflow
