import Mathlib.Data.Set.Function
import Dataflow.Proofs.ControlFlow
import Dataflow.Proofs.LivenessPaths

/-! What a run shows depends on live variables only. Two runs from one statement that agree
on the variables live there stay together: they agree on what each statement reads, so they
show the same and go on to the same statement, and there they agree on the live variables. -/

namespace Dataflow

inductive Datum (Object : Type) where
  | int (n : Int32)
  | object (it : Object)

namespace Datum

def isZero {Object : Type} : Datum Object → Bool
  | int n => n = 0
  | object _ => false

end Datum

abbrev Environment (Object : Type) := Var → Option (Datum Object)

/-- What a call comes to, given its arguments, and what a new object is. Either may fail. -/
structure Semantics (Object : Type) where
  call : String → List (Datum Object) → Option (Datum Object)
  create : String → Option (Datum Object)

/-- What one sees of a statement: nothing, the datum it evaluates, what it returns, or that
it fails. -/
inductive Observation (Object : Type) where
  | silent
  | evaluated (it : Datum Object)
  | returned (it : Option (Datum Object))
  | failed

section Semantics

variable {Object : Type} (sem : Semantics Object)

def Operator.fold (op : Operator) : Datum Object → Datum Object → Option (Datum Object)
  | .int m, .int n => (op.apply m n).map .int
  | _, _ => none

namespace Expr

mutual

/-- The datum an expression comes to. It has none if it reads an unbound variable, divides by
zero or gives an object to an operator, or if a call or a new object in it fails. -/
def evaluate (env : Environment Object) : Expr → Option (Datum Object)
  | var x => env x
  | literal n => some (.int n)
  | binary op left right => do op.fold (← evaluate env left) (← evaluate env right)
  | call method args => do sem.call method (← evaluateAll env args)
  | create className => sem.create className

def evaluateAll (env : Environment Object) : List Expr → Option (List (Datum Object))
  | [] => some []
  | arg :: args => do return (← evaluate env arg) :: (← evaluateAll env args)

end

end Expr

/-- What is seen of a statement, and where a run goes on from there and with what, given the
point that comes next in the body. A run ends with a failure, a return or the last statement. -/
def Stmt.run (next : Option Point) (env : Environment Object) :
    Stmt → Observation Object × Option (Point × Environment Object)
  | nop => (.silent, next.map (·, env))
  | assign target value =>
    match value.evaluate sem env with
    | some it => (.evaluated it, next.map (·, Function.update env target (some it)))
    | none => (.failed, none)
  | invoke call =>
    match call.evaluate sem env with
    | some it => (.evaluated it, next.map (·, env))
    | none => (.failed, none)
  | branch condition target =>
    match condition.evaluate sem env with
    | some it => (.evaluated it, (if it.isZero then next else some target).map (·, env))
    | none => (.failed, none)
  | goto target => (.silent, some (target, env))
  | ret none => (.returned none, none)
  | ret (some x) =>
    match env x with
    | some it => (.returned (some it), none)
    | none => (.failed, none)

/-- The points a run visits in so many steps, each with what is seen of the statement there. -/
def Method.trace (m : Method) : Nat → Point → Environment Object → List (Point × Observation Object)
  | 0, _, _ => []
  | steps + 1, p, env =>
    match m.stmt? p with
    | some stmt =>
      let (seen, rest) := stmt.run sem (m.after? p) env
      (p, seen) :: match rest with
        | some (q, after) => m.trace steps q after
        | none => []
    | none => []

variable {sem} {env other : Environment Object}

namespace Expr

mutual

theorem evaluate_congr : ∀ {e : Expr}, (∀ x ∈ e.occurrences, env x = other x) →
    e.evaluate sem env = e.evaluate sem other
  | var x, agree => agree x (List.mem_singleton_self x)
  | literal _, _ => rfl
  | binary op left right, agree => by
    have first : left.evaluate sem env = left.evaluate sem other :=
      evaluate_congr fun x occurs => agree x (List.mem_append_left _ occurs)
    have second : right.evaluate sem env = right.evaluate sem other :=
      evaluate_congr fun x occurs => agree x (List.mem_append_right _ occurs)
    simp only [evaluate, first, second]
  | call method args, agree => by
    have data : evaluateAll sem env args = evaluateAll sem other args := evaluateAll_congr agree
    simp only [evaluate, data]
  | create _, _ => rfl

private theorem evaluateAll_congr : ∀ {args : List Expr}, (∀ x ∈ occurrencesAll args, env x = other x) →
    evaluateAll sem env args = evaluateAll sem other args
  | [], _ => rfl
  | arg :: args, agree => by
    have first : arg.evaluate sem env = arg.evaluate sem other :=
      evaluate_congr fun x occurs => agree x (List.mem_append_left _ occurs)
    have rest : evaluateAll sem env args = evaluateAll sem other args :=
      evaluateAll_congr fun x occurs => agree x (List.mem_append_right _ occurs)
    simp only [evaluateAll, first, rest]

end

end Expr

namespace Stmt

variable {stmt : Stmt} {next : Option Point} {p q : Point}

structure Abreast (vars : Set Var) (here there : Point × Environment Object) : Prop where
  point : here.1 = there.1
  agree : Set.EqOn here.2 there.2 vars

private theorem abreast_onward {vars : Set Var} (target : Option Point) (agree : Set.EqOn env other vars) :
    Option.Rel (Abreast vars) (target.map (·, env)) (target.map (·, other)) := by
  cases target with
  | none => exact .none
  | some q => exact .some ⟨rfl, agree⟩

private theorem eqOn_update {vars : Set Var} {x : Var} (it : Option (Datum Object))
    (agree : ∀ y ∈ vars, y ≠ x → env y = other y) :
    Set.EqOn (Function.update env x it) (Function.update other x it) vars := by
  intro y member
  by_cases written : y = x
  · subst written
    rw [Function.update_self, Function.update_self]
  · rw [Function.update_of_ne written, Function.update_of_ne written]
    exact agree y member written

/-- A statement shows the same to two runs that agree on what it reads, and sends them on to
the same point. There they agree on all they agreed on before, and on what it writes. -/
theorem run_abreast (sem : Semantics Object) (next : Option Point) {vars : Set Var}
    (reads : ∀ x ∈ stmt.uses, env x = other x) (kept : ∀ x ∈ vars, stmt.def? ≠ some x → env x = other x) :
    (stmt.run sem next env).1 = (stmt.run sem next other).1 ∧
      Option.Rel (Abreast vars) (stmt.run sem next env).2 (stmt.run sem next other).2 := by
  have same {e : Expr} (uses : stmt.uses = e.uses) : e.evaluate sem env = e.evaluate sem other := by
    apply Expr.evaluate_congr
    intro x occurs
    apply reads x
    rw [uses]
    exact Expr.mem_uses.mpr occurs
  have unwritten (silent : stmt.def? = none) : Set.EqOn env other vars := by
    intro x member
    apply kept x member
    rw [silent]
    exact nofun
  cases stmt with
  | nop => exact ⟨rfl, abreast_onward next (unwritten rfl)⟩
  | goto target => exact ⟨rfl, abreast_onward (some target) (unwritten rfl)⟩
  | assign target value =>
    simp only [run, same rfl]
    cases value.evaluate sem other with
    | none => exact ⟨rfl, .none⟩
    | some it =>
      refine ⟨rfl, abreast_onward next (eqOn_update _ ?_)⟩
      intro x member different
      exact kept x member fun written => different (Option.some.inj written).symm
  | invoke call =>
    simp only [run, same rfl]
    cases call.evaluate sem other with
    | none => exact ⟨rfl, .none⟩
    | some it => exact ⟨rfl, abreast_onward next (unwritten rfl)⟩
  | branch condition target =>
    simp only [run, same rfl]
    cases condition.evaluate sem other with
    | none => exact ⟨rfl, .none⟩
    | some it => exact ⟨rfl, abreast_onward _ (unwritten rfl)⟩
  | ret value =>
    cases value with
    | none => exact ⟨rfl, .none⟩
    | some x =>
      have read : env x = other x := reads x (by simp [uses])
      simp only [run, read, true_and]
      cases other x with
      | none => exact .none
      | some it => exact .none

private theorem run_goes {after : Environment Object} (goes : (stmt.run sem next env).2 = some (q, after)) :
    stmt.jump? = some q ∨ stmt.FallsThrough ∧ next = some q := by
  have onward {target : Option Point} {before : Environment Object}
      (goes : target.map (·, before) = some (q, after)) : target = some q := by
    obtain ⟨p, found, same⟩ := Option.map_eq_some_iff.mp goes
    obtain ⟨rfl, -⟩ := Prod.mk.inj same
    exact found
  cases stmt with
  | nop => exact Or.inr ⟨trivial, onward goes⟩
  | goto target =>
    obtain ⟨rfl, -⟩ := Prod.mk.inj (Option.some.inj goes)
    exact Or.inl rfl
  | assign | invoke =>
    simp only [run] at goes
    split at goes
    · exact Or.inr ⟨trivial, onward goes⟩
    · cases goes
  | branch condition target =>
    simp only [run] at goes
    split at goes
    next it comes =>
      have taken := onward goes
      split at taken
      next => exact Or.inr ⟨trivial, taken⟩
      next => exact Or.inl taken
    next => cases goes
  | ret value =>
    cases value with
    | none => cases goes
    | some x =>
      simp only [run] at goes
      split at goes <;> cases goes

end Stmt

end Semantics

namespace Liveness

variable {m : Method} {g : FlowGraph} {Object : Type} {sem : Semantics Object}

private theorem neighbour_of_run (built : FlowGraph.ofMethod? m = .ok g) {p q : Point} {stmt : Stmt}
    {env after : Environment Object} (found : m.stmt? p = some stmt)
    (goes : (stmt.run sem (m.after? p) env).2 = some (q, after)) : q ∈ g.neighbours p .forward := by
  obtain ⟨-, rfl⟩ := FlowGraph.ofMethod?_eq_ok_iff.mp built
  apply FlowGraph.mem_successors_ofBody.mpr
  apply Method.exists_mem_transfers_iff.mpr
  rcases Stmt.run_goes goes with jumps | ⟨falls, next⟩
  · exact .jump found jumps
  · obtain ⟨follows, inside⟩ := Method.after?_eq_some_iff.mp next
    exact .next found falls follows inside

/-- By induction on the number of steps, for any solution of the equations: runs that agree
on what is live where they stand agree on it again where they go. -/
theorem trace_congr {facts : Point → Flow (Set Var)} (built : FlowGraph.ofMethod? m = .ok g)
    (equations : Equations (g.graph.orient .backward) (∅ : CompactSet Var).elements (passed g) facts) (steps : Nat)
    {p : Point} (member : p ∈ g.graph.nodes) {env other : Environment Object}
    (agree : Set.EqOn env other (facts p).outgoing) : m.trace sem steps p env = m.trace sem steps p other := by
  have wf := FlowGraph.wellFormed built
  obtain ⟨-, rfl⟩ := FlowGraph.ofMethod?_eq_ok_iff.mp built
  induction steps generalizing p env other with
  | zero => rfl
  | succ steps ih =>
    obtain ⟨stmt, found⟩ := FlowGraph.stmt?_of_mem built member
    have here : m.stmt? p = some stmt := found
    rw [equations.passed p member] at agree
    have reads : ∀ x ∈ stmt.uses, env x = other x := fun x uses => agree (Or.inl ⟨stmt, found, uses⟩)
    have kept : ∀ x ∈ (facts p).incoming, stmt.def? ≠ some x → env x = other x := by
      intro x live unwritten
      apply agree
      refine Or.inr ⟨?_, live⟩
      rintro ⟨written, again, defines⟩
      obtain rfl := Option.some.inj (found.symm.trans again)
      exact unwritten defines
    obtain ⟨seen, abreast⟩ := Stmt.run_abreast sem (m.after? p) reads kept
    simp only [Method.trace, here, seen]
    generalize goes : (stmt.run sem (m.after? p) env).2 = first at abreast ⊢
    generalize (stmt.run sem (m.after? p) other).2 = second at abreast ⊢
    cases abreast with
    | none => rfl
    | @some first second abreast =>
      obtain ⟨q, before⟩ := first
      obtain ⟨r, after⟩ := second
      obtain rfl : q = r := abreast.point
      -- what is live where the run goes is live after this statement
      have edge := neighbour_of_run built here goes
      have received := equations.received q p ((wf.transposed p q).mp edge)
      have onward := ih (abreast.agree.mono received) (wf.target p q edge)
      simp only [onward]

private theorem dead_of_unread (built : FlowGraph.ofMethod? m = .ok g) {limit : Option Nat}
    {s : Solution Point (CompactSet Var)} (settles : (analysis g).Settles g.graph limit s) {p : Point}
    (inside : g.contains p = true) {live : CompactSet Var} (known : s.inFact? p = some live) {x : Var}
    (unread : x ∉ readVars g) : live.contains x = false := by
  have member := (FlowGraph.mem_nodes built).mpr inside
  have told : s.Holds .backward p (s.facts ∅ p) := settles.facts_hold (FlowGraph.wellFormed built) member
  obtain rfl := Option.some.inj (told.1.symm.trans known)
  rw [Bool.eq_false_iff]
  intro found
  have same := congrArg Flow.outgoing (facts_eq_liveFlow built settles member)
  obtain ⟨_, last, -, -, reads, -⟩ := (Set.ext_iff.mp same x).mp found
  exact unread ⟨last, reads⟩

private theorem countUp_unread : Var.int "k" ∉ readVars (.ofBody countUp) := by
  rintro ⟨p, reads⟩
  rcases countUp_reads reads with same | same <;> simp [Var.int] at same

/-- Liveness is sound: two runs from one statement that agree on the variables live before it
visit the same statements, evaluate the same in each, fail at the same one and return the
same, whatever calls and new objects come to. In particular, no run shows what a variable
that is not live held. -/
theorem runs_see_only_live (built : FlowGraph.ofMethod? m = .ok g) (sem : Semantics Object) :
    (∃ s, (analysis g).Settles g.graph none s) ∧ ∀ limit s, (analysis g).Settles g.graph limit s →
      ∀ p, g.contains p = true → ∃ live, s.inFact? p = some live ∧
        (∀ env other, (∀ x, live.contains x = true → env x = other x) →
          ∀ steps, m.trace sem steps p env = m.trace sem steps p other) ∧
        (∀ x, live.contains x = false → ∀ env it steps,
          m.trace sem steps p (Function.update env x it) = m.trace sem steps p env) := by
  refine ⟨exists_settles built, ?_⟩
  intro limit s settles p inside
  have wf := FlowGraph.wellFormed built
  have member := (FlowGraph.mem_nodes built).mpr inside
  have told : s.Holds .backward p (s.facts ∅ p) := settles.facts_hold wf member
  have equations := settles.facts_equations wf (lawful built)
  have same {env other : Environment Object}
      (agree : ∀ x, (s.facts ∅ p).outgoing.contains x = true → env x = other x) (steps : Nat) :
      m.trace sem steps p env = m.trace sem steps p other := trace_congr built equations steps member agree
  refine ⟨_, told.1, fun env other => same, ?_⟩
  intro x dead env it steps
  apply same
  intro y live
  have different : y ≠ x := by
    rintro rfl
    cases live.symm.trans dead
  exact Function.update_of_ne different it env

theorem countUp_sees_only_live :
    let sem : Semantics Empty := ⟨fun _ args => args.head?, fun _ => none⟩
    let env : Environment Empty := Function.update (fun _ => some (.int 0)) (.int "n") (some (.int 1))
    (∀ steps, countUp.trace sem steps ⟨1, by decide⟩ (Function.update env (.int "k") (some (.int 7))) =
      countUp.trace sem steps ⟨1, by decide⟩ env) ∧
    countUp.trace sem 9 ⟨1, by decide⟩ env = [(⟨1, by decide⟩, .evaluated (.int 0)),
      (⟨2, by decide⟩, .evaluated (.int 1)), (⟨3, by decide⟩, .silent), (⟨1, by decide⟩, .evaluated (.int 1)),
      (⟨4, by decide⟩, .returned none)] := by
  intro sem env
  refine ⟨?_, rfl⟩
  obtain ⟨⟨s, settles⟩, sound⟩ := runs_see_only_live countUp_graph sem
  obtain ⟨live, known, -, unseen⟩ := sound none s settles ⟨1, by decide⟩ rfl
  have dead := dead_of_unread countUp_graph settles rfl known countUp_unread
  exact unseen (.int "k") dead env (some (.int 7))

end Liveness

end Dataflow
