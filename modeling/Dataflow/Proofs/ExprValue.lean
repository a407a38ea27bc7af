import Dataflow.Proofs.ConstantsSoundness
import Dataflow.Proofs.LivenessRuns
import Dataflow.Proofs.TransferContract

/-! What constant propagation makes of an expression, read off the expression and the values of
its variables alone. A variable that is no constant makes the result none wherever it stands, but
not from inside a call; what is left is a constant if every operand is, and nothing otherwise. -/

namespace Dataflow

namespace Operator

variable (op : Operator) {left right : Value}

/-- Nothing hides an operand that is no constant, least of all an operand without a value. -/
theorem value_eq_notConstant_iff :
    op.value left right = .notConstant ↔ left = .notConstant ∨ right = .notConstant := by
  constructor
  · intro unknown
    by_contra known
    rw [not_or] at known
    cases left with
    | notConstant => exact known.1 rfl
    | undefined =>
      rw [op.value_undefined_left known.2] at unknown
      cases unknown
    | constant m =>
      cases right with
      | notConstant => exact known.2 rfl
      | undefined => cases unknown
      | constant n =>
        simp only [value] at unknown
        split at unknown <;> cases unknown
  · rintro (rfl | rfl)
    · rfl
    · exact op.value_notConstant_right left

theorem value_eq_constant_iff {n : Int32} : op.value left right = .constant n ↔
    ∃ first second, left = .constant first ∧ right = .constant second ∧ op.apply first second = some n := by
  constructor
  · intro known
    cases left with
    | notConstant => cases known
    | undefined => cases right <;> cases known
    | constant first =>
      cases right with
      | notConstant | undefined => cases known
      | constant second =>
        refine ⟨first, second, rfl, rfl, ?_⟩
        simp only [value] at known
        split at known
        next result comes =>
          obtain rfl := Value.constant.inj known
          exact comes
        next => cases known
  · rintro ⟨first, second, rfl, rfl, comes⟩
    simp only [value, comes]

end Operator

private theorem Value.constant?_eq_some_iff {v : Value} {n : Int32} : v.constant? = some n ↔ v = .constant n := by
  cases v <;> simp [constant?]

namespace Expr

/-- A variable occurs in an expression, the arguments of calls included. -/
inductive Occurs (x : Var) : Expr → Prop where
  | var : Occurs x (.var x)
  | left {op : Operator} {left right : Expr} (inside : Occurs x left) : Occurs x (.binary op left right)
  | right {op : Operator} {left right : Expr} (inside : Occurs x right) : Occurs x (.binary op left right)
  | arg {method : String} {args : List Expr} {arg : Expr} (member : arg ∈ args) (inside : Occurs x arg) :
      Occurs x (.call method args)

/-- A variable occurs in an expression outside every call. -/
inductive OccursOpenly (x : Var) : Expr → Prop where
  | var : OccursOpenly x (.var x)
  | left {op : Operator} {left right : Expr} (inside : OccursOpenly x left) : OccursOpenly x (.binary op left right)
  | right {op : Operator} {left right : Expr} (inside : OccursOpenly x right) : OccursOpenly x (.binary op left right)

inductive Plain : Expr → Prop where
  | var (x : Var) : Plain (.var x)
  | literal (n : Int32) : Plain (.literal n)
  | binary {op : Operator} {left right : Expr} (first : Plain left) (second : Plain right) :
      Plain (.binary op left right)

/-- An expression comes to an integer when it is plain, every variable it reads is a constant, and
computing with those constants fails at no operator. -/
structure FoldsTo (values : Var → Value) (e : Expr) (n : Int32) : Prop where
  plain : e.Plain
  known : ∀ x ∈ e.uses, ∃ k, values x = .constant k
  folds : e.eval (fun x => (values x).constant?) = some n

variable {values other : Var → Value} {memory : Memory} {x : Var} {n : Int32}

mutual

theorem mem_occurrences_iff : ∀ {e : Expr}, x ∈ e.occurrences ↔ e.Occurs x
  | var y => by
    rw [occurrences, List.mem_singleton]
    constructor
    · rintro rfl
      exact .var
    · intro occurs
      cases occurs
      rfl
  | literal _ => ⟨nofun, nofun⟩
  | create _ => ⟨nofun, nofun⟩
  | binary op left right => by
    rw [occurrences, List.mem_append, mem_occurrences_iff, mem_occurrences_iff]
    constructor
    · rintro (inside | inside)
      · exact .left inside
      · exact .right inside
    · intro occurs
      cases occurs with
      | left inside => exact Or.inl inside
      | right inside => exact Or.inr inside
  | call method args => by
    rw [occurrences, mem_occurrencesAll_iff]
    constructor
    · rintro ⟨arg, member, inside⟩
      exact .arg member inside
    · intro occurs
      cases occurs with
      | arg member inside => exact ⟨_, member, inside⟩

private theorem mem_occurrencesAll_iff : ∀ {args : List Expr}, x ∈ occurrencesAll args ↔ ∃ arg ∈ args, arg.Occurs x
  | [] => ⟨nofun, nofun⟩
  | arg :: args => by
    rw [occurrencesAll, List.mem_append, mem_occurrences_iff, mem_occurrencesAll_iff, List.exists_mem_cons_iff]

end

theorem value_eq_notConstant_iff : ∀ {e : Expr},
    e.value values = .notConstant ↔ ∃ x, e.OccursOpenly x ∧ values x = .notConstant
  | var x => by
    constructor
    · intro unknown
      exact ⟨x, .var, unknown⟩
    · rintro ⟨y, occurs, unknown⟩
      cases occurs
      exact unknown
  | literal _ => ⟨nofun, nofun⟩
  | call .. => ⟨nofun, nofun⟩
  | create _ => ⟨nofun, nofun⟩
  | binary op left right => by
    rw [value_binary, op.value_eq_notConstant_iff, value_eq_notConstant_iff, value_eq_notConstant_iff]
    constructor
    · rintro (⟨x, inside, unknown⟩ | ⟨x, inside, unknown⟩)
      · exact ⟨x, .left inside, unknown⟩
      · exact ⟨x, .right inside, unknown⟩
    · rintro ⟨x, occurs, unknown⟩
      cases occurs with
      | left inside => exact Or.inl ⟨x, inside, unknown⟩
      | right inside => exact Or.inr ⟨x, inside, unknown⟩

private theorem eval_binary {op : Operator} {left right : Expr} : (binary op left right).eval memory = some n ↔
    ∃ first second, left.eval memory = some first ∧ right.eval memory = some second ∧
      op.apply first second = some n := by
  simp only [eval]
  cases left.eval memory <;> cases right.eval memory <;> simp

private theorem value_eq_constant_iff_eval : ∀ {e : Expr} {n : Int32},
    e.value values = .constant n ↔ e.eval (fun x => (values x).constant?) = some n
  | var x, _ => Value.constant?_eq_some_iff.symm
  | literal m, n => by
    rw [value, eval, Value.constant.injEq, Option.some.injEq]
  | call .., _ => ⟨nofun, nofun⟩
  | create _, _ => ⟨nofun, nofun⟩
  | binary op left right, n => by
    rw [value_binary, op.value_eq_constant_iff, eval_binary]
    simp only [value_eq_constant_iff_eval]

private theorem plain_of_eval : ∀ {e : Expr} {n : Int32}, e.eval memory = some n →
    e.Plain ∧ ∀ x ∈ e.occurrences, ∃ k, memory x = some k
  | var y, n, comes => by
    refine ⟨.var y, ?_⟩
    intro x occurs
    obtain rfl := List.mem_singleton.mp occurs
    exact ⟨n, comes⟩
  | literal m, _, _ => ⟨.literal m, nofun⟩
  | call .., _, comes => nomatch comes
  | create _, _, comes => nomatch comes
  | binary op left right, n, comes => by
    obtain ⟨_, _, first, second, -⟩ := eval_binary.mp comes
    obtain ⟨plain, bound⟩ := plain_of_eval first
    obtain ⟨simple, held⟩ := plain_of_eval second
    refine ⟨.binary plain simple, ?_⟩
    intro x occurs
    rcases List.mem_append.mp occurs with inside | inside
    · exact bound x inside
    · exact held x inside

theorem value_eq_constant_iff {e : Expr} : e.value values = .constant n ↔ e.FoldsTo values n := by
  rw [value_eq_constant_iff_eval]
  constructor
  · intro folds
    obtain ⟨plain, bound⟩ := plain_of_eval folds
    refine ⟨plain, ?_, folds⟩
    intro x uses
    obtain ⟨k, known⟩ := bound x (mem_uses.mp uses)
    exact ⟨k, Value.constant?_eq_some_iff.mp known⟩
  · exact FoldsTo.folds

theorem value_eq_undefined_iff {e : Expr} : e.value values = .undefined ↔
    (¬∃ x, e.OccursOpenly x ∧ values x = .notConstant) ∧ ¬∃ n, e.FoldsTo values n := by
  rw [← value_eq_notConstant_iff]
  simp only [← value_eq_constant_iff]
  cases e.value values <;> simp

theorem value_congr : ∀ {e : Expr}, (∀ x ∈ e.occurrences, values x = other x) → e.value values = e.value other
  | var x, agree => agree x (List.mem_singleton_self x)
  | literal _, _ => rfl
  | call .., _ => rfl
  | create _, _ => rfl
  | binary op left right, agree => by
    have first : left.value values = left.value other :=
      value_congr fun x occurs => agree x (List.mem_append_left _ occurs)
    have second : right.value values = right.value other :=
      value_congr fun x occurs => agree x (List.mem_append_right _ occurs)
    rw [value_binary, value_binary, first, second]

/-- The value of an expression under a fact is no constant if and only if a variable is that
occurs outside every call, a constant if and only if the expression comes to it with the constants
of its variables, and nothing otherwise. It depends on the variables the expression uses alone,
which are those that occur anywhere in it. -/
theorem value_exact (e : Expr) :
    (∀ fact : Env Var Value,
      (e.value fact.get = .notConstant ↔ ∃ x, e.OccursOpenly x ∧ fact.get x = .notConstant) ∧
      (∀ n, e.value fact.get = .constant n ↔ e.FoldsTo fact.get n) ∧
      (e.value fact.get = .undefined ↔
        (¬∃ x, e.OccursOpenly x ∧ fact.get x = .notConstant) ∧ ¬∃ n, e.FoldsTo fact.get n)) ∧
    (∀ fact other : Env Var Value, (∀ x ∈ e.uses, fact.get x = other.get x) →
      e.value fact.get = e.value other.get) ∧
    ∀ x, x ∈ e.uses ↔ e.Occurs x := by
  refine ⟨?_, ?_, fun x => mem_uses.trans mem_occurrences_iff⟩
  · intro fact
    exact ⟨value_eq_notConstant_iff, fun n => value_eq_constant_iff, value_eq_undefined_iff⟩
  · intro fact other agree
    exact value_congr fun x occurs => agree x (mem_uses.mpr occurs)

/-- A division that fails, beside a variable, and the variable hidden in a call. -/
def entangled : Expr :=
  .binary (.arithmetic .mul) (.binary (.arithmetic .div) (.literal 5) (.literal 0))
    (.binary (.bitwise .or) (.var (.int "n")) (.call "f" [.var (.int "m")]))

/-- The variable outside the call decides: it hides the division, and another one in the call does
not. -/
theorem entangled_value : let fact (n m : Value) : Env Var Value := .ofList [(.int "n", n), (.int "m", m)]
    entangled.value (fact .notConstant .undefined).get = .notConstant ∧
    entangled.value (fact (.constant 1) .notConstant).get = .undefined ∧ Var.int "m" ∈ entangled.uses ∧
    (∀ other : Env Var Value, (∀ x ∈ entangled.uses, (fact .notConstant .undefined).get x = other.get x) →
      entangled.value other.get = .notConstant) := by
  intro fact
  obtain ⟨meaning, agreeing, occurring⟩ := value_exact entangled
  have unknown : entangled.value (fact .notConstant .undefined).get = .notConstant :=
    (meaning _).1.mpr ⟨.int "n", .right (.left .var), rfl⟩
  refine ⟨unknown, ?_, ?_, ?_⟩
  · refine (meaning _).2.2.mpr ⟨?_, ?_⟩
    · rintro ⟨x, occurs, found⟩
      cases occurs with
      | left inside => rcases inside with _ | inside | inside <;> cases inside
      | right inside =>
        rcases inside with _ | inside | inside
        · cases inside
          cases found
        · cases inside
    · rintro ⟨n, folds⟩
      cases folds.folds
  · exact (occurring _).mpr (.right (.right (.arg (List.mem_singleton_self _) .var)))
  · intro other agree
    rw [← agreeing _ other agree]
    exact unknown

end Expr

end Dataflow
