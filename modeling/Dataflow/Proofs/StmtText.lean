import Dataflow.Stmt
import Dataflow.Proofs.ExprText
import Dataflow.Proofs.MethodGraph

/-! How the text of a statement is read back. Its first word tells what kind of statement it is,
since names are no keywords, and an assignment goes on with a sign that is no operator. Labels of
points are of one length. -/

namespace Dataflow

namespace Point

/-- A label is its number sign and five digits, which give the position. -/
theorem label_read (p : Point) : ∃ digits, (label p.val).toList = '#' :: digits ∧ digits.length = 5 ∧
    Nat.ofDigitChars 10 digits 0 = p.val := by
  have short : (Nat.toDigits 10 p.val).length ≤ 5 := by
    have bound := p.val_lt
    rw [Nat.length_toDigits_le_iff (by decide) (by decide)]
    omega
  have zeros (count : Nat) : Nat.ofDigitChars 10 (List.replicate count '0') 0 = 0 := by
    induction count with
    | zero => rfl
    | succ count ih => exact ih
  refine ⟨List.replicate (5 - (Nat.toDigits 10 p.val).length) '0' ++ Nat.toDigits 10 p.val, ?_, ?_, ?_⟩
  · simp only [label, Nat.toString_eq_ofList_toDigits, String.toList_append, String.toList_ofList, String.length_ofList,
      List.append_assoc]
    rfl
  · rw [List.length_append, List.length_replicate]
    omega
  · rw [Nat.ofDigitChars_append, zeros, Nat.ofDigitChars_ten_toDigits]

theorem label_injective {p q : Point} (same : toString p = toString q) : p = q := by
  obtain ⟨digits, spelled, -, read⟩ := p.label_read
  obtain ⟨digits', spelled', -, read'⟩ := q.label_read
  have equal : label p.val = label q.val := same
  rw [equal, spelled'] at spelled
  rw [(List.cons.inj spelled).2, read] at read'
  exact eq_of_val read'

private theorem length_label (p : Point) : (toString p).toList.length = 6 := by
  obtain ⟨digits, spelled, length, -⟩ := p.label_read
  exact (congrArg List.length spelled).trans (congrArg (· + 1) length)

end Point

namespace Stmt

def names : Stmt → List String
  | nop | goto _ | ret none => []
  | assign target value => target.name :: value.names
  | invoke call => call.names
  | branch condition _ => condition.names
  | ret (some value) => [value.name]

def untyped : Stmt → Stmt
  | nop => nop
  | assign target value => assign (.int target.name) value.untyped
  | invoke call => invoke call.untyped
  | branch condition target => branch condition.untyped target
  | goto target => goto target
  | ret value => ret (value.map fun x => .int x.name)

def WellNamed (stmt : Stmt) : Prop := ∀ name ∈ stmt.names, IsIdentifier name

instance (stmt : Stmt) : Decidable stmt.WellNamed :=
  inferInstanceAs (Decidable (∀ name ∈ stmt.names, IsIdentifier name))

/-- The word with which a statement begins, if it is not in parentheses. -/
def lead : Stmt → List Char
  | nop => ['n', 'o', 'p']
  | assign target _ => target.name.toList
  | invoke call => call.first.lead
  | branch .. => ['i', 'f']
  | goto _ => ['g', 'o', 't', 'o']
  | ret _ => ['r', 'e', 't', 'u', 'r', 'n']

def follow : Stmt → List Char
  | nop | ret none => []
  | assign _ value => ' ' :: '=' :: ' ' :: value.text.toList
  | invoke call => call.first.follow ++ call.trailing
  | branch condition target =>
    ' ' :: (condition.text.toList ++ ([' ', 'g', 'o', 't', 'o', ' '] ++ (toString target).toList))
  | goto target => ' ' :: (toString target).toList
  | ret (some value) => ' ' :: value.name.toList

inductive Form where
  | nop | branch | goto | ret | plain
deriving DecidableEq

def form : Stmt → Form
  | nop => .nop
  | assign .. | invoke _ => .plain
  | branch .. => .branch
  | goto _ => .goto
  | ret _ => .ret

def Form.read (word : List Char) : Form :=
  if word = "nop".toList then .nop
  else if word = "if".toList then .branch
  else if word = "goto".toList then .goto
  else if word = "return".toList then .ret
  else .plain

variable {stmt other : Stmt} {target : Var} {value call : Expr}

private theorem toList_text (stmt : Stmt) : stmt.text.toList = stmt.lead ++ stmt.follow := by
  cases stmt with
  | nop => rfl
  | assign => simp only [text, lead, follow, String.toList_append, List.append_assoc]; rfl
  | invoke call => rw [text, Expr.toList_text, Expr.toList_operand, List.append_assoc, lead, follow]
  | branch => simp only [text, lead, follow, String.toList_append, List.append_assoc]; rfl
  | goto => simp only [text, lead, follow, String.toList_append]; rfl
  | ret value =>
    cases value with
    | none => rfl
    | some => simp only [text, lead, follow, String.toList_append]; rfl

private theorem isWordChar_lead (named : stmt.WellNamed) : stmt.lead.all isWordChar = true := by
  cases stmt with
  | assign => exact (named _ List.mem_cons_self).isWordChar
  | invoke call => exact (Expr.WellNamed.first (e := call) named).isWordChar_lead
  | nop | branch | goto | ret => rfl

private theorem ends_trailing (call : Expr) : Ends operandStops call.trailing := by
  rw [← List.append_nil call.trailing]
  exact Expr.ends_trailing .nil

private theorem ends_follow (stmt : Stmt) : ∀ c ∈ stmt.follow.head?, isWordChar c = false := by
  cases stmt with
  | invoke call => exact Expr.ends_follow (ends_trailing call)
  | ret value =>
    cases value with
    | none => exact nofun
    | some => exact fun c first => Option.some.inj first ▸ rfl
  | nop => exact nofun
  | assign | branch | goto => exact fun c first => Option.some.inj first ▸ rfl

private theorem read_form (named : stmt.WellNamed) : Form.read stmt.lead = stmt.form := by
  have plain {word : List Char} (free : ∀ keyword ∈ reserved, keyword ≠ "new" → word ≠ keyword.toList) :
      Form.read word = .plain := by
    rw [Form.read, if_neg (free "nop" (by decide) (by decide)), if_neg (free "if" (by decide) (by decide)),
      if_neg (free "goto" (by decide) (by decide)), if_neg (free "return" (by decide) (by decide))]
  cases stmt with
  | assign => exact plain fun keyword known _ => (named _ List.mem_cons_self).ne known
  | invoke call =>
    have first : call.first.WellNamed := Expr.WellNamed.first named
    exact plain fun keyword known other => first.lead_ne known other
  | nop | branch | goto | ret => rfl

/-- Where an assignment has its sign, another text has an operator, if it goes on at all. -/
theorem assign_ne_invoke (named : (assign target value).WellNamed) (named' : call.WellNamed) :
    (assign target value).text ≠ (invoke call).text := by
  intro same
  have identifier : (Expr.var target).WellNamed := fun name member =>
    named name ((List.mem_singleton.mp member).symm ▸ List.mem_cons_self)
  have spelled : (Expr.var target).operand.toList ++ ' ' :: '=' :: ' ' :: value.text.toList =
      call.first.operand.toList ++ call.trailing := by
    have texts : target.name ++ " = " ++ value.text = call.text := same
    rw [← Expr.toList_text, ← texts]
    simp [Expr.operand, Expr.isBinary, Expr.text]
  obtain ⟨-, signs⟩ := (Expr.readable _ identifier).operand _ _ _ named'.first (ends_cons.mpr (by decide))
    (ends_trailing call) spelled
  rcases call.eq_binary_or_first with ⟨op, lhs, rhs, rfl⟩ | ⟨-, none⟩
  · have signChars : ['='].all (· != ' ') = true := rfl
    obtain ⟨sign, -⟩ := word_unique signChars ends_space op.space_not_in_text ends_space (List.cons.inj signs).2
    exact op.text_ne_assign (String.toList_inj.mp sign.symm)
  · rw [none] at signs
    cases signs

/-- The keyword tells the form, and what follows it has no other reading. -/
theorem untyped_of_text (named : stmt.WellNamed) (named' : other.WellNamed) (same : stmt.text = other.text) :
    stmt.untyped = other.untyped := by
  have chars := congrArg String.toList same
  rw [toList_text, toList_text] at chars
  obtain ⟨leads, follows⟩ := word_unique (isWordChar_lead named) (ends_follow stmt) (isWordChar_lead named')
    (ends_follow other) chars
  have forms : stmt.form = other.form := by rw [← read_form named, ← read_form named', leads]
  cases stmt with
  | nop =>
    cases other with
    | nop => rfl
    | _ => cases forms
  | assign target value =>
    cases other with
    | assign target' value' =>
      have values : [' ', '=', ' '] ++ value.text.toList = [' ', '=', ' '] ++ value'.text.toList := follows
      rw [untyped, untyped, String.toList_inj.mp leads,
        (Expr.text_eq_iff (List.forall_mem_cons.mp named).2 (List.forall_mem_cons.mp named').2).mp
          (String.toList_inj.mp (List.append_cancel_left values))]
    | invoke => exact absurd same (assign_ne_invoke named named')
    | _ => cases forms
  | invoke call =>
    cases other with
    | assign => exact absurd same.symm (assign_ne_invoke named' named)
    | invoke call' => rw [untyped, untyped, (Expr.text_eq_iff named named').mp same]
    | _ => cases forms
  | branch condition target =>
    cases other with
    | branch condition' target' =>
      have lengths : ([' ', 'g', 'o', 't', 'o', ' '] ++ (toString target).toList).length =
          ([' ', 'g', 'o', 't', 'o', ' '] ++ (toString target').toList).length := by
        rw [List.length_append, List.length_append, Point.length_label, Point.length_label]
      obtain ⟨conditions, jumps⟩ := List.append_inj' (List.cons.inj follows).2 lengths
      have targets := Point.label_injective (String.toList_inj.mp (List.append_cancel_left jumps))
      rw [untyped, untyped, (Expr.text_eq_iff named named').mp (String.toList_inj.mp conditions), targets]
    | _ => cases forms
  | goto target =>
    cases other with
    | goto target' => rw [Point.label_injective (String.toList_inj.mp (List.cons.inj follows).2)]
    | _ => cases forms
  | ret value =>
    cases other with
    | ret value' =>
      cases value with
      | none =>
        cases value' with
        | none => rfl
        | some => cases follows
      | some x =>
        cases value' with
        | none => cases follows
        | some y =>
          have names : x.name = y.name := String.toList_inj.mp (List.cons.inj follows).2
          rw [untyped, untyped, Option.map_some, Option.map_some, names]
    | _ => cases forms

theorem text_untyped (stmt : Stmt) : stmt.untyped.text = stmt.text := by
  cases stmt with
  | nop | goto => rfl
  | assign | invoke | branch => simp [untyped, text, Expr.text_untyped, Var.int]
  | ret value => cases value <;> rfl

end Stmt

/-- Texts of expressions and of statements, in which all names are identifiers, are the same if and
only if the expressions or statements are, up to the types of their variables. -/
theorem texts_unambiguous :
    (∀ e e' : Expr, e.WellNamed → e'.WellNamed → (e.text = e'.text ↔ e.untyped = e'.untyped)) ∧
    ∀ stmt stmt' : Stmt, stmt.WellNamed → stmt'.WellNamed →
      (stmt.text = stmt'.text ↔ stmt.untyped = stmt'.untyped) := by
  refine ⟨fun e e' => Expr.text_eq_iff, ?_⟩
  intro stmt stmt' named named'
  refine ⟨Stmt.untyped_of_text named named', fun same => ?_⟩
  rw [← stmt.text_untyped, same, stmt'.text_untyped]

/-- A call whose argument has two minus signs and a negative number between them, first grouped to
the left and then to the right. -/
def groupedLeft (x : Var) : Expr :=
  .call "f" [.binary (.arithmetic .sub) (.binary (.arithmetic .sub) (.var x) (.literal (-1))) (.create "a/B")]

def groupedRight (x : Var) : Expr :=
  .call "f" [.binary (.arithmetic .sub) (.var x) (.binary (.arithmetic .sub) (.literal (-1)) (.create "a/B"))]

/-- The two groupings are told apart, and an assignment is from a comparison, but two variables of
one name are not. -/
theorem groupings_told_apart : (groupedLeft (.int "x")).text ≠ (groupedRight (.int "x")).text ∧
    (Stmt.assign (.int "x") (.literal (-5))).text ≠
      (Stmt.invoke (.binary (.comparison .eq) (.var (.int "x")) (.literal (-5)))).text ∧
    (Stmt.branch (groupedLeft (.int "x")) ⟨70, by decide⟩).text =
      (Stmt.branch (groupedLeft ⟨"x", .primitive .long⟩) ⟨70, by decide⟩).text := by
  obtain ⟨exprs, stmts⟩ := texts_unambiguous
  refine ⟨?_, ?_, ?_⟩
  · rw [Ne, exprs _ _ (by decide) (by decide)]
    decide
  · rw [Ne, stmts _ _ (by decide) (by decide)]
    decide
  · rw [stmts _ _ (by decide) (by decide)]
    rfl

end Dataflow
