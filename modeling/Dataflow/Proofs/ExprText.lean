import Std.Data.String.ToInt
import Mathlib.Data.List.Basic
import Dataflow.Expr

/-! How the text of an expression is read back. An operand begins with a word, which ends where a
character follows that is in no word. The word and the next character tell what kind of operand it
is, and a space after an operand tells of an operator, since other texts end at a comma or a closing
parenthesis. -/

namespace Dataflow

/-- The words that have a meaning of their own in a text. -/
def reserved : List String := ["nop", "if", "goto", "return", "new"]

/-- A letter of any script. All characters beyond ASCII pass for letters. -/
def isLetter (c : Char) : Bool := c.isAlpha || 128 ≤ c.toNat

def isNameChar (c : Char) : Bool := isLetter c || c.isDigit || c == '_' || c == '$' || c == '/'

/-- A name that is read as one word, and as neither a number nor a reserved word. -/
structure IsIdentifier (name : String) : Prop where
  begins : name.toList.head?.any (fun c => isLetter c || c == '_') = true
  chars : name.toList.all isNameChar = true
  free : name ∉ reserved

instance (name : String) : Decidable (IsIdentifier name) :=
  decidable_of_iff (name.toList.head?.any (fun c => isLetter c || c == '_') = true ∧
    name.toList.all isNameChar = true ∧ name ∉ reserved)
    ⟨fun ⟨begins, chars, free⟩ => ⟨begins, chars, free⟩, fun ⟨begins, chars, free⟩ => ⟨begins, chars, free⟩⟩

def isNumberChar (c : Char) : Bool := c.isDigit || c == '-'

def isWordChar (c : Char) : Bool := isNameChar c || isNumberChar c

/-- The rest of a text is empty or begins with one of the given characters. -/
def Ends (stops rest : List Char) : Prop := ∀ c ∈ rest.head?, c ∈ stops

/-- The characters that may stand after an operand. -/
def operandStops : List Char := [' ', ',', ')']

def textStops : List Char := [',', ')']

section Words

variable {p : Char → Bool} {c : Char} {stops others word other rest after : List Char}

theorem Ends.nil : Ends stops [] := nofun

theorem ends_cons : Ends stops (c :: rest) ↔ c ∈ stops := by
  simp only [Ends, List.head?_cons, Option.mem_some_iff, forall_eq']

private theorem Ends.mono (ends : Ends stops rest) (le : stops ⊆ others) : Ends others rest :=
  fun c first => le (ends c first)

theorem all_imp {q : Char → Bool} (le : ∀ c, p c = true → q c = true) (all : word.all p = true) : word.all q = true :=
  List.all_eq_true.mpr fun c member => le c (List.all_eq_true.mp all c member)

private theorem takeWhile_word (all : word.all p = true) (ends : ∀ c ∈ rest.head?, p c = false) :
    (word ++ rest).takeWhile p = word := by
  rw [List.takeWhile_append_of_pos (List.all_eq_true.mp all)]
  cases rest with
  | nil => exact List.append_nil word
  | cons c rest => rw [List.takeWhile_cons, ends c rfl, if_neg Bool.false_ne_true, List.append_nil]

/-- A word is as long as its characters go on. -/
theorem word_unique (all : word.all p = true) (ends : ∀ c ∈ rest.head?, p c = false)
    (all' : other.all p = true) (ends' : ∀ c ∈ after.head?, p c = false) (same : word ++ rest = other ++ after) :
    word = other ∧ rest = after := by
  have words := congrArg (List.takeWhile p) same
  rw [takeWhile_word all ends, takeWhile_word all' ends'] at words
  subst words
  exact ⟨rfl, List.append_cancel_left same⟩

theorem ends_space : ∀ c ∈ (' ' :: rest).head?, (c != ' ') = false := by
  intro c first
  obtain rfl := Option.some.inj first
  rfl

private theorem IsIdentifier.exists_cons {name : String} (identifier : IsIdentifier name) :
    ∃ c more, name.toList = c :: more ∧ (isLetter c || c == '_') = true := by
  have begins := identifier.begins
  cases spelled : name.toList with
  | nil => cases spelled ▸ begins
  | cons c more =>
    rw [spelled] at begins
    exact ⟨c, more, rfl, begins⟩

theorem IsIdentifier.ne {name keyword : String} (identifier : IsIdentifier name) (known : keyword ∈ reserved) :
    name.toList ≠ keyword.toList := by
  intro same
  rw [String.toList_inj] at same
  subst same
  exact identifier.free known

theorem isWordChar_of_isNameChar (c : Char) (named : isNameChar c = true) : isWordChar c = true := by
  rw [isWordChar, named, Bool.true_or]

theorem isWordChar_of_isNumberChar (c : Char) (number : isNumberChar c = true) : isWordChar c = true := by
  rw [isWordChar, number, Bool.or_true]

theorem IsIdentifier.isWordChar {name : String} (identifier : IsIdentifier name) :
    name.toList.all isWordChar = true :=
  all_imp isWordChar_of_isNameChar identifier.chars

private theorem Ends.isWordChar (ends : Ends operandStops rest) : ∀ c ∈ rest.head?, isWordChar c = false := by
  have stops : operandStops.any Dataflow.isWordChar = false := rfl
  intro c first
  rw [List.any_eq_false] at stops
  exact Bool.eq_false_iff.mpr (stops c (ends c first))

private theorem lt_of_isLetter (letter : isLetter c = true) : '9'.toNat < c.toNat := by
  have upper (isUpper : c.isUpper = true) : '9'.toNat < c.toNat := by
    have least : 'A'.toNat ≤ c.toNat := UInt32.le_iff_toNat_le.mp (of_decide_eq_true isUpper).1
    exact Nat.lt_of_lt_of_le (by decide) least
  have lower (isLower : c.isLower = true) : '9'.toNat < c.toNat := by
    have least : 'a'.toNat ≤ c.toNat :=
      UInt32.le_iff_toNat_le.mp (of_decide_eq_true (Bool.and_eq_true_iff.mp isLower).1)
    exact Nat.lt_of_lt_of_le (by decide) least
  rcases Bool.or_eq_true_iff.mp letter with alpha | beyond
  · exact (Bool.or_eq_true_iff.mp alpha).elim upper lower
  · exact Nat.lt_of_lt_of_le (by decide) (of_decide_eq_true beyond)

private theorem not_number_of_letter (letter : (isLetter c || c == '_') = true) : isNumberChar c = false := by
  rw [Bool.or_eq_true, beq_iff_eq] at letter
  rcases letter with letter | rfl
  · have after := lt_of_isLetter letter
    have sign : c ≠ '-' := by
      rintro rfl
      exact absurd after (by decide)
    have digit : c.isDigit = false := by
      rw [Bool.eq_false_iff, Ne, Char.isDigit_iff_toNat]
      exact fun within => Nat.not_lt.mpr within.2 after
    rw [isNumberChar, digit, Bool.false_or, beq_eq_false_iff_ne]
    exact sign
  · rfl

/-- A number is written with digits, after a sign if it is negative. -/
theorem digits_toString (n : Int) : (toString n).toList ≠ [] ∧ (toString n).toList.all isNumberChar = true := by
  have digits (m : Nat) : m.repr.toList.all isNumberChar = true := by
    rw [List.all_eq_true]
    intro c member
    rw [Nat.repr_eq_ofList_toDigits, String.toList_ofList] at member
    rw [isNumberChar, Nat.isDigit_of_mem_toDigits (by decide) (by decide) member, Bool.true_or]
  change n.repr.toList ≠ [] ∧ n.repr.toList.all isNumberChar = true
  rw [Int.repr_eq_if]
  split
  next =>
    refine ⟨?_, digits _⟩
    rw [Nat.repr_eq_ofList_toDigits, String.toList_ofList]
    exact Nat.toDigits_ne_nil
  next =>
    rw [String.toList_append, List.all_append, digits]
    exact ⟨List.append_ne_nil_of_left_ne_nil (by decide) _, rfl⟩

/-- The texts of a list after the first one, each behind a comma. -/
def moreTexts (texts : List String) : List Char := texts.flatMap fun text => ',' :: ' ' :: text.toList

theorem toList_intercalate_cons (text : String) (texts : List String) :
    (", ".intercalate (text :: texts)).toList = text.toList ++ moreTexts texts := by
  induction texts generalizing text with
  | nil => rw [String.intercalate_singleton, moreTexts, List.flatMap_nil, List.append_nil]
  | cons next texts ih =>
    rw [String.intercalate_cons_cons, String.toList_append, String.toList_append, ih, List.append_assoc]
    rfl

end Words

namespace Operator

theorem text_injective {op other : Operator} (same : op.text = other.text) : op = other := by
  have found : ∀ op ∈ all, ofText? op.text = some op := by decide
  have listed (op : Operator) : op ∈ all := by
    cases op with
    | _ op => cases op <;> decide
  have here := found op (listed op)
  rw [same, found other (listed other)] at here
  exact (Option.some.inj here).symm

theorem text_ne_assign (op : Operator) : op.text ≠ "=" := by
  cases op with
  | _ op => cases op <;> decide

theorem space_not_in_text (op : Operator) : op.text.toList.all (· != ' ') = true := by
  cases op with
  | _ op => cases op <;> decide

end Operator

namespace Expr

mutual

def names : Expr → List String
  | var x => [x.name]
  | literal _ => []
  | binary _ left right => names left ++ names right
  | call method args => method :: namesAll args
  | create className => [className]

def namesAll : List Expr → List String
  | [] => []
  | arg :: args => names arg ++ namesAll args

end

mutual

/-- The expression in which all variables are integers. -/
def untyped : Expr → Expr
  | var x => var (.int x.name)
  | literal value => literal value
  | binary op left right => binary op (untyped left) (untyped right)
  | call method args => call method (untypedAll args)
  | create className => create className

def untypedAll : List Expr → List Expr
  | [] => []
  | arg :: args => untyped arg :: untypedAll args

end

def WellNamed (e : Expr) : Prop := ∀ name ∈ e.names, IsIdentifier name

instance (e : Expr) : Decidable e.WellNamed := inferInstanceAs (Decidable (∀ name ∈ e.names, IsIdentifier name))

/-- The word with which an operand begins. One in parentheses begins with no word. -/
def lead : Expr → List Char
  | var x => x.name.toList
  | literal value => (toString value.toInt).toList
  | binary .. => []
  | call method _ => method.toList
  | create _ => ['n', 'e', 'w']

def moreArgs (args : List Expr) : List Char := args.flatMap fun arg => ',' :: ' ' :: arg.text.toList

def argsText : List Expr → List Char
  | [] => []
  | arg :: args => arg.text.toList ++ moreArgs args

/-- What stands after the first word of an operand. -/
def follow : Expr → List Char
  | var _ | literal _ => []
  | binary op left right => '(' :: (binary op left right).text.toList ++ [')']
  | call _ args => '(' :: argsText args ++ [')']
  | create className => ' ' :: className.toList

/-- The operand with which a text begins. -/
def first : Expr → Expr
  | binary _ left _ => left
  | e => e

def trailing : Expr → List Char
  | binary op _ right => ' ' :: (op.text.toList ++ ' ' :: right.operand.toList)
  | _ => []

inductive Shape where
  | name | number | group | call | object
deriving DecidableEq

def shape : Expr → Shape
  | var _ => .name
  | literal _ => .number
  | binary .. => .group
  | call .. => .call
  | create _ => .object

/-- The shape of an operand, read off its first word and what stands after it. -/
def Shape.read (word rest : List Char) : Shape :=
  match word with
  | [] => .group
  | c :: _ =>
    if word = ['n', 'e', 'w'] then .object
    else if isNumberChar c then .number
    else if rest.head? = some '(' then .call
    else .name

/-- From a text that goes on with what may stand after the expression, the expression is read back up
to the types of its variables. -/
def ReadBack (text : Expr → String) (stops : List Char) (e : Expr) : Prop :=
  ∀ other rest after, other.WellNamed → Ends stops rest → Ends stops after →
    (text e).toList ++ rest = (text other).toList ++ after → e.untyped = other.untyped ∧ rest = after

structure Readable (e : Expr) : Prop where
  operand : e.ReadBack operand operandStops
  text : e.ReadBack text textStops

variable {e other lhs rhs : Expr} {op : Operator} {x : Var} {value : Int32} {args others : List Expr}
  {method className : String} {rest after : List Char}

private theorem textAll_eq_map (args : List Expr) : textAll args = args.map text := by
  induction args with
  | nil => rw [textAll, List.map_nil]
  | cons arg args ih => rw [textAll, List.map_cons, ih]

private theorem toList_args (args : List Expr) : (", ".intercalate (textAll args)).toList = argsText args := by
  rw [textAll_eq_map]
  cases args with
  | nil => rfl
  | cons arg args =>
    rw [List.map_cons, toList_intercalate_cons, moreTexts, List.flatMap_map]
    rfl

theorem toList_operand (e : Expr) : e.operand.toList = e.lead ++ e.follow := by
  cases e with
  | call =>
    rw [follow, ← toList_args]
    simp [operand, isBinary, text, lead]
  | _ => simp [operand, isBinary, text, lead, follow]

theorem toList_text (e : Expr) : e.text.toList = e.first.operand.toList ++ e.trailing := by
  cases e with
  | binary => simp [text, first, trailing]
  | _ => simp [operand, isBinary, first, trailing]

theorem eq_binary_or_first (e : Expr) : (∃ op lhs rhs, e = binary op lhs rhs) ∨ e.first = e ∧ e.trailing = [] := by
  cases e with
  | binary op lhs rhs => exact Or.inl ⟨op, lhs, rhs, rfl⟩
  | _ => exact Or.inr ⟨rfl, rfl⟩

private theorem WellNamed.left (named : (binary op lhs rhs).WellNamed) : lhs.WellNamed :=
  fun name member => named name (List.mem_append_left _ member)

private theorem WellNamed.right (named : (binary op lhs rhs).WellNamed) : rhs.WellNamed :=
  fun name member => named name (List.mem_append_right _ member)

theorem WellNamed.first (named : e.WellNamed) : e.first.WellNamed := by
  cases e with
  | binary => exact named.left
  | _ => exact named

theorem WellNamed.isWordChar_lead (named : e.WellNamed) : e.lead.all isWordChar = true := by
  cases e with
  | var x => exact (named _ List.mem_cons_self).isWordChar
  | literal value => exact all_imp isWordChar_of_isNumberChar (digits_toString value.toInt).2
  | binary => rfl
  | call method args => exact (named _ List.mem_cons_self).isWordChar
  | create => rfl

theorem ends_follow (ends : Ends operandStops rest) : ∀ c ∈ (e.follow ++ rest).head?, isWordChar c = false := by
  cases e with
  | var | literal => exact ends.isWordChar
  | _ =>
    intro c first
    obtain rfl := Option.some.inj first
    rfl

private theorem read_shape (named : e.WellNamed) (ends : Ends operandStops rest) :
    Shape.read e.lead (e.follow ++ rest) = e.shape := by
  have named_shape {name : String} {rest : List Char} (identifier : IsIdentifier name) :
      Shape.read name.toList rest = if rest.head? = some '(' then .call else .name := by
    obtain ⟨c, more, spelled, letter⟩ := identifier.exists_cons
    have free : c :: more ≠ ['n', 'e', 'w'] := by
      rw [← spelled]
      exact identifier.ne (by decide : "new" ∈ reserved)
    rw [spelled, Shape.read, if_neg free, if_neg]
    rw [not_number_of_letter letter]
    exact Bool.false_ne_true
  cases e with
  | var x =>
    refine (named_shape (named _ List.mem_cons_self)).trans (if_neg ?_)
    intro first
    exact absurd (ends _ first) (by decide)
  | literal value =>
    obtain ⟨nonempty, digits⟩ := digits_toString value.toInt
    obtain ⟨c, more, spelled⟩ := List.exists_cons_of_ne_nil nonempty
    have digit := List.all_eq_true.mp digits c (spelled ▸ List.mem_cons_self)
    have free : c :: more ≠ ['n', 'e', 'w'] := by
      rintro same
      rw [(List.cons.inj same).1] at digit
      cases digit
    rw [lead, spelled, Shape.read, if_neg free, if_pos digit]
    rfl
  | binary => rfl
  | call method args => exact (named_shape (named _ List.mem_cons_self)).trans (if_pos rfl)
  | create => rfl

theorem WellNamed.lead_ne (named : e.WellNamed) {keyword : String} (known : keyword ∈ reserved)
    (plain : keyword ≠ "new") : e.lead ≠ keyword.toList := by
  cases e with
  | var => exact (named _ List.mem_cons_self).ne known
  | literal value =>
    have letters : ∀ keyword ∈ reserved, keyword.toList.all isNumberChar = false := by decide
    intro same
    have digits := (digits_toString value.toInt).2
    cases digits.symm.trans ((congrArg (List.all · isNumberChar) same).trans (letters keyword known))
  | binary =>
    have letters : ∀ keyword ∈ reserved, [] ≠ keyword.toList := by decide
    exact letters keyword known
  | call => exact (named _ List.mem_cons_self).ne known
  | create =>
    intro same
    exact plain (String.toList_inj.mp (show keyword.toList = "new".toList from same.symm))

/-- Texts that begin alike begin with operands of one shape and one first word. -/
theorem leads_eq (named : e.WellNamed) (named' : other.WellNamed) (ends : Ends operandStops rest)
    (ends' : Ends operandStops after) (same : e.operand.toList ++ rest = other.operand.toList ++ after) :
    e.shape = other.shape ∧ e.lead = other.lead ∧ e.follow ++ rest = other.follow ++ after := by
  rw [toList_operand, toList_operand, List.append_assoc, List.append_assoc] at same
  obtain ⟨leads, follows⟩ := word_unique named.isWordChar_lead (ends_follow ends) named'.isWordChar_lead
    (ends_follow ends') same
  refine ⟨?_, leads, follows⟩
  rw [← read_shape named ends, ← read_shape named' ends', leads, follows]

theorem ends_trailing (ends : Ends textStops rest) : Ends operandStops (e.trailing ++ rest) := by
  cases e with
  | binary => exact ends_cons.mpr List.mem_cons_self
  | _ => exact ends.mono (by decide)

private theorem text_append_ne (named : e.WellNamed) (ends : Ends textStops rest) :
    e.text.toList ++ rest ≠ ')' :: after := by
  intro same
  rw [toList_text, toList_operand, List.append_assoc, List.append_assoc] at same
  have word := named.first.isWordChar_lead
  have shape := read_shape named.first (ends_trailing (e := e) ends)
  cases lead : e.first.lead with
  | nil =>
    rw [lead] at same shape
    cases operand : e.first with
    | binary => cases operand ▸ same
    | _ => cases operand ▸ shape
  | cons c more =>
    rw [lead] at same word
    obtain rfl := (List.cons.inj same).1
    cases word

/-- The operands of a text are read one after the other. -/
theorem readBack_text (reads : e.first.ReadBack operand operandStops)
    (also : ∀ op lhs rhs, e = binary op lhs rhs → rhs.ReadBack operand operandStops) :
    e.ReadBack text textStops := by
  intro other rest after named ends ends' same
  rw [toList_text, toList_text, List.append_assoc, List.append_assoc] at same
  obtain ⟨firsts, trailings⟩ := reads _ _ _ named.first (ends_trailing ends) (ends_trailing ends') same
  rcases e.eq_binary_or_first with ⟨op, lhs, rhs, rfl⟩ | ⟨plain, none⟩
  · rcases other.eq_binary_or_first with ⟨op', lhs', rhs', rfl⟩ | ⟨plain', none'⟩
    · simp only [trailing, List.cons_append, List.append_assoc] at trailings
      obtain ⟨ops, operands⟩ := word_unique op.space_not_in_text ends_space op'.space_not_in_text ends_space
        (List.cons.inj trailings).2
      obtain ⟨seconds, rests⟩ := also op lhs rhs rfl _ _ _ named.right (ends.mono (by decide))
        (ends'.mono (by decide)) (List.cons.inj operands).2
      rw [untyped, untyped, Operator.text_injective (String.toList_inj.mp ops), seconds]
      exact ⟨congrArg (binary op' · rhs'.untyped) firsts, rests⟩
    · rw [none'] at trailings
      exact absurd (ends' _ (congrArg List.head? trailings).symm) (by decide)
  · rcases other.eq_binary_or_first with ⟨op', lhs', rhs', rfl⟩ | ⟨plain', none'⟩
    · rw [none] at trailings
      exact absurd (ends _ (congrArg List.head? trailings)) (by decide)
    · rw [plain, plain'] at firsts
      rw [none, none'] at trailings
      exact ⟨firsts, trailings⟩

private theorem readable_of_plain (plain : e.isBinary = false) (reads : e.ReadBack Expr.operand operandStops) :
    e.Readable := by
  cases e with
  | binary => cases plain
  | _ => exact ⟨reads, readBack_text reads nofun⟩

/-- Parentheses are closed where the text in them ends. -/
theorem readable_binary (named : (binary op lhs rhs).WellNamed) (first : lhs.Readable) (second : rhs.Readable) :
    (binary op lhs rhs).Readable := by
  have text : (binary op lhs rhs).ReadBack Expr.text textStops := by
    refine readBack_text (e := binary op lhs rhs) first.operand ?_
    rintro _ _ _ ⟨⟩
    exact second.operand
  refine ⟨?_, text⟩
  intro other rest after named' ends ends' same
  obtain ⟨shapes, -, follows⟩ := leads_eq named named' ends ends' same
  cases other with
  | binary op' lhs' rhs' =>
    simp only [follow, List.cons_append, List.append_assoc, List.nil_append] at follows
    obtain ⟨untyped, rests⟩ := text _ _ _ named' (ends_cons.mpr (by decide)) (ends_cons.mpr (by decide))
      (List.cons.inj follows).2
    exact ⟨untyped, (List.cons.inj rests).2⟩
  | _ => cases shapes

private theorem readable_var (named : (var x).WellNamed) : (var x).Readable := by
  apply readable_of_plain rfl
  intro other rest after named' ends ends' same
  obtain ⟨shapes, leads, follows⟩ := leads_eq named named' ends ends' same
  cases other with
  | var y =>
    have names : x.name = y.name := String.toList_inj.mp leads
    rw [untyped, untyped, names]
    exact ⟨rfl, follows⟩
  | _ => cases shapes

private theorem readable_literal (value : Int32) : (literal value).Readable := by
  apply readable_of_plain rfl
  intro other rest after named' ends ends' same
  have named : (literal value).WellNamed := fun _ member => absurd member List.not_mem_nil
  obtain ⟨shapes, leads, follows⟩ := leads_eq named named' ends ends' same
  cases other with
  | literal other =>
    have values : value = other := Int32.toInt_inj.mp (Int.repr_inj.mp (String.toList_inj.mp leads))
    rw [values]
    exact ⟨rfl, follows⟩
  | _ => cases shapes

private theorem readable_create (named : (create className).WellNamed) : (create className).Readable := by
  apply readable_of_plain rfl
  intro other rest after named' ends ends' same
  obtain ⟨shapes, -, follows⟩ := leads_eq named named' ends ends' same
  cases other with
  | create other =>
    obtain ⟨names, rests⟩ := word_unique (named _ List.mem_cons_self).isWordChar ends.isWordChar
      (named' _ List.mem_cons_self).isWordChar ends'.isWordChar (List.cons.inj follows).2
    rw [untyped, untyped, String.toList_inj.mp names]
    exact ⟨rfl, rests⟩
  | _ => cases shapes

private theorem ends_moreArgs (args : List Expr) : Ends textStops (moreArgs args ++ ')' :: rest) := by
  cases args <;> exact ends_cons.mpr (by decide)

private theorem readBack_moreArgs (reads : ∀ arg ∈ args, arg.Readable)
    (named : ∀ name ∈ namesAll others, IsIdentifier name)
    (same : moreArgs args ++ ')' :: rest = moreArgs others ++ ')' :: after) :
    untypedAll args = untypedAll others ∧ rest = after := by
  induction args generalizing others with
  | nil =>
    cases others with
    | nil => exact ⟨rfl, (List.cons.inj same).2⟩
    | cons => cases same
  | cons arg args ih =>
    cases others with
    | nil => cases same
    | cons other others =>
      obtain ⟨first, reads⟩ := List.forall_mem_cons.mp reads
      obtain ⟨named, others'⟩ := List.forall_mem_append.mp named
      simp only [moreArgs, List.flatMap_cons, List.cons_append, List.append_assoc] at same
      obtain ⟨untyped, rests⟩ := first.text _ _ _ named (ends_moreArgs args) (ends_moreArgs others)
        (List.cons.inj (List.cons.inj same).2).2
      obtain ⟨untypedAll, rests⟩ := ih reads others' rests
      rw [Expr.untypedAll, Expr.untypedAll, untyped, untypedAll]
      exact ⟨rfl, rests⟩

private theorem readBack_args (reads : ∀ arg ∈ args, arg.Readable) (named : ∀ name ∈ namesAll args, IsIdentifier name)
    (named' : ∀ name ∈ namesAll others, IsIdentifier name)
    (same : argsText args ++ ')' :: rest = argsText others ++ ')' :: after) :
    untypedAll args = untypedAll others ∧ rest = after := by
  cases args with
  | nil =>
    cases others with
    | nil => exact ⟨rfl, (List.cons.inj same).2⟩
    | cons other others =>
      simp only [argsText, List.nil_append, List.append_assoc] at same
      exact absurd same.symm (text_append_ne (List.forall_mem_append.mp named').1 (ends_moreArgs others))
  | cons arg args =>
    cases others with
    | nil =>
      simp only [argsText, List.nil_append, List.append_assoc] at same
      exact absurd same (text_append_ne (List.forall_mem_append.mp named).1 (ends_moreArgs args))
    | cons other others => exact readBack_moreArgs reads named' (congrArg (',' :: ' ' :: ·) same)

private theorem readable_call (named : (call method args).WellNamed) (reads : ∀ arg ∈ args, arg.Readable) :
    (call method args).Readable := by
  apply readable_of_plain rfl
  intro other rest after named' ends ends' same
  obtain ⟨shapes, leads, follows⟩ := leads_eq named named' ends ends' same
  cases other with
  | call other others =>
    simp only [follow, List.cons_append, List.append_assoc, List.nil_append] at follows
    obtain ⟨untypedAll, rests⟩ := readBack_args reads (List.forall_mem_cons.mp named).2
      (List.forall_mem_cons.mp named').2 (List.cons.inj follows).2
    rw [untyped, untyped, String.toList_inj.mp leads, untypedAll]
    exact ⟨rfl, rests⟩
  | _ => cases shapes

mutual

theorem readable : ∀ (e : Expr), e.WellNamed → e.Readable
  | var _, named => readable_var named
  | literal value, _ => readable_literal value
  | binary _ lhs rhs, named => readable_binary named (readable lhs named.left) (readable rhs named.right)
  | call _ args, named => readable_call named (readableAll args (List.forall_mem_cons.mp named).2)
  | create _, named => readable_create named

private theorem readableAll :
    ∀ args : List Expr, (∀ name ∈ namesAll args, IsIdentifier name) → ∀ arg ∈ args, arg.Readable
  | [], _ => nofun
  | arg :: args, named => List.forall_mem_cons.mpr ⟨readable arg (List.forall_mem_append.mp named).1,
      readableAll args (List.forall_mem_append.mp named).2⟩

end

private theorem operand_congr (same : e.text = other.text) (kind : e.isBinary = other.isBinary) :
    e.operand = other.operand := by
  rw [operand, operand, same, kind]

private theorem isBinary_untyped (e : Expr) : e.untyped.isBinary = e.isBinary := by
  cases e <;> rfl

mutual

theorem text_untyped : ∀ e : Expr, e.untyped.text = e.text
  | var _ => by rw [untyped, text, text, Var.int]
  | literal _ => rfl
  | create _ => rfl
  | binary _ lhs rhs => by
    rw [untyped, text, text, operand_congr (text_untyped lhs) (isBinary_untyped lhs),
      operand_congr (text_untyped rhs) (isBinary_untyped rhs)]
  | call _ args => by rw [untyped, text, text, textAll_untyped args]

private theorem textAll_untyped : ∀ args : List Expr, textAll (untypedAll args) = textAll args
  | [] => rfl
  | arg :: args => by rw [untypedAll, textAll, textAll, text_untyped arg, textAll_untyped args]

end

theorem text_eq_iff (named : e.WellNamed) (named' : other.WellNamed) :
    e.text = other.text ↔ e.untyped = other.untyped := by
  constructor
  · intro same
    exact ((readable e named).text other [] [] named' .nil .nil (congrArg (String.toList · ++ []) same)).1
  · intro same
    rw [← text_untyped e, same, text_untyped]

end Expr

end Dataflow
