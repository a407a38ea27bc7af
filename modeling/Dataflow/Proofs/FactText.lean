import Mathlib.Data.List.Sort
import Dataflow.Proofs.ExprText
import Dataflow.Proofs.SharedFacts

/-! What the text of a fact tells. Sorting undoes the order in which the entries come, and equal
facts have the same entries, however they are kept. Neither names nor values have commas or equals
signs, so the entries are read back from the text. -/

namespace Dataflow

namespace Var

/-- Variables stand by name, and those of one name by type. -/
def Before (x y : Var) : Prop := x.name < y.name ∨ x.name = y.name ∧ compare x.ty y.ty = .lt

private theorem compare_eq_lt_iff (x y : Var) : compare x y = .lt ↔ x.Before y := by
  have parts : compare x y = (compare x.name y.name).then (compare x.ty y.ty) := rfl
  have names : compare x.name y.name = .lt ↔ x.name < y.name := compareOfLessAndEq_eq_lt
  rw [parts, Ordering.then_eq_lt, Std.compare_eq_iff_eq, names]
  rfl

private theorem Before.asymm {x y : Var} (before : x.Before y) : ¬y.Before x := by
  rw [← compare_eq_lt_iff] at before ⊢
  rw [Std.OrientedOrd.eq_swap, before]
  exact nofun

/-- The variables of a list tell how it is sorted. -/
theorem eq_of_before {α : Type} (key : α → Var) {items others : List α}
    (sorted : items.Pairwise fun a b => (key a).Before (key b))
    (sorted' : others.Pairwise fun a b => (key a).Before (key b)) (same : ∀ a, a ∈ items ↔ a ∈ others) :
    items = others := by
  have : Std.Asymm fun a b => (key a).Before (key b) := ⟨fun _ _ => Before.asymm⟩
  exact sorted.eq_of_mem_iff sorted' same

end Var

/-- Sorting a list by keys gives the one order of its items in which the keys rise. -/
theorem mergeSort_of_perm {α κ : Type} [Ord κ] [Std.TransOrd κ] [Std.LawfulEqOrd κ] (key : α → κ)
    {items listed : List α} (sorted : (items.map key).Pairwise fun a b => compare a b = .lt)
    (perm : listed.Perm items) : listed.mergeSort (fun a b => (compare (key a) (key b)).isLE) = items := by
  have single : (items.map key).Nodup := by
    refine sorted.imp ?_
    rintro a b lt rfl
    rw [Std.ReflOrd.compare_self] at lt
    cases lt
  have same := (List.mergeSort_perm listed fun a b => (compare (key a) (key b)).isLE).trans perm
  have rising : (listed.mergeSort fun a b => (compare (key a) (key b)).isLE).Pairwise fun a b =>
      (compare (key a) (key b)).isLE = true := by
    apply List.pairwise_mergeSort
    · intro a b c
      exact Std.TransOrd.isLE_trans
    · intro a b
      rw [Std.OrientedOrd.eq_swap (a := key b)]
      cases compare (key a) (key b) <;> rfl
  have rising' : items.Pairwise fun a b => (compare (key a) (key b)).isLE = true := by
    rw [List.pairwise_map] at sorted
    refine sorted.imp ?_
    intro a b lt
    rw [lt]
    rfl
  refine same.eq_of_pairwise ?_ rising rising'
  intro a b first second le ge
  have equal : compare (key a) (key b) = .eq := Std.OrientedCmp.isLE_antisymm le ge
  exact List.inj_on_of_nodup_map single (same.mem_iff.mp first) second (Std.LawfulEqOrd.compare_eq_iff_eq.mp equal)

private theorem map_injOn {α β : Type} {f : α → β} {items others : List α}
    (apart : ∀ a ∈ items, ∀ b ∈ others, f a = f b → a = b) (same : items.map f = others.map f) : items = others := by
  induction items generalizing others with
  | nil => exact (List.map_eq_nil_iff.mp same.symm).symm
  | cons a items ih =>
    obtain ⟨b, rest, rfl, first, later⟩ := List.map_eq_cons_iff.mp same.symm
    rw [apart a List.mem_cons_self b List.mem_cons_self first.symm,
      ih (fun a member b member' => apart a (.tail _ member) b (.tail _ member')) later.symm]

namespace CompactMap

variable {κ β : Type} [Ord κ] [Std.TransOrd κ] [Std.LawfulEqOrd κ]

private theorem mergeSort_entries (m : CompactMap κ β) {entries : List (κ × β)} (listed : entries.Perm m.toList) :
    entries.mergeSort (fun a b => (compare a.1 b.1).isLE) = m.toList :=
  mergeSort_of_perm Prod.fst m.sorted_keys listed

theorem beq_iff_toList [BEq β] [LawfulBEq β] (m n : CompactMap κ β) : (m == n) = true ↔ m.toList = n.toList := by
  rw [beq_iff]
  constructor
  · intro same
    have perm : m.toList.Perm n.toList := by
      rw [List.perm_ext_iff_of_nodup m.nodup_toList n.nodup_toList]
      rintro ⟨key, value⟩
      rw [mem_toList_iff, mem_toList_iff, same]
    rw [← m.mergeSort_entries (.refl _), n.mergeSort_entries perm]
  · intro same key
    refine Option.ext fun value => ?_
    rw [← mem_toList_iff, ← mem_toList_iff, same]

end CompactMap

namespace CompactSet

variable {α : Type} [Ord α] [Std.TransOrd α] [Std.LawfulEqOrd α]

private theorem mergeSort_elements (s : CompactSet α) {elements : List α} (listed : elements.Perm s.toList) :
    elements.mergeSort (fun a b => (compare a b).isLE) = s.toList := by
  refine mergeSort_of_perm id ?_ listed
  rw [List.map_id]
  exact s.members.sorted_keys

theorem beq_iff_toList (s t : CompactSet α) : (s == t) = true ↔ s.toList = t.toList := by
  constructor
  · intro same
    exact congrArg (List.map Prod.fst) ((s.members.beq_iff_toList t.members).mp same)
  · intro same
    rw [beq_iff]
    ext x
    rw [← mem_toList, ← mem_toList, same]

end CompactSet

/-- Texts in braces, with commas between them. -/
def braced (texts : List String) : String := "\x7b" ++ ", ".intercalate texts ++ "\x7d"

section Joined

variable {p : Char → Bool} {texts others : List String} {text : String}

private theorem ends_moreTexts (comma : p ',' = false) (texts : List String) :
    ∀ c ∈ (moreTexts texts).head?, p c = false := by
  cases texts with
  | nil => exact nofun
  | cons =>
    intro c first
    obtain rfl := Option.some.inj first
    exact comma

private theorem moreTexts_injective (comma : p ',' = false) (spelled : ∀ text ∈ texts, text.toList.all p = true)
    (spelled' : ∀ text ∈ others, text.toList.all p = true) (same : moreTexts texts = moreTexts others) :
    texts = others := by
  induction texts generalizing others with
  | nil =>
    cases others with
    | nil => rfl
    | cons => cases same
  | cons text texts ih =>
    cases others with
    | nil => cases same
    | cons other others =>
      obtain ⟨first, rest⟩ := List.forall_mem_cons.mp spelled
      obtain ⟨first', rest'⟩ := List.forall_mem_cons.mp spelled'
      have behind : text.toList ++ moreTexts texts = other.toList ++ moreTexts others :=
        (List.cons.inj (List.cons.inj same).2).2
      obtain ⟨words, tails⟩ := word_unique first (ends_moreTexts comma texts) first' (ends_moreTexts comma others) behind
      rw [String.toList_inj.mp words, ih rest rest' tails]

private theorem intercalate_cons_ne (written : text ≠ "") : ", ".intercalate (text :: texts) ≠ "" := by
  intro empty
  have chars := congrArg String.toList empty
  rw [toList_intercalate_cons] at chars
  exact written (String.toList_eq_nil_iff.mp (List.append_eq_nil_iff.mp chars).1)

/-- Texts without commas, none of them empty, are read back from between the braces. -/
theorem braced_injective (comma : p ',' = false) (spelled : ∀ text ∈ texts, text.toList.all p = true)
    (spelled' : ∀ text ∈ others, text.toList.all p = true) (written : "" ∉ texts) (written' : "" ∉ others)
    (same : braced texts = braced others) : texts = others := by
  have inside : ", ".intercalate texts = ", ".intercalate others := by
    have chars := congrArg String.toList same
    simp only [braced, String.toList_append, List.append_assoc] at chars
    exact String.toList_inj.mp (List.append_cancel_right (List.append_cancel_left chars))
  -- No text at all and one empty text look the same between braces, hence the conditions.
  cases texts with
  | nil =>
    cases others with
    | nil => rfl
    | cons =>
      rw [List.mem_cons, not_or] at written'
      exact absurd inside.symm (intercalate_cons_ne (Ne.symm written'.1))
  | cons text texts =>
    cases others with
    | nil =>
      rw [List.mem_cons, not_or] at written
      exact absurd inside (intercalate_cons_ne (Ne.symm written.1))
    | cons other others =>
      have chars := congrArg (fun joined => ',' :: ' ' :: String.toList joined) inside
      simp only [toList_intercalate_cons] at chars
      exact moreTexts_injective comma spelled spelled' chars

end Joined

/-- A name that is read as one word, which may be a number or a reserved word too. -/
structure IsWord (name : String) : Prop where
  nonempty : name ≠ ""
  chars : name.toList.all isNameChar = true

instance (name : String) : Decidable (IsWord name) :=
  decidable_of_iff (name ≠ "" ∧ name.toList.all isNameChar = true)
    ⟨fun ⟨nonempty, chars⟩ => ⟨nonempty, chars⟩, fun ⟨nonempty, chars⟩ => ⟨nonempty, chars⟩⟩

private theorem IsWord.isWordChar {name : String} (word : IsWord name) : name.toList.all isWordChar = true :=
  all_imp isWordChar_of_isNameChar word.chars

structure Var.Plain (ty : Ty) (x : Var) : Prop where
  ty : x.ty = ty
  name : IsWord x.name

instance (ty : Ty) (x : Var) : Decidable (x.Plain ty) :=
  decidable_of_iff (x.ty = ty ∧ IsWord x.name) ⟨fun ⟨ty, name⟩ => ⟨ty, name⟩, fun ⟨ty, name⟩ => ⟨ty, name⟩⟩

private theorem Var.Plain.eq_of_name {ty : Ty} {x y : Var} (plain : x.Plain ty) (plain' : y.Plain ty)
    (same : x.name = y.name) : x = y := by
  have kinds : x.ty = y.ty := plain.ty.trans plain'.ty.symm
  exact congrArg₂ Var.mk same kinds

namespace Value

private theorem isNumber_text (v : Value) : v.text.toList.all isNumberChar = v.constant?.isSome := by
  cases v with
  | constant value => exact (digits_toString value.toInt).2
  | undefined => rfl
  | notConstant => rfl

theorem text_injective {v w : Value} (same : v.text = w.text) : v = w := by
  have kinds : v.constant?.isSome = w.constant?.isSome := by
    rw [← isNumber_text, same, isNumber_text]
  cases v with
  | constant value =>
    cases w with
    | constant other => rw [Int32.toInt_inj.mp (Int.repr_inj.mp same)]
    | _ => cases kinds
  | undefined =>
    cases w with
    | undefined => rfl
    | constant => cases kinds
    | notConstant => exact absurd same (by decide)
  | notConstant =>
    cases w with
    | notConstant => rfl
    | constant => cases kinds
    | undefined => exact absurd same (by decide)

private theorem isWordChar_text (v : Value) : v.text.toList.all isWordChar = true := by
  cases v with
  | constant value => exact all_imp isWordChar_of_isNumberChar (digits_toString value.toInt).2
  | undefined => rfl
  | notConstant => rfl

end Value

def isEntryChar (c : Char) : Bool := isWordChar c || c == '='

namespace Env

/-- A variable and its value, as the text of an environment shows them. -/
def entryText (entry : Var × Value) : String := entry.1.name ++ "=" ++ entry.2.text

/-- The variables that have a value, each once with its value, by name and then by type. -/
structure Rows (e : Env Var Value) (rows : List (Var × Value)) : Prop where
  entries : ∀ x v, (x, v) ∈ rows ↔ e.get x = v ∧ v ≠ .undefined
  sorted : rows.Pairwise fun row other => row.1.Before other.1

/-- All variables that have a value are of the type, and their names are words. -/
def Plain (e : Env Var Value) (ty : Ty) : Prop := ∀ x, e.get x ≠ .undefined → x.Plain ty

variable {e e' : Env Var Value} {entries rows : List (Var × Value)} {entry other : Var × Value} {ty : Ty}

private theorem toList_entryText (entry : Var × Value) :
    (entryText entry).toList = entry.1.name.toList ++ '=' :: entry.2.text.toList := by
  rw [entryText, String.toList_append, String.toList_append, List.append_assoc]
  rfl

theorem entryText_injective (plain : entry.1.Plain ty) (plain' : other.1.Plain ty)
    (same : entryText entry = entryText other) : entry = other := by
  have chars := congrArg String.toList same
  rw [toList_entryText, toList_entryText] at chars
  have sign (rest : List Char) : ∀ c ∈ ('=' :: rest).head?, isNameChar c = false := by
    intro c first
    obtain rfl := Option.some.inj first
    rfl
  obtain ⟨names, values⟩ := word_unique plain.name.chars (sign _) plain'.name.chars (sign _) chars
  have first : entry.1 = other.1 := plain.eq_of_name plain' (String.toList_inj.mp names)
  exact Prod.ext first (Value.text_injective (String.toList_inj.mp (List.cons.inj values).2))

private theorem entryText_spelled (word : IsWord entry.1.name) : (entryText entry).toList.all isEntryChar = true := by
  have spelled {chars : List Char} : chars.all isWordChar = true → chars.all isEntryChar = true :=
    all_imp fun c word => by rw [isEntryChar, word, Bool.true_or]
  rw [toList_entryText, List.all_append, List.all_cons, spelled word.isWordChar, spelled entry.2.isWordChar_text]
  rfl

private theorem entryText_ne_empty (entry : Var × Value) : entryText entry ≠ "" := by
  intro empty
  have chars := congrArg String.toList empty
  rw [toList_entryText] at chars
  cases (List.append_eq_nil_iff.mp chars).2

theorem rows_toList (e : Env Var Value) : e.Rows e.toList := by
  refine ⟨e.mem_toList_iff, ?_⟩
  have sorted := e.bindings.sorted_keys
  rw [CompactMap.keys, List.pairwise_map] at sorted
  exact sorted.imp fun lt => (Var.compare_eq_lt_iff _ _).mp lt

theorem Rows.eq_toList (listed : e.Rows rows) : rows = e.toList := by
  refine Var.eq_of_before Prod.fst listed.sorted e.rows_toList.sorted ?_
  rintro ⟨x, v⟩
  exact (listed.entries x v).trans (e.rows_toList.entries x v).symm

private theorem textOf_eq_braced (listed : entries.Perm e.toList) :
    textOf entries = braced (e.toList.map entryText) := by
  have sorted : entries.mergeSort (fun a b => (compare a.1 b.1).isLE) = e.toList :=
    e.bindings.mergeSort_entries listed
  rw [textOf, sorted]
  rfl

private theorem text_eq_braced (listed : e.Rows rows) : e.text = braced (rows.map entryText) := by
  rw [listed.eq_toList]
  exact textOf_eq_braced (.refl _)

theorem textOf_of_perm (listed : entries.Perm e.toList) : textOf entries = e.text := by
  rw [textOf_eq_braced listed, text_eq_braced e.rows_toList]

private theorem plain_iff : e.Plain ty ↔ ∀ entry ∈ e.toList, entry.1.Plain ty := by
  constructor
  · intro plain entry member
    obtain ⟨held, above⟩ := (e.rows_toList.entries entry.1 entry.2).mp member
    rw [← held] at above
    exact plain entry.1 above
  · intro plain x above
    exact plain (x, e.get x) ((e.rows_toList.entries x _).mpr ⟨rfl, above⟩)

/-- Plain entries are read back from the text. -/
theorem text_injective (plain : e.Plain ty) (plain' : e'.Plain ty) (same : e.text = e'.text) : (e == e') = true := by
  rw [plain_iff] at plain plain'
  have spelled {e : Env Var Value} (plain : ∀ entry ∈ e.toList, entry.1.Plain ty) :
      ∀ text ∈ e.toList.map entryText, text.toList.all isEntryChar = true := by
    rw [List.forall_mem_map]
    exact fun entry member => entryText_spelled (plain entry member).name
  have written (e : Env Var Value) : "" ∉ e.toList.map entryText := by
    rw [List.mem_map]
    rintro ⟨entry, -, empty⟩
    exact entryText_ne_empty entry empty
  rw [text_eq_braced e.rows_toList, text_eq_braced e'.rows_toList] at same
  have texts := braced_injective rfl (spelled plain) (spelled plain') (written e) (written e') same
  refine (e.bindings.beq_iff_toList e'.bindings).mpr ?_
  exact map_injOn (fun entry member other member' => entryText_injective (plain entry member) (plain' other member')) texts

end Env

namespace CompactSet

/-- The members, each once, by name and then by type. -/
structure Rows (s : CompactSet Var) (rows : List Var) : Prop where
  elements : ∀ x, x ∈ rows ↔ s.contains x = true
  sorted : rows.Pairwise Var.Before

def Plain (s : CompactSet Var) (ty : Ty) : Prop := ∀ x, s.contains x = true → x.Plain ty

variable {s t : CompactSet Var} {elements rows : List Var} {ty : Ty}

theorem rows_toList (s : CompactSet Var) : s.Rows s.toList :=
  ⟨s.mem_toList, s.members.sorted_keys.imp fun lt => (Var.compare_eq_lt_iff _ _).mp lt⟩

theorem Rows.eq_toList (listed : s.Rows rows) : rows = s.toList :=
  Var.eq_of_before id listed.sorted s.rows_toList.sorted fun x => (listed.elements x).trans (s.mem_toList x).symm

private theorem textOf_eq_braced (listed : elements.Perm s.toList) :
    textOf elements = braced (s.toList.map Var.name) := by
  rw [textOf, s.mergeSort_elements listed]
  rfl

private theorem text_eq_braced (listed : s.Rows rows) : s.text = braced (rows.map Var.name) := by
  rw [listed.eq_toList]
  exact textOf_eq_braced (.refl _)

theorem textOf_of_perm (listed : elements.Perm s.toList) : textOf elements = s.text := by
  rw [textOf_eq_braced listed, text_eq_braced s.rows_toList]

private theorem plain_iff : s.Plain ty ↔ ∀ x ∈ s.toList, x.Plain ty :=
  forall_congr' fun x => imp_congr_left (s.rows_toList.elements x).symm

theorem text_injective (plain : s.Plain ty) (plain' : t.Plain ty) (same : s.text = t.text) : (s == t) = true := by
  rw [plain_iff] at plain plain'
  have spelled {s : CompactSet Var} (plain : ∀ x ∈ s.toList, x.Plain ty) :
      ∀ text ∈ s.toList.map Var.name, text.toList.all isWordChar = true := by
    rw [List.forall_mem_map]
    exact fun x member => (plain x member).name.isWordChar
  have written {s : CompactSet Var} (plain : ∀ x ∈ s.toList, x.Plain ty) : "" ∉ s.toList.map Var.name := by
    rw [List.mem_map]
    rintro ⟨x, member, empty⟩
    exact (plain x member).name.nonempty empty
  rw [text_eq_braced s.rows_toList, text_eq_braced t.rows_toList] at same
  have names := braced_injective rfl (spelled plain) (spelled plain') (written plain) (written plain') same
  refine (s.beq_iff_toList t).mpr ?_
  exact map_injOn (fun x member y member' => (plain x member).eq_of_name (plain' y member')) names

end CompactSet

/-- The text of a fact is canonical. What a map shows after any steps, shared tables or not, is an
environment, and in whatever order its entries come, its text lists the variables that have a value,
each once, by name and then by type. So equal environments have the same text. And from the same
text they are equal, if all their variables are of one type and have words for names. Sets of
variables are shown in the same way. -/
theorem fact_texts_are_canonical :
    (∀ steps : List (Step (EnvAction Var Value)), ∀ done ∈ Step.run SharedMaps.stepEnv SharedMaps.start steps,
      ∀ name, ∃ e : Env Var Value, e.bindings = done.2.view name) ∧
    (∀ e : Env Var Value, (∃! rows, e.Rows rows) ∧ ∀ rows entries, e.Rows rows → entries.Perm e.toList →
      Env.textOf entries = braced (rows.map Env.entryText)) ∧
    (∀ (e e' : Env Var Value) (entries entries' : List (Var × Value)), entries.Perm e.toList →
      entries'.Perm e'.toList → ((e == e') = true → Env.textOf entries = Env.textOf entries') ∧
        ∀ ty, e.Plain ty → e'.Plain ty → Env.textOf entries = Env.textOf entries' → (e == e') = true) ∧
    (∀ s : CompactSet Var, (∃! rows, s.Rows rows) ∧ ∀ rows elements, s.Rows rows → elements.Perm s.toList →
      CompactSet.textOf elements = braced (rows.map Var.name)) ∧
    ∀ (s t : CompactSet Var) (elements elements' : List Var), elements.Perm s.toList → elements'.Perm t.toList →
      ((s == t) = true → CompactSet.textOf elements = CompactSet.textOf elements') ∧
        ∀ ty, s.Plain ty → t.Plain ty → CompactSet.textOf elements = CompactSet.textOf elements' →
          (s == t) = true := by
  refine ⟨?_, ?_, ?_, ?_, ?_⟩
  · intro steps done member name
    exact ⟨⟨done.2.view name, (SharedMaps.runEnv_kept steps done member).2 name⟩, rfl⟩
  · intro e
    refine ⟨⟨e.toList, e.rows_toList, fun rows listed => listed.eq_toList⟩, ?_⟩
    intro rows entries rising listed
    rw [Env.textOf_of_perm listed, Env.text_eq_braced rising]
  · intro e e' entries entries' listed listed'
    rw [Env.textOf_of_perm listed, Env.textOf_of_perm listed']
    refine ⟨fun same => ?_, fun ty => Env.text_injective⟩
    exact congrArg Env.textOf ((e.bindings.beq_iff_toList e'.bindings).mp same)
  · intro s
    refine ⟨⟨s.toList, s.rows_toList, fun rows listed => listed.eq_toList⟩, ?_⟩
    intro rows elements rising listed
    rw [CompactSet.textOf_of_perm listed, CompactSet.text_eq_braced rising]
  · intro s t elements elements' listed listed'
    rw [CompactSet.textOf_of_perm listed, CompactSet.textOf_of_perm listed']
    refine ⟨fun same => ?_, fun ty => CompactSet.text_injective⟩
    exact congrArg CompactSet.textOf ((s.beq_iff_toList t).mp same)

/-- A table of which one entry is left, and a single entry. -/
def textSteps : List (Step (EnvAction Var Value)) :=
  [⟨"x", none, .build [(.int "b", .constant 2), (.int "a", .constant 1), (.int "c", .undefined)]⟩,
    ⟨"x", none, .remove (.int "b")⟩, ⟨"y", none, .set (.int "a") (.constant 1)⟩]

def textEnd : SharedMaps Var Value := (Step.run SharedMaps.stepEnv SharedMaps.start textSteps)[2].2

def textPair : Env Var Value := .ofList [(.int "b", .constant 2), (.int "a", .notConstant)]

def textPairAgain : Env Var Value :=
  .ofList [(.int "a", .constant 3), (.int "b", .constant 2), (.int "a", .notConstant), (.int "c", .undefined)]

theorem textEnd_canonical :
    (textEnd.handle "x" = .table 0 ∧ textEnd.handle "y" = .single (.int "a") (.constant 1)) ∧
    (∀ name ∈ ["x", "y"], Env.textOf (textEnd.view name).toList = "\x7ba=1\x7d") ∧
    Env.textOf textPair.toList.reverse = "\x7ba=NAC, b=2\x7d" ∧ (textPair == textPairAgain) = true ∧
    CompactSet.textOf [Var.int "b", .int "a"] = "\x7ba, b\x7d" ∧
    (CompactSet.ofList [Var.int "b", .int "a"] == CompactSet.ofList [Var.int "a", .int "b", .int "a"]) = true := by
  obtain ⟨reached, listed, alike, listedSet, alikeSet⟩ := fact_texts_are_canonical
  refine ⟨⟨rfl, rfl⟩, ?_, ?_, ?_, ?_, ?_⟩
  · intro name known
    have rows : ∀ name ∈ ["x", "y"], (textEnd.view name).toList = [(.int "a", .constant 1)] := by decide
    obtain ⟨e, held⟩ := reached textSteps (_, textEnd) (List.getElem_mem (by decide)) name
    have shown := (listed e).2 e.toList _ e.rows_toList (.refl _)
    rw [Env.toList, held, rows name known] at shown
    rw [rows name known, shown]
    rfl
  · exact (listed textPair).2 textPair.toList _ textPair.rows_toList (List.reverse_perm _)
  · exact (alike textPair textPairAgain _ _ (.refl _) (.refl _)).2 (.primitive .int) (Env.plain_iff.mpr (by decide))
      (Env.plain_iff.mpr (by decide)) rfl
  · exact (listedSet (.ofList [.int "b", .int "a"])).2 _ _ (CompactSet.rows_toList _) (.swap _ _ _)
  · exact (alikeSet _ _ _ _ (.refl _) (.refl _)).2 (.primitive .int) (CompactSet.plain_iff.mpr (by decide))
      (CompactSet.plain_iff.mpr (by decide)) rfl

end Dataflow
