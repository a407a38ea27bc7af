import Std.Data.TreeMap

/-! Finite maps that keep at most one entry in place. A second key moves the entries to
a search tree, and they stay there. Two maps are equal when they hold the same entries,
whatever their shape. -/

namespace Dataflow

inductive CompactMap (κ β : Type) [Ord κ] where
  | empty
  | single (key : κ) (value : β)
  | table (entries : Std.TreeMap κ β)

namespace CompactMap

variable {κ β : Type} [Ord κ]

instance : EmptyCollection (CompactMap κ β) := ⟨empty⟩

instance : Inhabited (CompactMap κ β) := ⟨∅⟩

def size : CompactMap κ β → Nat
  | empty => 0
  | single _ _ => 1
  | table entries => entries.size

def isEmpty (m : CompactMap κ β) : Bool := m.size == 0

def toList : CompactMap κ β → List (κ × β)
  | empty => []
  | single key value => [(key, value)]
  | table entries => entries.toList

def keys (m : CompactMap κ β) : List κ := m.toList.map Prod.fst

def get? (m : CompactMap κ β) (key : κ) : Option β :=
  match m with
  | empty => none
  | single present value => if compare present key = .eq then some value else none
  | table entries => entries.get? key

def contains (m : CompactMap κ β) (key : κ) : Bool := (m.get? key).isSome

/-- Records `value` under `key`, and returns the value it displaces. -/
def put (m : CompactMap κ β) (key : κ) (value : β) : Option β × CompactMap κ β :=
  match m with
  | empty => (none, single key value)
  | single present old =>
    if compare present key = .eq then (some old, single present value)
    else (none, table ((Std.TreeMap.empty.insert present old).insert key value))
  | table entries => (entries.get? key, table (entries.insert key value))

def take (m : CompactMap κ β) (key : κ) : Option β × CompactMap κ β :=
  match m with
  | empty => (none, empty)
  | single present old =>
    if compare present key = .eq then (some old, empty) else (none, single present old)
  | table entries =>
    match entries.get? key with
    | some old => (some old, table (entries.erase key))
    | none => (none, table entries)

/-- No entries are left; a tree stays a tree. -/
def clear : CompactMap κ β → CompactMap κ β
  | table _ => table ∅
  | _ => empty

/-- Records the entries in order, so that a later one wins. -/
def extend (m : CompactMap κ β) (entries : List (κ × β)) : CompactMap κ β :=
  entries.foldl (fun m entry => (m.put entry.1 entry.2).2) m

def ofList (entries : List (κ × β)) : CompactMap κ β := extend ∅ entries

def same [BEq β] (left right : CompactMap κ β) : Bool :=
  left.size == right.size && left.toList.all fun entry => right.get? entry.1 == some entry.2

instance [BEq β] : BEq (CompactMap κ β) := ⟨same⟩

section Lemmas

theorem length_toList (m : CompactMap κ β) : m.toList.length = m.size := by
  cases m <;> simp [toList, size]

theorem put_fst (m : CompactMap κ β) (key : κ) (value : β) : (m.put key value).1 = m.get? key := by
  cases m with
  | empty => rfl
  | single present old => simp only [put, get?]; split <;> rfl
  | table _ => rfl

theorem get?_clear (m : CompactMap κ β) (key : κ) : m.clear.get? key = none := by
  cases m <;> rfl

variable [Std.TransOrd κ]

theorem take_fst (m : CompactMap κ β) (key : κ) : (m.take key).1 = m.get? key := by
  cases m with
  | empty => rfl
  | single present old => simp only [take, get?]; split <;> rfl
  | table entries => simp only [take, get?]; split <;> simp_all

theorem sorted_keys (m : CompactMap κ β) : m.keys.Pairwise fun a b => compare a b = .lt := by
  cases m with
  | empty => simp [keys, toList]
  | single _ _ => simp [keys, toList]
  | table entries => simpa [keys, toList] using Std.TreeMap.ordered_keys

variable [Std.LawfulEqOrd κ]

theorem mem_toList_iff (m : CompactMap κ β) (key : κ) (value : β) :
    (key, value) ∈ m.toList ↔ m.get? key = some value := by
  cases m with
  | empty => simp [toList, get?]
  | single present old => simp [toList, get?]; grind
  | table entries => simp [toList, get?, Std.TreeMap.mem_toList_iff_getElem?_eq_some]

theorem get?_put (m : CompactMap κ β) (key other : κ) (value : β) :
    (m.put key value).2.get? other = if compare key other = .eq then some value else m.get? other := by
  cases m with
  | empty => simp [put, get?]
  | table entries => simp [put, get?, Std.TreeMap.getElem?_insert]
  | single present old =>
    simp only [put]
    split
    next same =>
      rw [Std.LawfulEqOrd.compare_eq_iff_eq] at same
      subst same
      simp only [get?]
      split <;> rfl
    next => simp [get?, Std.TreeMap.getElem?_insert]

theorem get?_take (m : CompactMap κ β) (key other : κ) :
    (m.take key).2.get? other = if compare key other = .eq then none else m.get? other := by
  cases m with
  | empty => simp [take, get?]
  | single present old =>
    simp only [take]
    split <;> grind [get?, Std.LawfulEqOrd.compare_eq_iff_eq]
  | table entries =>
    simp only [take]
    split
    next => simp [get?, Std.TreeMap.getElem?_erase]
    next absent =>
      simp only [get?]
      split <;> simp_all

end Lemmas

/-- The entries in braces, for maps of fewer than two. -/
def outline? (key : κ → String) (value : β → String) (m : CompactMap κ β) : Option String :=
  match m.toList with
  | [] => some "\x7b\x7d"
  | [entry] => some ("\x7b" ++ key entry.1 ++ ": " ++ value entry.2 ++ "\x7d")
  | _ => none

end CompactMap

end Dataflow
