import Mathlib.Data.List.Nodup
import Mathlib.Data.List.Perm.Subperm
import Mathlib.Data.Set.Lattice
import Mathlib.Order.CompletePartialOrder
import Mathlib.Order.ConditionallyCompleteLattice.Basic
import Dataflow.CompactSet
import Dataflow.Env
import Dataflow.Value

/-! Facts as elements of lattices: a set of facts stands for the set of its elements, and an
environment for the value of every key. Equality and reported changes say as much. -/

namespace Dataflow

namespace CompactMap

variable {κ β : Type} [Ord κ] [Std.TransOrd κ] [Std.LawfulEqOrd κ]

omit [Std.LawfulEqOrd κ] in
theorem nodup_keys (m : CompactMap κ β) : m.keys.Nodup := by
  refine m.sorted_keys.imp ?_
  rintro key other lt rfl
  rw [Std.ReflOrd.compare_self] at lt
  cases lt

omit [Std.LawfulEqOrd κ] in
theorem nodup_toList (m : CompactMap κ β) : m.toList.Nodup :=
  List.Nodup.of_map Prod.fst m.nodup_keys

theorem beq_iff [BEq β] [LawfulBEq β] (left right : CompactMap κ β) :
    (left == right) = true ↔ ∀ key, left.get? key = right.get? key := by
  change left.same right = true ↔ _
  rw [same, Bool.and_eq_true, beq_iff_eq, List.all_eq_true]
  constructor
  · rintro ⟨equal, held⟩
    have inside : left.toList ⊆ right.toList := by
      rintro ⟨key, value⟩ member
      exact (right.mem_toList_iff key value).mpr (beq_iff_eq.mp (held _ member))
    have perm := (List.subperm_of_subset left.nodup_toList inside).perm_of_length_le
      (by rw [length_toList, length_toList, equal])
    intro key
    refine Option.ext fun value => ?_
    rw [← mem_toList_iff, ← mem_toList_iff, perm.mem_iff]
  · intro same
    have perm : left.toList.Perm right.toList := by
      rw [List.perm_ext_iff_of_nodup left.nodup_toList right.nodup_toList]
      rintro ⟨key, value⟩
      rw [mem_toList_iff, mem_toList_iff, same]
    refine ⟨by rw [← length_toList, ← length_toList, perm.length_eq], ?_⟩
    rintro ⟨key, value⟩ member
    rw [beq_iff_eq, ← same]
    exact (left.mem_toList_iff key value).mp member

end CompactMap

namespace CompactSet

variable {α : Type} [Ord α] [Std.TransOrd α] [Std.LawfulEqOrd α]

def elements (s : CompactSet α) : Set α := {x | s.contains x = true}

omit [Std.TransOrd α] [Std.LawfulEqOrd α] in
theorem mem_elements (s : CompactSet α) (x : α) : x ∈ s.elements ↔ s.contains x = true := Iff.rfl

omit [Std.TransOrd α] [Std.LawfulEqOrd α] in
theorem elements_empty : (∅ : CompactSet α).elements = ∅ := by
  ext x
  exact ⟨nofun, nofun⟩

omit [Std.TransOrd α] [Std.LawfulEqOrd α] in
theorem isBot_empty : IsBot (∅ : CompactSet α).elements := by
  rw [elements_empty]
  exact fun other => Set.empty_subset other

theorem mem_toList (s : CompactSet α) (x : α) : x ∈ s.toList ↔ x ∈ s.elements := by
  rw [toList, CompactMap.keys, mem_elements, contains, CompactMap.contains, Option.isSome_iff_exists]
  constructor
  · intro listed
    obtain ⟨⟨key, value⟩, member, rfl⟩ := List.mem_map.mp listed
    exact ⟨value, (s.members.mem_toList_iff key value).mp member⟩
  · rintro ⟨value, found⟩
    exact List.mem_map.mpr ⟨(x, value), (s.members.mem_toList_iff x value).mpr found, rfl⟩

theorem mem_elements_add (s : CompactSet α) (x y : α) : y ∈ (s.add x).value.elements ↔ x = y ∨ y ∈ s.elements := by
  rw [mem_elements, contains_add, Bool.or_eq_true, beq_iff_eq, Std.LawfulEqOrd.compare_eq_iff_eq, mem_elements]

theorem mem_elements_remove (s : CompactSet α) (x y : α) :
    y ∈ (s.remove x).value.elements ↔ x ≠ y ∧ y ∈ s.elements := by
  rw [mem_elements, contains_remove, Bool.and_eq_true, bne_iff_ne, ne_eq, Std.LawfulEqOrd.compare_eq_iff_eq, mem_elements]

theorem mem_elements_addAll (s : CompactSet α) (added : List α) (y : α) :
    y ∈ (s.addAll added).value.elements ↔ y ∈ added ∨ y ∈ s.elements := by
  rw [addAll]
  generalize false = changed
  induction added generalizing s changed with
  | nil => simp
  | cons x added ih =>
    rw [List.foldl_cons, ih, mem_elements_add, List.mem_cons, eq_comm]
    exact or_left_comm.trans or_assoc.symm

theorem mem_elements_removeAll (s : CompactSet α) (removed : List α) (y : α) :
    y ∈ (s.removeAll removed).elements ↔ y ∉ removed ∧ y ∈ s.elements := by
  rw [removeAll]
  induction removed generalizing s with
  | nil => simp
  | cons x removed ih =>
    rw [List.foldl_cons, ih, mem_elements_remove, List.mem_cons, not_or, and_left_comm, and_assoc, ne_comm]

theorem elements_union (s t : CompactSet α) : (s.union t).value.elements = s.elements ∪ t.elements := by
  ext y
  rw [union, mem_elements_addAll, mem_toList, Set.mem_union, or_comm]

theorem beq_iff (s t : CompactSet α) : (s == t) = true ↔ s.elements = t.elements := by
  change (s.members == t.members) = true ↔ _
  rw [CompactMap.beq_iff, Set.ext_iff]
  refine forall_congr' fun x => ?_
  rw [mem_elements, mem_elements, contains, contains, CompactMap.contains, CompactMap.contains]
  cases s.members.get? x <;> cases t.members.get? x <;> simp

theorem elements_overwrite (s t : CompactSet α) : (s.overwrite t).value.elements = t.elements := by
  rw [overwrite]
  split
  next same => exact (beq_iff s t).mp same
  next => rfl

theorem changed_overwrite (s t : CompactSet α) : (s.overwrite t).changed = true ↔ t.elements ≠ s.elements := by
  rw [overwrite]
  split
  next same => simp [(beq_iff s t).mp same]
  next different =>
    rw [beq_iff] at different
    exact ⟨fun _ same => different same.symm, fun _ => rfl⟩

end CompactSet

/-- The order of a semilattice under its laws: joining with something greater gives that. -/
abbrev Semilattice.order (β : Type) [Semilattice β] [LawfulSemilattice β] : SemilatticeSup β :=
  letI : Max β := ⟨Semilattice.join⟩
  SemilatticeSup.mk' LawfulSemilattice.join_comm LawfulSemilattice.join_assoc LawfulSemilattice.join_self

instance : SemilatticeSup Value := Semilattice.order Value

namespace Value

theorem le_iff (v w : Value) : v ≤ w ↔ join v w = w := sup_eq_right.symm

/-- Values rise from nothing known over one constant to no single constant. -/
theorem le_cases {v w : Value} (le : v ≤ w) : v = undefined ∨ w = notConstant ∨ v = w := by
  rw [le_iff] at le
  cases v with
  | undefined => exact Or.inl rfl
  | notConstant => exact Or.inr (Or.inl le.symm)
  | constant m =>
    cases w with
    | undefined => cases le
    | notConstant => exact Or.inr (Or.inl rfl)
    | constant n =>
      simp only [join, Value.join] at le
      split at le
      next same => exact Or.inr (Or.inr (congrArg constant same))
      next => cases le

instance : OrderBot Value where
  bot := undefined
  bot_le v := (le_iff _ _).mpr (LawfulSemilattice.bottom_join v)

theorem le_notConstant (v : Value) : v ≤ notConstant :=
  (le_iff _ _).mpr (by cases v <;> rfl)

theorem le_iff_cases {v w : Value} : v ≤ w ↔ v = undefined ∨ w = notConstant ∨ v = w := by
  refine ⟨le_cases, ?_⟩
  rintro (rfl | rfl | rfl)
  · exact bot_le
  · exact le_notConstant v
  · exact le_rfl

end Value

namespace Env

variable {κ β : Type} [Ord κ] [Semilattice β]

theorem get?_bindings [DecidableEq β] (e : Env κ β) (key : κ) :
    e.bindings.get? key = if e.get key = bottom then none else some (e.get key) := by
  have above := e.bottomless key
  rw [get]
  cases found : e.bindings.get? key with
  | none => rw [Option.getD_none, if_pos rfl]
  | some value =>
    rw [found] at above
    rw [Option.getD_some, if_neg fun same => above (congrArg some same)]

variable [Std.TransOrd κ]

theorem nodup_keys (e : Env κ β) : (e.toList.map Prod.fst).Nodup := e.bindings.nodup_keys

variable [Std.LawfulEqOrd κ]

theorem mem_toList_iff (e : Env κ β) (key : κ) (value : β) :
    (key, value) ∈ e.toList ↔ e.get key = value ∧ value ≠ bottom := by
  classical
  rw [toList, CompactMap.mem_toList_iff, get?_bindings]
  split
  next isBottom =>
    rw [isBottom]
    exact ⟨nofun, fun ⟨same, above⟩ => absurd same.symm above⟩
  next above =>
    rw [Option.some.injEq]
    exact ⟨fun same => ⟨same, same ▸ above⟩, And.left⟩

theorem get_of_mem_toList {e : Env κ β} {key : κ} {value : β} (member : (key, value) ∈ e.toList) :
    e.get key = value :=
  ((e.mem_toList_iff key value).mp member).1

private theorem get_of_not_mem_keys {e : Env κ β} {key : κ} (absent : key ∉ e.toList.map Prod.fst) :
    e.get key = bottom := by
  by_contra above
  have member := (e.mem_toList_iff key (e.get key)).mpr ⟨rfl, above⟩
  exact absent (List.mem_map.mpr ⟨_, member, rfl⟩)

theorem beq_iff [BEq β] [LawfulBEq β] (e other : Env κ β) : (e == other) = true ↔ e.get = other.get := by
  classical
  change (e.bindings == other.bindings) = true ↔ _
  rw [CompactMap.beq_iff, funext_iff]
  refine forall_congr' fun key => ?_
  constructor
  · intro same
    rw [get, get, same]
  · intro same
    rw [get?_bindings, get?_bindings, same]

theorem get_overwrite [BEq β] [LawfulBEq β] (e other : Env κ β) : (e.overwrite other).value.get = other.get := by
  rw [overwrite]
  split
  next same => exact (beq_iff e other).mp same
  next => rfl

theorem changed_overwrite [BEq β] [LawfulBEq β] (e other : Env κ β) :
    (e.overwrite other).changed = true ↔ other.get ≠ e.get := by
  rw [overwrite]
  split
  next same => simp [(beq_iff e other).mp same]
  next different =>
    rw [beq_iff] at different
    exact ⟨fun _ same => different same.symm, fun _ => rfl⟩

variable [DecidableEq β]

theorem get_set_self (e : Env κ β) (key : κ) (value : β) : (e.set key value).value.get key = value := by
  rw [get_set, if_pos Std.ReflOrd.compare_self]

theorem get_set_other (e : Env κ β) {key other : κ} (different : key ≠ other) (value : β) :
    (e.set key value).value.get other = e.get other := by
  rw [get_set, if_neg (fun same => different (Std.LawfulEqOrd.compare_eq_iff_eq.mp same))]

theorem get_ofList_same [DecidableEq κ] (value : β) (keys : List κ) (key : κ) :
    (ofList (keys.map fun bound => (bound, value))).get key = if key ∈ keys then value else bottom := by
  have folded (e : Env κ β) : ((keys.map fun bound => (bound, value)).foldl
      (fun e entry => (e.set entry.1 entry.2).value) e).get key = if key ∈ keys then value else e.get key := by
    induction keys generalizing e with
    | nil => rfl
    | cons first keys ih =>
      rw [List.map_cons, List.foldl_cons, ih]
      by_cases later : key ∈ keys
      · rw [if_pos later, if_pos (List.mem_cons_of_mem first later)]
      · by_cases same : first = key
        · subst same
          rw [if_neg later, if_pos List.mem_cons_self, get_set_self]
        · have absent : key ∉ first :: keys := by
            rw [List.mem_cons, not_or]
            exact ⟨Ne.symm same, later⟩
          rw [if_neg later, if_neg absent, get_set_other e same]
  exact folded ∅

private theorem foldl_joinEntry_value (entries : List (κ × β)) {first second : Updated (Env κ β)}
    (same : first.value = second.value) :
    (entries.foldl joinEntry first).value = (entries.foldl joinEntry second).value := by
  induction entries generalizing first second with
  | nil => exact same
  | cons entry entries ih =>
    apply ih
    simp only [joinEntry, same]

private theorem joinEntries_cons (e : Env κ β) (entry : κ × β) (entries : List (κ × β)) :
    (e.joinEntries (entry :: entries)).value =
      ((e.set entry.1 (Semilattice.join (e.get entry.1) entry.2)).value.joinEntries entries).value :=
  foldl_joinEntry_value entries rfl

private theorem get_joinEntries_of_not_mem (e : Env κ β) (entries : List (κ × β)) {key : κ}
    (absent : key ∉ entries.map Prod.fst) : (e.joinEntries entries).value.get key = e.get key := by
  induction entries generalizing e with
  | nil => rfl
  | cons entry entries ih =>
    rw [List.map_cons, List.mem_cons, not_or] at absent
    rw [joinEntries_cons, ih _ absent.2, get_set_other e (Ne.symm absent.1)]

private theorem get_joinEntries_of_mem (e : Env κ β) {entries : List (κ × β)} (single : (entries.map Prod.fst).Nodup)
    {key : κ} {value : β} (member : (key, value) ∈ entries) :
    (e.joinEntries entries).value.get key = Semilattice.join (e.get key) value := by
  induction entries generalizing e with
  | nil => cases member
  | cons entry entries ih =>
    rw [List.map_cons, List.nodup_cons] at single
    rw [joinEntries_cons]
    rcases List.mem_cons.mp member with rfl | later
    · rw [get_joinEntries_of_not_mem _ _ single.1, get_set_self]
    · have different : entry.1 ≠ key := fun same => single.1 (same ▸ List.mem_map.mpr ⟨_, later, rfl⟩)
      rw [ih _ single.2 later, get_set_other e different]

/-- Joining the entries of an environment joins values key by key, in whatever order they come. -/
theorem get_joinEntries_of_perm [LawfulSemilattice β] (e : Env κ β) {other : Env κ β} {entries : List (κ × β)}
    (listed : entries.Perm other.toList) (key : κ) :
    (e.joinEntries entries).value.get key = Semilattice.join (e.get key) (other.get key) := by
  have keys := listed.map Prod.fst
  by_cases recorded : key ∈ entries.map Prod.fst
  · obtain ⟨⟨_, value⟩, member, rfl⟩ := List.mem_map.mp recorded
    rw [get_joinEntries_of_mem e (keys.nodup_iff.mpr other.nodup_keys) member,
      get_of_mem_toList (listed.mem_iff.mp member)]
  · rw [get_joinEntries_of_not_mem e _ recorded, get_of_not_mem_keys fun member => recorded (keys.mem_iff.mpr member),
      LawfulSemilattice.join_comm, LawfulSemilattice.bottom_join]

theorem get_join [LawfulSemilattice β] (e other : Env κ β) (key : κ) :
    (e.join other).value.get key = Semilattice.join (e.get key) (other.get key) :=
  e.get_joinEntries_of_perm (.refl _) key

end Env

end Dataflow
