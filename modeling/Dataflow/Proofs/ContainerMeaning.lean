import Mathlib.Data.Finmap
import Dataflow.Actions
import Dataflow.Proofs.FactOrder
import Dataflow.Proofs.StoredCells

/-! Compact maps and sets as finite maps and sets. Whatever its shape, a container shows what
the finite map or set of its entries tells, and every action on it does to that what it does
to a finite map or set. -/

namespace Dataflow

namespace CompactMap

variable {κ β : Type} [Ord κ] [Std.TransOrd κ]

def toFinmap (m : CompactMap κ β) : Finmap fun _ : κ => β :=
  AList.toFinmap ⟨m.toList.map fun entry => ⟨entry.1, entry.2⟩, by
    rw [List.NodupKeys, List.keys, List.map_map]
    exact m.nodup_keys⟩

variable [Std.LawfulEqOrd κ] [DecidableEq κ]

theorem lookup_toFinmap (m : CompactMap κ β) (key : κ) : m.toFinmap.lookup key = m.get? key := by
  refine Option.ext fun value => ?_
  rw [toFinmap, Finmap.lookup_toFinmap, ← mem_toList_iff]
  rw [← Option.mem_def, AList.mem_lookup_iff, List.mem_map]
  constructor
  · rintro ⟨⟨present, held⟩, member, same⟩
    cases same
    exact member
  · intro member
    exact ⟨(key, value), member, rfl⟩

theorem toFinmap_eq_iff (m n : CompactMap κ β) : m.toFinmap = n.toFinmap ↔ ∀ key, m.get? key = n.get? key := by
  simp only [← lookup_toFinmap]
  exact ⟨fun same key => by rw [same], Finmap.ext_lookup⟩

theorem beq_iff_toFinmap [BEq β] [LawfulBEq β] (m n : CompactMap κ β) : (m == n) = true ↔ m.toFinmap = n.toFinmap := by
  rw [beq_iff, toFinmap_eq_iff]

theorem toFinmap_put (m : CompactMap κ β) (key : κ) (value : β) :
    (m.put key value).2.toFinmap = m.toFinmap.insert key value := by
  refine Finmap.ext_lookup fun other => ?_
  rw [lookup_toFinmap, get?_put]
  split
  next same =>
    obtain rfl := Std.LawfulEqOrd.compare_eq_iff_eq.mp same
    rw [Finmap.lookup_insert]
  next different =>
    have unequal : other ≠ key := fun same => different (Std.LawfulEqOrd.compare_eq_iff_eq.mpr same.symm)
    rw [Finmap.lookup_insert_of_ne _ unequal, lookup_toFinmap]

theorem toFinmap_take (m : CompactMap κ β) (key : κ) : (m.take key).2.toFinmap = m.toFinmap.erase key := by
  refine Finmap.ext_lookup fun other => ?_
  rw [lookup_toFinmap, get?_take]
  split
  next same =>
    obtain rfl := Std.LawfulEqOrd.compare_eq_iff_eq.mp same
    rw [Finmap.lookup_erase]
  next different =>
    have unequal : other ≠ key := fun same => different (Std.LawfulEqOrd.compare_eq_iff_eq.mpr same.symm)
    rw [Finmap.lookup_erase_ne unequal, lookup_toFinmap]

theorem toFinmap_clear (m : CompactMap κ β) : m.clear.toFinmap = ∅ := by
  refine Finmap.ext_lookup fun key => ?_
  rw [lookup_toFinmap, get?_clear, Finmap.lookup_empty]

theorem toFinmap_extend (m : CompactMap κ β) (entries : List (κ × β)) :
    (m.extend entries).toFinmap = entries.foldl (fun f entry => f.insert entry.1 entry.2) m.toFinmap := by
  rw [extend]
  induction entries generalizing m with
  | nil => rfl
  | cons entry entries ih => rw [List.foldl_cons, List.foldl_cons, ih, toFinmap_put]

/-- Everything that can be seen of a map is as the given finite map tells, and each entry is
listed once. -/
structure Shows (m : CompactMap κ β) (f : Finmap fun _ : κ => β) : Prop where
  get : ∀ key, m.get? key = f.lookup key
  contains : ∀ key, m.contains key = true ↔ key ∈ f
  size : m.size = f.keys.card
  isEmpty : m.isEmpty = true ↔ f = ∅
  entries : Multiset.ofList (m.toList.map fun entry => ⟨entry.1, entry.2⟩) = f.entries
  keys : Multiset.ofList m.keys = f.keys.val

theorem shows_toFinmap (m : CompactMap κ β) : m.Shows m.toFinmap := by
  have keys : Multiset.ofList m.keys = m.toFinmap.keys.val := by
    rw [toFinmap, Finmap.keys_val, AList.keys, List.keys, List.map_map]
    rfl
  have size : m.size = m.toFinmap.keys.card := by
    rw [Finset.card_def, ← keys, Multiset.coe_card, CompactMap.keys, List.length_map, length_toList]
  refine ⟨fun key => (m.lookup_toFinmap key).symm, ?_, size, ?_, rfl, keys⟩
  · intro key
    rw [contains, ← lookup_toFinmap, Finmap.lookup_isSome]
  · rw [isEmpty, beq_iff_eq, size, Finset.card_eq_zero]
    constructor
    · intro none
      refine Finmap.ext_lookup fun key => ?_
      rw [Finmap.lookup_empty, Finmap.lookup_eq_none, ← Finmap.mem_keys, none]
      exact Finset.notMem_empty key
    · intro same
      rw [same, Finmap.keys_empty]

end CompactMap

open Classical in
/-- What an action on a map makes of a finite map, given that of its partner. -/
noncomputable def MapAction.meaning {κ β : Type} (action : MapAction κ β) (f partner : Finmap fun _ : κ => β) :
    Answer β × Finmap fun _ : κ => β :=
  match action with
  | reset => (.silent, ∅)
  | build entries => (.silent, entries.foldl (fun f entry => f.insert entry.1 entry.2) ∅)
  | copy => (.silent, partner)
  | clear => (.silent, ∅)
  | extend entries => (.silent, entries.foldl (fun f entry => f.insert entry.1 entry.2) f)
  | insert key value => (.value (f.lookup key), f.insert key value)
  | remove key => (.value (f.lookup key), f.erase key)
  | get key => (.value (f.lookup key), f)
  | contains key => (.flag (decide (key ∈ f)), f)
  | isEmpty => (.flag (decide (f = ∅)), f)
  | equals => (.flag (decide (f = partner)), f)

theorem Answer.flag_eq {β : Type} {left : Bool} {right : Prop} [Decidable right] (same : left = true ↔ right) :
    (Answer.flag left : Answer β) = .flag (decide right) := by
  rw [Answer.flag.injEq, Bool.eq_iff_iff, decide_eq_true_iff, same]

theorem MapAction.perform_means {κ β : Type} [Ord κ] [Std.TransOrd κ] [Std.LawfulEqOrd κ] [BEq β] [LawfulBEq β]
    (action : MapAction κ β) (m partner : CompactMap κ β) :
    Prod.map id CompactMap.toFinmap (action.perform m partner) = action.meaning m.toFinmap partner.toFinmap := by
  classical
  have shown := m.shows_toFinmap
  cases action with
  | reset => rfl
  | build entries => exact congrArg (Prod.mk _) (CompactMap.toFinmap_extend ∅ entries)
  | copy => rfl
  | clear => exact congrArg (Prod.mk _) m.toFinmap_clear
  | extend entries => exact congrArg (Prod.mk _) (m.toFinmap_extend entries)
  | insert key value =>
    simp only [perform, meaning, Prod.map]
    rw [m.put_fst, shown.get, m.toFinmap_put]
    rfl
  | remove key =>
    simp only [perform, meaning, Prod.map]
    rw [m.take_fst, shown.get, m.toFinmap_take]
    rfl
  | get key =>
    simp only [perform, meaning, Prod.map]
    rw [shown.get]
    rfl
  | contains key => exact congrArg (Prod.mk · _) (Answer.flag_eq (shown.contains key))
  | isEmpty => exact congrArg (Prod.mk · _) (Answer.flag_eq shown.isEmpty)
  | equals => exact congrArg (Prod.mk · _) (Answer.flag_eq (m.beq_iff_toFinmap partner))

namespace CompactSet

variable {α : Type} [Ord α]

theorem changed_add (s : CompactSet α) (x : α) : (s.add x).changed = true ↔ x ∉ s.elements := by
  rw [mem_elements, add, contains, CompactMap.contains]
  dsimp only
  rw [s.members.put_fst, Option.isNone_iff_eq_none, Bool.not_eq_true, Option.isSome_eq_false_iff,
    Option.isNone_iff_eq_none]

variable [Std.TransOrd α]

theorem changed_remove (s : CompactSet α) (x : α) : (s.remove x).changed = true ↔ x ∈ s.elements := by
  rw [mem_elements, remove, contains, CompactMap.contains]
  dsimp only
  rw [s.members.take_fst]

def toFinset (s : CompactSet α) : Finset α := ⟨s.toList, s.members.nodup_keys⟩

theorem toFinset_empty : (∅ : CompactSet α).toFinset = ∅ := rfl

variable [Std.LawfulEqOrd α]

theorem mem_toFinset (s : CompactSet α) (x : α) : x ∈ s.toFinset ↔ x ∈ s.elements := s.mem_toList x

theorem beq_iff_toFinset (s t : CompactSet α) : (s == t) = true ↔ s.toFinset = t.toFinset := by
  rw [beq_iff, Finset.ext_iff, Set.ext_iff]
  simp only [mem_toFinset]

theorem toFinset_clear (s : CompactSet α) : s.clear.toFinset = ∅ := by
  ext x
  rw [mem_toFinset, mem_elements, contains, CompactMap.contains, clear, CompactMap.get?_clear]
  exact iff_of_false Bool.false_ne_true (Finset.notMem_empty x)

theorem changed_addAll (s : CompactSet α) (added : List α) :
    (s.addAll added).changed = true ↔ ∃ x ∈ added, x ∉ s.elements := by
  have folded (so : Updated (CompactSet α)) : (added.foldl (fun so x =>
      let next := so.value.add x; ⟨next.value, next.changed || so.changed⟩) so).changed = true ↔
        so.changed = true ∨ ∃ x ∈ added, x ∉ so.value.elements := by
    induction added generalizing so with
    | nil => simp
    | cons y added ih =>
      rw [List.foldl_cons, ih]
      simp only [Bool.or_eq_true, changed_add, mem_elements_add, List.mem_cons, exists_eq_or_imp]
      grind
  rw [addAll, folded]
  simp

theorem toFinset_overwrite (s t : CompactSet α) : (s.overwrite t).value.toFinset = t.toFinset := by
  ext y
  rw [mem_toFinset, elements_overwrite, mem_toFinset]

/-- Everything that can be seen of a set is as the given finite set tells, and each element
is listed once. -/
structure Shows (s : CompactSet α) (f : Finset α) : Prop where
  contains : ∀ x, s.contains x = true ↔ x ∈ f
  size : s.size = f.card
  isEmpty : s.isEmpty = true ↔ f = ∅
  elements : Multiset.ofList s.toList = f.val

theorem shows_toFinset (s : CompactSet α) : s.Shows s.toFinset := by
  have size : s.size = s.toFinset.card := by
    rw [Finset.card_def, toFinset, Multiset.coe_card, toList, CompactMap.keys, List.length_map,
      CompactMap.length_toList]
    rfl
  refine ⟨fun x => ?_, size, ?_, rfl⟩
  · rw [mem_toFinset, mem_elements]
  · rw [← Finset.card_eq_zero, ← size]
    exact beq_iff_eq

variable [DecidableEq α]

theorem toFinset_add (s : CompactSet α) (x : α) : (s.add x).value.toFinset = insert x s.toFinset := by
  ext y
  rw [mem_toFinset, mem_elements_add, Finset.mem_insert, mem_toFinset, eq_comm]

theorem toFinset_remove (s : CompactSet α) (x : α) : (s.remove x).value.toFinset = s.toFinset.erase x := by
  ext y
  rw [mem_toFinset, mem_elements_remove, Finset.mem_erase, mem_toFinset, ne_comm]

theorem toFinset_addAll (s : CompactSet α) (added : List α) :
    (s.addAll added).value.toFinset = s.toFinset ∪ added.toFinset := by
  ext y
  rw [mem_toFinset, mem_elements_addAll, Finset.mem_union, mem_toFinset, List.mem_toFinset, or_comm]

theorem toFinset_union (s t : CompactSet α) : (s.union t).value.toFinset = s.toFinset ∪ t.toFinset := by
  ext y
  rw [mem_toFinset, elements_union, Finset.mem_union, mem_toFinset, mem_toFinset, Set.mem_union]

theorem changed_union (s t : CompactSet α) :
    (s.union t).changed = true ↔ s.toFinset ∪ t.toFinset ≠ s.toFinset := by
  rw [union, changed_addAll, ne_eq, Finset.union_eq_left, Finset.not_subset]
  simp only [mem_toFinset, mem_toList]

end CompactSet

open Classical in
/-- What an action on a set makes of a finite set, given that of its partner. -/
noncomputable def SetAction.meaning {α : Type} (action : SetAction α) (f partner : Finset α) :
    Answer Empty × Finset α :=
  match action with
  | reset => (.silent, ∅)
  | build elements => (.silent, elements.toFinset)
  | copy => (.silent, partner)
  | clear => (.silent, ∅)
  | extend elements => (.silent, f ∪ elements.toFinset)
  | add x => (.flag (decide (x ∉ f)), insert x f)
  | remove x => (.flag (decide (x ∈ f)), f.erase x)
  | contains x => (.flag (decide (x ∈ f)), f)
  | isEmpty => (.flag (decide (f = ∅)), f)
  | equals => (.flag (decide (f = partner)), f)
  | union => (.flag (decide (f ∪ partner ≠ f)), f ∪ partner)
  | overwrite => (.flag (decide (partner ≠ f)), partner)

theorem SetAction.perform_means {α : Type} [Ord α] [Std.TransOrd α] [Std.LawfulEqOrd α]
    (action : SetAction α) (s partner : CompactSet α) :
    Prod.map id CompactSet.toFinset (action.perform s partner) = action.meaning s.toFinset partner.toFinset := by
  classical
  have shown := s.shows_toFinset
  cases action with
  | reset => rfl
  | build elements =>
    refine congrArg (Prod.mk _) ?_
    rw [CompactSet.ofList, CompactSet.toFinset_addAll, CompactSet.toFinset_empty, Finset.empty_union]
  | copy => rfl
  | clear => exact congrArg (Prod.mk _) s.toFinset_clear
  | extend elements => exact congrArg (Prod.mk _) (s.toFinset_addAll elements)
  | add x =>
    refine Prod.ext (Answer.flag_eq ?_) (s.toFinset_add x)
    rw [s.changed_add, s.mem_toFinset]
  | remove x =>
    refine Prod.ext (Answer.flag_eq ?_) (s.toFinset_remove x)
    rw [s.changed_remove, s.mem_toFinset]
  | contains x => exact congrArg (Prod.mk · _) (Answer.flag_eq (shown.contains x))
  | isEmpty => exact congrArg (Prod.mk · _) (Answer.flag_eq shown.isEmpty)
  | equals => exact congrArg (Prod.mk · _) (Answer.flag_eq (s.beq_iff_toFinset partner))
  | union => exact Prod.ext (Answer.flag_eq (s.changed_union partner)) (s.toFinset_union partner)
  | overwrite =>
    refine Prod.ext (Answer.flag_eq ?_) (s.toFinset_overwrite partner)
    rw [CompactSet.changed_overwrite, ne_eq, ne_eq, Finset.ext_iff, Set.ext_iff]
    simp only [CompactSet.mem_toFinset]

end Dataflow
