import Dataflow.Proofs.SharedFacts

/-! Joins of facts in any order. A fact is joined into another one entry by entry, and nothing
tells in which order its entries come. The result is the least upper bound in every order, and a
change is reported unless the other fact lay below already. A fact that shares its table with the
one it is joined into is no exception. -/

namespace Dataflow

theorem Semilattice.join_below_iff {β : Type} [Semilattice β] [LawfulSemilattice β] (left right bound : β) :
    join (join left right) bound = bound ↔ join left bound = bound ∧ join right bound = bound := by
  let order := Semilattice.order β
  have both : left ⊔ right ≤ bound ↔ left ≤ bound ∧ right ≤ bound := sup_le_iff
  simp only [← sup_eq_right] at both
  exact both

theorem Value.isLUB_join (v w : Value) : IsLUB {v, w} (join v w) := isLUB_pair

namespace Env

variable {κ β : Type} [Ord κ] [Semilattice β]

/-- Every key has at most the value that the other environment gives it. -/
def Below (e other : Env κ β) : Prop := ∀ key, Semilattice.join (e.get key) (other.get key) = other.get key

/-- What it takes for an update to have joined another environment into one: every key has the
join of both values, the result is the least environment above both, and a change is reported
unless the other one lay below. -/
structure IsJoin (e other : Env κ β) (so : Updated (Env κ β)) : Prop where
  get : ∀ key, so.value.get key = Semilattice.join (e.get key) (other.get key)
  least : ∀ bound : Env κ β, so.value.Below bound ↔ e.Below bound ∧ other.Below bound
  changed : so.changed = true ↔ ¬other.Below e

variable [Std.TransOrd κ] [Std.LawfulEqOrd κ] [DecidableEq β]

/-- What joining another environment may come to, as its entries come in some order. -/
def Joins (e other : Env κ β) (so : Updated (Env κ β)) : Prop :=
  ∃ entries : List (κ × β), entries.Perm other.toList ∧ so = e.joinEntries entries

private theorem joins_join (e other : Env κ β) : e.Joins other (e.join other) := ⟨other.toList, .refl _, rfl⟩

variable [LawfulSemilattice β] {e other third : Env κ β} {so back left right inner outer : Updated (Env κ β)}

theorem Joins.isJoin (joins : e.Joins other so) : e.IsJoin other so := by
  obtain ⟨entries, listed, rfl⟩ := joins
  have get := e.get_joinEntries_of_perm listed
  refine ⟨get, ?_, ?_⟩
  · intro bound
    simp only [Below, get, Semilattice.join_below_iff]
    exact forall_and
  · rw [e.changed_joinEntries_of_perm listed, Below, not_forall]
    simp only [LawfulSemilattice.join_comm (other.get _)]

omit [DecidableEq β] [LawfulSemilattice β] in
private theorem beq_of_get [BEq β] [LawfulBEq β] (same : ∀ key, e.get key = other.get key) : (e == other) = true :=
  (beq_iff e other).mpr (funext same)

theorem Joins.same (first : e.Joins other left) (second : e.Joins other right) :
    (left.value == right.value) = true ∧ left.changed = right.changed := by
  constructor
  · apply beq_of_get
    intro key
    exact (first.isJoin.get key).trans (second.isJoin.get key).symm
  · exact Bool.eq_iff_iff.mpr (first.isJoin.changed.trans second.isJoin.changed.symm)

theorem Joins.comm (joins : e.Joins other so) (turned : other.Joins e back) : (so.value == back.value) = true := by
  apply beq_of_get
  intro key
  rw [joins.isJoin.get, turned.isJoin.get]
  exact LawfulSemilattice.join_comm _ _

theorem Joins.assoc (first : e.Joins other so) (second : so.value.Joins third left) (inside : other.Joins third inner)
    (outside : e.Joins inner.value right) : (left.value == right.value) = true := by
  apply beq_of_get
  intro key
  rw [second.isJoin.get, first.isJoin.get, outside.isJoin.get, inside.isJoin.get]
  exact LawfulSemilattice.join_assoc _ _ _

private theorem Joins.self (joins : e.Joins e so) : (so.value == e) = true ∧ so.changed = false := by
  have below : e.Below e := fun key => LawfulSemilattice.join_self _
  constructor
  · apply beq_of_get
    intro key
    exact (joins.isJoin.get key).trans (below key)
  · apply Bool.eq_false_iff.mpr
    intro changed
    exact joins.isJoin.changed.mp changed below

end Env

namespace CompactSet

variable {α : Type} [Ord α]

/-- What adding the elements of another set may come to, as they come in some order. -/
def Unites (s t : CompactSet α) (so : Updated (CompactSet α)) : Prop :=
  ∃ elements : List α, elements.Perm t.toList ∧ so = s.addAll elements

/-- The elements are those of both sets, and a change is reported unless the other one was a
subset. -/
structure IsUnion (s t : CompactSet α) (so : Updated (CompactSet α)) : Prop where
  elements : so.value.elements = s.elements ∪ t.elements
  changed : so.changed = true ↔ ¬t.elements ⊆ s.elements

private theorem unites_union (s t : CompactSet α) : s.Unites t (s.union t) := ⟨t.toList, .refl _, rfl⟩

variable [Std.TransOrd α] [Std.LawfulEqOrd α] {s t : CompactSet α} {so : Updated (CompactSet α)}

theorem Unites.isUnion (unites : s.Unites t so) : s.IsUnion t so := by
  obtain ⟨elements, listed, rfl⟩ := unites
  have member (x : α) : x ∈ elements ↔ x ∈ t.elements := listed.mem_iff.trans (t.mem_toList x)
  constructor
  · ext x
    rw [mem_elements_addAll, member]
    exact or_comm
  · rw [changed_addAll, Set.not_subset]
    simp only [member]

end CompactSet

namespace SharedMaps

section Environments

variable {κ β : Type} [Ord κ] [Semilattice β]

/-- A map of those that share tables has been joined into another one: its keys have the joins of
both values and no other map shows a difference. A change is reported unless the joined map lay
below, as a copy does. -/
structure JoinedInto (s : SharedMaps κ β) (name partner : String) (told : Bool × SharedMaps κ β) : Prop where
  values : told.2.valueOf =
    Function.update s.valueOf name fun key => join (s.valueOf name key) (s.valueOf partner key)
  changed : told.1 = true ↔ ¬∀ key, join (s.valueOf partner key) (s.valueOf name key) = s.valueOf name key
  copies : s.handle name = s.handle partner → told.1 = false

variable [Std.TransOrd κ] [Std.LawfulEqOrd κ] [LawfulSemilattice β] [DecidableEq β] {s : SharedMaps κ β}

private theorem joinedInto_of_perm (valid : s.Valid) (above : s.Bottomless) (name : String) {partner : String}
    {entries : List (κ × β)} (listed : entries.Perm (s.view partner).toList) :
    s.JoinedInto name partner (s.joinAll name entries) := by
  let cells (name : String) : Env κ β := ⟨s.view name, above name⟩
  have joins : (cells name).Joins (cells partner) ((cells name).joinEntries entries) := ⟨entries, listed, rfl⟩
  have held : (cells name).bindings = s.view name := rfl
  obtain ⟨told, writes⟩ := joinAll_does valid held entries
  have changed : (s.joinAll name entries).1 = true ↔
      ¬∀ key, join (s.valueOf partner key) (s.valueOf name key) = s.valueOf name key := by
    rw [told]
    exact joins.isJoin.changed
  refine ⟨?_, changed, ?_⟩
  · rw [writes.valueOf]
    congr 1
    ext key
    exact joins.isJoin.get key
  · intro copied
    apply Bool.eq_false_iff.mpr
    intro moved
    apply changed.mp moved
    intro key
    rw [valueOf, valueOf, view, view, copied]
    exact LawfulSemilattice.join_self _

end Environments

section Sets

variable {α : Type} [Ord α]

/-- A set of those that share tables has been united into another one, and no other set shows a
difference. A change is reported unless it was a subset, as a copy is. -/
structure UnitedInto (sets : SharedMaps α Unit) (name partner : String) (told : Bool × SharedMaps α Unit) : Prop where
  elements : (fun other => (told.2.setView other).elements) = Function.update
    (fun other => (sets.setView other).elements) name ((sets.setView name).elements ∪ (sets.setView partner).elements)
  changed : told.1 = true ↔ ¬(sets.setView partner).elements ⊆ (sets.setView name).elements
  copies : sets.handle name = sets.handle partner → told.1 = false

variable [Std.TransOrd α] [Std.LawfulEqOrd α] {sets : SharedMaps α Unit}

private theorem unitedInto_of_perm (valid : sets.Valid) (name : String) {partner : String} {elements : List α}
    (listed : elements.Perm (sets.setView partner).toList) :
    sets.UnitedInto name partner (sets.addAll name elements) := by
  have unites : (sets.setView name).Unites (sets.setView partner) ((sets.setView name).addAll elements) :=
    ⟨elements, listed, rfl⟩
  obtain ⟨told, writes⟩ := addAll_does valid name elements
  have changed : (sets.addAll name elements).1 = true ↔
      ¬(sets.setView partner).elements ⊆ (sets.setView name).elements := by
    rw [told]
    exact unites.isUnion.changed
  refine ⟨?_, changed, ?_⟩
  · ext1 other
    rw [setView, writes.view, Function.update_apply, Function.update_apply]
    split
    · exact unites.isUnion.elements
    · rfl
  · intro copied
    apply Bool.eq_false_iff.mpr
    intro moved
    apply changed.mp moved
    rw [setView, setView, view, view, copied]

end Sets

end SharedMaps

section Joins

variable {κ β α : Type} [Ord κ] [Std.TransOrd κ] [Std.LawfulEqOrd κ] [Semilattice β] [LawfulSemilattice β]
  [DecidableEq β] [Ord α] [Std.TransOrd α] [Std.LawfulEqOrd α]

/-- Joins are least upper bounds. Of two values, that of the order from nothing known over one
constant to no constant. Of two environments, that of the values of every key, whatever the order
in which the entries of one are joined into the other; the same holds of the union of two sets.
A change is reported unless the joined fact lay below, and all this holds as well of facts that
share their tables after any steps, copies of one another included. -/
theorem joins_are_least (steps : List (Step (EnvAction κ β))) (setSteps : List (Step (SetAction α))) :
    (∀ v w : Value, (v ≤ w ↔ v = .undefined ∨ w = .notConstant ∨ v = w) ∧ IsLUB {v, w} (join v w)) ∧
    (∀ u v w : Value, join v w = join w v ∧ join (join u v) w = join u (join v w) ∧ join v v = v ∧
      join .undefined v = v ∧ join .notConstant v = .notConstant) ∧
    (∀ e other : Env κ β, e.Joins other (e.join other) ∧ ∀ so, e.Joins other so → e.IsJoin other so) ∧
    (∀ (e other : Env κ β) left right, e.Joins other left → e.Joins other right →
      (left.value == right.value) = true ∧ left.changed = right.changed) ∧
    (∀ (e other : Env κ β) so back, e.Joins other so → other.Joins e back → (so.value == back.value) = true) ∧
    (∀ (e other third : Env κ β) so left inner right, e.Joins other so → so.value.Joins third left →
      other.Joins third inner → e.Joins inner.value right → (left.value == right.value) = true) ∧
    (∀ (e : Env κ β) so, e.Joins e so → (so.value == e) = true ∧ so.changed = false) ∧
    (∀ s t : CompactSet α, s.Unites t (s.union t) ∧ ∀ so, s.Unites t so → s.IsUnion t so) ∧
    (∀ done ∈ Step.run SharedMaps.stepEnv SharedMaps.start steps, ∀ name partner entries,
      entries.Perm (done.2.view partner).toList → done.2.JoinedInto name partner (done.2.joinAll name entries)) ∧
    ∀ done ∈ Step.run SharedMaps.stepSet SharedMaps.start setSteps, ∀ name partner elements,
      elements.Perm (done.2.setView partner).toList → done.2.UnitedInto name partner (done.2.addAll name elements) := by
  refine ⟨?_, ?_, ?_, ?_, ?_, ?_, ?_, ?_, ?_, ?_⟩
  · intro v w
    exact ⟨Value.le_iff_cases, v.isLUB_join w⟩
  · intro u v w
    have highest : join .notConstant v = .notConstant := by cases v <;> rfl
    exact ⟨LawfulSemilattice.join_comm v w, LawfulSemilattice.join_assoc u v w, LawfulSemilattice.join_self v,
      LawfulSemilattice.bottom_join v, highest⟩
  · intro e other
    exact ⟨e.joins_join other, fun so joins => joins.isJoin⟩
  · intro e other left right first second
    exact first.same second
  · intro e other so back joins turned
    exact joins.comm turned
  · intro e other third so left inner right first second inside outside
    exact first.assoc second inside outside
  · intro e so joins
    exact joins.self
  · intro s t
    exact ⟨s.unites_union t, fun so unites => unites.isUnion⟩
  · intro done member name partner entries listed
    obtain ⟨valid, above⟩ := SharedMaps.runEnv_kept steps done member
    exact SharedMaps.joinedInto_of_perm valid above name listed
  · intro done member name partner elements listed
    exact SharedMaps.unitedInto_of_perm (SharedMaps.runSets_valid setSteps done member) name listed

end Joins

def cloneSteps : List (Step (EnvAction Nat Value)) :=
  [⟨"x", none, .build [(1, .constant 5), (2, .constant 7)]⟩, ⟨"y", some "x", .copy⟩]

def setCloneSteps : List (Step (SetAction Nat)) := [⟨"x", none, .extend [1, 2]⟩, ⟨"y", some "x", .copy⟩]

/-- The copies name one table, whose entries are joined in descending order. -/
theorem clones_join :
    (∃ done ∈ Step.run SharedMaps.stepEnv SharedMaps.start cloneSteps, done.2.handle "x" = .table 0 ∧
      done.2.JoinedInto "x" "y" (done.2.joinAll "x" [(2, .constant 7), (1, .constant 5)])) ∧
    (∃ done ∈ Step.run SharedMaps.stepSet SharedMaps.start setCloneSteps, done.2.handle "x" = .table 0 ∧
      done.2.UnitedInto "x" "y" (done.2.addAll "x" [2, 1])) ∧
    (Env.ofList [(1, Value.constant 5), (3, .constant 1)]).IsJoin (.ofList [(1, .constant 6), (2, .constant 7)])
      ((Env.ofList [(1, Value.constant 5), (3, .constant 1)]).joinEntries [(2, .constant 7), (1, .constant 6)]) := by
  obtain ⟨-, -, joins, -, -, -, -, -, shared, sharedSets⟩ := joins_are_least cloneSteps setCloneSteps
  refine ⟨⟨_, List.mem_cons_of_mem _ List.mem_cons_self, rfl, ?_⟩,
    ⟨_, List.mem_cons_of_mem _ List.mem_cons_self, rfl, ?_⟩, ?_⟩
  · exact shared _ (List.mem_cons_of_mem _ List.mem_cons_self) "x" "y" _ (.swap _ _ _)
  · exact sharedSets _ (List.mem_cons_of_mem _ List.mem_cons_self) "x" "y" _ (.swap _ _ _)
  · exact (joins _ _).2 _ ⟨_, .swap _ _ _, rfl⟩

end Dataflow
