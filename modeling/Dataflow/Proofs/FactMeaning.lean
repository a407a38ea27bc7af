import Mathlib.Data.Set.Card
import Dataflow.Actions
import Dataflow.Proofs.ContainerMeaning
import Dataflow.Proofs.FactOrder
import Dataflow.Proofs.StoredCells

/-! Environments as functions that give every key a value. What an environment records follows
from that function, whatever was done to reach it, and a change is reported exactly when the
function changes. -/

namespace Dataflow

namespace Env

variable {κ β : Type} [Ord κ] [Semilattice β]

theorem get_empty : (∅ : Env κ β).get = fun _ => bottom := rfl

theorem get_clear (e : Env κ β) : e.clear.get = fun _ => bottom := by
  ext key
  rw [get, clear, CompactMap.get?_clear, Option.getD_none]

variable [Std.TransOrd κ] [Std.LawfulEqOrd κ]

/-- The recorded keys are those above the bottom, each of them once. -/
structure Canonical (e : Env κ β) : Prop where
  entries : ∀ key value, (key, value) ∈ e.toList ↔ e.get key = value ∧ value ≠ bottom
  single : (e.toList.map Prod.fst).Nodup
  size : {key | e.get key ≠ bottom}.encard = e.size

theorem canonical (e : Env κ β) : e.Canonical := by
  classical
  refine ⟨e.mem_toList_iff, e.nodup_keys, ?_⟩
  have above : {key | e.get key ≠ bottom} = ((e.toList.map Prod.fst).toFinset : Set κ) := by
    ext key
    simp only [Set.mem_ofPred_eq, List.coe_toFinset, List.mem_map, Prod.exists, mem_toList_iff]
    constructor
    · intro held
      exact ⟨key, _, ⟨rfl, held⟩, rfl⟩
    · rintro ⟨_, value, ⟨rfl, held⟩, rfl⟩
      exact held
  rw [above, Set.encard_coe_eq_coe_finsetCard, List.toFinset_card_of_nodup e.nodup_keys, List.length_map, toList,
    CompactMap.length_toList, size]

theorem isEmpty_iff (e : Env κ β) : e.isEmpty = true ↔ e.get = fun _ => bottom := by
  rw [isEmpty, CompactMap.isEmpty, beq_iff_eq]
  change e.size = 0 ↔ _
  rw [← Nat.cast_inj (R := ℕ∞), ← e.canonical.size, Nat.cast_zero, Set.encard_eq_zero, Set.eq_empty_iff_forall_notMem,
    funext_iff]
  exact forall_congr' fun key => not_not

theorem remove_fst [DecidableEq β] (e : Env κ β) (key : κ) :
    (e.remove key).1 = if e.get key = bottom then none else some (e.get key) := by
  rw [remove]
  dsimp only
  rw [CompactMap.take_fst, get?_bindings]

theorem get_remove [DecidableEq κ] (e : Env κ β) (key : κ) :
    (e.remove key).2.get = Function.update e.get key bottom := by
  ext other
  rw [Function.update_apply, remove, get]
  dsimp only
  rw [CompactMap.get?_take]
  simp only [Std.LawfulEqOrd.compare_eq_iff_eq, eq_comm (a := key)]
  split <;> rfl

/-- A change from `e` is reported if and only if some key got another value. -/
def Tracks (e : Env κ β) (so : Updated (Env κ β)) : Prop :=
  so.changed = true ↔ ∃ key, so.value.get key ≠ e.get key

omit [Std.TransOrd κ] [Std.LawfulEqOrd κ] in
private theorem tracks_iff (e : Env κ β) (so : Updated (Env κ β)) :
    e.Tracks so ↔ (so.changed = true ↔ so.value.get ≠ e.get) := by
  rw [Tracks, Function.ne_iff]

theorem tracks_overwrite [BEq β] [LawfulBEq β] (e other : Env κ β) : e.Tracks (e.overwrite other) := by
  rw [tracks_iff, changed_overwrite, get_overwrite]

variable [DecidableEq β]

private theorem get_set_eq_update [DecidableEq κ] (e : Env κ β) (key : κ) (value : β) :
    (e.set key value).value.get = Function.update e.get key value := by
  ext other
  rw [get_set, Function.update_apply]
  simp only [Std.LawfulEqOrd.compare_eq_iff_eq, eq_comm (a := key)]

theorem get_ofList [DecidableEq κ] (entries : List (κ × β)) :
    (ofList entries).get = entries.foldl (fun f entry => Function.update f entry.1 entry.2) fun _ => bottom := by
  have folded (e : Env κ β) : (entries.foldl (fun e entry => (e.set entry.1 entry.2).value) e).get =
      entries.foldl (fun f entry => Function.update f entry.1 entry.2) e.get := by
    induction entries generalizing e with
    | nil => rfl
    | cons entry entries ih => rw [List.foldl_cons, List.foldl_cons, ih, get_set_eq_update]
  rw [ofList, folded, get_empty]

theorem changed_set (e : Env κ β) (key : κ) (value : β) :
    (e.set key value).changed = true ↔ value ≠ e.get key := by
  unfold set
  split
  next isBottom =>
    dsimp only
    rw [CompactMap.take_fst, get?_bindings, isBottom]
    split <;> simp_all [eq_comm]
  next above =>
    dsimp only
    rw [CompactMap.put_fst, get?_bindings, decide_eq_true_iff]
    split <;> simp_all [eq_comm]

theorem tracks_set (e : Env κ β) (key : κ) (value : β) : e.Tracks (e.set key value) := by
  classical
  rw [tracks_iff, changed_set, get_set_eq_update, ne_eq, ne_eq, Function.update_eq_self_iff]

/-- Joining entries of different keys reports a change if one of them changes its key. No later
entry can undo or hide that, since none is of the same key. -/
theorem changed_foldl_joinEntry (so : Updated (Env κ β)) {entries : List (κ × β)}
    (single : (entries.map Prod.fst).Nodup) :
    (entries.foldl joinEntry so).changed = true ↔
      so.changed = true ∨ ∃ entry ∈ entries, Semilattice.join (so.value.get entry.1) entry.2 ≠ so.value.get entry.1 := by
  induction entries generalizing so with
  | nil => simp
  | cons entry entries ih =>
    rw [List.map_cons, List.nodup_cons] at single
    have later : ∀ other ∈ entries, (joinEntry so entry).value.get other.1 = so.value.get other.1 := by
      intro other member
      have different : entry.1 ≠ other.1 := fun same => single.1 (same ▸ List.mem_map_of_mem member)
      exact get_set_other so.value different _
    have first : (joinEntry so entry).changed = true ↔
        so.changed = true ∨ Semilattice.join (so.value.get entry.1) entry.2 ≠ so.value.get entry.1 := by
      rw [joinEntry, Bool.or_eq_true, changed_set]
    rw [List.foldl_cons, ih _ single.2, first, or_assoc]
    simp only [List.mem_cons, exists_eq_or_imp]
    refine or_congr_right (or_congr_right (exists_congr fun other => and_congr_right fun member => ?_))
    rw [later other member]

theorem changed_joinEntries_of_perm [LawfulSemilattice β] (e : Env κ β) {other : Env κ β} {entries : List (κ × β)}
    (listed : entries.Perm other.toList) : (e.joinEntries entries).changed = true ↔
      ∃ key, Semilattice.join (e.get key) (other.get key) ≠ e.get key := by
  have single := (listed.map Prod.fst).nodup_iff.mpr other.nodup_keys
  rw [joinEntries, changed_foldl_joinEntry _ single]
  simp only [Bool.false_eq_true, false_or]
  constructor
  · rintro ⟨⟨key, value⟩, member, moved⟩
    rw [← get_of_mem_toList (listed.mem_iff.mp member)] at moved
    exact ⟨key, moved⟩
  · rintro ⟨key, moved⟩
    -- A key that is not recorded brings the bottom, which moves nothing.
    have above : other.get key ≠ bottom := by
      intro isBottom
      rw [isBottom, LawfulSemilattice.join_comm, LawfulSemilattice.bottom_join] at moved
      exact moved rfl
    exact ⟨(key, other.get key), listed.mem_iff.mpr ((other.mem_toList_iff key _).mpr ⟨rfl, above⟩), moved⟩

theorem tracks_join [LawfulSemilattice β] (e other : Env κ β) : e.Tracks (e.join other) := by
  rw [Tracks]
  simp only [get_join]
  exact e.changed_joinEntries_of_perm (.refl _)

end Env

open Classical in
/-- What an action on an environment makes of the values of the keys, given those of its
partner. -/
noncomputable def EnvAction.meaning {κ β : Type} [Semilattice β] (action : EnvAction κ β) (f partner : κ → β) :
    Answer β × (κ → β) :=
  let report (next : κ → β) : Answer β × (κ → β) := (.flag (decide (next ≠ f)), next)
  match action with
  | reset => (.silent, fun _ => bottom)
  | build entries => (.silent, entries.foldl (fun f entry => Function.update f entry.1 entry.2) fun _ => bottom)
  | copy => (.silent, partner)
  | clear => (.silent, fun _ => bottom)
  | set key value => report (Function.update f key value)
  | remove key => (.value (if f key = bottom then none else some (f key)), Function.update f key bottom)
  | get key => (.value (some (f key)), f)
  | isEmpty => (.flag (decide (f = fun _ => bottom)), f)
  | equals => (.flag (decide (f = partner)), f)
  | join => report fun key => Semilattice.join (f key) (partner key)
  | overwrite => report partner

variable {κ β : Type} [Ord κ] [Std.TransOrd κ] [Std.LawfulEqOrd κ] [Semilattice β] [LawfulSemilattice β]
  [DecidableEq β]

theorem EnvAction.perform_means (action : EnvAction κ β) (e partner : Env κ β) :
    Prod.map id Env.get (action.perform e partner) = action.meaning e.get partner.get := by
  classical
  have reports {so : Updated (Env κ β)} {next : κ → β} (same : so.value.get = next) (tracks : e.Tracks so) :
      Prod.map id Env.get ((.flag so.changed, so.value) : Answer β × Env κ β) = (.flag (decide (next ≠ e.get)), next) := by
    subst same
    exact congrArg (Prod.mk · _) (Answer.flag_eq ((e.tracks_iff so).mp tracks))
  cases action with
  | reset => rfl
  | build entries => exact congrArg (Prod.mk _) (Env.get_ofList entries)
  | copy => rfl
  | clear => exact congrArg (Prod.mk _) e.get_clear
  | set key value => exact reports (e.get_set_eq_update key value) (e.tracks_set key value)
  | remove key =>
    refine Prod.ext (congrArg Answer.value ?_) (e.get_remove key)
    change (e.remove key).1 = _
    convert e.remove_fst key
  | get key => rfl
  | isEmpty => exact congrArg (Prod.mk · _) (Answer.flag_eq e.isEmpty_iff)
  | equals => exact congrArg (Prod.mk · _) (Answer.flag_eq (e.beq_iff partner))
  | join => exact reports (funext (e.get_join partner)) (e.tracks_join partner)
  | overwrite => exact reports (e.get_overwrite partner) (e.tracks_overwrite partner)

end Dataflow
