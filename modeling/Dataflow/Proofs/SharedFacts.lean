import Dataflow.Proofs.FactMeaning
import Dataflow.Proofs.SharedTables

/-! Environments kept in maps that share their tables. Nothing in the form of such a map rules
out that it records the bottom. That none does is an invariant of the steps, and under it the
maps show environments that have nothing to do with each other. -/

namespace Dataflow

namespace SharedMaps

variable {κ β : Type} [Ord κ] [Semilattice β]

def valueOf (s : SharedMaps κ β) (name : String) (key : κ) : β := ((s.view name).get? key).getD bottom

variable [DecidableEq β]

/-- Binds a key, and tells whether that changes anything. -/
def bind (s : SharedMaps κ β) (name : String) (key : κ) (value : β) : Bool × SharedMaps κ β :=
  if value = bottom then
    let (old, s) := s.take name key
    (old.isSome, s)
  else
    let (old, s) := s.put name key value
    (old ≠ some value, s)

def bindAll (s : SharedMaps κ β) (name : String) (entries : List (κ × β)) : SharedMaps κ β :=
  entries.foldl (fun s entry => (s.bind name entry.1 entry.2).2) s

def joinEntry (name : String) (so : Bool × SharedMaps κ β) (entry : κ × β) : Bool × SharedMaps κ β :=
  let next := so.2.bind name entry.1 (join (so.2.valueOf name entry.1) entry.2)
  (so.1 || next.1, next.2)

def joinAll (s : SharedMaps κ β) (name : String) (entries : List (κ × β)) : Bool × SharedMaps κ β :=
  entries.foldl (joinEntry name) (false, s)

def stepEnv (s : SharedMaps κ β) (next : Step (EnvAction κ β)) : Answer β × SharedMaps κ β :=
  let name := next.target
  let partner := next.partner.getD name
  match next.action with
  | .reset => (.silent, s.hold name .empty)
  | .build entries => (.silent, (s.hold name .empty).bindAll name entries)
  | .copy => (.silent, s.hold name (s.handle partner))
  | .clear => (.silent, s.clear name)
  | .set key value => let (changed, s) := s.bind name key value; (.flag changed, s)
  | .remove key => let (old, s) := s.take name key; (.value old, s)
  | .get key => (.value (some (s.valueOf name key)), s)
  | .isEmpty => (.flag (s.view name).isEmpty, s)
  | .equals => (.flag (s.view name == s.view partner), s)
  | .join => let (changed, s) := s.joinAll name (s.view partner).toList; (.flag changed, s)
  | .overwrite =>
    if s.view name == s.view partner then (.flag false, s) else (.flag true, s.hold name (s.handle partner))

variable [Std.TransOrd κ] [Std.LawfulEqOrd κ] {s : SharedMaps κ β} {name : String}

omit [DecidableEq β] [Std.TransOrd κ] [Std.LawfulEqOrd κ] in
private theorem valueOf_eq_get {e : Env κ β} (held : e.bindings = s.view name) : s.valueOf name = e.get := by
  ext key
  rw [valueOf, ← held]
  rfl

omit [DecidableEq β] [Std.TransOrd κ] [Std.LawfulEqOrd κ] in
theorem Writes.valueOf {e : Env κ β} {after : SharedMaps κ β} (writes : s.Writes name e.bindings after) :
    after.valueOf = Function.update s.valueOf name e.get := by
  ext1 other
  rw [Function.update_apply]
  split
  next same =>
    subst same
    exact valueOf_eq_get writes.view_self.symm
  next different =>
    ext key
    rw [SharedMaps.valueOf, writes.view, Function.update_of_ne different]
    rfl

private theorem bind_does (valid : s.Valid) {e : Env κ β} (held : e.bindings = s.view name) (key : κ) (value : β) :
    (s.bind name key value).1 = (e.set key value).changed ∧
      s.Writes name (e.set key value).value.bindings (s.bind name key value).2 := by
  rw [bind, Env.set]
  split
  next =>
    have done := take_does valid name key
    rw [← held] at done
    exact ⟨congrArg Option.isSome done.answer, done.writes⟩
  next =>
    have done := put_does valid name key value
    rw [← held] at done
    refine ⟨?_, done.writes⟩
    dsimp only
    rw [done.answer]

private theorem bindAll_writes (valid : s.Valid) {e : Env κ β} (held : e.bindings = s.view name)
    (entries : List (κ × β)) :
    s.Writes name (entries.foldl (fun e entry => (e.set entry.1 entry.2).value) e).bindings (s.bindAll name entries) := by
  induction entries generalizing s e with
  | nil =>
    have same := Writes.refl valid name
    rwa [← held] at same
  | cons entry entries ih =>
    have first := (bind_does valid held entry.1 entry.2).2
    exact first.trans (ih first.valid first.view_self.symm)

private theorem joinEntry_does {so : Updated (Env κ β)} {done : Bool × SharedMaps κ β} (same : done.1 = so.changed)
    (writes : s.Writes name so.value.bindings done.2) (entry : κ × β) :
    (joinEntry name done entry).1 = (Env.joinEntry so entry).changed ∧
      s.Writes name (Env.joinEntry so entry).value.bindings (joinEntry name done entry).2 := by
  have shown := writes.view_self.symm
  obtain ⟨moved, next⟩ := bind_does writes.valid shown entry.1 (join (so.value.get entry.1) entry.2)
  rw [joinEntry, valueOf_eq_get shown]
  refine ⟨?_, writes.trans next⟩
  dsimp only
  rw [same, moved]
  rfl

theorem joinAll_does (valid : s.Valid) {e : Env κ β} (held : e.bindings = s.view name) (entries : List (κ × β)) :
    (s.joinAll name entries).1 = (e.joinEntries entries).changed ∧
      s.Writes name (e.joinEntries entries).value.bindings (s.joinAll name entries).2 := by
  have folded (so : Updated (Env κ β)) (done : Bool × SharedMaps κ β) (same : done.1 = so.changed)
      (writes : s.Writes name so.value.bindings done.2) :
      (entries.foldl (joinEntry name) done).1 = (entries.foldl Env.joinEntry so).changed ∧
        s.Writes name (entries.foldl Env.joinEntry so).value.bindings (entries.foldl (joinEntry name) done).2 := by
    induction entries generalizing so done with
    | nil => exact ⟨same, writes⟩
    | cons entry entries ih =>
      obtain ⟨told, later⟩ := joinEntry_does same writes entry
      exact ih _ _ told later
  have begun := Writes.refl valid name
  rw [← held] at begun
  exact folded ⟨e, false⟩ (false, s) rfl begun

theorem stepEnv_does (valid : s.Valid) (cells : String → Env κ β) (held : ∀ name, (cells name).bindings = s.view name)
    (next : Step (EnvAction κ β)) :
    let told := next.action.perform (cells next.target) (cells (next.partner.getD next.target))
    (s.stepEnv next).1 = told.1 ∧ s.Writes next.target told.2.bindings (s.stepEnv next).2 := by
  obtain ⟨name, partner, action⟩ := next
  have emptied := writes_empty valid name
  have unchanged := Writes.refl valid name
  have copied := writes_hold valid name fun address kept => valid (partner.getD name) address kept
  have partnered : s.read (s.handle (partner.getD name)) = (cells (partner.getD name)).bindings := (held _).symm
  rw [← held] at unchanged
  rw [partnered] at copied
  have alike : (cells name == cells (partner.getD name)) = (s.view name == s.view (partner.getD name)) := by
    rw [← held, ← held]
    rfl
  cases action with
  | reset => exact ⟨rfl, emptied⟩
  | build entries => exact ⟨rfl, emptied.trans (bindAll_writes emptied.valid emptied.view_self.symm entries)⟩
  | copy => exact ⟨rfl, copied⟩
  | clear =>
    have cleared := clear_writes valid name
    rw [← held] at cleared
    exact ⟨rfl, cleared⟩
  | set key value =>
    obtain ⟨moved, writes⟩ := bind_does valid (held name) key value
    exact ⟨congrArg Answer.flag moved, writes⟩
  | remove key =>
    have done := take_does valid name key
    rw [← held] at done
    exact ⟨congrArg Answer.value done.answer, done.writes⟩
  | get key =>
    refine ⟨?_, unchanged⟩
    rw [stepEnv, EnvAction.perform]
    dsimp only
    rw [valueOf_eq_get (held name)]
  | isEmpty => exact ⟨congrArg (fun m => Answer.flag (CompactMap.isEmpty m)) (held name).symm, unchanged⟩
  | equals => exact ⟨congrArg Answer.flag alike.symm, unchanged⟩
  | join =>
    obtain ⟨moved, writes⟩ := joinAll_does valid (held name) (cells (partner.getD name)).toList
    rw [stepEnv, EnvAction.perform]
    dsimp only
    rw [← held]
    exact ⟨congrArg Answer.flag moved, writes⟩
  | overwrite =>
    rw [stepEnv, EnvAction.perform, Env.overwrite]
    dsimp only
    rw [alike]
    split
    next => exact ⟨rfl, unchanged⟩
    next => exact ⟨rfl, copied⟩

/-- No map records the bottom. -/
def Bottomless (s : SharedMaps κ β) : Prop := ∀ name key, (s.view name).get? key ≠ some bottom

omit [DecidableEq β] [Std.TransOrd κ] [Std.LawfulEqOrd κ] in
private theorem bottomless_start : (start : SharedMaps κ β).Bottomless := fun _ _ => nofun

/-- What the maps record follows from the values of the keys. -/
structure Canonical (s : SharedMaps κ β) : Prop where
  above : ∀ name, ∀ entry ∈ (s.view name).toList, entry.2 ≠ bottom
  size : ∀ name, {key | s.valueOf name key ≠ bottom}.encard = (s.view name).size
  equal : ∀ name other,
    (s.view name == s.view other) = true ↔ ∀ key, s.valueOf name key = s.valueOf other key

private theorem Bottomless.canonical (above : s.Bottomless) : s.Canonical := by
  let cells (name : String) : Env κ β := ⟨s.view name, above name⟩
  refine ⟨?_, fun name => (cells name).canonical.size, ?_⟩
  · intro name entry member
    exact (((cells name).mem_toList_iff entry.1 entry.2).mp member).2
  · intro name other
    exact ((cells name).beq_iff (cells other)).trans funext_iff

variable [LawfulSemilattice β]

/-- A step records no bottom, and shows as the same step on functions on the keys. -/
theorem stepEnv_shows (valid : s.Valid) (above : s.Bottomless) (next : Step (EnvAction κ β)) :
    ((s.stepEnv next).2.Valid ∧ (s.stepEnv next).2.Bottomless) ∧
      Prod.map id valueOf (s.stepEnv next) = Cells.step EnvAction.meaning s.valueOf next := by
  let cells (name : String) : Env κ β := ⟨s.view name, above name⟩
  let told := Cells.step EnvAction.perform cells next
  obtain ⟨answer, writes⟩ := stepEnv_does valid cells (fun _ => rfl) next
  have shown : Env.bindings ∘ told.2 = (s.stepEnv next).2.view := by
    rw [writes.view]
    exact Function.comp_update Env.bindings cells next.target _
  refine ⟨⟨writes.valid, ?_⟩, ?_⟩
  · intro other key
    rw [← shown]
    exact (told.2 other).bottomless key
  · have means : _ = Cells.step EnvAction.meaning s.valueOf next :=
      Cells.step_map Env.get EnvAction.perform_means cells next
    rw [← means]
    refine Prod.ext answer ?_
    ext1 other
    exact valueOf_eq_get (congrFun shown other)

theorem runEnv_shows (steps : List (Step (EnvAction κ β))) :
    (Step.run stepEnv start steps).map (Prod.map id valueOf) = Cells.run EnvAction.meaning (fun _ _ => bottom) steps :=
  Step.run_map valueOf (fun s => s.Valid ∧ s.Bottomless) (fun _ next kept => stepEnv_shows kept.1 kept.2 next) steps
    ⟨valid_start, bottomless_start⟩

theorem runEnv_kept (steps : List (Step (EnvAction κ β))) :
    ∀ done ∈ Step.run stepEnv start steps, done.2.Valid ∧ done.2.Bottomless :=
  Step.run_keeps (fun s : SharedMaps κ β => s.Valid ∧ s.Bottomless)
    (fun _ next kept => (stepEnv_shows kept.1 kept.2 next).1) steps ⟨valid_start, bottomless_start⟩

end SharedMaps

variable {κ β : Type} [Ord κ] [Std.TransOrd κ] [Std.LawfulEqOrd κ] [Semilattice β] [LawfulSemilattice β]
  [DecidableEq β]

/-- Stored environments are functions on the keys that have nothing to do with each other:
whatever steps are taken, every answer and every value of a key is as those functions tell,
whether or not copies share their tables. No step makes a map record the bottom, so two are
equal if and only if every key has the same value in both; and what may change an environment
reports exactly whether it did. -/
theorem environments_stay_canonical (steps : List (Step (EnvAction κ β))) :
    ((Store.empty.steps EnvAction.perform steps).map fun done => (done.1, fun name => (done.2.get name).get)) =
      Cells.run EnvAction.meaning (fun _ _ => bottom) steps ∧
    ((Step.run SharedMaps.stepEnv SharedMaps.start steps).map fun done => (done.1, done.2.valueOf)) =
      Cells.run EnvAction.meaning (fun _ _ => bottom) steps ∧
    (∀ done ∈ Step.run SharedMaps.stepEnv SharedMaps.start steps, done.2.Canonical) ∧
    (∀ e : Env κ β, e.Canonical) ∧
    (∀ e other : Env κ β, (e == other) = true ↔ ∀ key, e.get key = other.get key) ∧
    (∀ (e : Env κ β) (key : κ) (value : β), (e.set key value).value.get key = value ∧
      (∀ other, key ≠ other → (e.set key value).value.get other = e.get other) ∧ e.Tracks (e.set key value)) ∧
    (∀ e other : Env κ β, ((e.overwrite other).value == other) = true ∧ e.Tracks (e.overwrite other)) ∧
    ∀ e other : Env κ β, (∀ key, (e.join other).value.get key = Semilattice.join (e.get key) (other.get key)) ∧
      e.Tracks (e.join other) := by
  refine ⟨Store.steps_map Env.get EnvAction.perform_means steps, SharedMaps.runEnv_shows steps, ?_, Env.canonical,
    ?_, ?_, ?_, ?_⟩
  · intro done member
    exact (SharedMaps.runEnv_kept steps done member).2.canonical
  · intro e other
    rw [e.beq_iff, funext_iff]
  · intro e key value
    exact ⟨e.get_set_self key value, fun other different => e.get_set_other different value, e.tracks_set key value⟩
  · intro e other
    exact ⟨(Env.beq_iff _ _).mpr (e.get_overwrite other), e.tracks_overwrite other⟩
  · intro e other
    exact ⟨e.get_join other, e.tracks_join other⟩

/-- Two equal joins, only the first of which changes something, and a key bound to the bottom. -/
def envSteps : List (Step (EnvAction Nat Value)) :=
  [⟨"x", none, .build [(1, .constant 5), (2, .constant 7), (3, .undefined)]⟩, ⟨"y", some "x", .copy⟩,
    ⟨"y", none, .set 1 (.constant 6)⟩, ⟨"x", some "y", .join⟩, ⟨"x", some "y", .join⟩, ⟨"y", some "x", .overwrite⟩,
    ⟨"x", some "y", .equals⟩, ⟨"x", none, .set 1 .undefined⟩, ⟨"x", none, .remove 2⟩, ⟨"x", none, .isEmpty⟩]

theorem envSteps_canonical :
    ((Store.empty.steps EnvAction.perform envSteps).map fun done => (done.1, fun name => (done.2.get name).get)) =
      Cells.run EnvAction.meaning (fun _ _ => bottom) envSteps ∧
    (∀ done ∈ Step.run SharedMaps.stepEnv SharedMaps.start envSteps, done.2.Canonical) ∧
    (Step.run SharedMaps.stepEnv SharedMaps.start envSteps).map Prod.fst = [.silent, .silent, .flag true, .flag true,
      .flag false, .flag true, .flag true, .flag true, .value (some (.constant 7)), .flag true] := by
  obtain ⟨plain, -, canonical, -⟩ := environments_stay_canonical envSteps
  exact ⟨plain, canonical, rfl⟩

end Dataflow
