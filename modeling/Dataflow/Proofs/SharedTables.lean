import Dataflow.Proofs.ContainerMeaning

/-! Maps that share their tables. A copy of a large map names the table of the original, and
both read it until one of them is written to: a map writes in place only to a table that no
other map names, and otherwise to a table of its own. No map shows that it shares its table. -/

namespace Dataflow

/-- How a map is kept: in place, or as the address of its table. -/
inductive Handle (κ β : Type) where
  | empty
  | single (key : κ) (value : β)
  | table (address : Nat)

def Handle.names {κ β : Type} (address : Nat) : Handle κ β → Bool
  | table other => other == address
  | _ => false

private theorem Handle.names_iff {κ β : Type} {address : Nat} {h : Handle κ β} :
    h.names address = true ↔ h = .table address := by
  cases h <;> simp [names]

/-- Named maps over tables that they may share. The addresses from `next` on are free. -/
structure SharedMaps (κ β : Type) [Ord κ] where
  handles : Std.TreeMap String (Handle κ β)
  tables : Std.TreeMap Nat (Std.TreeMap κ β)
  next : Nat

namespace SharedMaps

variable {κ β : Type} [Ord κ]

def start : SharedMaps κ β := ⟨∅, ∅, 0⟩

def handle (s : SharedMaps κ β) (name : String) : Handle κ β := s.handles.getD name .empty

def entries (s : SharedMaps κ β) (address : Nat) : Std.TreeMap κ β := s.tables.getD address ∅

def read (s : SharedMaps κ β) : Handle κ β → CompactMap κ β
  | .empty => .empty
  | .single key value => .single key value
  | .table address => .table (s.entries address)

def view (s : SharedMaps κ β) (name : String) : CompactMap κ β := s.read (s.handle name)

def hold (s : SharedMaps κ β) (name : String) (h : Handle κ β) : SharedMaps κ β :=
  { s with handles := s.handles.insert name h }

def allocate (s : SharedMaps κ β) (name : String) (entries : Std.TreeMap κ β) : SharedMaps κ β :=
  { handles := s.handles.insert name (.table s.next)
    tables := s.tables.insert s.next entries
    next := s.next + 1 }

/-- Whether another map names the table as well. -/
def shared (s : SharedMaps κ β) (name : String) (address : Nat) : Bool :=
  s.handles.toList.any fun (other, h) => other != name && h.names address

def write (s : SharedMaps κ β) (name : String) (address : Nat) (entries : Std.TreeMap κ β) : SharedMaps κ β :=
  if s.shared name address then s.allocate name entries
  else { s with tables := s.tables.insert address entries }

def put (s : SharedMaps κ β) (name : String) (key : κ) (value : β) : Option β × SharedMaps κ β :=
  match s.handle name with
  | .empty => (none, s.hold name (.single key value))
  | .single present old =>
    if compare present key = .eq then (some old, s.hold name (.single present value))
    else (none, s.allocate name ((Std.TreeMap.empty.insert present old).insert key value))
  | .table address => ((s.entries address).get? key, s.write name address ((s.entries address).insert key value))

/-- Looking up first keeps a table shared when there is nothing to take. -/
def take (s : SharedMaps κ β) (name : String) (key : κ) : Option β × SharedMaps κ β :=
  match s.handle name with
  | .empty => (none, s)
  | .single present old => if compare present key = .eq then (some old, s.hold name .empty) else (none, s)
  | .table address =>
    match (s.entries address).get? key with
    | some old => (some old, s.write name address ((s.entries address).erase key))
    | none => (none, s)

def clear (s : SharedMaps κ β) (name : String) : SharedMaps κ β :=
  match s.handle name with
  | .table address => s.write name address ∅
  | _ => s.hold name .empty

def extend (s : SharedMaps κ β) (name : String) (entries : List (κ × β)) : SharedMaps κ β :=
  entries.foldl (fun s entry => (s.put name entry.1 entry.2).2) s

variable [BEq β]

/-- Takes a step. A copy is made by naming the table of the partner, not by copying it. -/
def step (s : SharedMaps κ β) (next : Step (MapAction κ β)) : Answer β × SharedMaps κ β :=
  let name := next.target
  let partner := next.partner.getD name
  match next.action with
  | .reset => (.silent, s.hold name .empty)
  | .build entries => (.silent, (s.hold name .empty).extend name entries)
  | .copy => (.silent, s.hold name (s.handle partner))
  | .clear => (.silent, s.clear name)
  | .extend entries => (.silent, s.extend name entries)
  | .insert key value => let (old, s) := s.put name key value; (.value old, s)
  | .remove key => let (old, s) := s.take name key; (.value old, s)
  | .get key => (.value ((s.view name).get? key), s)
  | .contains key => (.flag ((s.view name).contains key), s)
  | .isEmpty => (.flag (s.view name).isEmpty, s)
  | .equals => (.flag (s.view name == s.view partner), s)

end SharedMaps

namespace SharedMaps

variable {κ β : Type} [Ord κ] {s after last : SharedMaps κ β} {name : String}

/-- No map names a free address. -/
def Valid (s : SharedMaps κ β) : Prop := ∀ name address, s.handle name = .table address → address < s.next

theorem valid_start : (start : SharedMaps κ β).Valid := by
  intro name address held
  cases held

/-- A change after which one map shows the given content and every other what it showed. -/
structure Writes (s : SharedMaps κ β) (name : String) (m : CompactMap κ β) (after : SharedMaps κ β) : Prop where
  valid : after.Valid
  view : after.view = Function.update s.view name m

/-- A change that answers and shows as a change of one map does. -/
structure Does (s : SharedMaps κ β) (name : String) (told : Option β × CompactMap κ β)
    (done : Option β × SharedMaps κ β) : Prop where
  answer : done.1 = told.1
  writes : s.Writes name told.2 done.2

theorem Writes.refl (valid : s.Valid) (name : String) : s.Writes name (s.view name) s :=
  ⟨valid, (Function.update_eq_self name s.view).symm⟩

theorem Writes.view_self {m : CompactMap κ β} (first : s.Writes name m after) : after.view name = m := by
  rw [first.view, Function.update_self]

theorem Writes.trans {m n : CompactMap κ β} (first : s.Writes name m after) (second : after.Writes name n last) :
    s.Writes name n last :=
  ⟨second.valid, by rw [second.view, first.view, Function.update_idem]⟩

private theorem handle_insert (handles : Std.TreeMap String (Handle κ β)) (tables : Std.TreeMap Nat (Std.TreeMap κ β))
    (next : Nat) (name other : String) (h : Handle κ β) :
    (⟨handles.insert name h, tables, next⟩ : SharedMaps κ β).handle other =
      if other = name then h else (⟨handles, tables, next⟩ : SharedMaps κ β).handle other := by
  simp only [handle, Std.TreeMap.getD_insert, Std.LawfulEqCmp.compare_eq_iff_eq, eq_comm (a := name)]

private theorem entries_insert (handles : Std.TreeMap String (Handle κ β)) (tables : Std.TreeMap Nat (Std.TreeMap κ β))
    (next address other : Nat) (entries : Std.TreeMap κ β) :
    (⟨handles, tables.insert address entries, next⟩ : SharedMaps κ β).entries other =
      if other = address then entries else (⟨handles, tables, next⟩ : SharedMaps κ β).entries other := by
  simp only [SharedMaps.entries, Std.TreeMap.getD_insert, Std.LawfulEqCmp.compare_eq_iff_eq, eq_comm (a := address)]

private theorem shared_iff (s : SharedMaps κ β) (name : String) (address : Nat) :
    s.shared name address = true ↔ ∃ other, other ≠ name ∧ s.handle other = .table address := by
  rw [shared, List.any_eq_true]
  constructor
  · rintro ⟨⟨other, h⟩, listed, named⟩
    rw [Std.TreeMap.mem_toList_iff_getElem?_eq_some] at listed
    rw [Bool.and_eq_true, bne_iff_ne, Handle.names_iff] at named
    refine ⟨other, named.1, ?_⟩
    rw [handle, Std.TreeMap.getD_eq_getD_getElem?, listed, Option.getD_some, named.2]
  · rintro ⟨other, different, held⟩
    rw [handle, Std.TreeMap.getD_eq_getD_getElem?] at held
    cases listed : s.handles[other]? with
    | none =>
      rw [listed] at held
      cases held
    | some h =>
      rw [listed, Option.getD_some] at held
      refine ⟨(other, h), Std.TreeMap.mem_toList_iff_getElem?_eq_some.mpr listed, ?_⟩
      rw [Bool.and_eq_true, bne_iff_ne, Handle.names_iff]
      exact ⟨different, held⟩

theorem writes_hold (valid : s.Valid) (name : String) {h : Handle κ β}
    (known : ∀ address, h = .table address → address < s.next) : s.Writes name (s.read h) (s.hold name h) := by
  constructor
  · intro other address held
    rw [hold, handle_insert] at held
    split at held
    next => exact known address held
    next => exact valid other address held
  · ext1 other
    rw [view, hold, handle_insert, Function.update_apply]
    split <;> rfl

theorem writes_empty (valid : s.Valid) (name : String) : s.Writes name ∅ (s.hold name .empty) :=
  writes_hold valid name (h := .empty) fun _ impossible => nomatch impossible

private theorem writes_single (valid : s.Valid) (name : String) (key : κ) (value : β) :
    s.Writes name (.single key value) (s.hold name (.single key value)) :=
  writes_hold valid name (h := .single key value) fun _ impossible => nomatch impossible

private theorem writes_allocate (valid : s.Valid) (name : String) (entries : Std.TreeMap κ β) :
    s.Writes name (.table entries) (s.allocate name entries) := by
  constructor
  · intro other address held
    rw [allocate, handle_insert] at held
    split at held
    next =>
      obtain rfl := Handle.table.inj held
      exact Nat.lt_succ_self s.next
    next => exact Nat.lt_succ_of_lt (valid other address held)
  · ext1 other
    rw [view, allocate, handle_insert, Function.update_apply]
    split
    next => rw [read, entries_insert, if_pos rfl]
    next =>
      change SharedMaps.read _ (s.handle other) = s.read (s.handle other)
      cases held : s.handle other with
      | empty => rfl
      | single key value => rfl
      | table address =>
        -- The new table is at an address that no other map names.
        rw [read, read, entries_insert, if_neg (Nat.ne_of_lt (valid other address held))]
        rfl

private theorem writes_write (valid : s.Valid) {address : Nat} (held : s.handle name = .table address)
    (entries : Std.TreeMap κ β) : s.Writes name (.table entries) (s.write name address entries) := by
  rw [write]
  split
  next => exact writes_allocate valid name entries
  next unshared =>
    refine ⟨valid, ?_⟩
    ext1 other
    rw [view, Function.update_apply]
    change SharedMaps.read _ (s.handle other) = _
    split
    next same => rw [same, held, read, entries_insert, if_pos rfl]
    next different =>
      rw [view]
      cases found : s.handle other with
      | empty => rfl
      | single key value => rfl
      | table elsewhere =>
        have apart : elsewhere ≠ address := by
          intro same
          exact unshared ((s.shared_iff name address).mpr ⟨other, different, same ▸ found⟩)
        rw [read, read, entries_insert, if_neg apart]

theorem put_does (valid : s.Valid) (name : String) (key : κ) (value : β) :
    s.Does name ((s.view name).put key value) (s.put name key value) := by
  rw [put, view]
  cases held : s.handle name with
  | empty => exact ⟨rfl, writes_single valid name key value⟩
  | single present old =>
    rw [read, CompactMap.put]
    dsimp only
    split
    next => exact ⟨rfl, writes_single valid name present value⟩
    next => exact ⟨rfl, writes_allocate valid name _⟩
  | table address => exact ⟨rfl, writes_write valid held _⟩

theorem take_does (valid : s.Valid) (name : String) (key : κ) :
    s.Does name ((s.view name).take key) (s.take name key) := by
  have same := Writes.refl valid name
  rw [view] at same
  rw [take, view]
  cases held : s.handle name with
  | empty =>
    rw [held] at same
    exact ⟨rfl, same⟩
  | single present old =>
    rw [held] at same
    rw [read, CompactMap.take]
    dsimp only
    split
    next => exact ⟨rfl, writes_empty valid name⟩
    next => exact ⟨rfl, same⟩
  | table address =>
    rw [held] at same
    rw [read, CompactMap.take]
    dsimp only
    cases (s.entries address).get? key with
    | some old => exact ⟨rfl, writes_write valid held _⟩
    | none => exact ⟨rfl, same⟩

theorem clear_writes (valid : s.Valid) (name : String) : s.Writes name (s.view name).clear (s.clear name) := by
  rw [clear, view]
  cases held : s.handle name with
  | empty => exact writes_empty valid name
  | single key value => exact writes_empty valid name
  | table address => exact writes_write valid held ∅

private theorem extend_writes (valid : s.Valid) (name : String) (entries : List (κ × β)) :
    s.Writes name ((s.view name).extend entries) (s.extend name entries) := by
  induction entries generalizing s with
  | nil => exact .refl valid name
  | cons entry entries ih =>
    have first := (put_does valid name entry.1 entry.2).writes
    have rest := ih first.valid
    rw [first.view_self] at rest
    exact first.trans rest

variable [BEq β]

theorem step_shows (valid : s.Valid) (next : Step (MapAction κ β)) :
    (s.step next).2.Valid ∧ Prod.map id view (s.step next) = Cells.step MapAction.perform s.view next := by
  obtain ⟨name, partner, action⟩ := next
  have shows {m : CompactMap κ β} {answer : Answer β} {after : SharedMaps κ β} (writes : s.Writes name m after) :
      after.Valid ∧ Prod.map id view (answer, after) = (answer, Function.update s.view name m) :=
    ⟨writes.valid, Prod.ext rfl writes.view⟩
  have emptied := writes_empty valid name
  have unchanged := Writes.refl valid name
  cases action with
  | reset => exact shows emptied
  | build entries =>
    have filled := extend_writes emptied.valid name entries
    rw [emptied.view_self] at filled
    exact shows (emptied.trans filled)
  | copy => exact shows (writes_hold valid name fun address held => valid _ address held)
  | clear => exact shows (clear_writes valid name)
  | extend entries => exact shows (extend_writes valid name entries)
  | insert key value =>
    have done := put_does valid name key value
    rw [Cells.step, MapAction.perform]
    dsimp only
    rw [← done.answer]
    exact shows done.writes
  | remove key =>
    have done := take_does valid name key
    rw [Cells.step, MapAction.perform]
    dsimp only
    rw [← done.answer]
    exact shows done.writes
  | get key => exact shows unchanged
  | contains key => exact shows unchanged
  | isEmpty => exact shows unchanged
  | equals => exact shows unchanged

theorem run_shows (steps : List (Step (MapAction κ β))) :
    (Step.run step start steps).map (Prod.map id view) = Cells.run MapAction.perform (fun _ => ∅) steps := by
  exact Step.run_map view Valid (fun s next valid => step_shows valid next) steps valid_start

/-! Sets are maps without values, and share their tables as those do. -/

variable {α : Type} [Ord α] {sets : SharedMaps α Unit}

def setView (sets : SharedMaps α Unit) (name : String) : CompactSet α := ⟨sets.view name⟩

def addAll (sets : SharedMaps α Unit) (name : String) (elements : List α) : Bool × SharedMaps α Unit :=
  elements.foldl (fun so x => let next := so.2.put name x (); (next.1.isNone || so.1, next.2)) (false, sets)

def stepSet (sets : SharedMaps α Unit) (next : Step (SetAction α)) : Answer Empty × SharedMaps α Unit :=
  let name := next.target
  let partner := next.partner.getD name
  match next.action with
  | .reset => (.silent, sets.hold name .empty)
  | .build elements => (.silent, ((sets.hold name .empty).addAll name elements).2)
  | .copy => (.silent, sets.hold name (sets.handle partner))
  | .clear => (.silent, sets.clear name)
  | .extend elements => (.silent, (sets.addAll name elements).2)
  | .add x => let (old, sets) := sets.put name x (); (.flag old.isNone, sets)
  | .remove x => let (old, sets) := sets.take name x; (.flag old.isSome, sets)
  | .contains x => (.flag ((sets.setView name).contains x), sets)
  | .isEmpty => (.flag (sets.setView name).isEmpty, sets)
  | .equals => (.flag (sets.setView name == sets.setView partner), sets)
  | .union => let (changed, sets) := sets.addAll name (sets.setView partner).toList; (.flag changed, sets)
  | .overwrite =>
    if sets.setView name == sets.setView partner then (.flag false, sets)
    else (.flag true, sets.hold name (sets.handle partner))

theorem addAll_does (valid : sets.Valid) (name : String) (elements : List α) :
    (sets.addAll name elements).1 = ((sets.setView name).addAll elements).changed ∧
      sets.Writes name ((sets.setView name).addAll elements).value.members (sets.addAll name elements).2 := by
  have folded (so : Updated (CompactSet α)) (done : Bool × SharedMaps α Unit) (same : done.1 = so.changed)
      (writes : sets.Writes name so.value.members done.2) :
      let told := elements.foldl (fun so a => let next := so.value.add a; ⟨next.value, next.changed || so.changed⟩) so
      let after := elements.foldl (fun so x => let next := so.2.put name x (); (next.1.isNone || so.1, next.2)) done
      after.1 = told.changed ∧ sets.Writes name told.value.members after.2 := by
    induction elements generalizing so done with
    | nil => exact ⟨same, writes⟩
    | cons x elements ih =>
      have next := put_does writes.valid name x ()
      rw [writes.view_self] at next
      apply ih
      · dsimp only
        rw [next.answer, same]
        rfl
      · exact writes.trans next.writes
  exact folded ⟨sets.setView name, false⟩ (false, sets) rfl (.refl valid name)

theorem stepSet_shows (valid : sets.Valid) (next : Step (SetAction α)) :
    (sets.stepSet next).2.Valid ∧
      Prod.map id setView (sets.stepSet next) = Cells.step SetAction.perform sets.setView next := by
  obtain ⟨name, partner, action⟩ := next
  have shows {m : CompactMap α Unit} {answer : Answer Empty} {after : SharedMaps α Unit}
      (writes : sets.Writes name m after) :
      after.Valid ∧ Prod.map id setView (answer, after) = (answer, Function.update sets.setView name ⟨m⟩) := by
    refine ⟨writes.valid, Prod.ext rfl ?_⟩
    change CompactSet.mk ∘ after.view = _
    rw [writes.view, Function.comp_update]
    rfl
  have emptied := writes_empty valid name
  have unchanged := Writes.refl valid name
  have copied := writes_hold valid name fun address held => valid (partner.getD name) address held
  cases action with
  | reset => exact shows emptied
  | build elements =>
    have filled := (addAll_does emptied.valid name elements).2
    rw [setView, emptied.view_self] at filled
    exact shows (emptied.trans filled)
  | copy => exact shows copied
  | clear => exact shows (clear_writes valid name)
  | extend elements => exact shows (addAll_does valid name elements).2
  | add x =>
    have done := put_does valid name x ()
    rw [Cells.step, SetAction.perform, CompactSet.add]
    dsimp only [setView]
    rw [← done.answer]
    exact shows done.writes
  | remove x =>
    have done := take_does valid name x
    rw [Cells.step, SetAction.perform, CompactSet.remove]
    dsimp only [setView]
    rw [← done.answer]
    exact shows done.writes
  | contains x => exact shows unchanged
  | isEmpty => exact shows unchanged
  | equals => exact shows unchanged
  | union =>
    obtain ⟨same, writes⟩ := addAll_does valid name (sets.setView (partner.getD name)).toList
    rw [Cells.step, SetAction.perform, CompactSet.union]
    dsimp only
    rw [← same]
    exact shows writes
  | overwrite =>
    rw [Cells.step, SetAction.perform, CompactSet.overwrite, stepSet]
    dsimp only
    split
    next => exact shows unchanged
    next => exact shows copied

theorem runSets_shows (steps : List (Step (SetAction α))) :
    (Step.run stepSet start steps).map (Prod.map id setView) = Cells.run SetAction.perform (fun _ => ∅) steps := by
  exact Step.run_map setView Valid (fun sets next valid => stepSet_shows valid next) steps valid_start

theorem runSets_valid (steps : List (Step (SetAction α))) : ∀ done ∈ Step.run stepSet start steps, done.2.Valid :=
  Step.run_keeps Valid (fun _ next valid => (stepSet_shows valid next).1) steps valid_start

end SharedMaps

variable {κ β α : Type} [Ord κ] [Std.TransOrd κ] [Std.LawfulEqOrd κ] [DecidableEq κ] [BEq β] [LawfulBEq β]
  [Ord α] [Std.TransOrd α] [Std.LawfulEqOrd α]

/-- Stored maps and sets are finite maps and sets, one for each name, which have nothing to do
with each other: whatever steps are taken, every answer and everything that can be seen of a
container afterwards is as the finite map or set of its name tells, whether or not copies
share their tables, and two containers are equal if and only if those are. -/
theorem containers_are_independent (steps : List (Step (MapAction κ β))) (setSteps : List (Step (SetAction α))) :
    ((Store.empty.steps MapAction.perform steps).map fun done =>
        (done.1, fun name => (done.2.get name).toFinmap)) = Cells.run MapAction.meaning (fun _ => ∅) steps ∧
    ((Step.run SharedMaps.step SharedMaps.start steps).map fun done =>
        (done.1, fun name => (done.2.view name).toFinmap)) = Cells.run MapAction.meaning (fun _ => ∅) steps ∧
    ((Store.empty.steps SetAction.perform setSteps).map fun done =>
        (done.1, fun name => (done.2.get name).toFinset)) = Cells.run SetAction.meaning (fun _ => ∅) setSteps ∧
    ((Step.run SharedMaps.stepSet SharedMaps.start setSteps).map fun done =>
        (done.1, fun name => (done.2.setView name).toFinset)) = Cells.run SetAction.meaning (fun _ => ∅) setSteps ∧
    (∀ m : CompactMap κ β, m.Shows m.toFinmap) ∧
    (∀ m n : CompactMap κ β, (m == n) = true ↔ m.toFinmap = n.toFinmap) ∧
    (∀ s : CompactSet α, s.Shows s.toFinset) ∧
    ∀ s t : CompactSet α, (s == t) = true ↔ s.toFinset = t.toFinset := by
  have maps := Cells.run_map CompactMap.toFinmap MapAction.perform_means (fun _ => (∅ : CompactMap κ β)) steps
  have sets := Cells.run_map CompactSet.toFinset SetAction.perform_means (fun _ => (∅ : CompactSet α)) setSteps
  rw [← SharedMaps.run_shows, List.map_map] at maps
  rw [← SharedMaps.runSets_shows, List.map_map] at sets
  exact ⟨Store.steps_map CompactMap.toFinmap MapAction.perform_means steps, maps,
    Store.steps_map CompactSet.toFinset SetAction.perform_means setSteps, sets, CompactMap.shows_toFinmap,
    CompactMap.beq_iff_toFinmap, CompactSet.shows_toFinset, CompactSet.beq_iff_toFinset⟩

/-- A copy is written to, and then the original. -/
def copySteps : List (Step (MapAction Nat Nat)) :=
  [⟨"x", none, .extend [(1, 10), (2, 20)]⟩, ⟨"y", some "x", .copy⟩, ⟨"y", none, .insert 1 11⟩,
    ⟨"x", none, .remove 2⟩, ⟨"x", none, .clear⟩, ⟨"y", none, .get 2⟩, ⟨"x", some "y", .equals⟩]

def setCopySteps : List (Step (SetAction Nat)) :=
  [⟨"x", none, .extend [1, 2]⟩, ⟨"y", some "x", .copy⟩, ⟨"y", none, .add 3⟩, ⟨"x", none, .contains 3⟩,
    ⟨"x", some "y", .equals⟩]

theorem copySteps_independent :
    ((Step.run SharedMaps.step SharedMaps.start copySteps).map fun done =>
        (done.1, fun name => (done.2.view name).toFinmap)) = Cells.run MapAction.meaning (fun _ => ∅) copySteps ∧
    ((Store.empty.steps MapAction.perform copySteps).map fun done =>
        (done.1, fun name => (done.2.get name).toFinmap)) = Cells.run MapAction.meaning (fun _ => ∅) copySteps ∧
    (Step.run SharedMaps.step SharedMaps.start copySteps).map Prod.fst =
      [.silent, .silent, .value (some 10), .value (some 20), .silent, .value (some 20), .flag false] ∧
    ((Step.run SharedMaps.stepSet SharedMaps.start setCopySteps).map fun done =>
        (done.1, fun name => (done.2.setView name).toFinset)) = Cells.run SetAction.meaning (fun _ => ∅) setCopySteps ∧
    (Step.run SharedMaps.stepSet SharedMaps.start setCopySteps).map Prod.fst =
      [.silent, .silent, .flag true, .flag false, .flag false] := by
  obtain ⟨plain, shared, -, sharedSets, -⟩ := containers_are_independent copySteps setCopySteps
  exact ⟨shared, plain, rfl, sharedSets, rfl⟩

/-- The copy names the table of the original until it is written to. -/
example : (Step.run SharedMaps.step SharedMaps.start copySteps).map (fun done => done.2.shared "x" 0) =
    [false, true, false, false, false, false, false] := rfl

end Dataflow
