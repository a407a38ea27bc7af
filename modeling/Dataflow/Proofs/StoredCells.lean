import Mathlib.Logic.Function.Basic
import Dataflow.Store

/-! Stores of named cells, seen as cells that have nothing to do with each other: a step
changes the cell it works on, and nothing that any other cell shows. -/

namespace Dataflow

variable {α β σ τ ς : Type}

def Step.run (take : ς → Step α → Answer β × ς) (s : ς) : List (Step α) → List (Answer β × ς)
  | [] => []
  | next :: rest => take s next :: Step.run take (take s next).2 rest

theorem Step.run_map {take : ς → Step α → Answer β × ς} {told : τ → Step α → Answer β × τ} (view : ς → τ)
    (valid : ς → Prop) (shows : ∀ s next, valid s →
      valid (take s next).2 ∧ Prod.map id view (take s next) = told (view s) next)
    (steps : List (Step α)) {s : ς} (begun : valid s) :
    (Step.run take s steps).map (Prod.map id view) = Step.run told (view s) steps := by
  induction steps generalizing s with
  | nil => rfl
  | cons next rest ih =>
    obtain ⟨kept, same⟩ := shows s next begun
    rw [Step.run, Step.run, List.map_cons, ih kept, ← same]
    rfl

theorem Step.run_keeps {take : ς → Step α → Answer β × ς} (valid : ς → Prop)
    (keeps : ∀ s next, valid s → valid (take s next).2) (steps : List (Step α)) {s : ς} (begun : valid s) :
    ∀ done ∈ Step.run take s steps, valid done.2 := by
  induction steps generalizing s with
  | nil => exact nofun
  | cons next rest ih =>
    intro done member
    rcases List.mem_cons.mp member with rfl | later
    · exact keeps s next begun
    · exact ih (keeps s next begun) done later

/-- Takes a step on one of many cells, each of which has a content of its own. -/
def Cells.step (perform : α → τ → τ → Answer β × τ) (cells : String → τ) (next : Step α) : Answer β × (String → τ) :=
  let done := perform next.action (cells next.target) (cells (next.partner.getD next.target))
  (done.1, Function.update cells next.target done.2)

/-- Takes steps on cells that have nothing to do with each other. -/
def Cells.run (perform : α → τ → τ → Answer β × τ) (cells : String → τ) (steps : List (Step α)) :
    List (Answer β × (String → τ)) :=
  Step.run (Cells.step perform) cells steps

section Maps

variable {perform : α → σ → σ → Answer β × σ} {meaning : α → τ → τ → Answer β × τ} (view : σ → τ)
  (shows : ∀ action content partner,
    Prod.map id view (perform action content partner) = meaning action (view content) (view partner))

include shows

theorem Cells.step_map (cells : String → σ) (next : Step α) :
    Prod.map id (view ∘ ·) (Cells.step perform cells next) = Cells.step meaning (view ∘ cells) next := by
  rw [Cells.step, Cells.step, Function.comp_apply, Function.comp_apply, ← shows, Prod.map, Function.comp_update]
  rfl

theorem Cells.run_map (cells : String → σ) (steps : List (Step α)) :
    (Cells.run perform cells steps).map (Prod.map id (view ∘ ·)) = Cells.run meaning (view ∘ cells) steps :=
  Step.run_map (view ∘ ·) (fun _ => True) (fun cells next _ => ⟨trivial, Cells.step_map view shows cells next⟩) steps
    trivial

end Maps

namespace Store

variable [EmptyCollection σ]

theorem get_set (s : Store σ) (name : String) (content : σ) :
    (s.set name content).get = Function.update s.get name content := by
  ext other
  rw [get, set, Std.TreeMap.getD_insert, Function.update_apply]
  simp only [Std.LawfulEqCmp.compare_eq_iff_eq, eq_comm (a := name)]
  rfl

private theorem get_mention (s : Store σ) (name : String) : (s.mention name).get = s.get := by
  rw [mention, get_set, Function.update_eq_self]

/-- A step changes what its target holds and nothing else. -/
theorem step_get (perform : α → σ → σ → Answer β × σ) (s : Store σ) (next : Step α) :
    Prod.map id get (s.step perform next) = Cells.step perform s.get next := by
  simp only [step, Cells.step, Prod.map, get_set, get_mention]
  rfl

private theorem steps_get (perform : α → σ → σ → Answer β × σ) (s : Store σ) (steps : List (Step α)) :
    (s.steps perform steps).map (Prod.map id get) = Cells.run perform s.get steps := by
  have same (s : Store σ) : s.steps perform steps = Step.run (Store.step perform) s steps := by
    induction steps generalizing s with
    | nil => rfl
    | cons next rest ih =>
      rw [Store.steps, Step.run, ← ih]
  rw [same]
  exact Step.run_map get (fun _ => True) (fun s next _ => ⟨trivial, s.step_get perform next⟩) steps trivial

theorem get_empty : (Store.empty : Store σ).get = fun _ => ∅ := by
  ext name
  rfl

/-- If the actions on contents show as actions on something else, steps from the empty store
show as steps on cells which begin as the empty content shows. -/
theorem steps_map {perform : α → σ → σ → Answer β × σ} {meaning : α → τ → τ → Answer β × τ} (view : σ → τ)
    (shows : ∀ action content partner,
      Prod.map id view (perform action content partner) = meaning action (view content) (view partner))
    (steps : List (Step α)) :
    ((Store.empty.steps perform steps).map fun done => (done.1, fun name => view (done.2.get name))) =
      Cells.run meaning (fun _ => view ∅) steps := by
  have cells := Cells.run_map view shows (fun _ => ∅) steps
  rw [← get_empty, ← steps_get, List.map_map] at cells
  exact cells

end Store

end Dataflow
