import Dataflow.Proofs.FactOrder
import Dataflow.Solver.Run
import Dataflow.Tabular

/-! What an analysis has to satisfy for its facts to have a meaning: joins are least upper
bounds, and a node passes on a function of what flows in. -/

namespace Dataflow

variable {ν φ L : Type} [SemilatticeSup L]

/-- An analysis whose facts stand for elements of a join semilattice, so that joining facts
joins the elements. What flows out of a node depends on what flows in alone, and a node says
truly whether it changed. -/
structure Analysis.Lawful (a : Analysis ν φ) (nodes : List ν) (view : φ → L) (T : ν → L → L) : Prop where
  join : ∀ source target, view (a.join source target) = view target ⊔ view source
  transfer : ∀ n ∈ nodes, ∀ input output, view (a.transfer n input output).value = T n (view input)
  changed : ∀ n ∈ nodes, ∀ input output, (a.transfer n input output).changed = true ↔
    view (a.transfer n input output).value ≠ view output

/-- A property of facts that an analysis keeps to. -/
structure Analysis.Keeps (a : Analysis ν φ) (nodes : List ν) (view : φ → L) (T : ν → L → L) (inside : L → Prop) :
    Prop where
  bottom : inside (view a.bottom)
  boundary : inside (view a.boundary)
  start : ∀ n ∈ nodes, inside (view (a.start n))
  join : ∀ left right, inside left → inside right → inside (left ⊔ right)
  transfer : ∀ n ∈ nodes, ∀ input, inside input → inside (T n input)

/-- Facts that are joined in one after the other give the least fact above the target and all of
them, whatever nodes make of it. -/
theorem Analysis.joined_le_iff {a : Analysis ν φ} {view : φ → L}
    (join : ∀ source target, view (a.join source target) = view target ⊔ view source) (sources : List φ) (target : φ)
    (bound : L) : view (sources.foldl (fun target source => a.join source target) target) ≤ bound ↔
      view target ≤ bound ∧ ∀ source ∈ sources, view source ≤ bound := by
  induction sources generalizing target with
  | nil => simp
  | cons source sources ih =>
    rw [List.foldl_cons, ih, join, sup_le_iff, List.forall_mem_cons, and_assoc]

theorem Analysis.joined_mono {a : Analysis ν φ} {view : φ → L}
    (join : ∀ source target, view (a.join source target) = view target ⊔ view source) {few sources : List φ}
    (fewer : few ⊆ sources) (target : φ) : view (few.foldl (fun target source => a.join source target) target) ≤
      view (sources.foldl (fun target source => a.join source target) target) := by
  obtain ⟨kept, taken⟩ := (joined_le_iff join sources target _).mp le_rfl
  exact (joined_le_iff join few target _).mpr ⟨kept, fun source member => taken source (fewer member)⟩

namespace Analysis.Lawful

variable {a : Analysis ν φ} {view : φ → L} {T : ν → L → L}

theorem fewer {nodes few : List ν} (law : a.Lawful nodes view T) (inside : ∀ n ∈ few, n ∈ nodes) :
    a.Lawful few view T :=
  ⟨law.join, fun n member => law.transfer n (inside n member), fun n member => law.changed n (inside n member)⟩

/-- An analysis is lawful if a node replaces what it sent before, and notices whether that
made a difference. -/
theorem of_replace {nodes : List ν} {replace : φ → φ → Updated φ}
    (value : ∀ output next, view (replace output next).value = view next)
    (changed : ∀ output next, (replace output next).changed = true ↔ view next ≠ view output)
    (join : ∀ source target, view (a.join source target) = view target ⊔ view source)
    (transfer : ∀ n ∈ nodes, ∃ next : φ → φ, (∀ input output, a.transfer n input output = replace output (next input)) ∧
      ∀ input, view (next input) = T n (view input)) : a.Lawful nodes view T := by
  refine ⟨join, ?_, ?_⟩
  · intro n member input output
    obtain ⟨next, replaces, passes⟩ := transfer n member
    rw [replaces, value, passes]
  · intro n member input output
    obtain ⟨next, replaces, passes⟩ := transfer n member
    rw [replaces, value, changed]

variable [Ord ν] {o : Oriented ν}

theorem input_le_iff (law : a.Lawful o.nodes view T) (rest : Worklist ν) (n : ν) (flow : Flow φ)
    (sources : List φ) (bound : L) :
    view (Visit.ofSources a o rest n flow sources).input ≤ bound ↔
      view flow.incoming ≤ bound ∧ ∀ source ∈ sources, view source ≤ bound :=
  joined_le_iff law.join sources flow.incoming bound

theorem input_inside (law : a.Lawful o.nodes view T) (rest : Worklist ν) (n : ν) {flow : Flow φ}
    {sources : List φ} {inside : L → Prop} (join : ∀ left right, inside left → inside right → inside (left ⊔ right))
    (kept : inside (view flow.incoming)) (sent : ∀ source ∈ sources, inside (view source)) :
    inside (view (Visit.ofSources a o rest n flow sources).input) := by
  simp only [Visit.ofSources]
  generalize flow.incoming = target at kept
  induction sources generalizing target with
  | nil => exact kept
  | cons source sources ih =>
    obtain ⟨first, others⟩ := List.forall_mem_cons.mp sent
    rw [List.foldl_cons]
    apply ih others
    rw [law.join]
    exact join _ _ kept first

theorem incoming_le_input (law : a.Lawful o.nodes view T) (rest : Worklist ν) (n : ν) (flow : Flow φ)
    (sources : List φ) : view flow.incoming ≤ view (Visit.ofSources a o rest n flow sources).input :=
  ((law.input_le_iff rest n flow sources _).mp le_rfl).1

theorem source_le_input (law : a.Lawful o.nodes view T) (rest : Worklist ν) (n : ν) (flow : Flow φ)
    {sources : List φ} {source : φ} (member : source ∈ sources) :
    view source ≤ view (Visit.ofSources a o rest n flow sources).input :=
  ((law.input_le_iff rest n flow sources _).mp le_rfl).2 source member

theorem output_eq (law : a.Lawful o.nodes view T) (rest : Worklist ν) {n : ν} (member : n ∈ o.nodes)
    (flow : Flow φ) (sources : List φ) :
    view (Visit.ofSources a o rest n flow sources).output =
      T n (view (Visit.ofSources a o rest n flow sources).input) :=
  law.transfer n member _ _

theorem output_eq_outgoing (law : a.Lawful o.nodes view T) {rest : Worklist ν} {n : ν} (member : n ∈ o.nodes)
    {flow : Flow φ} {sources : List φ} (same : (Visit.ofSources a o rest n flow sources).changed = false) :
    view (Visit.ofSources a o rest n flow sources).output = view flow.outgoing := by
  by_contra different
  have changed := (law.changed n member _ _).mpr different
  rw [Bool.eq_false_iff] at same
  exact same changed

end Analysis.Lawful

namespace Tabular.GenKill

/-- What a node makes of a set: the killed elements go, then the generated ones come. -/
def passed (p : GenKill) (n : Nat) (input : Set Nat) : Set Nat :=
  {x | x ∈ p.gen.at n ++ (if p.self then [n] else []) ∨ x ∉ p.kill.at n ∧ x ∈ input}

theorem elements_after (p : GenKill) (n : Nat) (input : CompactSet Nat) :
    (p.after n input).elements = p.passed n input.elements := by
  ext x
  rw [after, CompactSet.mem_elements_addAll, CompactSet.mem_elements_removeAll]
  rfl

theorem passed_mono (p : GenKill) (n : Nat) : Monotone (p.passed n) := by
  intro input more le x outgoing
  rcases outgoing with generated | ⟨kept, member⟩
  · exact Or.inl generated
  · exact Or.inr ⟨kept, le member⟩

theorem lawful {p : GenKill} (replaces : p.inPlace = false) (honest : p.report = .actual) (nodes : List Nat) :
    p.analysis.Lawful nodes CompactSet.elements p.passed := by
  apply Analysis.Lawful.of_replace CompactSet.elements_overwrite CompactSet.changed_overwrite
  · intro source target
    exact CompactSet.elements_union target source
  · intro n _
    refine ⟨p.after n, ?_, p.elements_after n⟩
    intro input output
    simp only [analysis, replaces, honest, Report.apply, Bool.false_eq_true, if_false]

end Tabular.GenKill

end Dataflow
