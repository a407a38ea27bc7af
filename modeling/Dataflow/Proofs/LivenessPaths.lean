import Mathlib.Data.Set.Card
import Dataflow.Liveness
import Dataflow.Proofs.MethodGraph
import Dataflow.Proofs.SolverLeast
import Dataflow.Proofs.SolverTermination

/-! A variable is found live exactly where some path from there reads it before writing it.
The paths solve the dataflow equations, so a run finds no more than they tell; and a run
takes in the reads along every path, from its end to its start. -/

namespace Dataflow

theorem Expr.mem_uses {e : Expr} {x : Var} : x ∈ e.uses ↔ x ∈ e.occurrences := by
  rw [uses, Std.TreeSet.mem_ofList, List.contains_iff_mem]

namespace FlowGraph

def Reads (g : FlowGraph) (p : Point) (x : Var) : Prop := ∃ stmt, g.stmt? p = some stmt ∧ x ∈ stmt.uses

def Writes (g : FlowGraph) (p : Point) (x : Var) : Prop := ∃ stmt, g.stmt? p = some stmt ∧ stmt.def? = some x

def IsPath (g : FlowGraph) (path : List Point) : Prop := path.IsChain fun p q => q ∈ g.neighbours p .forward

end FlowGraph

namespace Liveness

variable {g : FlowGraph} {p : Point} {x : Var}

/-- A path from a point ends in a read of the variable and does not write it before. -/
def Live (g : FlowGraph) (p : Point) (x : Var) : Prop :=
  ∃ (passed : List Point) (last : Point), (passed ++ [last]).head? = some p ∧ g.IsPath (passed ++ [last]) ∧
    g.Reads last x ∧ ∀ q ∈ passed, ¬g.Writes q x

/-- The same, followed point by point from the start of the path. -/
inductive ReadAhead (g : FlowGraph) (x : Var) : Point → Prop where
  | here {p : Point} (reads : g.Reads p x) : ReadAhead g x p
  | later {p q : Point} (kept : ¬g.Writes p x) (step : q ∈ g.neighbours p .forward) (ahead : ReadAhead g x q) :
      ReadAhead g x p

private theorem live_iff_readAhead : Live g p x ↔ ReadAhead g x p := by
  constructor
  · intro live
    obtain ⟨passed, last, begins, path, reads, unwritten⟩ := live
    induction passed generalizing p with
    | nil =>
      obtain rfl := Option.some.inj begins
      exact .here reads
    | cons first passed ih =>
      obtain rfl := Option.some.inj begins
      have kept := unwritten first List.mem_cons_self
      have later : ∀ q ∈ passed, ¬g.Writes q x := fun q inside => unwritten q (List.mem_cons_of_mem first inside)
      obtain ⟨step, rest⟩ := List.isChain_cons.mp path
      obtain ⟨q, begun⟩ : ∃ q, (passed ++ [last]).head? = some q := by cases passed <;> exact ⟨_, rfl⟩
      exact .later kept (step q begun) (ih begun rest later)
  · intro ahead
    induction ahead with
    | @here p reads => exact ⟨[], p, rfl, List.isChain_singleton p, reads, nofun⟩
    | @later p q kept step ahead ih =>
      obtain ⟨passed, last, begins, path, reads, unwritten⟩ := ih
      refine ⟨p :: passed, last, rfl, ?_, reads, ?_⟩
      · apply List.isChain_cons.mpr
        refine ⟨?_, path⟩
        intro m first
        obtain rfl := Option.some.inj (begins.symm.trans first)
        exact step
      · intro m inside
        rcases List.mem_cons.mp inside with rfl | passes
        · exact kept
        · exact unwritten m passes

def passed (g : FlowGraph) (p : Point) (live : Set Var) : Set Var :=
  {x | g.Reads p x ∨ ¬g.Writes p x ∧ x ∈ live}

theorem passed_mono (g : FlowGraph) (p : Point) : Monotone (passed g p) := by
  intro live more le x member
  rcases member with reads | ⟨kept, inside⟩
  · exact Or.inl reads
  · exact Or.inr ⟨kept, le inside⟩

theorem elements_before {stmt : Stmt} (found : g.stmt? p = some stmt) (live : CompactSet Var) :
    (before stmt live).elements = passed g p live.elements := by
  ext x
  have reads : g.Reads p x ↔ x ∈ stmt.uses := by simp [FlowGraph.Reads, found]
  have writes : g.Writes p x ↔ stmt.def? = some x := by simp [FlowGraph.Writes, found]
  have member : x ∈ passed g p live.elements ↔ x ∈ stmt.uses ∨ ¬stmt.def? = some x ∧ x ∈ live.elements := by
    rw [← reads, ← writes]
    rfl
  rw [before, CompactSet.mem_elements_addAll, Std.TreeSet.mem_toList, member]
  cases stmt.def? with
  | none => simp
  | some y => rw [CompactSet.mem_elements_remove, Option.some.injEq]

variable {m : Method}

theorem lawful (built : FlowGraph.ofMethod? m = .ok g) :
    (analysis g).Lawful g.graph.nodes CompactSet.elements (passed g) := by
  apply Analysis.Lawful.of_replace CompactSet.elements_overwrite CompactSet.changed_overwrite
  · intro source target
    exact CompactSet.elements_union target source
  · intro p member
    obtain ⟨stmt, found⟩ := FlowGraph.stmt?_of_mem built member
    refine ⟨before stmt, ?_, elements_before found⟩
    intro input output
    simp only [analysis, transfer?, found]
    rfl

def readVars (g : FlowGraph) : Set Var := {x | ∃ p, g.Reads p x}

theorem readVars_finite (g : FlowGraph) : (readVars g).Finite := by
  let listed := g.method.body.toList.flatMap fun stmt => stmt.uses.toList
  apply listed.finite_toSet.subset
  intro x read
  obtain ⟨p, stmt, found, member⟩ := read
  have within := List.mem_of_getElem? (Array.getElem?_toList.trans found)
  exact List.mem_flatMap.mpr ⟨stmt, within, Std.TreeSet.mem_toList.mpr member⟩

theorem keeps (g : FlowGraph) :
    (analysis g).Keeps g.graph.nodes CompactSet.elements (passed g) (· ⊆ readVars g) := by
  have nothing : (∅ : CompactSet Var).elements ⊆ readVars g := CompactSet.isBot_empty _
  refine ⟨nothing, nothing, fun p _ => nothing, fun left right => Set.union_subset, ?_⟩
  intro p _ input inside x outgoing
  rcases outgoing with reads | ⟨-, live⟩
  · exact ⟨p, reads⟩
  · exact inside live

theorem growsAtMost (built : FlowGraph.ofMethod? m = .ok g) :
    (analysis g).GrowsAtMost g.graph CompactSet.elements (readVars g).ncard := by
  have strict : ∀ left right : Set Var, left ⊆ readVars g → right ⊆ readVars g → left < right →
      left.ncard < right.ncard := by
    intro left right _ inside less
    exact Set.ncard_lt_ncard less ((readVars_finite g).subset inside)
  have bounded : ∀ live : Set Var, live ⊆ readVars g → live.ncard ≤ (readVars g).ncard := by
    intro live inside
    exact Set.ncard_le_ncard inside (readVars_finite g)
  exact (lawful built).growsAtMost_of_rank (FlowGraph.wellFormed built) (keeps g) strict bounded

theorem exists_settles (built : FlowGraph.ofMethod? m = .ok g) : ∃ s, (analysis g).Settles g.graph none s := by
  obtain ⟨s, settles, -⟩ := (lawful built).exists_settles (FlowGraph.wellFormed built) (growsAtMost built)
  exact ⟨s, settles⟩

def liveFlow (g : FlowGraph) (p : Point) : Flow (Set Var) :=
  ⟨{x | ∃ q ∈ g.neighbours p .forward, Live g q x}, {x | Live g p x}⟩

private theorem liveFlow_equations (wf : g.graph.WellFormed) :
    Equations (g.graph.orient .backward) (∅ : CompactSet Var).elements (passed g) (liveFlow g) := by
  constructor
  · intro p _
    exact CompactSet.isBot_empty _
  · intro q p edge x live
    exact ⟨q, (wf.transposed p q).mpr edge, live⟩
  · intro p _
    ext x
    constructor
    · intro live
      cases live_iff_readAhead.mp live with
      | here reads => exact Or.inl reads
      | later kept step ahead => exact Or.inr ⟨kept, _, step, live_iff_readAhead.mpr ahead⟩
    · intro live
      rcases live with reads | ⟨kept, q, step, live⟩
      · exact live_iff_readAhead.mpr (.here reads)
      · exact live_iff_readAhead.mpr (.later kept step (live_iff_readAhead.mp live))

/-- Every solution of the equations has the variables that are read ahead. -/
theorem mem_of_readAhead {facts : Point → Flow (Set Var)} (wf : g.graph.WellFormed)
    (equations : Equations (g.graph.orient .backward) (∅ : CompactSet Var).elements (passed g) facts)
    (member : p ∈ g.graph.nodes) (ahead : ReadAhead g x p) : x ∈ (facts p).outgoing := by
  induction ahead with
  | @here p reads =>
    rw [equations.passed p member]
    exact Or.inl reads
  | @later p q kept step ahead ih =>
    have found := ih (wf.target p q step)
    rw [equations.passed p member]
    exact Or.inr ⟨kept, equations.received q p ((wf.transposed p q).mp step) found⟩

theorem facts_eq_liveFlow (built : FlowGraph.ofMethod? m = .ok g) {limit : Option Nat}
    {s : Solution Point (CompactSet Var)} (settles : (analysis g).Settles g.graph limit s)
    (member : p ∈ g.graph.nodes) : (s.facts ∅ p).map CompactSet.elements = liveFlow g p := by
  have wf := FlowGraph.wellFormed built
  have least := settles.facts_least wf (lawful built) CompactSet.isBot_empty (fun p _ => passed_mono g p)
    (fun _ _ => CompactSet.isBot_empty)
  have below := least.least (liveFlow g) (liveFlow_equations wf) p member
  have above {q : Point} (inside : q ∈ g.graph.nodes) {x : Var} (live : Live g q x) :
      x ∈ (s.facts ∅ q).outgoing.elements :=
    mem_of_readAhead wf least.itself inside (live_iff_readAhead.mp live)
  have incoming : (s.facts ∅ p).incoming.elements = (liveFlow g p).incoming := by
    apply Set.Subset.antisymm below.1
    intro x live
    obtain ⟨q, step, live⟩ := live
    exact least.itself.received q p ((wf.transposed p q).mp step) (above (wf.target p q step) live)
  have outgoing : (s.facts ∅ p).outgoing.elements = (liveFlow g p).outgoing :=
    Set.Subset.antisymm below.2 fun x live => above member live
  rw [Flow.map, incoming, outgoing]

/-- Live variables are exact: a variable is live before a statement if and only if it may be
read on some path from there before it is written, and after a statement if and only if it
is live before a statement that may come next. -/
theorem live_exact (built : FlowGraph.ofMethod? m = .ok g) :
    (∃ s, (analysis g).Settles g.graph none s) ∧ ∀ limit s, (analysis g).Settles g.graph limit s →
      ∀ p, g.contains p = true → ∃ live after, s.inFact? p = some live ∧ s.outFact? p = some after ∧
        (∀ x, live.contains x = true ↔ Live g p x) ∧
        (∀ x, after.contains x = true ↔ ∃ q ∈ g.neighbours p .forward, ∃ next, s.inFact? q = some next ∧
          next.contains x = true) := by
  refine ⟨exists_settles built, ?_⟩
  intro limit s settles p inside
  have wf := FlowGraph.wellFormed built
  have told {q : Point} (member : q ∈ g.graph.nodes) : s.Holds .backward q (s.facts ∅ q) :=
    settles.facts_hold wf member
  have exact {q : Point} (member : q ∈ g.graph.nodes) (x : Var) :
      (s.facts ∅ q).outgoing.contains x = true ↔ Live g q x := by
    have same := congrArg Flow.outgoing (facts_eq_liveFlow built settles member)
    exact Set.ext_iff.mp same x
  have member := (FlowGraph.mem_nodes built).mpr inside
  refine ⟨_, _, (told member).1, (told member).2, exact member, ?_⟩
  intro x
  have same := congrArg Flow.incoming (facts_eq_liveFlow built settles member)
  refine (Set.ext_iff.mp same x).trans ?_
  constructor
  · intro live
    obtain ⟨q, step, live⟩ := live
    have target := wf.target p q step
    exact ⟨q, step, _, (told target).1, (exact target x).mpr live⟩
  · intro later
    obtain ⟨q, step, next, given, contains⟩ := later
    have target := wf.target p q step
    obtain rfl := Option.some.inj ((told target).1.symm.trans given)
    exact ⟨q, step, (exact target x).mp contains⟩

theorem countUp_reads (reads : (FlowGraph.ofBody countUp).Reads p x) : x = .int "i" ∨ x = .int "n" := by
  obtain ⟨stmt, found, read⟩ := reads
  have listed : stmt ∈ countUp.body := Array.mem_of_getElem? found
  simp only [countUp, List.mem_toArray, List.mem_cons, List.not_mem_nil, or_false] at listed
  rcases listed with rfl | rfl | rfl | rfl | rfl <;> simp [Stmt.uses, Expr.mem_uses, Expr.occurrences] at read
  · exact read
  · exact Or.inl read

/-- The counter and the parameter are live at the head of the loop, and only the parameter is where
the counter has not been set. -/
theorem countUp_live : ∃ s begun live after, (analysis (.ofBody countUp)).Settles (FlowGraph.ofBody countUp).graph none s ∧
    s.inFact? .entry = some begun ∧ s.inFact? ⟨1, by decide⟩ = some live ∧ s.outFact? ⟨1, by decide⟩ = some after ∧
    (∀ x, begun.contains x = true ↔ x = .int "n") ∧
    (∀ x, live.contains x = true ↔ x = .int "i" ∨ x = .int "n") ∧
    (∀ x, live.contains x = true ↔ Live (.ofBody countUp) ⟨1, by decide⟩ x) ∧
    (∀ x, after.contains x = true ↔ ∃ q ∈ (FlowGraph.ofBody countUp).neighbours ⟨1, by decide⟩ .forward, ∃ next,
      s.inFact? q = some next ∧ next.contains x = true) := by
  obtain ⟨⟨s, settles⟩, exact⟩ := live_exact countUp_graph
  obtain ⟨begun, _, entering, -, beginning, -⟩ := exact none s settles .entry rfl
  obtain ⟨live, after, into, out, here, later⟩ := exact none s settles ⟨1, by decide⟩ rfl
  have read {p : Point} {x : Var} (live : Live (.ofBody countUp) p x) : x = .int "i" ∨ x = .int "n" := by
    obtain ⟨_, last, -, -, reads, -⟩ := live
    exact countUp_reads reads
  have first : (FlowGraph.ofBody countUp).stmt? .entry = some (.assign (.int "i") (.literal 0)) := rfl
  have head : (FlowGraph.ofBody countUp).stmt? ⟨1, by decide⟩ =
    some (.branch (.binary (.comparison .ge) (.var (.int "i")) (.var (.int "n"))) ⟨4, by decide⟩) := rfl
  have sets (x : Var) : (FlowGraph.ofBody countUp).Writes .entry x ↔ x = .int "i" := by
    simp [FlowGraph.Writes, first, Stmt.def?, eq_comm]
  have tested {x : Var} (operand : x = .int "i" ∨ x = .int "n") : ReadAhead (.ofBody countUp) x ⟨1, by decide⟩ := by
    apply ReadAhead.here
    simpa [FlowGraph.Reads, head, Stmt.uses, Expr.mem_uses, Expr.occurrences] using operand
  refine ⟨s, begun, live, after, settles, entering, into, out, fun x => ?_, fun x => ?_, here, later⟩
  · rw [beginning, live_iff_readAhead]
    constructor
    · intro ahead
      refine (read (live_iff_readAhead.mpr ahead)).resolve_left ?_
      cases ahead with
      | here reads => simp [FlowGraph.Reads, first, Stmt.uses, Expr.mem_uses, Expr.occurrences] at reads
      | later kept => exact fun same => kept ((sets x).mpr same)
    · rintro rfl
      refine .later ?_ (by decide) (tested (Or.inr rfl))
      rw [sets]
      decide
  · rw [here, live_iff_readAhead]
    exact ⟨fun ahead => read (live_iff_readAhead.mpr ahead), tested⟩

end Liveness

end Dataflow
