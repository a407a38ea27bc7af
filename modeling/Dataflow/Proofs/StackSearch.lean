import Mathlib.Data.List.Nodup
import Dataflow.Graph.Search
import Dataflow.Proofs.GraphWalk

/-! What a depth-first search with a stack finds. Everything that a listed node leads to is marked
or still on the stack, so where the marks it began with are closed under the edges, a search misses
nothing but them. -/

namespace Dataflow

variable {ν : Type} [Ord ν]

namespace Search

variable {next : Adjacency ν} {s after : Search ν} {n m : ν} {stack : List ν}

def visit (next : Adjacency ν) (s : Search ν) (n : ν) (stack : List ν) : Search ν :=
  ⟨((next.next n).filter fun m => !(s.marked.insert n).contains m).reverse ++ stack, s.marked.insert n, n :: s.found⟩

theorem step?_eq_some (moved : s.step? next = some after) : ∃ n stack, s.stack = n :: stack ∧
    (n ∈ s.marked ∧ after = { s with stack } ∨ n ∉ s.marked ∧ after = s.visit next n stack) := by
  unfold step? at moved
  split at moved
  next => cases moved
  next n stack taken =>
    refine ⟨n, stack, taken, ?_⟩
    simp only [Std.TreeSet.contains_iff_mem] at moved
    split at moved
    next marked => exact Or.inl ⟨marked, (Option.some.inj moved).symm⟩
    next fresh => exact Or.inr ⟨fresh, (Option.some.inj moved).symm⟩

theorem step?_eq_none (ended : s.step? next = none) : s.stack = [] := by
  unfold step? at ended
  split at ended
  next empty => exact empty
  next => split at ended <;> cases ended

def effort (next : Adjacency ν) (s : Search ν) : Nat := s.stack.length + next.edgesOutside s.marked

/-- What the search has found, and what it still has to look at. Everything comes from the start,
and what a listed node leads to is not forgotten. -/
structure Explores (next : Adjacency ν) (before : Std.TreeSet ν) (start : ν) (s : Search ν) : Prop where
  marked : ∀ n, n ∈ s.marked ↔ n ∈ before ∨ n ∈ s.found
  fresh : ∀ n ∈ s.found, n ∉ before
  single : s.found.Nodup
  reached : ∀ n, n ∈ s.stack ∨ n ∈ s.found → next.Reaches start n
  begun : start ∈ s.stack ∨ start ∈ s.marked
  onward : ∀ n ∈ s.found, ∀ m ∈ next.next n, m ∈ s.stack ∨ m ∈ s.marked

variable {before : Std.TreeSet ν} {start : ν}

private theorem Explores.begin (next : Adjacency ν) (before : Std.TreeSet ν) (start : ν) :
    (⟨[start], before, []⟩ : Search ν).Explores next before start := by
  refine ⟨fun n => (or_iff_left List.not_mem_nil).symm, nofun, List.nodup_nil, ?_, Or.inl List.mem_cons_self, nofun⟩
  rintro n (waits | found)
  · rw [List.mem_singleton.mp waits]
    exact .refl
  · cases found

/-- A marked node can be left out, since nothing is lost that is not on the stack. -/
theorem Explores.skip (explores : s.Explores next before start) (taken : s.stack = n :: stack) (marked : n ∈ s.marked) :
    ({ s with stack } : Search ν).Explores next before start := by
  have keep {m : ν} (kept : m ∈ s.stack ∨ m ∈ s.marked) : m ∈ stack ∨ m ∈ s.marked := by
    rw [taken, List.mem_cons] at kept
    rcases kept with (rfl | waits) | known
    · exact Or.inr marked
    · exact Or.inl waits
    · exact Or.inr known
  refine ⟨explores.marked, explores.fresh, explores.single, ?_, keep explores.begun,
    fun k found m edge => keep (explores.onward k found m edge)⟩
  intro m known
  refine explores.reached m (known.imp_left fun waits => ?_)
  rw [taken]
  exact List.mem_cons_of_mem n waits

variable [Std.TransOrd ν] [Std.LawfulEqOrd ν]

private theorem mem_marked_visit : m ∈ (s.visit next n stack).marked ↔ m = n ∨ m ∈ s.marked := mem_insert_iff

omit [Std.TransOrd ν] [Std.LawfulEqOrd ν] in
private theorem mem_stack_visit : m ∈ (s.visit next n stack).stack ↔
    m ∈ next.next n ∧ m ∉ (s.visit next n stack).marked ∨ m ∈ stack := by
  simp only [visit, List.mem_append, List.mem_reverse, List.mem_filter, Bool.not_eq_true', ← Bool.not_eq_true,
    Std.TreeSet.contains_iff_mem]

/-- A visited node is one more found. Its neighbours are marked already or wait from now on. -/
theorem Explores.visit (explores : s.Explores next before start) (taken : s.stack = n :: stack) (fresh : n ∉ s.marked) :
    (s.visit next n stack).Explores next before start := by
  have new := fresh
  rw [explores.marked, not_or] at new
  have leads : next.Reaches start n := by
    apply explores.reached n
    rw [taken]
    exact Or.inl List.mem_cons_self
  have keep {m : ν} (kept : m ∈ s.stack ∨ m ∈ s.marked) :
      m ∈ (s.visit next n stack).stack ∨ m ∈ (s.visit next n stack).marked := by
    rw [mem_stack_visit, mem_marked_visit]
    rw [taken, List.mem_cons] at kept
    tauto
  refine ⟨?_, ?_, List.nodup_cons.mpr ⟨new.2, explores.single⟩, ?_, keep explores.begun, ?_⟩
  · intro m
    rw [mem_marked_visit, explores.marked, or_left_comm]
    exact or_congr_right List.mem_cons.symm
  · intro m found
    rcases List.mem_cons.mp found with rfl | earlier
    · exact new.1
    · exact explores.fresh m earlier
  · rintro m (waits | found)
    · rcases mem_stack_visit.mp waits with ⟨edge, -⟩ | waits
      · exact leads.tail edge
      · apply explores.reached m
        rw [taken]
        exact Or.inl (List.mem_cons_of_mem n waits)
    · rcases List.mem_cons.mp found with rfl | earlier
      · exact leads
      · exact explores.reached m (Or.inr earlier)
  · intro k found m edge
    rcases List.mem_cons.mp found with rfl | earlier
    · by_cases marked : m ∈ (s.visit next k stack).marked
      · exact Or.inr marked
      · exact Or.inl (mem_stack_visit.mpr (Or.inl ⟨edge, marked⟩))
    · exact keep (explores.onward k earlier m edge)

theorem Explores.step? (explores : s.Explores next before start) (moved : s.step? next = some after) :
    after.Explores next before start := by
  obtain ⟨n, stack, taken, ⟨marked, rfl⟩ | ⟨fresh, rfl⟩⟩ := step?_eq_some moved
  · exact explores.skip taken marked
  · exact explores.visit taken fresh

private theorem effort_step? (moved : s.step? next = some after) : after.effort next < s.effort next := by
  obtain ⟨n, stack, taken, ⟨-, rfl⟩ | ⟨fresh, rfl⟩⟩ := step?_eq_some moved
  · simp only [effort, taken, List.length_cons]
    omega
  · have outside := next.edgesOutside_insert fresh
    have pushed : ((next.next n).filter fun m => !(s.marked.insert n).contains m).length ≤ (next.next n).length :=
      List.length_filter_le _ _
    simp only [effort, visit, taken, List.length_cons, List.length_append, List.length_reverse]
    omega

/-- With as many steps as its effort, a search goes on until nothing is left on its stack. -/
theorem Explores.run (explores : s.Explores next before start) {steps : Nat} (enough : s.effort next ≤ steps) :
    (s.run next steps).Explores next before start ∧ (s.run next steps).stack = [] := by
  induction steps generalizing s with
  | zero =>
    have none : s.stack.length = 0 := by
      rw [effort] at enough
      omega
    exact ⟨explores, List.length_eq_zero_iff.mp none⟩
  | succ steps ih =>
    rw [Search.run]
    split
    next after moved =>
      have less := effort_step? moved
      exact ih (explores.step? moved) (by omega)
    next ended => exact ⟨explores, step?_eq_none ended⟩

end Search

namespace Adjacency

def Closed (next : Adjacency ν) (marked : Std.TreeSet ν) : Prop := ∀ n ∈ marked, ∀ m ∈ next.next n, m ∈ marked

variable {next : Adjacency ν} {marked : Std.TreeSet ν} {n m : ν}

private theorem edgesOutside_le (next : Adjacency ν) (marked : Std.TreeSet ν) :
    next.edgesOutside marked ≤ next.edgeCount := by
  rw [edgeCount_eq, edgesOutside, edgesOutside]
  apply List.sum_le_sum
  intro entry _
  rw [Std.TreeSet.contains_emptyc]
  cases marked.contains entry.1 <;> simp

/-- Where the marks are cleared, every search is one of its own. -/
theorem searches_fresh (next : Adjacency ν) (marked : Std.TreeSet ν) (starts : List ν) :
    next.searches true marked starts = starts.map fun start => (next.search ∅ start).found.reverse := by
  induction starts generalizing marked with
  | nil => rfl
  | cons start starts ih =>
    rw [searches, ih]
    rfl

theorem closed_empty (next : Adjacency ν) : next.Closed ∅ := fun _ member => absurd member Std.TreeSet.not_mem_emptyc

private theorem Closed.reaches (closed : next.Closed marked) (member : n ∈ marked) (leads : next.Reaches n m) :
    m ∈ marked := by
  induction leads with
  | refl => exact member
  | tail _ edge ih => exact closed _ ih _ edge

variable [Std.TransOrd ν] [Std.LawfulEqOrd ν]

/-- A search comes to an end. Where the marks it begins with are closed under the edges, it finds
what its start leads to and they do not have, each node once, and closes its marks again. -/
theorem Closed.search (closed : next.Closed marked) (start : ν) :
    (next.search marked start).stack = [] ∧ (next.search marked start).found.Nodup ∧
      (∀ n, n ∈ (next.search marked start).found ↔ next.Reaches start n ∧ n ∉ marked) ∧
      (∀ n, n ∈ (next.search marked start).marked ↔ n ∈ marked ∨ n ∈ (next.search marked start).found) ∧
      next.Closed (next.search marked start).marked := by
  have enough : Search.effort next ⟨[start], marked, []⟩ ≤ next.edgeCount + 1 := by
    have outside := next.edgesOutside_le marked
    dsimp only [Search.effort, List.length_singleton]
    omega
  obtain ⟨explores, done⟩ := (Search.Explores.begin next marked start).run enough
  change (next.search marked start).Explores next marked start at explores
  change (next.search marked start).stack = [] at done
  have shut : next.Closed (next.search marked start).marked := by
    intro n known m edge
    rcases (explores.marked n).mp known with old | found
    · exact (explores.marked m).mpr (Or.inl (closed n old m edge))
    · refine (explores.onward n found m edge).resolve_left ?_
      rw [done]
      exact List.not_mem_nil
  refine ⟨done, explores.single, ?_, explores.marked, shut⟩
  intro n
  constructor
  · intro found
    exact ⟨explores.reached n (Or.inr found), explores.fresh n found⟩
  · rintro ⟨leads, fresh⟩
    have begun : start ∈ (next.search marked start).marked := by
      refine explores.begun.resolve_left ?_
      rw [done]
      exact List.not_mem_nil
    exact ((explores.marked n).mp (shut.reaches begun leads)).resolve_left fresh

/-- Of searches that share their marks, each finds what its start leads to and none before it has
found. -/
theorem Closed.searches (closed : next.Closed marked) (starts : List ν) :
    (next.searches false marked starts).length = starts.length ∧
      ∀ earlier start found later, starts.zip (next.searches false marked starts) = earlier ++ (start, found) :: later →
        found.Nodup ∧ ∀ n, n ∈ found ↔ next.Reaches start n ∧ n ∉ marked ∧ n ∉ earlier.flatMap Prod.snd := by
  induction starts generalizing marked with
  | nil =>
    refine ⟨rfl, ?_⟩
    intro earlier start found later split
    cases (List.append_eq_nil_iff.mp split.symm).2
  | cons first starts ih =>
    obtain ⟨-, single, finds, known, shut⟩ := closed.search first
    obtain ⟨length, others⟩ := ih shut
    refine ⟨congrArg (· + 1) length, ?_⟩
    intro earlier start found later split
    rw [Adjacency.searches, List.zip_cons_cons] at split
    cases earlier with
    | nil =>
      obtain ⟨same, -⟩ := List.cons.inj split
      obtain ⟨rfl, rfl⟩ := Prod.mk.inj same
      refine ⟨List.nodup_reverse.mpr single, ?_⟩
      intro n
      rw [List.mem_reverse, List.flatMap_nil]
      simp only [finds, List.not_mem_nil, not_false_iff, and_true, Bool.false_eq_true, if_false]
    | cons entry earlier =>
      obtain ⟨rfl, rest⟩ := List.cons.inj split
      obtain ⟨once, each⟩ := others earlier start found later rest
      refine ⟨once, ?_⟩
      intro n
      rw [each, known, List.flatMap_cons, List.mem_append, List.mem_reverse, not_or, not_or, and_assoc]
      rfl

end Adjacency

end Dataflow
