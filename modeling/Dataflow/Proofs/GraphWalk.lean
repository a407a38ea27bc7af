import Mathlib.Logic.Relation
import Dataflow.Proofs.GraphOrder

/-! The order in which a walk lists the nodes it reaches. The frames of a walk form a path down to
the node it stands at, so a neighbour that has been seen is finished or leads back; a node is
finished only when all its neighbours have been seen. -/

namespace Dataflow

variable {ν : Type} [Ord ν]

namespace Adjacency

/-- Edges lead from one node to another. Every node reaches itself. -/
def Reaches (next : Adjacency ν) : ν → ν → Prop := Relation.ReflTransGen fun m n => n ∈ next.next m

def edgesOutside (next : Adjacency ν) (seen : Std.TreeSet ν) : Nat :=
  (next.targets.toList.map fun entry => if seen.contains entry.1 then 0 else entry.2.length).sum

theorem edgeCount_eq (next : Adjacency ν) : next.edgeCount = next.edgesOutside ∅ := by
  rw [edgeCount, edgesOutside, Std.TreeMap.foldl_eq_foldl_toList, List.sum_eq_foldl, List.foldl_map]
  simp

theorem edgesOutside_insert [Std.TransOrd ν] [Std.LawfulEqOrd ν] (next : Adjacency ν) {seen : Std.TreeSet ν} {n : ν}
    (fresh : n ∉ seen) : next.edgesOutside (seen.insert n) + (next.next n).length ≤ next.edgesOutside seen := by
  have le (entry : ν × List ν) : (if (seen.insert n).contains entry.1 then 0 else entry.2.length) ≤
      if seen.contains entry.1 then 0 else entry.2.length := by
    rw [Std.TreeSet.contains_insert]
    cases seen.contains entry.1 <;> cases compare n entry.1 == .eq <;> simp
  cases found : next.targets[n]? with
  | none =>
    have last : next.next n = [] := by rw [Adjacency.next, Std.TreeMap.getD_eq_getD_getElem?, found, Option.getD_none]
    rw [last]
    exact List.sum_le_sum fun entry _ => le entry
  | some targets =>
    have here : next.next n = targets := by
      rw [Adjacency.next, Std.TreeMap.getD_eq_getD_getElem?, found, Option.getD_some]
    have member : (n, targets) ∈ next.targets.toList := Std.TreeMap.mem_toList_iff_getElem?_eq_some.mpr found
    rw [here]
    apply sum_map_add_le member (fun entry _ => le entry)
    rw [if_pos (by rw [Std.TreeSet.contains_iff_mem]; exact Std.TreeSet.mem_insert_self), if_neg, Nat.zero_add]
    rw [Std.TreeSet.contains_iff_mem]
    exact fresh

end Adjacency

namespace PostOrderWalk

variable {next : Adjacency ν} {w after advanced : PostOrderWalk ν} {n m : ν}

/-- A walk looks at a node: the next neighbour of the innermost frame or, if there are no frames,
the next start. -/
inductive Looks (w : PostOrderWalk ν) (m : ν) : PostOrderWalk ν → Prop where
  | child {n : ν} {rest : List ν} {frames : List (ν × List ν)} (opened : w.frames = (n, m :: rest) :: frames) :
      Looks w m { w with frames := (n, rest) :: frames }
  | start {starts : List ν} (idle : w.frames = []) (listed : w.starts = m :: starts) : Looks w m { w with starts }

private theorem Looks.seen (looks : w.Looks m advanced) : advanced.seen = w.seen := by
  cases looks <;> rfl

theorem step?_eq_some (moved : w.step? next = some after) :
    (∃ m advanced, w.Looks m advanced ∧ (m ∈ w.seen ∧ after = advanced ∨ m ∉ w.seen ∧ after = advanced.enter next m)) ∨
      ∃ n frames, w.frames = (n, []) :: frames ∧ after = { w with frames, finished := n :: w.finished } := by
  have look {m : ν} {advanced : PostOrderWalk ν} (looks : w.Looks m advanced)
      (entered : (if w.seen.contains m then advanced else advanced.enter next m) = after) :
      ∃ m advanced, w.Looks m advanced ∧
        (m ∈ w.seen ∧ after = advanced ∨ m ∉ w.seen ∧ after = advanced.enter next m) := by
    refine ⟨m, advanced, looks, ?_⟩
    simp only [Std.TreeSet.contains_iff_mem] at entered
    split at entered
    next seen => exact Or.inl ⟨seen, entered.symm⟩
    next fresh => exact Or.inr ⟨fresh, entered.symm⟩
  unfold step? at moved
  split at moved
  next n m rest frames opened => exact Or.inl (look (.child opened) (Option.some.inj moved))
  next n frames opened => exact Or.inr ⟨n, frames, opened, (Option.some.inj moved).symm⟩
  next idle =>
    split at moved
    next s starts listed => exact Or.inl (look (.start idle listed) (Option.some.inj moved))
    next => cases moved

theorem step?_eq_none (ended : w.step? next = none) : w.frames = [] ∧ w.starts = [] := by
  unfold step? at ended
  split at ended
  next => cases ended
  next => cases ended
  next idle =>
    split at ended
    next => cases ended
    next listed => exact ⟨idle, listed⟩

section Termination

/-- A bound on the number of steps a walk still takes: every node to be looked at counts twice,
since it may open a frame that has to be closed. -/
def effort (next : Adjacency ν) (w : PostOrderWalk ν) : Nat :=
  2 * w.starts.length + (w.frames.map fun frame => 2 * frame.2.length + 1).sum + 2 * next.edgesOutside w.seen

private theorem Looks.effort_lt (looks : w.Looks m advanced) : advanced.effort next + 2 ≤ w.effort next := by
  cases looks with
  | child opened =>
    simp only [effort, opened, List.map_cons, List.sum_cons, List.length_cons]
    omega
  | start idle listed =>
    simp only [effort, listed, List.length_cons]
    omega

variable [Std.TransOrd ν] [Std.LawfulEqOrd ν]

private theorem effort_enter (fresh : m ∉ w.seen) : (w.enter next m).effort next ≤ w.effort next + 1 := by
  have outside := next.edgesOutside_insert fresh
  simp only [effort, enter, List.map_cons, List.sum_cons]
  omega

private theorem effort_step? (moved : w.step? next = some after) : after.effort next < w.effort next := by
  obtain ⟨m, advanced, looks, entered⟩ | ⟨n, frames, opened, rfl⟩ := step?_eq_some moved
  · have less : advanced.effort next + 2 ≤ w.effort next := looks.effort_lt
    rcases entered with ⟨-, rfl⟩ | ⟨fresh, rfl⟩
    · omega
    · rw [← looks.seen] at fresh
      have more : (advanced.enter next m).effort next ≤ advanced.effort next + 1 := effort_enter fresh
      omega
  · simp only [effort, opened, List.map_cons, List.sum_cons, List.length_nil]
    omega

/-- A walk comes to an end within as many steps as its effort, and more change nothing. -/
theorem exists_last (next : Adjacency ν) (w : PostOrderWalk ν) :
    ∃ last, last.step? next = none ∧ ∀ steps, w.effort next ≤ steps → w.run next steps = last := by
  induction bound : w.effort next using Nat.strongRecOn generalizing w with
  | ind effort ih =>
    cases moved : w.step? next with
    | none =>
      refine ⟨w, moved, ?_⟩
      intro steps _
      cases steps with
      | zero => rfl
      | succ steps => simp only [run, moved]
    | some after =>
      have less := effort_step? moved
      obtain ⟨last, ended, comes⟩ := ih (after.effort next) (bound ▸ less) after rfl
      refine ⟨last, ended, ?_⟩
      intro steps enough
      obtain ⟨fewer, rfl⟩ : ∃ fewer, steps = fewer + 1 := Nat.exists_eq_add_one.mpr (by omega)
      simp only [run, moved]
      exact comes fewer (by omega)

end Termination

/-- Nothing is passed over: every start and every neighbour of a node with an open frame has been
met or is still to be looked at. -/
structure Thorough (next : Adjacency ν) (starts : List ν) (met : ν → Prop) (w : PostOrderWalk ν) : Prop where
  starts : ∀ s ∈ starts, s ∈ w.starts ∨ met s
  children : ∀ frame ∈ w.frames, ∀ m ∈ next.next frame.1, m ∈ frame.2 ∨ met m

/-- Edges lead from every node with an open frame to the ones inside it. The neighbours of a
finished node have been seen, and each of them finished before the node unless it leads back. -/
structure Sorted (next : Adjacency ν) (w : PostOrderWalk ν) : Prop where
  seen : ∀ n, n ∈ w.seen ↔ n ∈ w.frames.map Prod.fst ∨ n ∈ w.finished
  single : (w.frames.map Prod.fst ++ w.finished).Nodup
  children : ∀ frame ∈ w.frames, ∀ m ∈ frame.2, m ∈ next.next frame.1
  path : (w.frames.map Prod.fst).Pairwise fun inner outer => next.Reaches outer inner
  finished : ∀ n before, n :: before <:+ w.finished → ∀ m ∈ next.next n, m ∈ w.seen ∧ (m ∈ before ∨ next.Reaches m n)

variable {starts : List ν} {met more : ν → Prop}

private theorem Thorough.mono (thorough : w.Thorough next starts met) (le : ∀ n, met n → more n) :
    w.Thorough next starts more :=
  ⟨fun s listed => (thorough.starts s listed).imp_right (le s),
    fun frame opened m edge => (thorough.children frame opened m edge).imp_right (le m)⟩

private theorem Thorough.look (thorough : w.Thorough next starts met) (looks : w.Looks m advanced) :
    advanced.Thorough next starts fun n => met n ∨ n = m := by
  cases looks with
  | @child n rest frames opened =>
    refine ⟨fun s listed => (thorough.starts s listed).imp_right Or.inl, ?_⟩
    intro frame member k edge
    rcases List.mem_cons.mp member with rfl | outer
    · have inner : (n, m :: rest) ∈ w.frames := by
        rw [opened]
        exact List.mem_cons_self
      rcases thorough.children _ inner k edge with ahead | known
      · rcases List.mem_cons.mp ahead with same | later
        · exact Or.inr (Or.inr same)
        · exact Or.inl later
      · exact Or.inr (Or.inl known)
    · exact (thorough.children frame (by rw [opened]; exact List.mem_cons_of_mem _ outer) k edge).imp_right Or.inl
  | start idle listed =>
    refine ⟨?_, fun frame opened k edge => (thorough.children frame opened k edge).imp_right Or.inl⟩
    intro s member
    rcases thorough.starts s member with ahead | known
    · rw [listed] at ahead
      rcases List.mem_cons.mp ahead with same | later
      · exact Or.inr (Or.inr same)
      · exact Or.inl later
    · exact Or.inr (Or.inl known)

private theorem Thorough.enter (thorough : w.Thorough next starts met) (n : ν) :
    (w.enter next n).Thorough next starts met := by
  refine ⟨thorough.starts, ?_⟩
  intro frame opened m edge
  rcases List.mem_cons.mp opened with rfl | old
  · exact Or.inl edge
  · exact thorough.children frame old m edge

variable [Std.TransOrd ν] [Std.LawfulEqOrd ν]

private theorem mem_seen_enter : m ∈ (w.enter next n).seen ↔ m = n ∨ m ∈ w.seen := mem_insert_iff

theorem Thorough.step? (thorough : w.Thorough next starts (· ∈ w.seen)) (moved : w.step? next = some after) :
    after.Thorough next starts (· ∈ after.seen) := by
  obtain ⟨m, advanced, looks, entered⟩ | ⟨n, frames, opened, rfl⟩ := step?_eq_some moved
  · have looked := thorough.look looks
    rcases entered with ⟨seen, rfl⟩ | ⟨-, rfl⟩
    · apply looked.mono
      rw [looks.seen]
      rintro n (known | rfl)
      · exact known
      · exact seen
    · apply (looked.enter m).mono
      rintro n (known | rfl)
      · rw [mem_seen_enter, looks.seen]
        exact Or.inr known
      · exact mem_seen_enter.mpr (Or.inl rfl)
  · refine ⟨thorough.starts, fun frame outer => thorough.children frame ?_⟩
    rw [opened]
    exact List.mem_cons_of_mem _ outer

private theorem Sorted.enter (sorted : w.Sorted next) (fresh : m ∉ w.seen)
    (leads : ∀ n ∈ w.frames.map Prod.fst, next.Reaches n m) : (w.enter next m).Sorted next := by
  have new := fresh
  rw [sorted.seen, ← List.mem_append] at new
  refine ⟨?_, List.nodup_cons.mpr ⟨new, sorted.single⟩, ?_, List.pairwise_cons.mpr ⟨leads, sorted.path⟩, ?_⟩
  · intro n
    rw [mem_seen_enter, sorted.seen, ← or_assoc]
    exact or_congr_left List.mem_cons.symm
  · intro frame opened k ahead
    rcases List.mem_cons.mp opened with rfl | old
    · exact ahead
    · exact sorted.children frame old k ahead
  · intro n before done k edge
    obtain ⟨seen, order⟩ := sorted.finished n before done k edge
    exact ⟨mem_seen_enter.mpr (Or.inr seen), order⟩

omit [Std.TransOrd ν] [Std.LawfulEqOrd ν] in
/-- Every node with an open frame leads to the node that is looked at. -/
theorem Sorted.look (sorted : w.Sorted next) (looks : w.Looks m advanced) :
    advanced.Sorted next ∧ ∀ n ∈ advanced.frames.map Prod.fst, next.Reaches n m := by
  cases looks with
  | @child n rest frames opened =>
    have nodes : ((n, rest) :: frames).map Prod.fst = w.frames.map Prod.fst := by rw [opened]; rfl
    have inner : (n, m :: rest) ∈ w.frames := by
      rw [opened]
      exact List.mem_cons_self
    have edge : m ∈ next.next n := sorted.children _ inner m List.mem_cons_self
    have path := sorted.path
    refine ⟨⟨?_, ?_, ?_, ?_, sorted.finished⟩, ?_⟩
    · rw [nodes]
      exact sorted.seen
    · rw [nodes]
      exact sorted.single
    · intro frame member k ahead
      rcases List.mem_cons.mp member with rfl | outer
      · exact sorted.children _ inner k (List.mem_cons_of_mem m ahead)
      · exact sorted.children frame (by rw [opened]; exact List.mem_cons_of_mem _ outer) k ahead
    · rw [nodes]
      exact path
    · rw [opened, List.map_cons, List.pairwise_cons] at path
      intro k open'
      rcases List.mem_cons.mp open' with rfl | outer
      · exact .single edge
      · exact (path.1 k outer).tail edge
  | start idle listed =>
    refine ⟨⟨sorted.seen, sorted.single, sorted.children, sorted.path, sorted.finished⟩, ?_⟩
    intro n open'
    simp only [idle] at open'
    cases open'

omit [Std.TransOrd ν] [Std.LawfulEqOrd ν] in
/-- A node is finished when nothing is left to look at in its frame. What has been seen of its
neighbours is finished already or is a node of the path that leads to it. -/
theorem Sorted.close (sorted : w.Sorted next) (thorough : w.Thorough next starts (· ∈ w.seen)) {n : ν}
    {frames : List (ν × List ν)} (opened : w.frames = (n, []) :: frames) :
    ({ w with frames, finished := n :: w.finished } : PostOrderWalk ν).Sorted next := by
  obtain ⟨known, single, children, path, finished⟩ := sorted
  rw [opened, List.map_cons] at known single path
  rw [opened] at children
  rw [List.pairwise_cons] at path
  refine ⟨?_, ?_, fun frame outer => children frame (List.mem_cons_of_mem _ outer), path.2, ?_⟩
  · intro m
    simp only [known, List.mem_cons]
    tauto
  · exact List.perm_middle.nodup_iff.mpr single
  · intro m before done k edge
    rcases List.suffix_cons_iff.mp done with same | earlier
    · obtain ⟨rfl, rfl⟩ := List.cons.inj same
      have inner : (m, []) ∈ w.frames := by
        rw [opened]
        exact List.mem_cons_self
      have seen := (thorough.children _ inner k edge).resolve_left List.not_mem_nil
      refine ⟨seen, ?_⟩
      rcases (known k).mp seen with open' | done
      · right
        rcases List.mem_cons.mp open' with rfl | outer
        · exact .refl
        · exact path.1 k outer
      · exact Or.inl done
    · exact finished m before earlier k edge

theorem Sorted.step? (sorted : w.Sorted next) (thorough : w.Thorough next starts (· ∈ w.seen))
    (moved : w.step? next = some after) : after.Sorted next := by
  obtain ⟨m, advanced, looks, entered⟩ | ⟨n, frames, opened, rfl⟩ := step?_eq_some moved
  · obtain ⟨looked, leads⟩ := sorted.look looks
    rcases entered with ⟨-, rfl⟩ | ⟨fresh, rfl⟩
    · exact looked
    · rw [← looks.seen] at fresh
      exact looked.enter fresh leads
  · exact sorted.close thorough opened

theorem Sorted.run (sorted : w.Sorted next) (thorough : w.Thorough next starts (· ∈ w.seen)) (steps : Nat) :
    (w.run next steps).Sorted next ∧ (w.run next steps).Thorough next starts (· ∈ (w.run next steps).seen) := by
  induction steps generalizing w with
  | zero => exact ⟨sorted, thorough⟩
  | succ steps ih =>
    simp only [PostOrderWalk.run]
    split
    next after moved => exact ih (sorted.step? thorough moved) (thorough.step? moved)
    next => exact ⟨sorted, thorough⟩

omit [Std.TransOrd ν] [Std.LawfulEqOrd ν] in
private theorem Sorted.ofStarts (next : Adjacency ν) (starts : List ν) : (ofStarts starts).Sorted next := by
  refine ⟨?_, List.nodup_nil, nofun, .nil, ?_⟩
  · intro n
    exact ⟨fun seen => absurd seen Std.TreeSet.not_mem_emptyc, by rintro (impossible | impossible) <;> cases impossible⟩
  · intro n before done
    cases List.suffix_nil.mp done

end PostOrderWalk

namespace Adjacency

variable [Std.TransOrd ν] [Std.LawfulEqOrd ν]

/-- The walk from some starts comes to an end within twice as many steps as there are starts and
edges. -/
theorem reversePostOrder_last (next : Adjacency ν) (starts : List ν) :
    ∃ last : PostOrderWalk ν, last.step? next = none ∧ last.finished = next.reversePostOrder starts ∧
      ∀ steps, 2 * (starts.length + next.edgeCount) ≤ steps →
        (PostOrderWalk.ofStarts starts).run next steps = last := by
  obtain ⟨last, ended, comes⟩ := (PostOrderWalk.ofStarts starts).exists_last next
  have effort : (PostOrderWalk.ofStarts starts).effort next = 2 * (starts.length + next.edgeCount) := by
    rw [edgeCount_eq, Nat.mul_add]
    rfl
  rw [effort] at comes
  exact ⟨last, ended, by rw [reversePostOrder, comes _ le_rfl], comes⟩

/-- A walk lists the nodes that edges lead to from its starts, each once. A node stands before its
neighbours, other than those that lead back to it. -/
theorem reversePostOrder_sorted (next : Adjacency ν) (starts : List ν) : (next.reversePostOrder starts).Nodup ∧
    (∀ n, n ∈ next.reversePostOrder starts ↔ ∃ s ∈ starts, next.Reaches s n) ∧
    ∀ n later, n :: later <:+ next.reversePostOrder starts → ∀ m ∈ next.next n, m ∈ later ∨ next.Reaches m n := by
  obtain ⟨last, ended, listed, comes⟩ := next.reversePostOrder_last starts
  obtain ⟨closed, done⟩ := PostOrderWalk.step?_eq_none ended
  have begun : (PostOrderWalk.ofStarts starts).Thorough next starts (· ∈ (PostOrderWalk.ofStarts starts).seen) :=
    ⟨fun s member => Or.inl member, nofun⟩
  obtain ⟨sorted, thorough⟩ :=
    (PostOrderWalk.Sorted.ofStarts next starts).run begun (2 * (starts.length + next.edgeCount))
  rw [comes _ le_rfl] at sorted thorough
  have single := sorted.single
  have seen (n : ν) : n ∈ last.seen ↔ n ∈ last.finished := by
    rw [sorted.seen, closed]
    exact or_iff_right List.not_mem_nil
  rw [closed] at single
  rw [← listed]
  refine ⟨single, ?_, fun n before finished m edge => (sorted.finished n before finished m edge).2⟩
  intro n
  constructor
  · intro member
    rw [listed] at member
    apply next.reversePostOrder_within starts (fun n => ∃ s ∈ starts, next.Reaches s n) _ _ n member
    · exact fun s start => ⟨s, start, .refl⟩
    · rintro m k ⟨s, start, leads⟩ edge
      exact ⟨s, start, leads.tail edge⟩
  · rintro ⟨s, start, leads⟩
    -- A path from a start stays among the finished nodes, since all their neighbours have been seen.
    induction leads with
    | refl =>
      rw [← seen]
      refine (thorough.starts s start).resolve_left ?_
      rw [done]
      exact List.not_mem_nil
    | @tail m k leads edge ih =>
      obtain ⟨before, after, split⟩ := List.append_of_mem ih
      rw [← seen]
      exact (sorted.finished m after ⟨before, split.symm⟩ k edge).1

end Adjacency

def OccursFirst {α : Type} (items : List α) (item other : α) : Prop :=
  ∃ before after, items = before ++ item :: after ∧ other ∉ before

section Distinct

variable [Std.TransOrd ν] [Std.LawfulEqOrd ν]

theorem distinctFrom_occursFirst (seen : Std.TreeSet ν) (nodes : List ν) :
    (distinctFrom seen [] nodes).Pairwise (OccursFirst nodes) := by
  have skip {first m n : ν} {rest : List ν} (different : n ≠ first) (occurs : OccursFirst rest m n) :
      OccursFirst (first :: rest) m n := by
    obtain ⟨before, after, rfl, absent⟩ := occurs
    refine ⟨first :: before, after, rfl, ?_⟩
    rw [List.mem_cons, not_or]
    exact ⟨different, absent⟩
  induction nodes generalizing seen with
  | nil => exact .nil
  | cons first rest ih =>
    simp only [distinctFrom]
    split
    next marked =>
      rw [Std.TreeSet.contains_iff_mem] at marked
      refine (ih seen).imp_of_mem ?_
      intro m n _ member occurs
      apply skip _ occurs
      rintro rfl
      rcases (mem_distinctFrom _ _ _ _).mp member with impossible | ⟨-, fresh⟩
      · cases impossible
      · exact fresh marked
    next =>
      rw [distinctFrom_eq, List.reverse_singleton, List.singleton_append, List.pairwise_cons]
      constructor
      · intro n _
        exact ⟨[], rest, rfl, List.not_mem_nil⟩
      · refine (ih (seen.insert first)).imp_of_mem ?_
        intro m n _ member occurs
        apply skip _ occurs
        rintro rfl
        rcases (mem_distinctFrom _ _ _ _).mp member with impossible | ⟨-, fresh⟩
        · cases impossible
        · exact fresh Std.TreeSet.mem_insert_self

private theorem distinctFrom_append (seen : Std.TreeSet ν) (first rest : List ν) :
    ∃ marked : Std.TreeSet ν, (∀ n, n ∈ marked ↔ n ∈ seen ∨ n ∈ first) ∧
      distinctFrom seen [] (first ++ rest) = distinctFrom seen [] first ++ distinctFrom marked [] rest := by
  induction first generalizing seen with
  | nil => exact ⟨seen, by simp, rfl⟩
  | cons n first ih =>
    simp only [List.cons_append, distinctFrom]
    split
    next present =>
      rw [Std.TreeSet.contains_iff_mem] at present
      obtain ⟨marked, known, same⟩ := ih seen
      exact ⟨marked, fun m => (known m).trans (mem_or_mem_cons present), same⟩
    next =>
      obtain ⟨marked, known, same⟩ := ih (seen.insert n)
      refine ⟨marked, fun m => (known m).trans mem_insert_or_mem, ?_⟩
      rw [distinctFrom_eq, same, distinctFrom_eq _ [n] first, List.append_assoc]

private theorem distinctFrom_of_nodup (seen : Std.TreeSet ν) {nodes : List ν} (single : nodes.Nodup)
    (fresh : ∀ n ∈ nodes, n ∉ seen) : distinctFrom seen [] nodes = nodes := by
  induction nodes generalizing seen with
  | nil => rfl
  | cons n nodes ih =>
    rw [List.nodup_cons] at single
    obtain ⟨new, others⟩ := List.forall_mem_cons.mp fresh
    have unmarked : ∀ m ∈ nodes, m ∉ seen.insert n := by
      intro m member
      rw [mem_insert_iff, not_or]
      exact ⟨fun same => single.1 (same ▸ member), others m member⟩
    rw [distinctFrom, if_neg (by rwa [Std.TreeSet.contains_iff_mem]), distinctFrom_eq, ih _ single.2 unmarked]
    rfl

theorem exists_distinct_append (first nodes : List ν) : ∃ rest, distinct (first ++ nodes) = distinct first ++ rest ∧
    (∀ n, n ∈ rest ↔ n ∈ nodes ∧ n ∉ first) ∧ rest.Pairwise (OccursFirst nodes) := by
  obtain ⟨marked, known, same⟩ := distinctFrom_append ∅ first nodes
  refine ⟨distinctFrom marked [] nodes, same, ?_, distinctFrom_occursFirst marked nodes⟩
  intro n
  rw [mem_distinctFrom, known, or_iff_right List.not_mem_nil, or_iff_right Std.TreeSet.not_mem_emptyc]

namespace Oriented

theorem exists_order_eq (o : Oriented ν) (unhinted : o.hint = none) :
    ∃ rest, o.order = o.outflow.reversePostOrder o.starts ++ rest ∧
      (∀ n, n ∈ rest ↔ n ∈ o.nodes ∧ n ∉ o.outflow.reversePostOrder o.starts) ∧
      rest.Pairwise (OccursFirst o.nodes) := by
  obtain ⟨single, -, -⟩ := o.outflow.reversePostOrder_sorted o.starts
  obtain ⟨rest, split, missed, listed⟩ := exists_distinct_append (o.outflow.reversePostOrder o.starts) o.nodes
  refine ⟨rest, ?_, missed, listed⟩
  rw [order, unhinted, Option.getD_none, split, distinct,
    distinctFrom_of_nodup ∅ single fun _ _ => Std.TreeSet.not_mem_emptyc]

end Oriented

end Distinct

def Graph.orientFrom (g : Graph ν) (d : Direction) (starts : List ν) : Oriented ν :=
  { g.orient d with starts, hint := none }

/-- A walk from any starts, in either direction, comes to an end within twice as many steps as there
are starts and edges. The order of first visits begins with the nodes the walk has finished, which
are those that edges lead to from the starts. The other nodes follow in the order in which the graph
lists them, and no node stands twice. If an edge leads from a node that the walk reaches to another
node, the first stands before the second, unless edges lead back from the second to the first. -/
theorem Graph.walk_in_reverse_postorder [Std.TransOrd ν] [Std.LawfulEqOrd ν] (g : Graph ν) (d : Direction)
    (starts : List ν) : ∃ (last : PostOrderWalk ν) (rest : List ν),
      (last.step? (g.orientFrom d starts).outflow = none ∧
        ∀ steps, 2 * (starts.length + (g.orientFrom d starts).outflow.edgeCount) ≤ steps →
          (PostOrderWalk.ofStarts starts).run (g.orientFrom d starts).outflow steps = last) ∧
      (g.orientFrom d starts).order.Nodup ∧ (g.orientFrom d starts).order = last.finished ++ rest ∧
      (∀ n, n ∈ last.finished ↔ ∃ s ∈ starts, (g.orientFrom d starts).outflow.Reaches s n) ∧
      ((∀ n, n ∈ rest ↔ n ∈ g.nodes ∧ n ∉ last.finished) ∧ rest.Pairwise (OccursFirst g.nodes)) ∧
      ∀ s ∈ starts, ∀ m, (g.orientFrom d starts).outflow.Reaches s m →
        ∀ n ∈ (g.orientFrom d starts).outflow.next m,
          [m, n].Sublist (g.orientFrom d starts).order ∨ (g.orientFrom d starts).outflow.Reaches n m := by
  let o := g.orientFrom d starts
  obtain ⟨last, ended, finished, comes⟩ := o.outflow.reversePostOrder_last starts
  obtain ⟨-, reached, sorted⟩ := o.outflow.reversePostOrder_sorted starts
  obtain ⟨rest, split, missed, listed⟩ := o.exists_order_eq rfl
  have nodes : o.nodes = g.nodes := g.nodes_orient d
  change o.order = o.outflow.reversePostOrder starts ++ rest at split
  rw [← finished] at reached sorted split
  refine ⟨last, rest, ⟨ended, comes⟩, o.nodup_order, split, reached, ⟨?_, ?_⟩, ?_⟩
  · intro n
    rw [finished, ← nodes]
    exact missed n
  · rw [← nodes]
    exact listed
  · intro s start m leads n edge
    obtain ⟨before, after, here⟩ := List.append_of_mem ((reached m).mpr ⟨s, start, leads⟩)
    refine (sorted m after ⟨before, here.symm⟩ n edge).imp_left fun later => ?_
    change [m, n].Sublist o.order
    rw [split, here]
    have pair : [m, n].Sublist (m :: after) := (List.singleton_sublist.mpr later).cons_cons m
    exact (pair.trans (List.sublist_append_right before _)).trans (List.sublist_append_left _ rest)

/-- A loop of two nodes between a node that follows itself and one that parallel edges lead to, which
an edge from outside leads to as well. -/
def loopPassed : Graph Nat := .ofEdges 3 [0] [(3, 3), (3, 1), (1, 2), (2, 1), (2, 0), (2, 0), (4, 0)] none none none

theorem loopPassed_walk : ∃ (last : PostOrderWalk Nat) (rest : List Nat),
    (loopPassed.orientFrom .forward [1, 3, 1]).order = last.finished ++ rest ∧
    (loopPassed.orientFrom .forward [1, 3, 1]).order = [3, 1, 2, 0, 4] ∧
    (4 ∈ rest ↔ 4 ∈ loopPassed.nodes ∧ 4 ∉ last.finished) ∧
    ([2, 1].Sublist [3, 1, 2, 0, 4] ∨ loopPassed.successors.Reaches 1 2) := by
  obtain ⟨last, rest, -, -, split, -, ⟨missed, -⟩, before⟩ := loopPassed.walk_in_reverse_postorder .forward [1, 3, 1]
  exact ⟨last, rest, split, rfl, missed 4, before 1 (by decide) 2 (.single (by decide)) 1 (by decide)⟩

end Dataflow
