import Mathlib.Algebra.BigOperators.Ring.List
import Mathlib.Algebra.Order.BigOperators.Group.List
import Mathlib.Algebra.Order.Group.Nat
import Mathlib.Algebra.Ring.Nat
import Dataflow.Graph.Basic

/-! The graphs an analysis may be run on, and the order in which their nodes are first
visited: every node once, whatever the hint or the walk. -/

namespace Dataflow

theorem sum_map_add_le {α : Type} {items : List α} {f g : α → Nat} {item : α} {more : Nat}
    (member : item ∈ items) (le : ∀ other ∈ items, f other ≤ g other) (grown : f item + more ≤ g item) :
    (items.map f).sum + more ≤ (items.map g).sum := by
  classical
  have rest : ((items.erase item).map f).sum ≤ ((items.erase item).map g).sum :=
    List.sum_le_sum fun other kept => le other (List.mem_of_mem_erase kept)
  rw [← List.sum_map_erase f member, ← List.sum_map_erase g member]
  omega

variable {ν : Type} [Ord ν]

/-- Edges are listed alike from both ends, and everything the graph names is one of its
nodes. -/
structure Graph.WellFormed (g : Graph ν) : Prop where
  transposed : ∀ m n, n ∈ g.successors.next m ↔ m ∈ g.predecessors.next n
  target : ∀ m n, n ∈ g.successors.next m → n ∈ g.nodes
  source : ∀ m n, n ∈ g.successors.next m → m ∈ g.nodes
  entry : g.entry ∈ g.nodes
  exits : ∀ n ∈ g.exits, n ∈ g.nodes
  hinted : ∀ hint, g.hint = some hint → ∀ n ∈ hint, n ∈ g.nodes

structure Oriented.WellFormed (o : Oriented ν) : Prop where
  transposed : ∀ m n, n ∈ o.outflow.next m ↔ m ∈ o.inflow.next n
  receiver : ∀ m n, n ∈ o.outflow.next m → n ∈ o.nodes
  sender : ∀ m n, m ∈ o.inflow.next n → m ∈ o.nodes
  starts : ∀ n ∈ o.starts, n ∈ o.nodes
  hinted : ∀ hint, o.hint = some hint → ∀ n ∈ hint, n ∈ o.nodes

theorem Graph.WellFormed.orient {g : Graph ν} (wf : g.WellFormed) (d : Direction) : (g.orient d).WellFormed := by
  cases d with
  | forward =>
    refine ⟨wf.transposed, wf.target, ?_, ?_, wf.hinted⟩
    · intro m n edge
      exact wf.source m n ((wf.transposed m n).mpr edge)
    · intro n start
      obtain rfl := List.mem_singleton.mp start
      exact wf.entry
  | backward =>
    refine ⟨fun m n => (wf.transposed n m).symm, ?_, ?_, wf.exits, ?_⟩
    · intro m n edge
      exact wf.source n m ((wf.transposed n m).mpr edge)
    · intro m n edge
      exact wf.target n m edge
    · intro hint found n member
      obtain ⟨original, given, rfl⟩ := Option.map_eq_some_iff.mp found
      exact wf.hinted original given n (List.mem_reverse.mp member)

theorem Graph.nodes_orient (g : Graph ν) (d : Direction) : (g.orient d).nodes = g.nodes := by
  cases d <;> rfl

/-- Graphs that differ only in how their nodes, exits and neighbours are ordered and in the
order they suggest. -/
structure Graph.Similar (g h : Graph ν) : Prop where
  entry : g.entry = h.entry
  exits : ∀ n, n ∈ g.exits ↔ n ∈ h.exits
  nodes : ∀ n, n ∈ g.nodes ↔ n ∈ h.nodes
  edges : ∀ m n, n ∈ g.successors.next m ↔ n ∈ h.successors.next m

theorem Graph.Similar.symm {g h : Graph ν} (similar : g.Similar h) : h.Similar g :=
  ⟨similar.entry.symm, fun n => (similar.exits n).symm, fun n => (similar.nodes n).symm,
    fun m n => (similar.edges m n).symm⟩

theorem Graph.Similar.starts {g h : Graph ν} (similar : g.Similar h) (d : Direction) (n : ν) :
    n ∈ (g.orient d).starts ↔ n ∈ (h.orient d).starts := by
  cases d with
  | forward =>
    simp only [orient, List.mem_singleton]
    rw [similar.entry]
  | backward => exact similar.exits n

theorem Graph.Similar.outflow {g h : Graph ν} (similar : g.Similar h) (left : g.WellFormed) (right : h.WellFormed)
    (d : Direction) (m n : ν) : n ∈ (g.orient d).outflow.next m ↔ n ∈ (h.orient d).outflow.next m := by
  cases d with
  | forward => exact similar.edges m n
  | backward =>
    have first := left.transposed n m
    have second := right.transposed n m
    exact first.symm.trans ((similar.edges n m).trans second)

namespace PostOrderWalk

/-- Everything a walk has met or will still look at satisfies a property. -/
structure Within (inside : ν → Prop) (w : PostOrderWalk ν) : Prop where
  starts : ∀ n ∈ w.starts, inside n
  frames : ∀ frame ∈ w.frames, inside frame.1 ∧ ∀ n ∈ frame.2, inside n
  finished : ∀ n ∈ w.finished, inside n

variable {next : Adjacency ν} {inside : ν → Prop} {w : PostOrderWalk ν}

private theorem Within.enter (within : w.Within inside) (closed : ∀ m n, inside m → n ∈ next.next m → inside n)
    {n : ν} (member : inside n) : (w.enter next n).Within inside := by
  refine ⟨within.starts, ?_, within.finished⟩
  intro frame opened
  rcases List.mem_cons.mp opened with rfl | old
  · exact ⟨member, fun m edge => closed n m member edge⟩
  · exact within.frames frame old

theorem Within.step? (within : w.Within inside) (closed : ∀ m n, inside m → n ∈ next.next m → inside n)
    {after : PostOrderWalk ν} (moved : w.step? next = some after) : after.Within inside := by
  unfold PostOrderWalk.step? at moved
  split at moved
  next n m rest frames opened =>
    obtain ⟨inner, children⟩ := within.frames (n, m :: rest) (by simp [opened])
    have advanced : PostOrderWalk.Within inside { w with frames := (n, rest) :: frames } := by
      refine ⟨within.starts, ?_, within.finished⟩
      intro frame kept
      rcases List.mem_cons.mp kept with rfl | outer
      · exact ⟨inner, fun child member => children child (List.mem_cons_of_mem m member)⟩
      · exact within.frames frame (by simp [opened, outer])
    obtain rfl := Option.some.inj moved
    split
    · exact advanced
    · exact advanced.enter closed (children m (by simp))
  next n frames opened =>
    obtain rfl := Option.some.inj moved
    refine ⟨within.starts, fun frame outer => within.frames frame (by simp [opened, outer]), ?_⟩
    intro m closedFrame
    rcases List.mem_cons.mp closedFrame with rfl | old
    · exact (within.frames (m, []) (by simp [opened])).1
    · exact within.finished m old
  next opened =>
    split at moved
    next start starts listed =>
      have advanced : PostOrderWalk.Within inside { w with starts } :=
        ⟨fun n member => within.starts n (by simp [listed, member]), within.frames, within.finished⟩
      obtain rfl := Option.some.inj moved
      split
      · exact advanced
      · exact advanced.enter closed (within.starts start (by simp [listed]))
    next => cases moved

theorem Within.run (within : w.Within inside) (closed : ∀ m n, inside m → n ∈ next.next m → inside n)
    (fuel : Nat) : (w.run next fuel).Within inside := by
  induction fuel generalizing w with
  | zero => exact within
  | succ fuel ih =>
    simp only [PostOrderWalk.run]
    split
    next after moved => exact ih (within.step? closed moved)
    next => exact within

end PostOrderWalk

theorem Adjacency.reversePostOrder_within (next : Adjacency ν) (starts : List ν) (inside : ν → Prop)
    (begun : ∀ n ∈ starts, inside n) (closed : ∀ m n, inside m → n ∈ next.next m → inside n) :
    ∀ n ∈ next.reversePostOrder starts, inside n := by
  have initial : (PostOrderWalk.ofStarts starts).Within inside :=
    ⟨begun, by simp [PostOrderWalk.ofStarts], by simp [PostOrderWalk.ofStarts]⟩
  exact (initial.run closed _).finished

variable [Std.TransOrd ν] [Std.LawfulEqOrd ν]

theorem mem_insert_iff {seen : Std.TreeSet ν} {m n : ν} : m ∈ seen.insert n ↔ m = n ∨ m ∈ seen := by
  rw [Std.TreeSet.mem_insert, Std.LawfulEqOrd.compare_eq_iff_eq, eq_comm]

theorem mem_insert_or_mem {seen : Std.TreeSet ν} {m n : ν} {nodes : List ν} :
    n ∈ seen.insert m ∨ n ∈ nodes ↔ n ∈ seen ∨ n ∈ m :: nodes := by
  rw [mem_insert_iff, List.mem_cons, or_comm (a := n = m), or_assoc]

omit [Std.TransOrd ν] [Std.LawfulEqOrd ν] in
theorem mem_or_mem_cons {seen : Std.TreeSet ν} {m n : ν} {nodes : List ν} (present : m ∈ seen) :
    n ∈ seen ∨ n ∈ nodes ↔ n ∈ seen ∨ n ∈ m :: nodes := by
  rw [List.mem_cons]
  constructor
  · exact Or.imp_right Or.inr
  · rintro (old | rfl | later)
    · exact Or.inl old
    · exact Or.inl present
    · exact Or.inr later

theorem mem_distinctFrom (seen : Std.TreeSet ν) (kept nodes : List ν) (n : ν) :
    n ∈ distinctFrom seen kept nodes ↔ n ∈ kept ∨ n ∈ nodes ∧ n ∉ seen := by
  induction nodes generalizing seen kept with
  | nil => simp [distinctFrom]
  | cons m rest ih =>
    simp only [distinctFrom]
    split
    next marked =>
      rw [Std.TreeSet.contains_iff_mem] at marked
      rw [ih, List.mem_cons]
      constructor
      · rintro (old | ⟨member, fresh⟩)
        · exact Or.inl old
        · exact Or.inr ⟨Or.inr member, fresh⟩
      · rintro (old | ⟨rfl | member, fresh⟩)
        · exact Or.inl old
        · exact False.elim (fresh marked)
        · exact Or.inr ⟨member, fresh⟩
    next unmarked =>
      rw [Std.TreeSet.contains_iff_mem] at unmarked
      rw [ih, mem_insert_iff, List.mem_cons, List.mem_cons]
      by_cases same : n = m
      · subst same
        simp [unmarked]
      · simp [same]

private theorem nodup_distinctFrom (seen : Std.TreeSet ν) (kept nodes : List ν) (single : kept.Nodup)
    (marked : ∀ n ∈ kept, n ∈ seen) : (distinctFrom seen kept nodes).Nodup := by
  induction nodes generalizing seen kept with
  | nil => simpa [distinctFrom, List.Nodup, List.pairwise_reverse, ne_comm] using single
  | cons m rest ih =>
    simp only [distinctFrom]
    split
    next => exact ih seen kept single marked
    next unmarked =>
      rw [Std.TreeSet.contains_iff_mem] at unmarked
      apply ih
      · exact List.nodup_cons.mpr ⟨fun member => unmarked (marked m member), single⟩
      · intro n member
        rw [mem_insert_iff]
        exact (List.mem_cons.mp member).imp_right (marked n)

theorem mem_distinct (nodes : List ν) (n : ν) : n ∈ distinct nodes ↔ n ∈ nodes := by
  simp [distinct, mem_distinctFrom]

theorem nodup_distinct (nodes : List ν) : (distinct nodes).Nodup :=
  nodup_distinctFrom ∅ [] nodes List.nodup_nil (by simp)

namespace Oriented

variable {o : Oriented ν}

theorem nodup_order (o : Oriented ν) : o.order.Nodup := nodup_distinct _

/-- The order of first visits lists the nodes of the graph and nothing else. -/
theorem WellFormed.mem_order (wf : o.WellFormed) (n : ν) : n ∈ o.order ↔ n ∈ o.nodes := by
  rw [Oriented.order, mem_distinct, List.mem_append]
  constructor
  · rintro (first | listed)
    · cases given : o.hint with
      | some hint =>
        rw [given] at first
        exact wf.hinted hint given n first
      | none =>
        rw [given] at first
        exact o.outflow.reversePostOrder_within o.starts (· ∈ o.nodes) wf.starts
          (fun m n _ edge => wf.receiver m n edge) n first
    · exact listed
  · exact Or.inr

end Oriented

theorem Adjacency.mem_next_ofEdges (edges : List (ν × ν)) (m n : ν) :
    n ∈ (Adjacency.ofEdges edges).next m ↔ (m, n) ∈ edges := by
  classical
  rw [next_ofEdges]
  simp

theorem Adjacency.mem_next_ofEdges_swap (edges : List (ν × ν)) (m n : ν) :
    m ∈ (Adjacency.ofEdges (edges.map Prod.swap)).next n ↔ (m, n) ∈ edges := by
  rw [mem_next_ofEdges, List.mem_map]
  constructor
  · intro listed
    obtain ⟨⟨source, target⟩, member, same⟩ := listed
    obtain ⟨rfl, rfl⟩ := Prod.mk.inj same
    exact member
  · intro member
    exact ⟨(m, n), member, rfl⟩

theorem Graph.mem_nodes_ofEdges {entry : ν} {exits : List ν} {edges : List (ν × ν)} {hint : Option (List ν)} (n : ν) :
    n ∈ (Graph.ofEdges entry exits edges none none hint).nodes ↔ n = entry ∨ ∃ edge ∈ edges, n = edge.1 ∨ n = edge.2 := by
  classical
  simp only [Graph.ofEdges, Option.getD_none, Std.TreeSet.mem_toList, Std.TreeSet.mem_ofList, List.contains_iff_mem,
    List.mem_cons, List.mem_flatMap, List.not_mem_nil, or_false]

/-- Listing edges gives a graph that is well formed, if its exits and its hint keep to the
entry and the ends of edges. -/
theorem Graph.WellFormed.ofEdges {entry : ν} {exits : List ν} {edges : List (ν × ν)} {hint : Option (List ν)}
    (left : ∀ n ∈ exits, n ∈ (Graph.ofEdges entry exits edges none none hint).nodes)
    (hinted : ∀ n ∈ hint.getD [], n ∈ (Graph.ofEdges entry exits edges none none hint).nodes) :
    (Graph.ofEdges entry exits edges none none hint).WellFormed := by
  have forth (m n : ν) : n ∈ (Graph.ofEdges entry exits edges none none hint).successors.next m ↔ (m, n) ∈ edges :=
    Adjacency.mem_next_ofEdges edges m n
  have back (m n : ν) : m ∈ (Graph.ofEdges entry exits edges none none hint).predecessors.next n ↔ (m, n) ∈ edges :=
    Adjacency.mem_next_ofEdges_swap edges m n
  constructor
  · intro m n
    rw [forth, back]
  · intro m n edge
    exact (mem_nodes_ofEdges n).mpr (Or.inr ⟨(m, n), (forth m n).mp edge, Or.inr rfl⟩)
  · intro m n edge
    exact (mem_nodes_ofEdges m).mpr (Or.inr ⟨(m, n), (forth m n).mp edge, Or.inl rfl⟩)
  · exact (mem_nodes_ofEdges entry).mpr (Or.inl rfl)
  · exact left
  · intro given same n member
    obtain rfl : hint = some given := same
    exact hinted n member

theorem Graph.Similar.ofEdges {entry : ν} {exits others : List ν} {edges listed : List (ν × ν)}
    {hint suggested : Option (List ν)} (left : exits.Perm others) (same : edges.Perm listed) :
    (Graph.ofEdges entry exits edges none none hint).Similar (.ofEdges entry others listed none none suggested) := by
  refine ⟨rfl, fun n => left.mem_iff, ?_, ?_⟩
  · intro n
    rw [mem_nodes_ofEdges, mem_nodes_ofEdges]
    simp only [same.mem_iff]
  · intro m n
    have first := Adjacency.mem_next_ofEdges edges m n
    have second := Adjacency.mem_next_ofEdges listed m n
    exact first.trans (same.mem_iff.trans second.symm)

end Dataflow
