import Mathlib.Data.List.Sort
import Dataflow.Proofs.ControlFlow

/-! Building the graph of a method in one pass over its body. Four tables grow with every
statement: the kinds of the edges, the neighbours on either side, and the exits. A jump ahead
makes an entry for a point whose statement is still to come. Read at the end, the tables say
what the graph of the method says. -/

namespace Dataflow

instance : Ord (Point × Point) := lexOrd

private theorem Point.eq_of_sorted {points others : List Point} (sorted : points.Pairwise fun p q => p.val < q.val)
    (sorted' : others.Pairwise fun p q => p.val < q.val) (same : ∀ p, p ∈ points ↔ p ∈ others) : points = others := by
  have : Std.Asymm fun p q : Point => p.val < q.val := ⟨fun _ _ => Nat.lt_asymm⟩
  exact sorted.eq_of_mem_iff sorted' same

private theorem Point.lt_of_compare {p q : Point} (less : compare p q = .lt) :
    p.val < q.val :=
  Nat.compare_eq_lt.mp less

def Edge.Before (first second : Edge) : Prop :=
  first.source.val < second.source.val ∨ first.source = second.source ∧ first.target.val < second.target.val

private theorem Edge.Before.asymm {first second : Edge} (before : first.Before second) : ¬second.Before first := by
  rintro (behind | ⟨same, behind⟩)
  · rcases before with ahead | ⟨same, -⟩
    · omega
    · exact Nat.lt_irrefl _ (same ▸ behind)
  · rcases before with ahead | ⟨-, ahead⟩
    · exact Nat.lt_irrefl _ (same ▸ ahead)
    · omega

private theorem Edge.before_of_compare {p q r s : Point} {kind other : EdgeKind} (less : compare (p, q) (r, s) = .lt) :
    Edge.Before ⟨p, q, kind⟩ ⟨r, s, other⟩ := by
  rcases Ordering.then_eq_lt.mp less with source | ⟨same, target⟩
  · exact Or.inl (Point.lt_of_compare source)
  · exact Or.inr ⟨Std.LawfulEqOrd.eq_of_compare same, Point.lt_of_compare target⟩

/-- The neighbours of points on one side. -/
abbrev NeighbourTable := Std.TreeMap Point (Std.TreeSet Point)

namespace NeighbourTable

def touch (table : NeighbourTable) (p : Point) : NeighbourTable := table.insertIfNew p ∅

/-- Adds a neighbour of a point, in a new entry if need be. -/
def link (table : NeighbourTable) (p q : Point) : NeighbourTable := table.insert p ((table.getD p ∅).insert q)

/-- The neighbours are those that a relation tells, and there are entries for the points in a
list and those that have neighbours. -/
structure Lists (table : NeighbourTable) (listed : List Point) (related : Point → Point → Prop) : Prop where
  neighbours : ∀ p q, q ∈ table.getD p ∅ ↔ related p q
  entries : ∀ p, p ∈ table ↔ p ∈ listed ∨ ∃ q, related p q

variable {table : NeighbourTable} {listed : List Point} {related : Point → Point → Prop}

theorem Lists.touch (lists : table.Lists listed related) (p : Point) : (table.touch p).Lists (listed ++ [p]) related := by
  constructor
  · intro r q
    rw [← lists.neighbours, NeighbourTable.touch, Std.TreeMap.getD_insertIfNew]
    split
    next made =>
      obtain rfl := Std.LawfulEqOrd.eq_of_compare made.1
      rw [Std.TreeMap.getD_eq_fallback made.2]
    next => rfl
  · intro r
    rw [NeighbourTable.touch, Std.TreeMap.mem_insertIfNew, lists.entries, Std.LawfulEqOrd.compare_eq_iff_eq,
      List.mem_append, List.mem_singleton, eq_comm, or_left_comm, or_assoc]

theorem Lists.link (lists : table.Lists listed related) (p q : Point) :
    (table.link p q).Lists listed fun r s => r = p ∧ s = q ∨ related r s := by
  constructor
  · intro r s
    simp only [← lists.neighbours, NeighbourTable.link, Std.TreeMap.getD_insert, Std.LawfulEqOrd.compare_eq_iff_eq]
    split
    next same =>
      subst same
      rw [Std.TreeSet.mem_insert, Std.LawfulEqOrd.compare_eq_iff_eq]
      simp [eq_comm]
    next different => simp [Ne.symm different]
  · intro r
    rw [NeighbourTable.link, Std.TreeMap.mem_insert, lists.entries, Std.LawfulEqOrd.compare_eq_iff_eq, exists_or,
      eq_comm]
    simp [or_left_comm]

private theorem Lists.toList_getElem? (lists : table.Lists listed related) {p : Point} {next : List Point}
    (inside : ∀ q, related p q → p ∈ listed) (sorted : next.Pairwise fun q r => q.val < r.val)
    (same : ∀ q, q ∈ next ↔ related p q) :
    table[p]?.map Std.TreeSet.toList = if p ∈ listed then some next else none := by
  have known : p ∈ table ↔ p ∈ listed := by
    rw [lists.entries]
    exact or_iff_left_of_imp fun ⟨q, edge⟩ => inside q edge
  split
  next entry =>
    rw [Std.TreeMap.getElem?_eq_some_getD (known.mpr entry), Option.map_some]
    refine congrArg some (Point.eq_of_sorted ?_ sorted ?_)
    · exact Std.TreeSet.ordered_toList.imp Point.lt_of_compare
    · intro q
      rw [Std.TreeSet.mem_toList, lists.neighbours, same]
  next absent => rw [Std.TreeMap.getElem?_eq_none fun entry => absent (known.mp entry), Option.map_none]

end NeighbourTable

/-- The tables of a graph under construction. -/
structure GraphTables where
  edges : Std.TreeMap (Point × Point) EdgeKind
  successors : NeighbourTable
  predecessors : NeighbourTable
  exits : Std.TreeSet Point

namespace GraphTables

def empty : GraphTables := ⟨∅, ∅, ∅, ∅⟩

def addNode (t : GraphTables) (p : Point) : GraphTables :=
  { t with
    successors := t.successors.touch p
    predecessors := t.predecessors.touch p }

/-- Adds an edge. If there is one between these points, that one stays. -/
def addEdge (t : GraphTables) (source target : Point) (kind : EdgeKind) : GraphTables :=
  { t with
    edges := t.edges.insertIfNew (source, target) kind
    successors := t.successors.link source target
    predecessors := t.predecessors.link target source }

def addExit (t : GraphTables) (p : Point) : GraphTables := { t with exits := t.exits.insert p }

/-- Goes on to the next point, or leaves the method where the body ends. -/
def fallThrough (t : GraphTables) (p : Point) : Option Point → GraphTables
  | some next => t.addEdge p next .unconditional
  | none => t.addExit p

def addStmt (m : Method) (t : GraphTables) (p : Point) (stmt : Stmt) : Except BuildError GraphTables :=
  let t := t.addNode p
  match stmt with
  | .ret _ => .ok (t.addExit p)
  | .goto target =>
    if m.contains target then .ok (t.addEdge p target .unconditional) else .error (.badJump p target)
  | .branch _ target =>
    if m.contains target then .ok ((t.addEdge p target .conditional).fallThrough p (m.after? p))
    else .error (.badJump p target)
  | .nop | .assign .. | .invoke _ => .ok (t.fallThrough p (m.after? p))

/-- Adds statements in order, up to the first that jumps out of the body. -/
def addAll (m : Method) : GraphTables → List (Point × Stmt) → Except BuildError GraphTables :=
  List.foldlM fun t entry => t.addStmt m entry.1 entry.2

def build (m : Method) : Except BuildError GraphTables :=
  if m.body.isEmpty then .error .emptyBody
  else if Method.maxSize < m.size then .error (.tooLong m.size)
  else empty.addAll m (m.points.zip m.body.toList)

def nodes (t : GraphTables) : List Point := t.successors.keys

def edgeList (t : GraphTables) : List Edge :=
  t.edges.toList.map fun ((source, target), kind) => ⟨source, target, kind⟩

def edge? (t : GraphTables) (source target : Point) : Option EdgeKind := t.edges[(source, target)]?

def neighbours? (t : GraphTables) (p : Point) : Direction → Option (List Point)
  | .forward => t.successors[p]?.map Std.TreeSet.toList
  | .backward => t.predecessors[p]?.map Std.TreeSet.toList

/-- Every question that the tables answer has the answer of the graph. -/
structure Holds (t : GraphTables) (g : FlowGraph) : Prop where
  nodes : t.nodes = g.graph.nodes
  exits : t.exits.toList = g.graph.exits
  edges : t.edgeList = g.edges
  edge : ∀ p q, t.edge? p q = g.edge? p q
  neighbours : ∀ p d, t.neighbours? p d = g.neighbours? p d

/-- The tables of neighbours agree with the table of edges, and have entries for the points in
a list, and for the ends of edges. -/
structure Agrees (t : GraphTables) (listed : List Point) : Prop where
  successors : t.successors.Lists listed fun p q => (p, q) ∈ t.edges
  predecessors : t.predecessors.Lists listed fun q p => (p, q) ∈ t.edges

variable {m : Method} {t : GraphTables} {listed : List Point} {p q r s : Point} {stmt : Stmt} {kind : EdgeKind}

private theorem agrees_empty : empty.Agrees [] := by
  constructor <;> constructor <;> simp [empty]

private theorem mem_edges_addEdge : (r, s) ∈ (t.addEdge p q kind).edges ↔ r = p ∧ s = q ∨ (r, s) ∈ t.edges := by
  rw [addEdge, Std.TreeMap.mem_insertIfNew, Std.LawfulEqOrd.compare_eq_iff_eq, Prod.mk.injEq, eq_comm, @eq_comm _ q]

theorem Agrees.addNode (agrees : t.Agrees listed) (p : Point) : (t.addNode p).Agrees (listed ++ [p]) :=
  ⟨agrees.successors.touch p, agrees.predecessors.touch p⟩

theorem Agrees.addExit (agrees : t.Agrees listed) (p : Point) : (t.addExit p).Agrees listed :=
  ⟨agrees.successors, agrees.predecessors⟩

theorem Agrees.addEdge (agrees : t.Agrees listed) (p q : Point) (kind : EdgeKind) :
    (t.addEdge p q kind).Agrees listed := by
  constructor
  · simp only [mem_edges_addEdge]
    exact agrees.successors.link p q
  · simp only [mem_edges_addEdge, and_comm]
    exact agrees.predecessors.link q p

private theorem edge?_addEdge : (t.addEdge p q kind).edge? r s =
    if r = p ∧ s = q then (t.edge? r s).or (some kind) else t.edge? r s := by
  simp only [edge?, addEdge, Std.TreeMap.getElem?_insertIfNew, Std.LawfulEqOrd.compare_eq_iff_eq, Prod.mk.injEq]
  by_cases same : r = p ∧ s = q
  · obtain ⟨rfl, rfl⟩ := same
    cases found : t.edges[(r, s)]? <;> simp [Std.TreeMap.mem_iff_isSome_getElem?, found]
  · have other : ¬(p = r ∧ q = s) := fun equal => same ⟨equal.1.symm, equal.2.symm⟩
    simp [same, other]

end GraphTables

namespace Stmt

def added (next : Option Point) : Stmt → List (Point × EdgeKind)
  | goto target => [(target, .unconditional)]
  | ret _ => []
  | branch _ target => (target, .conditional) :: next.toList.map (·, .unconditional)
  | nop | assign .. | invoke _ => next.toList.map (·, .unconditional)

variable {stmt : Stmt} {next : Option Point}

/-- A branch to the next point adds a second edge to it, which is not kept. -/
theorem lookup_added (q : Point) : (stmt.added next).lookup q = (stmt.transfers next).lookup q := by
  cases stmt with
  | goto | ret => rfl
  | nop | assign | invoke => cases next <;> rfl
  | branch condition target =>
    cases next with
    | none => rfl
    | some next =>
      simp only [added, transfers, Option.toList_some, List.map_cons, List.map_nil]
      split
      next same =>
        subst same
        cases hit : q == next <;> simp [List.lookup_cons, hit]
      next different =>
        split
        next =>
          -- The target comes second in the list, but the two points are not the same.
          by_cases here : q = target
          · subst here
            simp [List.lookup_cons, beq_false_of_ne (Ne.symm different)]
          · simp [List.lookup_cons, beq_false_of_ne here]
        next => rfl

end Stmt

namespace GraphTables

variable {m : Method} {t : GraphTables} {listed : List Point} {p q r : Point} {stmt : Stmt}
  {added : List (Point × EdgeKind)}

def addEdges (t : GraphTables) (p : Point) (added : List (Point × EdgeKind)) : GraphTables :=
  added.foldl (fun t edge => t.addEdge p edge.1 edge.2) t

/-- What a statement writes: the entries of its point, its edges, and its exit. -/
def write (t : GraphTables) (p : Point) (added : List (Point × EdgeKind)) (leaves : Bool) : GraphTables :=
  if leaves then ((t.addNode p).addEdges p added).addExit p else (t.addNode p).addEdges p added

private theorem fallThrough_eq (t : GraphTables) (p : Point) (next : Option Point) : t.fallThrough p next =
    if next.isNone then (t.addEdges p (next.toList.map (·, .unconditional))).addExit p
    else t.addEdges p (next.toList.map (·, .unconditional)) := by
  cases next <;> rfl

private theorem addStmt_eq (found : m.stmt? p = some stmt) : t.addStmt m p stmt =
    match m.badTarget? p with
    | some target => .error (.badJump p target)
    | none => .ok (t.write p (stmt.added (m.after? p)) (stmt.leaves (m.after? p))) := by
  rw [Method.badTarget?, found, Option.bind_some]
  cases stmt with
  | ret value => rfl
  | nop | assign | invoke =>
    rw [addStmt, fallThrough_eq]
    rfl
  | goto target =>
    simp only [addStmt, Stmt.jump?, Option.filter_some]
    cases m.contains target <;> rfl
  | branch condition target =>
    simp only [addStmt, Stmt.jump?, Option.filter_some, fallThrough_eq]
    cases m.contains target <;> rfl

private theorem Agrees.addEdges (agrees : t.Agrees listed) (p : Point) (added : List (Point × EdgeKind)) :
    (t.addEdges p added).Agrees listed := by
  induction added generalizing t with
  | nil => exact agrees
  | cons edge added ih => exact ih (agrees.addEdge p edge.1 edge.2)

private theorem edge?_addEdges : (t.addEdges p added).edge? r q =
    if r = p then (t.edge? r q).or (added.lookup q) else t.edge? r q := by
  induction added generalizing t with
  | nil => simp [addEdges]
  | cons edge added ih =>
    have rest := @ih (t.addEdge p edge.1 edge.2)
    rw [addEdges, List.foldl_cons, ← addEdges, rest, edge?_addEdge, List.lookup_cons]
    by_cases here : r = p
    · simp only [here, true_and, if_true]
      by_cases there : q = edge.1
      · subst there
        simp
      · simp [there, beq_eq_false_iff_ne.mpr there]
    · simp [here]

private theorem exits_addEdges : (t.addEdges p added).exits = t.exits := by
  induction added generalizing t with
  | nil => rfl
  | cons edge added ih => exact ih

/-- The tables once the statements at some points are in them. -/
structure Placed (m : Method) (placed : List Point) (t : GraphTables) : Prop where
  agrees : t.Agrees placed
  edge : ∀ p q, t.edge? p q = if p ∈ placed then (m.transfers p).lookup q else none
  exits : ∀ p, p ∈ t.exits ↔ p ∈ placed ∧ m.leavesAt p = true

private theorem placed_empty (m : Method) : empty.Placed m [] :=
  ⟨agrees_empty, fun _ _ => rfl, fun _ => by simp [empty]⟩

/-- A statement that is added brings in the edges and the exit of its point. -/
theorem Placed.write (placed : t.Placed m listed) (found : m.stmt? p = some stmt) (fresh : p ∉ listed) :
    (t.write p (stmt.added (m.after? p)) (stmt.leaves (m.after? p))).Placed m (listed ++ [p]) := by
  have leaves : m.leavesAt p = stmt.leaves (m.after? p) := by rw [Method.leavesAt, found]
  have transfers : m.transfers p = stmt.transfers (m.after? p) := by rw [Method.transfers, found]
  have agrees := (placed.agrees.addNode p).addEdges p (stmt.added (m.after? p))
  have edge (r q : Point) : ((t.addNode p).addEdges p (stmt.added (m.after? p))).edge? r q =
      if r ∈ listed ++ [p] then (m.transfers r).lookup q else none := by
    have kept : (t.addNode p).edge? r q = t.edge? r q := rfl
    rw [edge?_addEdges, kept, placed.edge, Stmt.lookup_added, ← transfers]
    by_cases here : r = p
    · subst here
      simp [fresh]
    · simp [here]
  have exits : ((t.addNode p).addEdges p (stmt.added (m.after? p))).exits = t.exits := exits_addEdges
  rw [GraphTables.write]
  split
  next exit =>
    refine ⟨agrees.addExit p, edge, fun r => ?_⟩
    rw [GraphTables.addExit, Std.TreeSet.mem_insert, exits, placed.exits, Std.LawfulEqOrd.compare_eq_iff_eq]
    by_cases here : r = p
    · simp [here, leaves, exit]
    · simp [here, Ne.symm here]
  next inner =>
    refine ⟨agrees, edge, fun r => ?_⟩
    rw [exits, placed.exits]
    by_cases here : r = p
    · simp [here, leaves, inner]
    · simp [here]

/-- Adding statements fails at the first bad jump among them, and otherwise places them all. -/
theorem Placed.addAll (placed : t.Placed m listed) {entries : List (Point × Stmt)}
    (found : ∀ entry ∈ entries, m.stmt? entry.1 = some entry.2) (single : (listed ++ entries.map Prod.fst).Nodup) :
    (∃ p target, (entries.map Prod.fst).findSome? (fun p => (m.badTarget? p).map (p, ·)) = some (p, target) ∧
      t.addAll m entries = .error (.badJump p target)) ∨
    (entries.map Prod.fst).findSome? (fun p => (m.badTarget? p).map (p, ·)) = none ∧
      ∃ after, t.addAll m entries = .ok after ∧ after.Placed m (listed ++ entries.map Prod.fst) := by
  induction entries generalizing t listed with
  | nil => exact Or.inr ⟨rfl, t, rfl, by simpa using placed⟩
  | cons entry entries ih =>
    obtain ⟨p, stmt⟩ := entry
    obtain ⟨here, others⟩ := List.forall_mem_cons.mp found
    obtain ⟨fresh, -⟩ : p ∉ listed ++ entries.map Prod.fst ∧ _ := List.nodup_cons.mp (List.nodup_middle.mp single)
    rw [List.mem_append, not_or] at fresh
    rw [GraphTables.addAll, List.foldlM_cons, addStmt_eq here, List.map_cons, List.findSome?_cons]
    cases bad : m.badTarget? p with
    | some target => exact Or.inl ⟨p, target, rfl, rfl⟩
    | none =>
      have single' : ((listed ++ [p]) ++ entries.map Prod.fst).Nodup := by simpa using single
      have rest := ih (placed.write here fresh.1) others single'
      rw [List.append_assoc] at rest
      exact rest

private theorem zip_points (fits : m.size ≤ 65536) : (m.points.zip m.body.toList).map Prod.fst = m.points ∧
    ∀ entry ∈ m.points.zip m.body.toList, m.stmt? entry.1 = some entry.2 := by
  have places : m.points.map Point.val = List.range m.size := Point.map_val_below fits
  constructor
  · apply List.map_fst_zip
    have length := congrArg List.length places
    rw [List.length_map, List.length_range] at length
    exact Nat.le_of_eq length
  · intro ⟨p, stmt⟩ member
    obtain ⟨i, found⟩ := List.mem_iff_getElem?.mp member
    obtain ⟨point, statement⟩ := List.getElem?_zip_eq_some.mp found
    have place := congrArg (fun places => places[i]?) places
    simp only [List.getElem?_map, point, Option.map_some] at place
    obtain ⟨_, same⟩ := List.getElem?_eq_some_iff.mp place.symm
    rw [List.getElem_range] at same
    rw [Method.stmt?, ← same, ← Array.getElem?_toList]
    exact statement

theorem neighbours_ofBody_sorted (m : Method) (p : Point) (d : Direction) :
    ((FlowGraph.ofBody m).neighbours p d).Pairwise fun q r => q.val < r.val := by
  have sorted := FlowGraph.edges_ofBody_sorted m
  -- Edges with the same end on one side are in the order of their other ends.
  have next (near far : Edge → Point) (order : ∀ first second : Edge, first.Before second → near first = near second →
      (far first).val < (far second).val) :
      ((Adjacency.ofEdges ((FlowGraph.ofBody m).edges.map fun edge => (near edge, far edge))).next p).Pairwise
        fun q r => q.val < r.val := by
    rw [Adjacency.next_ofEdges, List.pairwise_map, List.pairwise_filter, List.pairwise_map]
    refine sorted.imp fun less here there => order _ _ less ?_
    exact (of_decide_eq_true here).trans (of_decide_eq_true there).symm
  cases d with
  | forward =>
    refine next Edge.source Edge.target fun first second before same => ?_
    rcases before with behind | ⟨-, less⟩
    · exact absurd (congrArg Point.val same) (Nat.ne_of_lt behind)
    · exact less
  | backward =>
    refine next Edge.target Edge.source fun first second before same => ?_
    rcases before with less | ⟨-, behind⟩
    · exact less
    · exact absurd (congrArg Point.val same) (Nat.ne_of_lt behind)

section Holds

variable (placed : t.Placed m m.points) (admitted : m.Admitted)
include placed admitted

private theorem Placed.edge?_eq (p q : Point) : t.edge? p q = (FlowGraph.ofBody m).edge? p q := by
  rw [placed.edge]
  split
  next => rfl
  next outside =>
    refine (Option.eq_none_iff_forall_ne_some.mpr fun kind found => outside ?_).symm
    exact Method.mem_points.mpr (admitted.contains_target (Method.lookup_transfers.mp found)).1

private theorem Placed.mem_edges : (p, q) ∈ t.edges ↔ q ∈ (FlowGraph.ofBody m).graph.successors.next p := by
  rw [Std.TreeMap.mem_iff_isSome_getElem?, ← edge?, placed.edge?_eq admitted, Option.isSome_iff_exists,
    FlowGraph.mem_successors_ofBody]
  exact exists_congr fun kind => Method.lookup_transfers

private theorem Placed.mem_points_of_edge (edge : (p, q) ∈ t.edges) : p ∈ m.points ∧ q ∈ m.points := by
  obtain ⟨kind, passes⟩ := FlowGraph.mem_successors_ofBody.mp ((placed.mem_edges admitted).mp edge)
  obtain ⟨source, target⟩ := admitted.contains_target passes
  exact ⟨Method.mem_points.mpr source, Method.mem_points.mpr target⟩

private theorem Placed.edgeList_eq : t.edgeList = (FlowGraph.ofBody m).edges := by
  have : Std.Asymm Edge.Before := ⟨fun _ _ => Edge.Before.asymm⟩
  refine List.Pairwise.eq_of_mem_iff (r := Edge.Before) ?_ (FlowGraph.edges_ofBody_sorted m) ?_
  · rw [edgeList, List.pairwise_map]
    have sorted := t.edges.ordered_keys_toList
    exact sorted.imp Edge.before_of_compare
  · intro ⟨p, q, kind⟩
    rw [(FlowGraph.depicts_ofBody admitted).edges, ← placed.edge?_eq admitted, edge?,
      ← Std.TreeMap.mem_toList_iff_getElem?_eq_some, edgeList, List.mem_map]
    constructor
    · rintro ⟨_, member, same⟩
      obtain ⟨rfl, rfl, rfl⟩ := Edge.mk.inj same
      exact member
    · intro member
      exact ⟨_, member, rfl⟩

theorem Placed.holds : t.Holds (.ofBody m) := by
  have inside {p : Point} : p ∈ m.points ↔ (FlowGraph.ofBody m).contains p = true := Method.mem_points
  constructor
  · refine Point.eq_of_sorted ?_ m.points_sorted fun p => ?_
    · exact Std.TreeMap.ordered_keys.imp Point.lt_of_compare
    · rw [GraphTables.nodes, Std.TreeMap.mem_keys, placed.agrees.successors.entries]
      exact or_iff_left_of_imp fun ⟨q, edge⟩ => (placed.mem_points_of_edge admitted edge).1
  · refine Point.eq_of_sorted ?_ (m.points_sorted.filter _) fun p => ?_
    · exact Std.TreeSet.ordered_toList.imp Point.lt_of_compare
    · exact Std.TreeSet.mem_toList.trans ((placed.exits p).trans List.mem_filter.symm)
  · exact placed.edgeList_eq admitted
  · exact placed.edge?_eq admitted
  · intro p d
    have sorted := neighbours_ofBody_sorted m p d
    rw [FlowGraph.neighbours?]
    simp only [← inside]
    cases d with
    | forward =>
      refine placed.agrees.successors.toList_getElem? ?_ sorted ?_
      · intro q edge
        exact (placed.mem_points_of_edge admitted edge).1
      · intro q
        exact (placed.mem_edges admitted).symm
    | backward =>
      refine placed.agrees.predecessors.toList_getElem? ?_ sorted ?_
      · intro q edge
        exact (placed.mem_points_of_edge admitted edge).2
      · intro q
        exact FlowGraph.mem_predecessors_ofBody.trans (placed.mem_edges admitted).symm

end Holds

private theorem build_cases (m : Method) : (∃ why, build m = .error why ∧ m.check = .error why) ∨
    m.check = .ok () ∧ ∃ t, build m = .ok t ∧ t.Placed m m.points := by
  have empty : m.body.isEmpty = true ↔ m.size = 0 := Array.isEmpty_iff_size_eq_zero
  unfold build Method.check
  simp only [empty]
  split
  next => exact Or.inl ⟨_, rfl, rfl⟩
  next =>
    split
    next => exact Or.inl ⟨_, rfl, rfl⟩
    next short =>
      have fits : m.size ≤ 65536 := (Nat.le_of_not_lt short).trans (by decide)
      obtain ⟨points, found⟩ := zip_points fits
      have single : ([] ++ (m.points.zip m.body.toList).map Prod.fst).Nodup := by
        rw [points]
        refine m.points_sorted.imp ?_
        rintro p _ less rfl
        exact Nat.lt_irrefl _ less
      have whole := (placed_empty m).addAll found single
      rw [points] at whole
      rcases whole with ⟨p, target, bad, failed⟩ | ⟨clean, t, done, placed⟩
      · exact Or.inl ⟨_, failed, by rw [bad]⟩
      · exact Or.inr ⟨by rw [clean], t, done, placed⟩

/-- Building in one pass fails for the reason why there is no graph, and comes to tables that
hold the graph if there is one. -/
theorem build_exact (m : Method) :
    (∀ why, build m = .error why ↔ FlowGraph.ofMethod? m = .error why) ∧
    (∀ t, build m = .ok t → ∃ g, FlowGraph.ofMethod? m = .ok g ∧ t.Holds g) ∧
    ∀ g, FlowGraph.ofMethod? m = .ok g → ∃ t, build m = .ok t ∧ t.Holds g := by
  rcases build_cases m with ⟨why, failed, refused⟩ | ⟨passed, t, done, placed⟩
  · have none : FlowGraph.ofMethod? m = .error why := FlowGraph.ofMethod?_eq_error_iff.mpr refused
    rw [failed, none]
    refine ⟨fun other => ?_, nofun, nofun⟩
    rw [Except.error.injEq, Except.error.injEq]
  · have admitted := Method.check_eq_ok_iff.mp passed
    have built : FlowGraph.ofMethod? m = .ok (.ofBody m) := FlowGraph.ofMethod?_eq_ok_iff.mpr ⟨admitted, rfl⟩
    have holds := placed.holds admitted
    rw [done, built]
    refine ⟨fun why => ⟨nofun, nofun⟩, ?_, ?_⟩
    · rintro _ ⟨⟩
      exact ⟨_, rfl, holds⟩
    · rintro _ ⟨⟩
      exact ⟨_, rfl, holds⟩

end GraphTables

end Dataflow
