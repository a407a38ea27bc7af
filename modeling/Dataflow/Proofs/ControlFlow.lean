import Dataflow.Proofs.MethodGraph

/-! The graph of a method is the relation between a statement and those that control may
pass to, and a method without a graph is refused for the first thing that is wrong with it. -/

namespace Dataflow

theorem Point.map_val_below {count : Nat} (fits : count ≤ 65536) : (below count).map val = List.range count := by
  induction count with
  | zero => rfl
  | succ count ih =>
    have last : ofNat? count = some ⟨count, fits⟩ := ofNat?_eq_some_iff.mpr rfl
    have shorter : ((List.range count).filterMap ofNat?).map val = List.range count := ih (by omega)
    rw [below, List.range_succ, List.filterMap_append, List.map_append, shorter]
    simp [last]

namespace Method

/-- Control may pass from one point to another: to the target of a jump, or to the next point
of the body, unless the statement is a goto or a return. -/
inductive Passes (m : Method) (p q : Point) : Prop where
  | jump {stmt : Stmt} (found : m.stmt? p = some stmt) (target : stmt.jump? = some q)
  | next {stmt : Stmt} (found : m.stmt? p = some stmt) (falls : stmt.FallsThrough) (follows : q.val = p.val + 1)
      (inside : q.val < m.size)

def Branches (m : Method) (p q : Point) : Prop := ∃ condition, m.stmt? p = some (.branch condition q)

/-- The first jump that leads out of the body, and where it leads. -/
structure FirstBadJump (m : Method) (p q : Point) : Prop where
  jump : ∃ stmt, m.stmt? p = some stmt ∧ stmt.jump? = some q
  outside : m.size ≤ q.val
  first : ∀ earlier stmt target, earlier.val < p.val → m.stmt? earlier = some stmt → stmt.jump? = some target →
    target.val < m.size

variable {m : Method} {p q : Point} {kind : EdgeKind}

theorem after?_eq_some_iff : m.after? p = some q ↔ q.val = p.val + 1 ∧ q.val < m.size := by
  rw [after?, Option.filter_eq_some_iff, contains, decide_eq_true_iff, Point.next?, Point.ofNat?_eq_some_iff]

private theorem Admitted.after?_isNone_iff (admitted : m.Admitted) (inside : m.contains p = true) :
    (m.after? p).isNone = true ↔ p.val + 1 = m.size := by
  have bound : p.val < m.size := of_decide_eq_true inside
  have short : m.size ≤ 65535 := admitted.short
  rw [Option.isNone_iff_eq_none, Option.eq_none_iff_forall_ne_some]
  constructor
  · intro none
    apply Nat.le_antisymm bound
    apply Nat.le_of_not_lt
    intro more
    exact none ⟨p.val + 1, by omega⟩ (after?_eq_some_iff.mpr ⟨rfl, more⟩)
  · intro ends q next
    have follows := after?_eq_some_iff.mp next
    omega

private theorem Branches.passes (branches : m.Branches p q) : m.Passes p q := by
  obtain ⟨condition, found⟩ := branches
  exact .jump found rfl

theorem mem_transfers_iff : (q, kind) ∈ m.transfers p ↔ m.Passes p q ∧ (kind = .conditional ↔ m.Branches p q) := by
  unfold transfers Branches
  cases found : m.stmt? p with
  | none =>
    refine ⟨nofun, ?_⟩
    rintro ⟨⟨here⟩ | ⟨here⟩, -⟩
    · cases found.symm.trans here
    · cases found.symm.trans here
  | some stmt =>
    rw [Stmt.mem_transfers_iff, after?_eq_some_iff]
    simp only [Option.some.injEq]
    refine and_congr_left fun _ => ?_
    constructor
    · rintro (target | ⟨falls, follows, inside⟩)
      · exact .jump found target
      · exact .next found falls follows inside
    · rintro (⟨here, target⟩ | ⟨here, falls, follows, inside⟩)
      · obtain rfl := Option.some.inj (found.symm.trans here)
        exact Or.inl target
      · obtain rfl := Option.some.inj (found.symm.trans here)
        exact Or.inr ⟨falls, follows, inside⟩

theorem exists_mem_transfers_iff : (∃ kind, (q, kind) ∈ m.transfers p) ↔ m.Passes p q := by
  simp only [mem_transfers_iff]
  constructor
  · rintro ⟨_, passes, -⟩
    exact passes
  · intro passes
    by_cases branches : m.Branches p q
    · exact ⟨.conditional, passes, by simp [branches]⟩
    · exact ⟨.unconditional, passes, by simp [branches]⟩

theorem transfers_sorted (m : Method) (p : Point) :
    (m.transfers p).Pairwise fun left right => left.1.val < right.1.val := by
  unfold transfers
  cases m.stmt? p with
  | none => exact .nil
  | some stmt => exact stmt.transfers_sorted

theorem lookup_transfers : (m.transfers p).lookup q = some kind ↔ (q, kind) ∈ m.transfers p := by
  have single := m.transfers_sorted p
  generalize m.transfers p = listed at single
  induction listed with
  | nil => simp
  | cons entry rest ih =>
    obtain ⟨target, found⟩ := entry
    obtain ⟨later, sorted⟩ := List.pairwise_cons.mp single
    rw [List.lookup_cons, List.mem_cons]
    split
    next same =>
      obtain rfl := beq_iff_eq.mp same
      have absent : (q, kind) ∉ rest := fun member => Nat.lt_irrefl _ (later (q, kind) member)
      simp [absent, eq_comm]
    next different =>
      rw [beq_eq_false_iff_ne] at different
      have tail := ih sorted
      simp [tail, different]

theorem points_sorted (m : Method) : m.points.Pairwise fun p q => p.val < q.val := by
  rw [points, Point.below, List.pairwise_filterMap]
  apply List.pairwise_lt_range.imp
  intro i j less p first q second
  rw [Point.ofNat?_eq_some_iff] at first second
  omega

private theorem Admitted.map_points (admitted : m.Admitted) : m.points.map Point.val = List.range m.size := by
  have short : m.size ≤ 65535 := admitted.short
  exact Point.map_val_below (by omega)

theorem check_eq_emptyBody_iff : m.check = .error .emptyBody ↔ m.size = 0 := by
  unfold check
  split
  next empty => simp [empty]
  next nonempty =>
    refine ⟨fun refused => ?_, fun empty => absurd empty nonempty⟩
    split at refused
    · cases refused
    · split at refused <;> cases refused

theorem check_eq_tooLong_iff {statements : Nat} :
    m.check = .error (.tooLong statements) ↔ 65535 < m.size ∧ statements = m.size := by
  unfold check maxSize
  split
  next empty =>
    refine ⟨nofun, fun long => ?_⟩
    omega
  next =>
    split
    next long => simp [long, eq_comm]
    next short =>
      refine ⟨fun refused => ?_, fun long => absurd long.1 short⟩
      split at refused <;> cases refused

private theorem mem_before_iff {before after : List Point} (listed : m.points = before ++ p :: after) {r : Point} :
    r ∈ before ↔ m.contains r = true ∧ r.val < p.val := by
  have sorted := m.points_sorted
  rw [listed, List.pairwise_append, List.pairwise_cons] at sorted
  obtain ⟨-, ⟨later, -⟩, earlier⟩ := sorted
  rw [← mem_points, listed, List.mem_append, List.mem_cons]
  constructor
  · intro early
    exact ⟨Or.inl early, earlier r early p List.mem_cons_self⟩
  · rintro ⟨early | rfl | late, less⟩
    · exact early
    · exact False.elim (Nat.lt_irrefl _ less)
    · have more := later r late
      omega

private theorem findSome?_badTarget?_eq_some_iff :
    (m.points.findSome? fun p => (m.badTarget? p).map (p, ·)) = some (p, q) ↔ m.FirstBadJump p q := by
  have bad {r : Point} : (m.badTarget? r).map (r, ·) = some (p, q) ↔ r = p ∧ m.badTarget? p = some q := by
    simp only [Option.map_eq_some_iff, Prod.mk.injEq]
    constructor
    · rintro ⟨_, found, rfl, rfl⟩
      exact ⟨rfl, found⟩
    · rintro ⟨rfl, found⟩
      exact ⟨q, found, rfl, rfl⟩
  have outside {r : Point} : m.contains r = false ↔ m.size ≤ r.val := by
    rw [contains, decide_eq_false_iff_not, Nat.not_lt]
  rw [List.findSome?_eq_some_iff]
  constructor
  · rintro ⟨before, _, after, listed, found, clean⟩
    obtain ⟨rfl, found⟩ := bad.mp found
    obtain ⟨stmt, here, jump, away⟩ := badTarget?_eq_some_iff.mp found
    refine ⟨⟨stmt, here, jump⟩, outside.mp away, ?_⟩
    intro earlier stmt target less at' jumps
    have early := (mem_before_iff listed).mpr ⟨contains_of_stmt? at', less⟩
    have quiet := Option.map_eq_none_iff.mp (clean earlier early)
    apply Nat.lt_of_not_le
    intro escapes
    have found := badTarget?_eq_some_iff.mpr ⟨stmt, at', jumps, outside.mpr escapes⟩
    cases found.symm.trans quiet
  · intro worst
    obtain ⟨stmt, here, jump⟩ := worst.jump
    have found : m.badTarget? p = some q :=
      badTarget?_eq_some_iff.mpr ⟨stmt, here, jump, outside.mpr worst.outside⟩
    obtain ⟨before, after, listed⟩ := List.append_of_mem (mem_points.mpr (contains_of_stmt? here))
    refine ⟨before, p, after, listed, bad.mpr ⟨rfl, found⟩, ?_⟩
    intro earlier early
    rw [Option.map_eq_none_iff, Option.eq_none_iff_forall_ne_some]
    intro target found
    obtain ⟨other, at', jumps, away⟩ := badTarget?_eq_some_iff.mp found
    have less := ((mem_before_iff listed).mp early).2
    have inside := worst.first earlier other target less at' jumps
    have large := outside.mp away
    omega

private theorem exists_firstBadJump {stmt : Stmt} (found : m.stmt? p = some stmt) (jumps : stmt.jump? = some q)
    (outside : m.size ≤ q.val) : ∃ source target, m.FirstBadJump source target := by
  have away : m.contains q = false := decide_eq_false (Nat.not_lt.mpr outside)
  have bad : m.badTarget? p = some q := badTarget?_eq_some_iff.mpr ⟨stmt, found, jumps, away⟩
  have some : (m.points.findSome? fun p => (m.badTarget? p).map (p, ·)).isSome = true := by
    rw [List.findSome?_isSome_iff]
    exact ⟨p, mem_points.mpr (contains_of_stmt? found), by rw [bad]; rfl⟩
  obtain ⟨⟨source, target⟩, first⟩ := Option.isSome_iff_exists.mp some
  exact ⟨source, target, findSome?_badTarget?_eq_some_iff.mp first⟩

theorem check_eq_badJump_iff :
    m.check = .error (.badJump p q) ↔ 0 < m.size ∧ m.size ≤ 65535 ∧ m.FirstBadJump p q := by
  rw [← findSome?_badTarget?_eq_some_iff]
  unfold check maxSize
  split
  next empty =>
    refine ⟨nofun, fun found => ?_⟩
    omega
  next nonempty =>
    split
    next long =>
      refine ⟨nofun, fun found => ?_⟩
      omega
    next short =>
      have positive : 0 < m.size := by omega
      have fits : m.size ≤ 65535 := by omega
      split
      next at' target found => simp [found, positive, fits]
      next clean => simp [clean]

end Method

namespace FlowGraph

/-- What a graph says of a method: its nodes are the points of the body, its edges the steps
that control may take, and its exits the points where control may leave. -/
structure Depicts (g : FlowGraph) (m : Method) : Prop where
  nodes : g.graph.nodes.map Point.val = List.range m.size
  successors : ∀ p q, q ∈ g.neighbours p .forward ↔ m.Passes p q
  predecessors : ∀ p q, p ∈ g.neighbours q .backward ↔ m.Passes p q
  edge : ∀ p q, (g.edge? p q).isSome = true ↔ m.Passes p q
  conditional : ∀ p q, g.edge? p q = some .conditional ↔ m.Branches p q
  unconditional : ∀ p q, g.edge? p q = some .unconditional ↔ m.Passes p q ∧ ¬m.Branches p q
  edges : ∀ p q kind, ⟨p, q, kind⟩ ∈ g.edges ↔ g.edge? p q = some kind
  edges_sorted : g.edges.Pairwise fun first second => first.source.val < second.source.val ∨
    first.source = second.source ∧ first.target.val < second.target.val
  exits : ∀ p, p ∈ g.graph.exits ↔ ∃ stmt, m.stmt? p = some stmt ∧
    ((∃ value, stmt = .ret value) ∨ p.val + 1 = m.size ∧ ∀ target, stmt ≠ .goto target)
  exits_sorted : g.graph.exits.Pairwise fun p q => p.val < q.val

variable {m : Method} {g : FlowGraph} {p q : Point} {kind : EdgeKind}

theorem edge?_ofBody : (ofBody m).edge? p q = some kind ↔ m.Passes p q ∧ (kind = .conditional ↔ m.Branches p q) := by
  rw [← Method.mem_transfers_iff, ← Method.lookup_transfers]
  rfl

theorem edges_ofBody_sorted (m : Method) : (ofBody m).edges.Pairwise fun first second =>
    first.source.val < second.source.val ∨ first.source = second.source ∧ first.target.val < second.target.val := by
  simp only [ofBody, List.pairwise_flatMap, List.pairwise_map]
  constructor
  · intro p _
    exact (m.transfers_sorted p).imp fun less => Or.inr ⟨trivial, less⟩
  · apply m.points_sorted.imp
    intro p q less first left second right
    obtain ⟨_, _, rfl⟩ := List.mem_map.mp left
    obtain ⟨_, _, rfl⟩ := List.mem_map.mp right
    exact Or.inl less

theorem mem_exits_ofBody (admitted : m.Admitted) : p ∈ (ofBody m).graph.exits ↔ ∃ stmt, m.stmt? p = some stmt ∧
    ((∃ value, stmt = .ret value) ∨ p.val + 1 = m.size ∧ ∀ target, stmt ≠ .goto target) := by
  have member : p ∈ (ofBody m).graph.exits ↔ m.contains p = true ∧ m.leavesAt p = true := by
    rw [← Method.mem_points]
    exact List.mem_filter
  rw [member, Method.leavesAt]
  cases found : m.stmt? p with
  | none => simp
  | some stmt =>
    have inside := Method.contains_of_stmt? found
    have last := admitted.after?_isNone_iff inside
    simp only [inside, true_and, Option.some.injEq, exists_eq_left']
    cases stmt with
    | ret value => simp [Stmt.leaves]
    | goto target => simp [Stmt.leaves]
    | nop | assign | invoke | branch => simp [Stmt.leaves, last]

theorem depicts_ofBody (admitted : m.Admitted) : (ofBody m).Depicts m := by
  have step (p q : Point) : q ∈ (ofBody m).neighbours p .forward ↔ m.Passes p q :=
    mem_successors_ofBody.trans Method.exists_mem_transfers_iff
  constructor
  · exact admitted.map_points
  · exact step
  · intro p q
    exact mem_predecessors_ofBody.trans (step p q)
  · intro p q
    rw [Option.isSome_iff_exists, ← Method.exists_mem_transfers_iff]
    exact exists_congr fun kind => Method.lookup_transfers
  · intro p q
    rw [edge?_ofBody, eq_self, true_iff]
    exact ⟨And.right, fun branches => ⟨branches.passes, branches⟩⟩
  · intro p q
    rw [edge?_ofBody]
    simp
  · intro p q kind
    exact mem_edges_ofBody.trans Method.lookup_transfers.symm
  · exact edges_ofBody_sorted m
  · intro p
    exact mem_exits_ofBody admitted
  · exact m.points_sorted.filter _

theorem ofMethod?_eq_error_iff {why : BuildError} : ofMethod? m = .error why ↔ m.check = .error why := by
  rw [ofMethod?]
  cases m.check with
  | error other => simp only [Except.map, Except.error.injEq]
  | ok => simp only [Except.map, reduceCtorEq]

/-- A method has no graph if and only if its body is empty, too long, or jumps out of itself,
and is refused for the first of these; the jump blamed is the first that leads out. Any other
method has a graph, and that is the relation between a statement and those that control may
pass to. -/
theorem ofMethod?_exact (m : Method) :
    (ofMethod? m = .error .emptyBody ↔ m.size = 0) ∧
    (∀ statements, ofMethod? m = .error (.tooLong statements) ↔ 65535 < m.size ∧ statements = m.size) ∧
    (∀ p q, ofMethod? m = .error (.badJump p q) ↔ 0 < m.size ∧ m.size ≤ 65535 ∧ m.FirstBadJump p q) ∧
    ((∃ p q, ofMethod? m = .error (.badJump p q)) ↔ 0 < m.size ∧ m.size ≤ 65535 ∧
      ∃ p stmt q, m.stmt? p = some stmt ∧ stmt.jump? = some q ∧ m.size ≤ q.val) ∧
    ((∃ g, ofMethod? m = .ok g) ↔ m.Admitted) ∧
    ∀ g, ofMethod? m = .ok g → g.Depicts m := by
  have refused {p q : Point} : ofMethod? m = .error (.badJump p q) ↔
      0 < m.size ∧ m.size ≤ 65535 ∧ m.FirstBadJump p q :=
    ofMethod?_eq_error_iff.trans Method.check_eq_badJump_iff
  refine ⟨?_, ?_, fun p q => refused, ?_, ?_, ?_⟩
  · exact ofMethod?_eq_error_iff.trans Method.check_eq_emptyBody_iff
  · intro statements
    exact ofMethod?_eq_error_iff.trans Method.check_eq_tooLong_iff
  · constructor
    · rintro ⟨p, q, refusal⟩
      obtain ⟨positive, short, first⟩ := refused.mp refusal
      obtain ⟨stmt, found, jumps⟩ := first.jump
      exact ⟨positive, short, p, stmt, q, found, jumps, first.outside⟩
    · rintro ⟨positive, short, p, stmt, q, found, jumps, outside⟩
      obtain ⟨source, target, first⟩ := Method.exists_firstBadJump found jumps outside
      exact ⟨source, target, refused.mpr ⟨positive, short, first⟩⟩
  · constructor
    · rintro ⟨g, built⟩
      exact (ofMethod?_eq_ok_iff.mp built).1
    · intro admitted
      exact ⟨ofBody m, ofMethod?_eq_ok_iff.mpr ⟨admitted, rfl⟩⟩
  · intro g built
    obtain ⟨admitted, rfl⟩ := ofMethod?_eq_ok_iff.mp built
    exact depicts_ofBody admitted

/-- A branch to the next statement, and one that ends the body. -/
def collision : Method where
  name := "collision"
  params := []
  body := #[.nop, .branch (.literal 1) ⟨2, by decide⟩, .branch (.literal 0) .entry]

def strays : Method where
  name := "strays"
  params := []
  body := #[.goto ⟨2, by decide⟩, .goto ⟨7, by decide⟩, .goto ⟨9, by decide⟩]

theorem collision_exact : (∃ g, ofMethod? collision = .ok g ∧ g.Depicts collision) ∧
    ofMethod? strays = .error (.badJump ⟨1, by decide⟩ ⟨7, by decide⟩) ∧
    strays.FirstBadJump ⟨1, by decide⟩ ⟨7, by decide⟩ := by
  obtain ⟨-, -, -, -, -, depicts⟩ := ofMethod?_exact collision
  obtain ⟨-, -, refused, -⟩ := ofMethod?_exact strays
  have refusal : ofMethod? strays = .error (.badJump ⟨1, by decide⟩ ⟨7, by decide⟩) := rfl
  exact ⟨⟨ofBody collision, rfl, depicts _ rfl⟩, refusal, ((refused _ _).mp refusal).2.2⟩

end FlowGraph

end Dataflow
