import Dataflow.CompactSet
import Dataflow.Env
import Dataflow.Solver.Analysis
import Dataflow.Value

/-! Analyses of numbered nodes given by tables: sets that grow and shrink by gen and kill,
constants that are assigned node by node, and one that never settles. -/

namespace Dataflow.Tabular

/-- Data per node; a node without an entry has none. -/
abbrev Table (α : Type) := Std.TreeMap Nat (List α)

def Table.at {α : Type} (t : Table α) (n : Nat) : List α := t.getD n []

inductive Report where
  | actual | always | never
deriving DecidableEq

def Report.apply {φ : Type} (r : Report) (u : Updated φ) : Updated φ :=
  match r with
  | actual => u
  | always => ⟨u.value, true⟩
  | never => ⟨u.value, false⟩

structure GenKill where
  direction : Direction
  boundary : List Nat
  start : Table Nat
  gen : Table Nat
  kill : Table Nat
  /-- Whether a node also generates its own number. -/
  self : Bool
  /-- Whether a node adds to what flowed out before, and does not replace it. -/
  inPlace : Bool
  report : Report

namespace GenKill

/-- The set after a node: what flows in, without what it kills, with what it generates. -/
def after (p : GenKill) (n : Nat) (input : CompactSet Nat) : CompactSet Nat :=
  let generated := p.gen.at n ++ if p.self then [n] else []
  ((input.removeAll (p.kill.at n)).addAll generated).value

def analysis (p : GenKill) : Analysis Nat (CompactSet Nat) where
  direction := p.direction
  bottom := ∅
  boundary := .ofList p.boundary
  start n := .ofList (p.start.at n)
  join source target := (target.union source).value
  transfer n input output :=
    let next := p.after n input
    p.report.apply (if p.inPlace then output.union next else output.overwrite next)

end GenKill

/-- The right-hand side of an assignment: a value, or that of a key plus an offset. -/
inductive Source where
  | value (v : Value)
  | shifted (key : Nat) (offset : Int32)

/-- Only constants are shifted. -/
def Source.eval (env : Env Nat Value) : Source → Value
  | value v => v
  | shifted key offset =>
    match env.get key with
    | .constant n => .constant (n + offset)
    | v => v

structure Assignments where
  direction : Direction
  boundary : List (Nat × Value)
  start : Table (Nat × Value)
  assign : Table (Nat × Source)
  report : Report

namespace Assignments

/-- Each assignment sees the ones before it. -/
def after (p : Assignments) (n : Nat) (input : Env Nat Value) : Env Nat Value :=
  (p.assign.at n).foldl (fun env (key, source) => (env.set key (source.eval env)).value) input

def analysis (p : Assignments) : Analysis Nat (Env Nat Value) where
  direction := p.direction
  bottom := ∅
  boundary := .ofList p.boundary
  start n := .ofList (p.start.at n)
  join source target := (target.join source).value
  transfer n input output := p.report.apply (output.overwrite (p.after n input))

end Assignments

def oscillating : Analysis Nat Bool where
  direction := .forward
  bottom := false
  boundary := false
  start _ := false
  join source target := source || target
  transfer _ input _ := ⟨!input, true⟩

def setOutline? (s : CompactSet Nat) : Option String :=
  (s.outline? toString).map fun content => "SetFact(" ++ content ++ ")"

def envOutline? (e : Env Nat Value) : Option String :=
  (e.bindings.outline? toString Value.caseText).map fun content => "MapFact(" ++ content ++ ")"

end Dataflow.Tabular
