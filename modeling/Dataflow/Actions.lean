import Dataflow.CompactSet
import Dataflow.Constants
import Dataflow.Env
import Dataflow.Liveness
import Dataflow.Store

/-! The actions on stored maps, sets, environments and facts of an analysis. Each gives an
answer and the new content of its cell, and may read a partner. -/

namespace Dataflow

inductive MapAction (κ β : Type) where
  | reset
  | build (entries : List (κ × β))
  | copy
  | clear
  | extend (entries : List (κ × β))
  | insert (key : κ) (value : β)
  | remove (key : κ)
  | get (key : κ)
  | contains (key : κ)
  | isEmpty
  | equals

def MapAction.perform {κ β : Type} [Ord κ] [BEq β] (action : MapAction κ β)
    (m partner : CompactMap κ β) : Answer β × CompactMap κ β :=
  match action with
  | reset => (.silent, ∅)
  | build entries => (.silent, .ofList entries)
  | copy => (.silent, partner)
  | clear => (.silent, m.clear)
  | extend entries => (.silent, m.extend entries)
  | insert key value => let (old, m) := m.put key value; (.value old, m)
  | remove key => let (old, m) := m.take key; (.value old, m)
  | get key => (.value (m.get? key), m)
  | contains key => (.flag (m.contains key), m)
  | isEmpty => (.flag m.isEmpty, m)
  | equals => (.flag (m == partner), m)

inductive SetAction (α : Type) where
  | reset
  | build (elements : List α)
  | copy
  | clear
  | extend (elements : List α)
  | add (element : α)
  | remove (element : α)
  | contains (element : α)
  | isEmpty
  | equals
  | union
  | overwrite

def SetAction.perform {α : Type} [Ord α] (action : SetAction α) (s partner : CompactSet α) :
    Answer Empty × CompactSet α :=
  let report (u : Updated (CompactSet α)) : Answer Empty × CompactSet α := (.flag u.changed, u.value)
  match action with
  | reset => (.silent, ∅)
  | build elements => (.silent, .ofList elements)
  | copy => (.silent, partner)
  | clear => (.silent, s.clear)
  | extend elements => (.silent, (s.addAll elements).value)
  | add element => report (s.add element)
  | remove element => report (s.remove element)
  | contains element => (.flag (s.contains element), s)
  | isEmpty => (.flag s.isEmpty, s)
  | equals => (.flag (s == partner), s)
  | union => report (s.union partner)
  | overwrite => report (s.overwrite partner)

inductive EnvAction (κ β : Type) where
  | reset
  | build (entries : List (κ × β))
  | copy
  | clear
  | set (key : κ) (value : β)
  | remove (key : κ)
  | get (key : κ)
  | isEmpty
  | equals
  | join
  | overwrite

def EnvAction.perform {κ β : Type} [Ord κ] [Std.TransOrd κ] [Std.LawfulEqOrd κ] [Semilattice β]
    [DecidableEq β] (action : EnvAction κ β) (e partner : Env κ β) : Answer β × Env κ β :=
  let report (u : Updated (Env κ β)) : Answer β × Env κ β := (.flag u.changed, u.value)
  match action with
  | reset => (.silent, ∅)
  | build entries => (.silent, .ofList entries)
  | copy => (.silent, partner)
  | clear => (.silent, e.clear)
  | set key value => report (e.set key value)
  | remove key => let (old, e) := e.remove key; (.value old, e)
  | get key => (.value (some (e.get key)), e)
  | isEmpty => (.flag e.isEmpty, e)
  | equals => (.flag (e == partner), e)
  | join => report (e.join partner)
  | overwrite => report (e.overwrite partner)

/-- The parts of an analysis of a method, or an action on one of its facts. -/
inductive AnalysisAction (α : Type) where
  | fact (action : α)
  | boundary
  | start (p : Point)
  /-- Joins the partner into the cell. -/
  | join
  /-- Passes the partner through a point, where the cell holds what flowed out before. -/
  | transfer (p : Point)

/-- An action at a point outside the graph leaves the cell alone. -/
def AnalysisAction.perform {α β φ : Type} (performFact : α → φ → φ → Answer β × φ)
    (a : Analysis Point φ) (start? : Point → Option φ)
    (transfer? : Point → φ → φ → Option (Updated φ)) (action : AnalysisAction α)
    (fact partner : φ) : Answer β × φ :=
  match action with
  | .fact action => performFact action fact partner
  | boundary => (.silent, a.boundary)
  | start p =>
    match start? p with
    | some begun => (.silent, begun)
    | none => (.foreign, fact)
  | join => (.silent, a.join partner fact)
  | transfer p =>
    match transfer? p partner fact with
    | some passed => (.flag passed.changed, passed.value)
    | none => (.foreign, fact)

def Constants.perform (g : FlowGraph) :
    AnalysisAction (EnvAction Var Value) → Env Var Value → Env Var Value → Answer Value × Env Var Value :=
  AnalysisAction.perform EnvAction.perform (analysis g) (start? g) (transfer? g)

/-- The actions on sets of live variables. Nothing is live at the start, wherever it is. -/
def Liveness.perform (g : FlowGraph) :
    AnalysisAction (SetAction Var) → CompactSet Var → CompactSet Var → Answer Empty × CompactSet Var :=
  AnalysisAction.perform SetAction.perform (analysis g) (fun _ => some ∅) (transfer? g)

end Dataflow
