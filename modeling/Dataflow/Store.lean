import Std.Data.TreeMap

/-! Named cells and the steps that work on them. A cell comes into being, empty, when a
step names it. A step changes one cell and may read a second one. -/

namespace Dataflow

structure Store (σ : Type) where
  cells : Std.TreeMap String σ

inductive Answer (β : Type) where
  | silent
  | flag (holds : Bool)
  | value (found : Option β)
  /-- The step named a node that is not there. -/
  | foreign
deriving DecidableEq

/-- An action on the cell `target`. Where it reads a second cell, that is `partner`, or the
target itself if there is none. -/
structure Step (α : Type) where
  target : String
  partner : Option String
  action : α

namespace Store

variable {σ α β : Type} [EmptyCollection σ]

def empty : Store σ := ⟨∅⟩

def get (s : Store σ) (name : String) : σ := s.cells.getD name ∅

def set (s : Store σ) (name : String) (content : σ) : Store σ := ⟨s.cells.insert name content⟩

def mention (s : Store σ) (name : String) : Store σ := s.set name (s.get name)

def toList (s : Store σ) : List (String × σ) := s.cells.toList

/-- Takes a step, where `perform` says what an action makes of its cell and its partner. -/
def step (perform : α → σ → σ → Answer β × σ) (s : Store σ) (next : Step α) : Answer β × Store σ :=
  let partner := next.partner.getD next.target
  let s := (s.mention next.target).mention partner
  let (answer, content) := perform next.action (s.get next.target) (s.get partner)
  (answer, s.set next.target content)

/-- Takes steps in order and lists the answers, each with the store it leaves. -/
def steps (perform : α → σ → σ → Answer β × σ) (s : Store σ) :
    List (Step α) → List (Answer β × Store σ)
  | [] => []
  | next :: rest =>
    let (answer, s) := s.step perform next
    (answer, s) :: steps perform s rest

end Store

end Dataflow
