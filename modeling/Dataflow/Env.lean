import Dataflow.CompactMap
import Dataflow.Semilattice
import Dataflow.Updated

/-! Environments: a value of a semilattice for every key. A key that is not recorded has
the bottom, and the bottom is never recorded, so equal environments record the same keys.
An operation that may change an environment tells whether it did. -/

namespace Dataflow

structure Env (κ β : Type) [Ord κ] [Semilattice β] where
  bindings : CompactMap κ β
  bottomless : ∀ key, bindings.get? key ≠ some bottom

namespace Env

variable {κ β : Type} [Ord κ] [Semilattice β]

instance : EmptyCollection (Env κ β) := ⟨⟨∅, fun _ found => nomatch found⟩⟩

instance : Inhabited (Env κ β) := ⟨∅⟩

def size (e : Env κ β) : Nat := e.bindings.size

def isEmpty (e : Env κ β) : Bool := e.bindings.isEmpty

def toList (e : Env κ β) : List (κ × β) := e.bindings.toList

def clear (e : Env κ β) : Env κ β :=
  ⟨e.bindings.clear, fun key => by rw [CompactMap.get?_clear]; exact nofun⟩

instance [BEq β] : BEq (Env κ β) := ⟨fun left right => left.bindings == right.bindings⟩

def overwrite [BEq β] (e other : Env κ β) : Updated (Env κ β) :=
  if e == other then ⟨e, false⟩ else ⟨other, true⟩

def get (e : Env κ β) (key : κ) : β := (e.bindings.get? key).getD bottom

section Lattice

variable [Std.TransOrd κ] [Std.LawfulEqOrd κ]

theorem bottomless_take (e : Env κ β) (key other : κ) :
    (e.bindings.take key).2.get? other ≠ some bottom := by
  rw [CompactMap.get?_take]
  split
  · exact nofun
  · exact e.bottomless other

theorem bottomless_put (e : Env κ β) (key other : κ) {value : β} (above : value ≠ bottom) :
    (e.bindings.put key value).2.get? other ≠ some bottom := by
  rw [CompactMap.get?_put]
  split
  · exact fun same => above (Option.some.inj same)
  · exact e.bottomless other

def remove (e : Env κ β) (key : κ) : Option β × Env κ β :=
  let taken := e.bindings.take key
  (taken.1, ⟨taken.2, e.bottomless_take key⟩)

variable [DecidableEq β]

/-- Binds a key, where binding the bottom forgets it. -/
def set (e : Env κ β) (key : κ) (value : β) : Updated (Env κ β) :=
  if above : value = bottom then
    let taken := e.bindings.take key
    ⟨⟨taken.2, e.bottomless_take key⟩, taken.1.isSome⟩
  else
    let placed := e.bindings.put key value
    ⟨⟨placed.2, fun other => e.bottomless_put key other above⟩, placed.1 ≠ some value⟩

theorem get_set (e : Env κ β) (key other : κ) (value : β) :
    (e.set key value).value.get other = if compare key other = .eq then value else e.get other := by
  unfold set
  split
  next isBottom =>
    simp only [get, CompactMap.get?_take]
    split <;> simp_all
  next =>
    simp only [get, CompactMap.get?_put]
    split <;> rfl

/-- Binds the entries in order, so that a later one wins. -/
def ofList (entries : List (κ × β)) : Env κ β :=
  entries.foldl (fun e entry => (e.set entry.1 entry.2).value) ∅

/-- Joins a value into that of its key, after what has been joined so far. -/
def joinEntry (so : Updated (Env κ β)) (entry : κ × β) : Updated (Env κ β) :=
  let next := so.value.set entry.1 (join (so.value.get entry.1) entry.2)
  ⟨next.value, so.changed || next.changed⟩

def joinEntries (e : Env κ β) (entries : List (κ × β)) : Updated (Env κ β) :=
  entries.foldl joinEntry ⟨e, false⟩

def join (e other : Env κ β) : Updated (Env κ β) := e.joinEntries other.toList

end Lattice

/-- Bindings in braces, sorted by key, in whatever order they are listed. -/
def textOf [ToString κ] [ToString β] (entries : List (κ × β)) : String :=
  let sorted := entries.mergeSort fun a b => (compare a.1 b.1).isLE
  "\x7b" ++ ", ".intercalate (sorted.map fun entry => toString entry.1 ++ "=" ++ toString entry.2) ++ "\x7d"

def text [ToString κ] [ToString β] (e : Env κ β) : String := textOf e.toList

instance [ToString κ] [ToString β] : ToString (Env κ β) := ⟨text⟩

end Env

end Dataflow
