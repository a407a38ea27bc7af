/-! Join semilattices with a least element, the shape of everything a dataflow fact
records. -/

namespace Dataflow

class Semilattice (α : Type) where
  bottom : α
  join : α → α → α

export Semilattice (bottom join)

/-- The laws under which `join` is the least upper bound of the order
`a ≤ b ↔ join a b = b`, with `bottom` below everything. -/
class LawfulSemilattice (α : Type) [Semilattice α] : Prop where
  join_assoc : ∀ a b c : α, join (join a b) c = join a (join b c)
  join_comm : ∀ a b : α, join a b = join b a
  join_self : ∀ a : α, join a a = a
  bottom_join : ∀ a : α, join bottom a = a

end Dataflow
