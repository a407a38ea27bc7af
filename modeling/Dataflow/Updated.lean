/-! Outcomes of updates. -/

namespace Dataflow

/-- The value an update reaches, and whether it is reported as changed. -/
structure Updated (α : Type) where
  value : α
  changed : Bool

end Dataflow
