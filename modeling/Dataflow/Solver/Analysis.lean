import Dataflow.Graph.Basic
import Dataflow.Updated

/-! Dataflow analyses: how facts start, join where paths meet, and pass through a node. -/

namespace Dataflow

structure Analysis (ν φ : Type) where
  direction : Direction
  /-- The fact that nothing is known to flow in. -/
  bottom : φ
  /-- The fact flowing into every start of the graph. -/
  boundary : φ
  /-- The fact assumed to flow out of a node before its first visit. -/
  start : ν → φ
  /-- Joins a fact into another, which comes second. -/
  join : φ → φ → φ
  /-- The fact flowing out of a node, given what flows in and what flowed out before, with
  the node's own word on whether it changed. -/
  transfer : ν → φ → φ → Updated φ

/-- The facts kept for a node, in the direction of the analysis. -/
structure Flow (φ : Type) where
  incoming : φ
  outgoing : φ

end Dataflow
