import Std.Data.TreeMap

/-! Program points: the positions of statements in a body, counted from zero and
limited to sixteen bits. -/

namespace Dataflow

structure Point where
  val : Nat
  val_lt : val < 65536
deriving DecidableEq

namespace Point

def ofNat? (n : Nat) : Option Point := if h : n < 65536 then some ⟨n, h⟩ else none

def entry : Point := ⟨0, by decide⟩

instance : Inhabited Point := ⟨entry⟩

def isEntry (p : Point) : Bool := p.val == 0

/-- The point after this one; the last point has none. -/
def next? (p : Point) : Option Point := ofNat? (p.val + 1)

def below (count : Nat) : List Point := (List.range count).filterMap ofNat?

/-- A position with its number sign, padded to five digits. -/
def label (n : Nat) : String :=
  let digits := toString n
  "#" ++ String.ofList (List.replicate (5 - digits.length) '0') ++ digits

instance : ToString Point := ⟨fun p => label p.val⟩

instance : Ord Point := ⟨compareOn val⟩

instance : Std.TransOrd Point := inferInstanceAs (Std.TransCmp (compareOn val))

instance : Std.LawfulEqOrd Point where
  eq_of_compare {left right} equal := by
    have same : left.val = right.val := Std.compare_eq_iff_eq.mp equal
    cases left
    cases right
    simpa using same

end Point

end Dataflow
