import Mathlib.Algebra.Order.Group.Unbundled.Int
import Mathlib.Tactic.Positivity
import Mathlib.Tactic.Ring
import Dataflow.Operator

/-! What the operators compute, in terms of integers without bounds: the exact result, reduced to
the 32 bits of two's complement. -/

namespace Dataflow

namespace Operator

/-- A bit of an integer in two's complement, counted from the lowest. -/
def bit (n : Int) (i : Nat) : Bool := n / 2 ^ i % 2 = 1

def Comparison.Holds (op : Comparison) (left right : Int) : Prop :=
  match op with
  | .eq => left = right
  | .ne => left ≠ right
  | .lt => left < right
  | .gt => left > right
  | .le => left ≤ right
  | .ge => left ≥ right

instance (op : Comparison) (left right : Int) : Decidable (op.Holds left right) :=
  match op with
  | .eq => inferInstanceAs (Decidable (left = right))
  | .ne => inferInstanceAs (Decidable (left ≠ right))
  | .lt => inferInstanceAs (Decidable (left < right))
  | .gt => inferInstanceAs (Decidable (left > right))
  | .le => inferInstanceAs (Decidable (left ≤ right))
  | .ge => inferInstanceAs (Decidable (left ≥ right))

def Bitwise.onBits (op : Bitwise) (left right : Bool) : Bool :=
  match op with
  | .or => left || right
  | .and => left && right
  | .xor => left ^^ right

variable {left right : Int32}

theorem apply_eq_none_iff {op : Operator} : op.apply left right = none ↔
    (op = .arithmetic .div ∨ op = .arithmetic .rem) ∧ right = 0 := by
  cases op with
  | arithmetic op => cases op <;> simp [apply, Arithmetic.apply]
  | comparison | bitwise | shift => simp [apply]

theorem Comparison.apply_iff {op : Comparison} : op.apply left right = true ↔ op.Holds left.toInt right.toInt := by
  cases op <;> simp [apply, Holds, Int32.toInt_inj, Int32.lt_iff_toInt_lt, Int32.le_iff_toInt_le]

section Division

private theorem toInt_ne_zero (nonzero : right ≠ 0) : right.toInt ≠ 0 := by
  intro zero
  exact nonzero (Int32.toInt_inj.mp zero)

/-- Only the quotient of the least integer by minus one does not fit. -/
theorem toInt_div_eq_tdiv_iff : (left / right).toInt = left.toInt.tdiv right.toInt ↔
    ¬(left = Int32.minValue ∧ right = -1) := by
  constructor
  · rintro exact ⟨rfl, rfl⟩
    revert exact
    decide
  · intro fits
    by_cases least : left = Int32.minValue
    · exact Int32.toInt_div_of_ne_right left right fun minus => fits ⟨least, minus⟩
    · exact Int32.toInt_div_of_ne_left left right least

private theorem sign_mod : (left % right).toInt = 0 ∨ (left % right).toInt.sign = left.toInt.sign := by
  rw [Int32.toInt_mod, ← Int.sign_eq_zero_iff_zero, Int.sign_tmod]
  split
  · exact Or.inl rfl
  · exact Or.inr rfl

private theorem abs_mod_lt (nonzero : right ≠ 0) : |(left % right).toInt| < |right.toInt| := by
  have positive : 0 < right.toInt.natAbs := Int.natAbs_pos.mpr (toInt_ne_zero nonzero)
  rw [Int32.toInt_mod, Int.abs_eq_natAbs, Int.abs_eq_natAbs, Int.natAbs_tmod, Int.ofNat_lt]
  exact Nat.mod_lt _ positive

/-- Reducing the quotient does not change what its product and the remainder come to. -/
theorem toInt_eq_div_mul_add_mod :
    left.toInt = ((left / right).toInt * right.toInt + (left % right).toInt).bmod (2 ^ 32) :=
  calc left.toInt
    _ = left.toInt.bmod (2 ^ 32) := left.toInt_bmod.symm
    _ = (left.toInt.tdiv right.toInt * right.toInt + left.toInt.tmod right.toInt).bmod (2 ^ 32) := by
      rw [Int.tdiv_mul_add_tmod]
    _ = ((left / right).toInt * right.toInt + (left % right).toInt).bmod (2 ^ 32) := by
      rw [Int32.toInt_div, Int32.toInt_mod, ← Int.bmod_add_bmod, ← Int.bmod_mul_bmod, Int.bmod_add_bmod]

end Division

section Bits

private theorem toInt_emod (n : Int32) : n.toInt % 2 ^ 32 = n.toBitVec.toNat := by
  rw [← Int32.toInt_toBitVec, BitVec.toInt_eq_toNat_bmod]
  refine Int.bmod_emod.trans ?_
  exact Int.emod_eq_of_lt (Int.natCast_nonneg _) (Int.ofNat_lt.mpr n.toBitVec.isLt)

private theorem bit_emod (n : Int) {i : Nat} (inside : i < 32) : bit (n % 2 ^ 32) i = bit n i := by
  obtain ⟨more, same⟩ := Nat.exists_eq_add_of_lt inside
  have whole : n % 2 ^ 32 = n + 2 ^ i * (2 * -(2 ^ more * (n / 2 ^ 32))) := by
    have power : (2 : Int) ^ 32 = 2 ^ i * 2 ^ more * 2 := by rw [← pow_add, ← pow_succ, ← same]
    rw [Int.emod_def, power]
    ring
  rw [bit, bit, whole, Int.add_mul_ediv_left _ _ (by positivity), Int.add_mul_emod_self_left]

private theorem bit_toInt (n : Int32) {i : Nat} (inside : i < 32) : bit n.toInt i = n.toBitVec.getLsbD i := by
  rw [← bit_emod _ inside, toInt_emod, bit, BitVec.getLsbD, Nat.testBit_eq_decide_div_mod_eq]
  congr 1
  norm_cast

theorem Bitwise.bit_apply (op : Bitwise) {i : Nat} (inside : i < 32) :
    bit (op.apply left right).toInt i = op.onBits (bit left.toInt i) (bit right.toInt i) := by
  rw [bit_toInt _ inside, bit_toInt _ inside, bit_toInt _ inside]
  cases op with
  | or => exact BitVec.getLsbD_or
  | and => exact BitVec.getLsbD_and
  | xor => exact BitVec.getLsbD_xor

end Bits

section Shifts

/-- How far a value is shifted. -/
def distance (right : Int32) : Nat := (right.toInt % 32).toNat

private theorem distance_eq (right : Int32) : (distance right : Int) = right.toInt % 32 := by
  rw [distance]
  omega

private theorem toNat_umod (right : Int32) : (right.toBitVec % 32).toNat = distance right := by
  have same := toInt_emod right
  rw [BitVec.toNat_umod, distance]
  change right.toBitVec.toNat % 32 = _
  omega

private theorem toNat_smod (right : Int32) : (right.toBitVec.smod 32).toNat = distance right := by
  have same : (right.toBitVec.smod 32).toInt = right.toInt % 32 := by
    rw [BitVec.toInt_smod, Int32.toInt_toBitVec]
    exact Int.fmod_eq_emod_of_nonneg _ (by decide)
  have cases := (right.toBitVec.smod 32).toInt_eq_toNat_cond
  have bound := (right.toBitVec.smod 32).isLt
  rw [same] at cases
  rw [distance]
  split at cases <;> omega

theorem toInt_shiftLeft : (left <<< right).toInt = (left.toInt * 2 ^ distance right).bmod (2 ^ 32) := by
  change (left.toBitVec <<< (right.toBitVec.smod 32).toNat).toInt = _
  rw [BitVec.toInt_shiftLeft, toNat_smod, Nat.shiftLeft_eq, ← Int32.toInt_toBitVec, BitVec.toInt_eq_toNat_bmod,
    Int.bmod_mul_bmod]
  norm_cast

theorem toInt_shiftRight : (left >>> right).toInt = left.toInt.fdiv (2 ^ distance right) := by
  change (left.toBitVec.sshiftRight (right.toBitVec.smod 32).toNat).toInt = _
  rw [BitVec.toInt_sshiftRight, toNat_smod, Int32.toInt_toBitVec, Int.shiftRight_eq_div_pow,
    Int.fdiv_eq_ediv_of_nonneg _ (by positivity)]
  push_cast
  rfl

theorem toInt_shiftRightUnsigned : (Shift.apply .rightUnsigned left right).toInt =
    ((left.toInt % 2 ^ 32).fdiv (2 ^ distance right)).bmod (2 ^ 32) := by
  change (left.toBitVec >>> (right.toBitVec % 32).toNat).toInt = _
  rw [toNat_umod, BitVec.toInt_eq_toNat_bmod, BitVec.toNat_ushiftRight, Nat.shiftRight_eq_div_pow, toInt_emod,
    Int.fdiv_eq_ediv_of_nonneg _ (by positivity)]
  push_cast
  rfl

end Shifts

/-- An operation comes to nothing if and only if it divides by zero. Otherwise its result is the exact
one, reduced to 32 bits: quotients are truncated toward zero, comparisons come to one or zero, the
bitwise operators act on each bit, and shifts go as far as their right operand modulo 32, to the
right by division rounded down. Of all quotients only one is reduced. A remainder never is: it is
smaller than the divisor, and has the sign of the dividend unless it is zero. -/
theorem apply_exact (left right : Int32) :
    (∀ op : Operator, op.apply left right = none ↔ (op = .arithmetic .div ∨ op = .arithmetic .rem) ∧ right = 0) ∧
    (((arithmetic .add).apply left right).map Int32.toInt = some ((left.toInt + right.toInt).bmod (2 ^ 32)) ∧
      ((arithmetic .sub).apply left right).map Int32.toInt = some ((left.toInt - right.toInt).bmod (2 ^ 32)) ∧
      ((arithmetic .mul).apply left right).map Int32.toInt = some ((left.toInt * right.toInt).bmod (2 ^ 32))) ∧
    (right ≠ 0 → ∃ quotient remainder : Int32, (arithmetic .div).apply left right = some quotient ∧
      (arithmetic .rem).apply left right = some remainder ∧
      quotient.toInt = (left.toInt.tdiv right.toInt).bmod (2 ^ 32) ∧
      (quotient.toInt = left.toInt.tdiv right.toInt ↔ ¬(left = Int32.minValue ∧ right = -1)) ∧
      remainder.toInt = left.toInt - right.toInt * left.toInt.tdiv right.toInt ∧
      |remainder.toInt| < |right.toInt| ∧ (remainder.toInt = 0 ∨ remainder.toInt.sign = left.toInt.sign) ∧
      left.toInt = (quotient.toInt * right.toInt + remainder.toInt).bmod (2 ^ 32)) ∧
    (∀ op, (comparison op).apply left right = some (if op.Holds left.toInt right.toInt then 1 else 0)) ∧
    (∀ op, ∃ result, (bitwise op).apply left right = some result ∧
      ∀ i < 32, bit result.toInt i = op.onBits (bit left.toInt i) (bit right.toInt i)) ∧
    ∃ distance : Nat, distance < 32 ∧ (distance : Int) = right.toInt % 32 ∧
      ((shift .left).apply left right).map Int32.toInt = some ((left.toInt * 2 ^ distance).bmod (2 ^ 32)) ∧
      ((shift .right).apply left right).map Int32.toInt = some (left.toInt.fdiv (2 ^ distance)) ∧
      ((shift .rightUnsigned).apply left right).map Int32.toInt =
        some (((left.toInt % 2 ^ 32).fdiv (2 ^ distance)).bmod (2 ^ 32)) := by
  refine ⟨fun op => apply_eq_none_iff, ⟨?_, ?_, ?_⟩, ?_, ?_, ?_, ?_⟩
  · exact congrArg some (Int32.toInt_add left right)
  · exact congrArg some (Int32.toInt_sub left right)
  · exact congrArg some (Int32.toInt_mul left right)
  · intro nonzero
    refine ⟨left / right, left % right, if_neg nonzero, if_neg nonzero, Int32.toInt_div left right,
      toInt_div_eq_tdiv_iff, ?_, abs_mod_lt nonzero, sign_mod, ?_⟩
    · rw [Int32.toInt_mod, Int.tmod_def]
    · exact toInt_eq_div_mul_add_mod
  · intro op
    exact congrArg some (if_congr Comparison.apply_iff rfl rfl)
  · intro op
    exact ⟨_, rfl, fun i inside => op.bit_apply inside⟩
  · refine ⟨distance right, ?_, distance_eq right, ?_, ?_, ?_⟩
    · have eq := distance_eq right
      omega
    · exact congrArg some toInt_shiftLeft
    · exact congrArg some toInt_shiftRight
    · exact congrArg some toInt_shiftRightUnsigned

/-- The least integer by minus one comes back as it is, with nothing left over. Its sign is the
only bit in which it agrees with the complement of zero. -/
theorem least_by_minus_one :
    (∃ quotient remainder : Int32, (arithmetic .div).apply Int32.minValue (-1) = some quotient ∧
      (arithmetic .rem).apply Int32.minValue (-1) = some remainder ∧
      ¬quotient.toInt = Int32.minValue.toInt.tdiv (-1) ∧ |remainder.toInt| < 1 ∧
      Int32.minValue.toInt = (quotient.toInt * -1 + remainder.toInt).bmod (2 ^ 32)) ∧
    ∃ result, (bitwise .xor).apply Int32.minValue (-1) = some result ∧ bit result.toInt 31 = false := by
  obtain ⟨-, -, divides, -, bits, -⟩ := apply_exact Int32.minValue (-1)
  constructor
  · obtain ⟨quotient, remainder, first, second, -, fits, -, small, -, back⟩ := divides (by decide)
    exact ⟨quotient, remainder, first, second, fun exact => fits.mp exact ⟨rfl, rfl⟩, small, back⟩
  · obtain ⟨result, same, each⟩ := bits .xor
    exact ⟨result, same, (each 31 (by decide)).trans (by decide)⟩

end Operator

end Dataflow
