import Mathlib.Algebra.Group.Nat.Defs
import Mathlib.Data.Nat.Init

/-!
# Comparing words through their halves and their sign bits

A word of even width is ordered as the pair of its halves, and a signed comparison is an unsigned
one when the sign bits agree and is decided by them when they differ.
-/

namespace Lib

variable {w : ℕ}

/-- Shift right by half the width, then truncate to half the width. -/
def highHalf (x : BitVec w) : BitVec (w / 2) := (x >>> (w / 2)).setWidth (w / 2)

def lowHalf (x : BitVec w) : BitVec (w / 2) := x.setWidth (w / 2)

/-- Shift the sign bit to the right, then truncate to one bit. -/
def signBit (x : BitVec w) : BitVec 1 := (x >>> (w - 1)).setWidth 1

theorem toNat_highHalf (hw : w % 2 = 0) (x : BitVec w) :
    (highHalf x).toNat = x.toNat / 2 ^ (w / 2) := by
  have hlt : x.toNat / 2 ^ (w / 2) < 2 ^ (w / 2) := by
    refine Nat.div_lt_of_lt_mul ?_
    rw [← Nat.pow_add, show w / 2 + w / 2 = w by omega]
    exact x.isLt
  rw [highHalf, BitVec.toNat_setWidth, BitVec.toNat_ushiftRight, Nat.shiftRight_eq_div_pow,
    Nat.mod_eq_of_lt hlt]

theorem toNat_lowHalf (x : BitVec w) : (lowHalf x).toNat = x.toNat % 2 ^ (w / 2) :=
  BitVec.toNat_setWidth ..

/-- Numbers are ordered by their quotients, then by their remainders. -/
theorem lt_iff_div_mod_lt {m : ℕ} (hm : 0 < m) (a b : ℕ) :
    a < b ↔ a / m < b / m ∨ a / m = b / m ∧ a % m < b % m := by
  have ha := Nat.div_add_mod a m
  have hb := Nat.div_add_mod b m
  have hma := Nat.mod_lt a hm
  have hmb := Nat.mod_lt b hm
  rcases Nat.lt_trichotomy (a / m) (b / m) with h | h | h
  · have hmul : m * (a / m) + m ≤ m * (b / m) := Nat.mul_le_mul_left m h
    exact ⟨fun _ => .inl h, fun _ => by omega⟩
  · rw [h] at ha
    exact ⟨fun _ => .inr ⟨h, by omega⟩, fun _ => by omega⟩
  · have hmul : m * (b / m) + m ≤ m * (a / m) := Nat.mul_le_mul_left m h
    exact ⟨fun _ => by omega, fun _ => by omega⟩

theorem eq_iff_halves (hw : w % 2 = 0) (x y : BitVec w) :
    x = y ↔ highHalf x = highHalf y ∧ lowHalf x = lowHalf y := by
  refine ⟨fun h => by rw [h]; exact ⟨rfl, rfl⟩, fun ⟨hhigh, hlow⟩ => ?_⟩
  have hdiv : x.toNat / 2 ^ (w / 2) = y.toNat / 2 ^ (w / 2) := by
    rw [← toNat_highHalf hw, ← toNat_highHalf hw, hhigh]
  have hmod : x.toNat % 2 ^ (w / 2) = y.toNat % 2 ^ (w / 2) := by
    rw [← toNat_lowHalf, ← toNat_lowHalf, hlow]
  apply BitVec.eq_of_toNat_eq
  rw [← Nat.div_add_mod x.toNat (2 ^ (w / 2)), hdiv, hmod, Nat.div_add_mod]

theorem lt_iff_halves (hw : w % 2 = 0) (x y : BitVec w) :
    x < y ↔ highHalf x < highHalf y ∨ ¬ highHalf y < highHalf x ∧ lowHalf x < lowHalf y := by
  rw [BitVec.lt_def, BitVec.lt_def, BitVec.lt_def, BitVec.lt_def, toNat_highHalf hw,
    toNat_highHalf hw, toNat_lowHalf, toNat_lowHalf, lt_iff_div_mod_lt (Nat.two_pow_pos (w / 2))]
  omega

theorem signBit_eq (x : BitVec w) : signBit x = BitVec.ofBool x.msb := by
  apply BitVec.eq_of_getLsbD_eq
  intro i hi
  obtain rfl : i = 0 := by omega
  rw [signBit, BitVec.getLsbD_setWidth, BitVec.getLsbD_ushiftRight, BitVec.msb_eq_getLsbD_last]
  simp

/-- A signed comparison by the sign bits where they differ, else without signs. -/
theorem slt_eq_of_signBit (x y : BitVec w) :
    x.slt y = if signBit x = signBit y then x.ult y else (signBit y).ult (signBit x) := by
  rw [signBit_eq, signBit_eq]
  by_cases h : x.msb = y.msb
  · rw [if_pos (congrArg BitVec.ofBool h), BitVec.slt_eq_ult, h, bne_self_eq_false, Bool.false_xor]
  · rw [BitVec.slt_eq_ult, BitVec.ult_eq_msb_of_msb_neq h]
    cases hx : x.msb <;> cases hy : y.msb <;> simp_all

end Lib
