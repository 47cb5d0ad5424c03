import Mathlib.Algebra.Group.Nat.Defs
import Mathlib.Data.Nat.Size
import Mathlib.Order.Basic
import Mathlib.Tactic.ByContra
import Mathlib.Tactic.Push

/-!
# Smearing bits downwards

Or-ing a word with itself shifted to the right copies every bit to the positions below it, to twice
as many of them with every doubled shift. The result is a mask of ones up to the highest bit exactly
when no run of zeros below that bit is too long for the copies.
-/

namespace Lib

variable {w n : ℕ} {x y : BitVec w}

/-- Every bit of `x` is copied to the `n - 1` positions below it. -/
def Smeared (n : ℕ) (x y : BitVec w) : Prop :=
  ∀ j, y.getLsbD j = true ↔ ∃ i < n, x.getLsbD (j + i) = true

/-- Wherever `n` bits in a row are zero, no bit above them is set. -/
def NoGap (n : ℕ) (x : BitVec w) : Prop :=
  ∀ j : ℕ, BitVec.setWidth n (x >>> j) = 0#n → x >>> j = 0#w

theorem smeared_one (x : BitVec w) : Smeared 1 x x := by
  intro j
  constructor
  · exact fun h => ⟨0, Nat.one_pos, h⟩
  · rintro ⟨i, hi, h⟩
    obtain rfl : i = 0 := Nat.lt_one_iff.mp hi
    exact h

theorem Smeared.double (h : Smeared n x y) : Smeared (2 * n) x (y ||| y >>> n) := by
  intro j
  rw [BitVec.getLsbD_or, BitVec.getLsbD_ushiftRight, Bool.or_eq_true, h j, h (n + j)]
  constructor
  · rintro (⟨i, hi, hbit⟩ | ⟨i, hi, hbit⟩)
    · exact ⟨i, by omega, hbit⟩
    · exact ⟨n + i, by omega, by rwa [Nat.add_left_comm, ← Nat.add_assoc]⟩
  · rintro ⟨i, hi, hbit⟩
    by_cases hin : i < n
    · exact .inl ⟨i, hin, hbit⟩
    · exact .inr ⟨i - n, by omega, by rwa [show n + j + (i - n) = j + i by omega]⟩

theorem setWidth_shift_eq_zero_iff (j : ℕ) :
    BitVec.setWidth n (x >>> j) = 0#n ↔ ∀ i < n, x.getLsbD (j + i) = false := by
  constructor
  · intro h i hi
    have hbit := congrArg (fun z : BitVec n => z.getLsbD i) h
    simpa [BitVec.getLsbD_setWidth, hi] using hbit
  · intro h
    apply BitVec.eq_of_getLsbD_eq
    intro i hi
    simp [BitVec.getLsbD_setWidth, h i hi]

theorem shift_eq_zero_iff (j : ℕ) : x >>> j = 0#w ↔ ∀ i, x.getLsbD (j + i) = false := by
  constructor
  · intro h i
    rw [← BitVec.getLsbD_ushiftRight, h, BitVec.getLsbD_zero]
  · intro h
    apply BitVec.eq_of_getLsbD_eq
    intro i _
    rw [BitVec.getLsbD_ushiftRight, h, BitVec.getLsbD_zero]

/-- A gap stays a gap, with a set bit above it. -/
theorem Smeared.noGap (h : Smeared n x y) (hn : 0 < n) {k : ℕ} (hmask : y.toNat = 2 ^ k - 1) :
    NoGap n x := by
  have hbit : ∀ j, y.getLsbD j = true ↔ j < k := by
    intro j
    rw [← BitVec.testBit_toNat, hmask, Nat.testBit_two_pow_sub_one, decide_eq_true_iff]
  intro j hgap
  rw [shift_eq_zero_iff]
  intro i
  by_contra hset
  have hhigh : y.getLsbD (j + i) = true := (h _).mpr ⟨0, hn, eq_true_of_ne_false hset⟩
  obtain ⟨d, hd, hlow⟩ := (h j).mp ((hbit j).mpr (by have := (hbit _).mp hhigh; omega))
  rw [(setWidth_shift_eq_zero_iff j).mp hgap d hd] at hlow
  exact Bool.false_ne_true hlow

/-- Without gaps all positions up to the highest bit are set. -/
theorem Smeared.toNat_eq (h : Smeared n x y) (hgap : NoGap n x) :
    y.toNat = 2 ^ x.toNat.size - 1 := by
  apply Nat.eq_of_testBit_eq
  intro j
  rw [Nat.testBit_two_pow_sub_one, BitVec.testBit_toNat, Bool.eq_iff_iff, decide_eq_true_iff, h j,
    Nat.lt_size]
  constructor
  · rintro ⟨i, -, hbit⟩
    rw [← BitVec.testBit_toNat] at hbit
    exact Nat.le_trans (Nat.pow_le_pow_right Nat.two_pos (Nat.le_add_right j i))
      (Nat.ge_two_pow_of_testBit hbit)
  · intro hle
    by_contra hnone
    push Not at hnone
    have hzero := hgap j ((setWidth_shift_eq_zero_iff j).mpr fun i hi =>
      eq_false_of_ne_true (hnone i hi))
    have hdiv := congrArg BitVec.toNat hzero
    rw [BitVec.toNat_ushiftRight, Nat.shiftRight_eq_div_pow] at hdiv
    have hpos := Nat.div_pos hle (Nat.two_pow_pos j)
    simp at hdiv
    omega

/-- No bit is lost. -/
theorem Smeared.le (h : Smeared n x y) (hn : 0 < n) : x.toNat ≤ y.toNat := by
  have hand : x &&& y = x := by
    apply BitVec.eq_of_getLsbD_eq
    intro j _
    rw [BitVec.getLsbD_and]
    cases hbit : x.getLsbD j with
    | false => rfl
    | true => rw [(h j).mpr ⟨0, hn, hbit⟩, Bool.and_self]
  rw [← hand, BitVec.toNat_and]
  exact Nat.and_le_right

/-- A word of at most `n` bits has no room for a gap. -/
theorem noGap_of_lt (h : x.toNat < 2 ^ n) : NoGap n x := by
  intro j hgap
  have hsmall : (x >>> j).toNat < 2 ^ n := by
    rw [BitVec.toNat_ushiftRight, Nat.shiftRight_eq_div_pow]
    exact Nat.lt_of_le_of_lt (Nat.div_le_self _ _) h
  have hzero := congrArg BitVec.toNat hgap
  rw [BitVec.toNat_setWidth, Nat.mod_eq_of_lt hsmall] at hzero
  exact BitVec.eq_of_toNat_eq (hzero.trans BitVec.toNat_zero.symm)

end Lib
