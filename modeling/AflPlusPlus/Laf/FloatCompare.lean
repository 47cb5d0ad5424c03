import AflPlusPlus.Lib.FloatFormat
import AflPlusPlus.Lib.WordHalves
import Mathlib.Tactic.NormNum

/-!
# Splitting floating point compares

`simplifyFPCompares` and `splitFPCompares` of `instrumentation/split-compares-pass.so.cc` replace a
floating point compare by integer compares on the sign, the exponent and the fraction of its
operands. `FPredicate.eval` is the compare instruction on the numbers the words stand for. The
integer code agrees with it on all numbers and infinities; with a NaN operand it answers false for
every predicate but the two unequal ones.
-/

namespace AflPlusPlus.Laf

open Lib

/-- `CmpInst::Predicate` for floating point: ordered ones are false on a NaN, unordered ones
true. -/
inductive FPredicate where
  | oeq | ogt | oge | olt | ole | one | ueq | ugt | uge | ult | ule | une
  deriving DecidableEq

/-- The `fcmp` instruction. -/
def FPredicate.eval (F : FloatFormat) (x y : ℕ) (pred : FPredicate) : Bool :=
  let unordered := F.isNaN x || F.isNaN y
  match pred with
  | .oeq => !unordered && decide (F.value x = F.value y)
  | .ogt => !unordered && decide (F.value y < F.value x)
  | .oge => !unordered && decide (F.value y ≤ F.value x)
  | .olt => !unordered && decide (F.value x < F.value y)
  | .ole => !unordered && decide (F.value x ≤ F.value y)
  | .one => !unordered && decide (F.value x ≠ F.value y)
  | .ueq => unordered || decide (F.value x = F.value y)
  | .ugt => unordered || decide (F.value y < F.value x)
  | .uge => unordered || decide (F.value y ≤ F.value x)
  | .ult => unordered || decide (F.value x < F.value y)
  | .ule => unordered || decide (F.value x ≤ F.value y)
  | .une => unordered || decide (F.value x ≠ F.value y)

/-- `nextPowerOfTwo`. -/
def nextPowerOfTwo (n : ℕ) : ℕ :=
  let n := n - 1
  let n := n ||| n >>> 1
  let n := n ||| n >>> 2
  let n := n ||| n >>> 4
  n + 1

def precision (sizeInBits : ℕ) : ℕ :=
  if sizeInBits = 32 then 24
  else if sizeInBits = 64 then 53
  else if sizeInBits = 128 then 113
  else if sizeInBits = 16 then 11
  else if sizeInBits = 80 then 65
  else sizeInBits - 8

def shiftRExponent (sizeInBits : ℕ) : ℕ := precision sizeInBits - 1

def maskFraction (sizeInBits : ℕ) : ℕ :=
  1 <<< (shiftRExponent sizeInBits - 1) ||| (1 <<< (shiftRExponent sizeInBits - 1) - 1)

def maskExponent (sizeInBits : ℕ) : ℕ := 1 <<< (sizeInBits - precision sizeInBits) - 1

def exTySizeBytes (sizeInBits : ℕ) : ℕ := (sizeInBits - precision sizeInBits + 7) >>> 3

def frTySizeBytes (sizeInBits : ℕ) : ℕ := (precision sizeInBits - 1 + 7) >>> 3

/-- The width of `IntExponentTy`. -/
def exponentTy (sizeInBits : ℕ) : ℕ := nextPowerOfTwo (exTySizeBytes sizeInBits) <<< 3

/-- The width of `IntFractionTy`. -/
def fractionTy (sizeInBits : ℕ) : ℕ := nextPowerOfTwo (frTySizeBytes sizeInBits) <<< 3

section Code

variable {sizeInBits : ℕ}

/-- `is_op0_nan`: the operand without its sign bit is above the NaN interval's low end. -/
def isNanTest (op : BitVec sizeInBits) : Bool :=
  (BitVec.ofNat sizeInBits (maskExponent sizeInBits <<< precision sizeInBits)).ult (op <<< 1)

/-- `b_op0`: `-0.0` becomes `+0.0`. -/
def positiveZero (op : BitVec sizeInBits) : BitVec sizeInBits :=
  if op = BitVec.ofNat sizeInBits (1 <<< (sizeInBits - 1)) then 0 else op

/-- `m_e0`: the exponent, masked when its type leaves room for the sign bit. -/
def exponentOf (b : BitVec sizeInBits) : BitVec (exponentTy sizeInBits) :=
  let t := (b >>> shiftRExponent sizeInBits).setWidth (exponentTy sizeInBits)
  if sizeInBits - precision sizeInBits < exTySizeBytes sizeInBits * 8 then
    t &&& BitVec.ofNat _ (maskExponent sizeInBits)
  else t

/-- `t_f0`: the fraction, masked when its type leaves room for more, and truncated to it. -/
def fractionOf (b : BitVec sizeInBits) : BitVec (fractionTy sizeInBits) :=
  if precision sizeInBits - 1 < frTySizeBytes sizeInBits * 8 then
    (b &&& BitVec.ofNat _ (maskFraction sizeInBits)).setWidth (fractionTy sizeInBits)
  else b.setWidth (fractionTy sizeInBits)

/-- The value of the code that replaces an equality. -/
def splitEqual (b0 b1 : BitVec sizeInBits) : Bool :=
  if signBit b0 = signBit b1 then
    if exponentOf b0 = exponentOf b1 then fractionOf b0 == fractionOf b1 else false
  else false

/-- The value of the code that replaces an inequality. -/
def splitUnequal (b0 b1 : BitVec sizeInBits) : Bool :=
  if signBit b0 = signBit b1 then
    if exponentOf b0 ≠ exponentOf b1 then true else fractionOf b0 != fractionOf b1
  else true

/-- The value of the code that replaces `>`: unequal exponents decide, the other way round for
negative numbers. -/
def splitGreater (b0 b1 : BitVec sizeInBits) : Bool :=
  if signBit b0 = signBit b1 then
    if exponentOf b0 = exponentOf b1 then
      if signBit b0 = 1#1 then (fractionOf b0).ult (fractionOf b1)
      else (fractionOf b1).ult (fractionOf b0)
    else (exponentOf b1).ult (exponentOf b0) ^^ (signBit b0 == 1#1)
  else signBit b1 == 1#1

/-- The value of the code that replaces `<`. -/
def splitLess (b0 b1 : BitVec sizeInBits) : Bool :=
  if signBit b0 = signBit b1 then
    if exponentOf b0 = exponentOf b1 then
      if signBit b0 = 1#1 then (fractionOf b1).ult (fractionOf b0)
      else (fractionOf b0).ult (fractionOf b1)
    else (exponentOf b0).ult (exponentOf b1) ^^ (signBit b0 == 1#1)
  else signBit b0 == 1#1

/-- The value of the code `splitFPCompares` puts in place of a compare; `none` for one it leaves
alone. -/
def splitFPCompare (pred : FPredicate) (op0 op1 : BitVec sizeInBits) : Option Bool :=
  if 64 < sizeInBits then none
  else
    let code (compare : BitVec sizeInBits → BitVec sizeInBits → Bool) : Option Bool :=
      if isNanTest op0 || isNanTest op1 then some (pred = .one ∨ pred = .une)
      else some (compare (positiveZero op0) (positiveZero op1))
    match pred with
    | .oeq | .ueq => code splitEqual
    | .one | .une => code splitUnequal
    | .ogt | .ugt => code splitGreater
    | .olt | .ult => code splitLess
    | _ => none

/-- The strict predicate `simplifyFPCompares` takes for an inequality with equality. -/
def FPredicate.strict : FPredicate → Option FPredicate
  | .uge => some .ugt
  | .oge => some .ogt
  | .ule => some .ult
  | .ole => some .olt
  | _ => none

/-- The value of a compare after both passes. `simplifyFPCompares` takes compares with exactly one
constant operand; a compare no pass takes keeps its own value. -/
def floatPasses (F : FloatFormat) (oneConstant : Bool) (pred : FPredicate)
    (op0 op1 : BitVec sizeInBits) : Bool :=
  let split (pred : FPredicate) :=
    (splitFPCompare pred op0 op1).getD (pred.eval F op0.toNat op1.toNat)
  match pred.strict with
  | some newPred => if oneConstant then split newPred || split .oeq else split pred
  | none => split pred

end Code

/-- The formats of `half`, `float` and `double`. -/
def ieeeFormat (sizeInBits : ℕ) (h : sizeInBits = 16 ∨ sizeInBits = 32 ∨ sizeInBits = 64) :
    FloatFormat where
  expBits := sizeInBits - precision sizeInBits
  fracBits := precision sizeInBits - 1
  expBits_pos := by rcases h with rfl | rfl | rfl <;> decide

section Fields

variable {sizeInBits : ℕ} (h : sizeInBits = 16 ∨ sizeInBits = 32 ∨ sizeInBits = 64)
  (b : BitVec sizeInBits)

theorem signBit_eq_one : signBit b = 1#1 ↔ (ieeeFormat sizeInBits h).signField b.toNat = true := by
  have hb := b.isLt
  rw [FloatFormat.signField, decide_eq_true_eq, ← BitVec.toNat_inj, signBit, BitVec.toNat_setWidth,
    BitVec.toNat_ushiftRight, Nat.shiftRight_eq_div_pow]
  rcases h with rfl | rfl | rfl <;> simp [ieeeFormat, precision] <;> omega

theorem isNanTest_eq : isNanTest b = (ieeeFormat sizeInBits h).isNaN b.toNat := by
  have hb := b.isLt
  rw [isNanTest, FloatFormat.isNaN, FloatFormat.expField, FloatFormat.fracField, BitVec.ult,
    BitVec.toNat_ofNat, BitVec.toNat_shiftLeft, Bool.eq_iff_iff, decide_eq_true_eq,
    decide_eq_true_eq]
  rcases h with rfl | rfl | rfl <;>
    simp [ieeeFormat, precision, maskExponent, FloatFormat.maxExp, Nat.shiftLeft_eq] <;> omega

theorem exponentOf_toNat : (exponentOf b).toNat = (ieeeFormat sizeInBits h).expField b.toNat := by
  have hb := b.isLt
  rw [exponentOf, FloatFormat.expField]
  rcases h with rfl | rfl | rfl
  · have hty : exponentTy 16 = 8 := by decide
    have hmask : maskExponent 16 = 2 ^ 5 - 1 := by decide
    rw [if_pos (by decide), BitVec.toNat_and, BitVec.toNat_setWidth, BitVec.toNat_ushiftRight,
      BitVec.toNat_ofNat, hty, hmask, Nat.mod_eq_of_lt (by decide : 2 ^ 5 - 1 < 2 ^ 8),
      Nat.and_two_pow_sub_one_eq_mod, Nat.shiftRight_eq_div_pow]
    simp [ieeeFormat, precision, shiftRExponent]
  · have hty : exponentTy 32 = 8 := by decide
    rw [if_neg (by decide), BitVec.toNat_setWidth, BitVec.toNat_ushiftRight, hty,
      Nat.shiftRight_eq_div_pow]
    simp [ieeeFormat, precision, shiftRExponent]
  · have hty : exponentTy 64 = 16 := by decide
    have hmask : maskExponent 64 = 2 ^ 11 - 1 := by decide
    rw [if_pos (by decide), BitVec.toNat_and, BitVec.toNat_setWidth, BitVec.toNat_ushiftRight,
      BitVec.toNat_ofNat, hty, hmask, Nat.mod_eq_of_lt (by decide : 2 ^ 11 - 1 < 2 ^ 16),
      Nat.and_two_pow_sub_one_eq_mod, Nat.shiftRight_eq_div_pow]
    simp [ieeeFormat, precision, shiftRExponent]

theorem fractionOf_toNat : (fractionOf b).toNat = (ieeeFormat sizeInBits h).fracField b.toNat := by
  have hb := b.isLt
  rw [fractionOf, FloatFormat.fracField]
  rcases h with rfl | rfl | rfl
  · have hmask : maskFraction 16 = 2 ^ 10 - 1 := by decide
    rw [if_pos (by decide), BitVec.toNat_setWidth, BitVec.toNat_and, BitVec.toNat_ofNat,
      show fractionTy 16 = 16 by decide, hmask, Nat.mod_eq_of_lt (by decide : 2 ^ 10 - 1 < 2 ^ 16),
      Nat.and_two_pow_sub_one_eq_mod]
    simp [ieeeFormat, precision]; omega
  · have hmask : maskFraction 32 = 2 ^ 23 - 1 := by decide
    rw [if_pos (by decide), BitVec.toNat_setWidth, BitVec.toNat_and, BitVec.toNat_ofNat,
      show fractionTy 32 = 32 by decide, hmask, Nat.mod_eq_of_lt (by decide : 2 ^ 23 - 1 < 2 ^ 32),
      Nat.and_two_pow_sub_one_eq_mod]
    simp [ieeeFormat, precision]; omega
  · have hmask : maskFraction 64 = 2 ^ 52 - 1 := by decide
    rw [if_pos (by decide), BitVec.toNat_setWidth, BitVec.toNat_and, BitVec.toNat_ofNat,
      show fractionTy 64 = 64 by decide, hmask, Nat.mod_eq_of_lt (by decide : 2 ^ 52 - 1 < 2 ^ 64),
      Nat.and_two_pow_sub_one_eq_mod]
    simp [ieeeFormat, precision]; omega

theorem minusZero_fields {n : ℕ} (hn : n = 1 <<< (sizeInBits - 1)) :
    (ieeeFormat sizeInBits h).expField n = 0 ∧ (ieeeFormat sizeInBits h).fracField n = 0 := by
  subst hn
  rcases h with rfl | rfl | rfl <;> decide

theorem eq_minusZero {n : ℕ} (hn : n < 2 ^ sizeInBits)
    (hsign : (ieeeFormat sizeInBits h).signField n = true)
    (hexp : (ieeeFormat sizeInBits h).expField n = 0)
    (hfrac : (ieeeFormat sizeInBits h).fracField n = 0) : n = 1 <<< (sizeInBits - 1) := by
  rw [FloatFormat.signField, decide_eq_true_eq] at hsign
  rw [FloatFormat.expField] at hexp
  rw [FloatFormat.fracField] at hfrac
  rcases h with rfl | rfl | rfl <;>
    simp [ieeeFormat, precision, Nat.shiftLeft_eq] at hsign hexp hfrac ⊢ <;> omega

/-- Normalizing the zero changes neither the number nor whether it is one. -/
theorem positiveZero_spec :
    (ieeeFormat sizeInBits h).isNaN (positiveZero b).toNat =
        (ieeeFormat sizeInBits h).isNaN b.toNat ∧
      (ieeeFormat sizeInBits h).key (positiveZero b).toNat =
        (ieeeFormat sizeInBits h).key b.toNat ∧
      ((ieeeFormat sizeInBits h).signField (positiveZero b).toNat = true →
        (ieeeFormat sizeInBits h).key (positiveZero b).toNat < 0) := by
  rw [positiveZero]
  split
  next heq =>
    have hlt : 1 <<< (sizeInBits - 1) < 2 ^ sizeInBits := by
      rcases h with rfl | rfl | rfl <;> decide
    have hnat : b.toNat = 1 <<< (sizeInBits - 1) := by
      rw [heq, BitVec.toNat_ofNat, Nat.mod_eq_of_lt hlt]
    obtain ⟨hexp, hfrac⟩ := minusZero_fields h hnat
    have hzero : (ieeeFormat sizeInBits h).expField 0 = 0 ∧
        (ieeeFormat sizeInBits h).fracField 0 = 0 := by
      rcases h with rfl | rfl | rfl <;> decide
    have hmag : (ieeeFormat sizeInBits h).magnitude 0 0 = 0 :=
      FloatFormat.magnitude_eq_zero.mpr ⟨rfl, rfl⟩
    have hz : (0 : BitVec sizeInBits).toNat = 0 := by simp
    rw [hz]
    refine ⟨?_, ?_, fun hs => ?_⟩
    · simp only [FloatFormat.isNaN, hexp, hfrac, hzero.1, hzero.2]
    · simp only [FloatFormat.key, hexp, hfrac, hzero.1, hzero.2, hmag,
        Nat.cast_zero, mul_zero]
    · rw [FloatFormat.signField, decide_eq_true_eq] at hs
      exact absurd hs (Nat.not_le.mpr (Nat.two_pow_pos _))
  next hne =>
    refine ⟨rfl, rfl, fun hs => ?_⟩
    rw [FloatFormat.key_of_signField_true hs, neg_lt_zero, Nat.cast_pos]
    refine Nat.pos_of_ne_zero fun hzero => hne ?_
    obtain ⟨hexp, hfrac⟩ := FloatFormat.magnitude_eq_zero.mp hzero
    have := eq_minusZero h b.isLt hs hexp hfrac
    rw [← this, BitVec.ofNat_toNat, BitVec.setWidth_eq]

end Fields

section Order

variable {sizeInBits : ℕ} (h : sizeInBits = 16 ∨ sizeInBits = 32 ∨ sizeInBits = 64)
  {b0 b1 : BitVec sizeInBits}

theorem signBit_eq_iff : signBit b0 = signBit b1 ↔
    (ieeeFormat sizeInBits h).signField b0.toNat =
      (ieeeFormat sizeInBits h).signField b1.toNat := by
  rw [Bool.eq_iff_iff, ← signBit_eq_one h, ← signBit_eq_one h]
  rcases BitVec.eq_zero_or_eq_one (signBit b0) with h0 | h0 <;>
    rcases BitVec.eq_zero_or_eq_one (signBit b1) with h1 | h1 <;> simp [h0, h1]

theorem exponentOf_eq_iff : exponentOf b0 = exponentOf b1 ↔
    (ieeeFormat sizeInBits h).expField b0.toNat = (ieeeFormat sizeInBits h).expField b1.toNat := by
  rw [← BitVec.toNat_inj, exponentOf_toNat h, exponentOf_toNat h]

theorem fractionOf_eq_iff : fractionOf b0 = fractionOf b1 ↔
    (ieeeFormat sizeInBits h).fracField b0.toNat =
      (ieeeFormat sizeInBits h).fracField b1.toNat := by
  rw [← BitVec.toNat_inj, fractionOf_toNat h, fractionOf_toNat h]

/-- Operands whose negative ones are below zero, as after the normalization. -/
def Signed (F : FloatFormat) (n : ℕ) : Prop := F.signField n = true → F.key n < 0

theorem key_nonneg {F : FloatFormat} {n : ℕ} (hs : F.signField n = false) : 0 ≤ F.key n := by
  rw [FloatFormat.key_of_signField_false hs]
  exact Int.natCast_nonneg _

theorem splitEqual_eq (h0 : Signed (ieeeFormat sizeInBits h) b0.toNat)
    (h1 : Signed (ieeeFormat sizeInBits h) b1.toNat) :
    splitEqual b0 b1 = decide ((ieeeFormat sizeInBits h).key b0.toNat =
      (ieeeFormat sizeInBits h).key b1.toNat) := by
  rw [splitEqual, Bool.eq_iff_iff, decide_eq_true_eq]
  by_cases hsign : signBit b0 = signBit b1
  · rw [if_pos hsign, FloatFormat.key_eq_iff ((signBit_eq_iff h).mp hsign),
      ← exponentOf_eq_iff h, ← fractionOf_eq_iff h]
    by_cases hexp : exponentOf b0 = exponentOf b1 <;> simp [hexp]
  · rw [if_neg hsign]
    rw [signBit_eq_iff h] at hsign
    refine ⟨fun hfalse => absurd hfalse Bool.false_ne_true, fun hkey => absurd hkey ?_⟩
    cases hs0 : (ieeeFormat sizeInBits h).signField b0.toNat <;>
      cases hs1 : (ieeeFormat sizeInBits h).signField b1.toNat
    · exact absurd (hs0.trans hs1.symm) hsign
    · exact (lt_of_lt_of_le (h1 hs1) (key_nonneg hs0)).ne'
    · exact (lt_of_lt_of_le (h0 hs0) (key_nonneg hs1)).ne
    · exact absurd (hs0.trans hs1.symm) hsign

theorem splitLess_eq (h0 : Signed (ieeeFormat sizeInBits h) b0.toNat)
    (h1 : Signed (ieeeFormat sizeInBits h) b1.toNat) :
    splitLess b0 b1 = decide ((ieeeFormat sizeInBits h).key b0.toNat <
      (ieeeFormat sizeInBits h).key b1.toNat) := by
  have he : ∀ a c : BitVec sizeInBits, (exponentOf a).ult (exponentOf c) = true ↔
      (ieeeFormat sizeInBits h).expField a.toNat < (ieeeFormat sizeInBits h).expField c.toNat := by
    intro a c
    rw [BitVec.ult, decide_eq_true_eq, exponentOf_toNat h, exponentOf_toNat h]
  have hf : ∀ a c : BitVec sizeInBits, (fractionOf a).ult (fractionOf c) = true ↔
      (ieeeFormat sizeInBits h).fracField a.toNat <
        (ieeeFormat sizeInBits h).fracField c.toNat := by
    intro a c
    rw [BitVec.ult, decide_eq_true_eq, fractionOf_toNat h, fractionOf_toNat h]
  rw [splitLess, Bool.eq_iff_iff, decide_eq_true_eq]
  by_cases hsign : signBit b0 = signBit b1
  · have hfield := (signBit_eq_iff h).mp hsign
    rw [if_pos hsign]
    by_cases hone : signBit b0 = 1#1
    · have hs0 := (signBit_eq_one h b0).mp hone
      rw [FloatFormat.key_lt_iff_of_neg hs0 (hfield ▸ hs0)]
      by_cases hexp : exponentOf b0 = exponentOf b1
      · rw [if_pos hexp, if_pos hone, hf]
        rw [exponentOf_eq_iff h] at hexp
        omega
      · rw [if_neg hexp, hone, beq_self_eq_true, Bool.xor_true, Bool.not_eq_true',
          Bool.eq_false_iff, ne_eq, he]
        rw [exponentOf_eq_iff h] at hexp
        omega
    · have hs0 : (ieeeFormat sizeInBits h).signField b0.toNat = false :=
        Bool.eq_false_iff.mpr fun hs => hone ((signBit_eq_one h b0).mpr hs)
      rw [FloatFormat.key_lt_iff_of_nonneg hs0 (hfield ▸ hs0)]
      by_cases hexp : exponentOf b0 = exponentOf b1
      · rw [if_pos hexp, if_neg hone, hf]
        rw [exponentOf_eq_iff h] at hexp
        omega
      · rw [if_neg hexp, beq_eq_false_iff_ne.mpr hone, Bool.xor_false, he]
        rw [exponentOf_eq_iff h] at hexp
        omega
  · rw [if_neg hsign, beq_iff_eq, signBit_eq_one h]
    rw [signBit_eq_iff h] at hsign
    cases hs0 : (ieeeFormat sizeInBits h).signField b0.toNat <;>
      cases hs1 : (ieeeFormat sizeInBits h).signField b1.toNat
    · exact absurd (hs0.trans hs1.symm) hsign
    · have := h1 hs1
      have := key_nonneg hs0
      exact iff_of_false Bool.false_ne_true (by omega)
    · have := h0 hs0
      have := key_nonneg hs1
      exact iff_of_true rfl (by omega)
    · exact absurd (hs0.trans hs1.symm) hsign

theorem splitUnequal_eq_not (b0 b1 : BitVec sizeInBits) :
    splitUnequal b0 b1 = !splitEqual b0 b1 := by
  rw [splitUnequal, splitEqual]
  by_cases hsign : signBit b0 = signBit b1
  · by_cases hexp : exponentOf b0 = exponentOf b1 <;> simp [hsign, hexp, bne]
  · simp [hsign]

theorem splitGreater_eq_less (b0 b1 : BitVec sizeInBits) :
    splitGreater b0 b1 = splitLess b1 b0 := by
  rw [splitGreater, splitLess]
  by_cases hsign : signBit b0 = signBit b1
  · simp only [hsign, if_true, eq_comm (a := exponentOf b0)]
  · simp only [hsign, Ne.symm hsign, if_false]

end Order

section Passes

variable {sizeInBits : ℕ} (h : sizeInBits = 16 ∨ sizeInBits = 32 ∨ sizeInBits = 64)

/-- The integer code answers as the instruction does when no operand is NaN, and else true for the
unequal predicates and false for the others. -/
theorem splitFPCompare_eq (pred : FPredicate) (hpred : pred.strict = none)
    (op0 op1 : BitVec sizeInBits) :
    splitFPCompare pred op0 op1 =
      some (if (ieeeFormat sizeInBits h).isNaN op0.toNat ||
          (ieeeFormat sizeInBits h).isNaN op1.toNat then decide (pred = .one ∨ pred = .une)
        else pred.eval (ieeeFormat sizeInBits h) op0.toNat op1.toNat) := by
  have h64 : ¬ 64 < sizeInBits := by omega
  obtain ⟨hnan0, hkey0, hneg0⟩ := positiveZero_spec h op0
  obtain ⟨hnan1, hkey1, hneg1⟩ := positiveZero_spec h op1
  by_cases hunordered : ((ieeeFormat sizeInBits h).isNaN op0.toNat ||
      (ieeeFormat sizeInBits h).isNaN op1.toNat) = true
  · cases pred <;> simp only [FPredicate.strict, reduceCtorEq] at hpred <;>
      simp only [splitFPCompare, h64, if_false, isNanTest_eq h, hunordered, if_true]
  · have hboth := hunordered
    rw [Bool.not_eq_true, Bool.or_eq_false_iff] at hboth
    have heq := FloatFormat.value_eq_value_iff hboth.1 hboth.2
    have hlt := FloatFormat.value_lt_value_iff hboth.1 hboth.2
    have hgt := FloatFormat.value_lt_value_iff hboth.2 hboth.1
    cases pred <;> simp only [FPredicate.strict, reduceCtorEq] at hpred <;>
      simp [splitFPCompare, h64, isNanTest_eq h, hboth, splitUnequal_eq_not,
        splitGreater_eq_less, splitEqual_eq h hneg0 hneg1, splitLess_eq h hneg0 hneg1,
        splitLess_eq h hneg1 hneg0, hkey0, hkey1, FPredicate.eval, heq, hlt, hgt]

/-- The two passes keep the result of a compare exactly when no operand is NaN, or the predicate is
ordered (other than "unequal") or `une`, or it is an unordered inequality with equality that the
first pass does not take for want of a constant. -/
theorem floatPasses_agrees_iff (oneConstant : Bool) (pred : FPredicate)
    (op0 op1 : BitVec sizeInBits) :
    floatPasses (ieeeFormat sizeInBits h) oneConstant pred op0 op1 =
        pred.eval (ieeeFormat sizeInBits h) op0.toNat op1.toNat ↔
      ((ieeeFormat sizeInBits h).isNaN op0.toNat = false ∧
        (ieeeFormat sizeInBits h).isNaN op1.toNat = false) ∨
      pred ∈ [.oeq, .ogt, .oge, .olt, .ole, .une] ∨
      pred ∈ [.uge, .ule] ∧ oneConstant = false := by
  have hoeq := splitFPCompare_eq h .oeq rfl op0 op1
  have hogt := splitFPCompare_eq h .ogt rfl op0 op1
  have holt := splitFPCompare_eq h .olt rfl op0 op1
  have hone := splitFPCompare_eq h .one rfl op0 op1
  have hueq := splitFPCompare_eq h .ueq rfl op0 op1
  have hugt := splitFPCompare_eq h .ugt rfl op0 op1
  have hult := splitFPCompare_eq h .ult rfl op0 op1
  have hune := splitFPCompare_eq h .une rfl op0 op1
  have hleft : ∀ p ∈ [FPredicate.oge, .uge, .ole, .ule], splitFPCompare p op0 op1 = none := by
    simp [splitFPCompare]
  simp only [List.forall_mem_cons, List.not_mem_nil, false_implies, implies_true, and_true]
    at hleft
  by_cases hboth : (ieeeFormat sizeInBits h).isNaN op0.toNat = false ∧
      (ieeeFormat sizeInBits h).isNaN op1.toNat = false
  · refine iff_of_true ?_ (.inl hboth)
    have hle : ∀ a b : WithBot (WithTop ℚ), a ≤ b ↔ a < b ∨ a = b := fun a b => le_iff_lt_or_eq
    cases pred <;> cases oneConstant <;>
      simp [floatPasses, FPredicate.strict, hoeq, hogt, holt, hone, hueq, hugt, hult, hune, hleft,
        hboth, FPredicate.eval, hle,
        eq_comm (b := (ieeeFormat sizeInBits h).value op1.toNat)]
  · have hunordered : ((ieeeFormat sizeInBits h).isNaN op0.toNat ||
        (ieeeFormat sizeInBits h).isNaN op1.toNat) = true := by
      rw [Bool.or_eq_true]
      by_contra hnot
      push Not at hnot
      exact hboth ⟨by simpa using hnot.1, by simpa using hnot.2⟩
    cases pred <;> cases oneConstant <;>
      simp [floatPasses, FPredicate.strict, hoeq, hogt, holt, hone, hueq, hugt, hult, hune, hleft,
        hunordered, hboth, FPredicate.eval]

/-- With a NaN, `ugt` is true and its split code is not. -/
theorem floatPasses_agrees_iff_nan :
    floatPasses (ieeeFormat 32 (.inr (.inl rfl))) true .ugt 0x7FC00000#32 0x3F800000#32 ≠
      FPredicate.ugt.eval (ieeeFormat 32 (.inr (.inl rfl))) 0x7FC00000 0x3F800000 := by
  intro heq
  have hagree := (floatPasses_agrees_iff (.inr (.inl rfl)) true .ugt 0x7FC00000#32
    0x3F800000#32).mp heq
  exact absurd hagree (by decide)

end Passes

end AflPlusPlus.Laf
