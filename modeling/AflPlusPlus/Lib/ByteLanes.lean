import AflPlusPlus.Lib.Memory
import AflPlusPlus.Lib.Loop
import AflPlusPlus.Lib.Counting

/-!
# Words as rows of bytes

Additions that carry nothing from one byte of a word to the next, shifts whose stray bits are masked
out, and the number of set bits of a word as the sum of those of its bytes.
-/

namespace Lib

variable {w : ℕ} {x y : BitVec w}

theorem toNat_wordByte (x : BitVec w) (b : ℕ) : (wordByte x b).toNat = x.toNat / 256 ^ b % 256 := by
  rw [wordByte, BitVec.extractLsb'_toNat, Nat.shiftRight_eq_div_pow, Nat.pow_mul]

/-- No byte of the sum overflows. -/
def NoCarry (x y : BitVec w) : Prop :=
  ∀ b < w / 8, (wordByte x b).toNat + (wordByte y b).toNat < 256

/-- The low bytes do not carry either. -/
theorem NoCarry.low (h : NoCarry x y) {b : ℕ} (hb : b ≤ w / 8) :
    x.toNat % 256 ^ b + y.toNat % 256 ^ b < 256 ^ b := by
  induction b with
  | zero => simp [Nat.mod_one]
  | succ b ih =>
    have hbyte := h b (by omega)
    rw [toNat_wordByte, toNat_wordByte] at hbyte
    have hlow := ih (by omega)
    have hhigh : 256 ^ b * (x.toNat / 256 ^ b % 256 + y.toNat / 256 ^ b % 256) ≤ 256 ^ b * 255 :=
      Nat.mul_le_mul_left _ (by omega)
    rw [Nat.mod_pow_succ, Nat.mod_pow_succ, Nat.pow_succ]
    rw [Nat.mul_add] at hhigh
    omega

theorem wordByte_add (hw : 8 ∣ w) (h : NoCarry x y) {b : ℕ} (hb : b < w / 8) :
    wordByte (x + y) b = wordByte x b + wordByte y b := by
  have hpow : 256 ^ (w / 8) = 2 ^ w := by
    rw [show 256 = 2 ^ 8 from rfl, ← Nat.pow_mul, Nat.mul_div_cancel' hw]
  have htop := h.low (Nat.le_refl (w / 8))
  rw [hpow, Nat.mod_eq_of_lt x.isLt, Nat.mod_eq_of_lt y.isLt] at htop
  apply BitVec.eq_of_toNat_eq
  rw [BitVec.toNat_add, toNat_wordByte, toNat_wordByte, toNat_wordByte, BitVec.toNat_add,
    Nat.mod_eq_of_lt htop, Nat.add_div (Nat.pow_pos (by decide)),
    if_neg (Nat.not_le.mpr (h.low hb.le)), Nat.add_zero]
  exact Nat.add_mod _ _ _

/-- A shift inside the bytes, if the mask drops what comes from the next byte. -/
theorem wordByte_shift_and (x m : BitVec w) {s b : ℕ}
    (hm : ∀ j < 8, 8 ≤ s + j → (wordByte m b).getLsbD j = false) :
    wordByte ((x >>> s) &&& m) b = (wordByte x b >>> s) &&& wordByte m b := by
  apply BitVec.eq_of_getLsbD_eq
  intro j hj
  rw [wordByte_and, BitVec.getLsbD_and, BitVec.getLsbD_and, BitVec.getLsbD_ushiftRight]
  by_cases hin : s + j < 8
  · have hshift : (wordByte (x >>> s) b).getLsbD j = (wordByte x b).getLsbD (s + j) := by
      rw [getLsbD_wordByte, getLsbD_wordByte, BitVec.getLsbD_ushiftRight, Nat.add_left_comm]
      simp [hj, hin]
    rw [hshift]
  · rw [hm j hj (by omega), Bool.and_false, Bool.and_false]

/-! ### Counting -/

/-- The number of set bits. -/
def bitCount (x : BitVec w) : ℕ := Nat.count (fun i => x.getLsbD i = true) w

theorem bitCount_le (x : BitVec w) : bitCount x ≤ w := Nat.count_le _

theorem cpopNatRec_eq_count (x : BitVec w) (n acc : ℕ) :
    x.cpopNatRec n acc = acc + Nat.count (fun i => x.getLsbD i = true) n := by
  induction n generalizing acc with
  | zero => rw [BitVec.cpopNatRec_zero_self, Nat.count_zero, Nat.add_zero]
  | succ n ih =>
    rw [BitVec.cpopNatRec_succ, ih, Nat.count_succ]
    cases x.getLsbD n with
    | false => simp
    | true => simp [Nat.add_assoc, Nat.add_comm]

theorem toNat_cpop_eq_bitCount (x : BitVec w) : x.cpop.toNat = bitCount x := by
  rw [BitVec.toNat_cpop, cpopNatRec_eq_count, Nat.zero_add, bitCount]

theorem bitCount_eq_sum (hw : 8 ∣ w) (x : BitVec w) :
    bitCount x = ∑ b ∈ Finset.range (w / 8), bitCount (wordByte x b) := by
  have hblocks := count_blocks (fun i => x.getLsbD i = true) 8 (w / 8)
  rw [Nat.div_mul_cancel hw] at hblocks
  rw [bitCount, hblocks]
  apply Finset.sum_congr rfl
  intro b _
  apply count_congr
  intro i hi
  rw [getLsbD_wordByte, decide_eq_true hi, Bool.true_and, Nat.mul_comm]

/-- A loop that adds up machine words. -/
theorem toNat_forLoop_add (f : ℕ → BitVec w) (n : ℕ) :
    (forLoop n (fun k ret => ret + f k) 0).toNat =
      (∑ k ∈ Finset.range n, (f k).toNat) % 2 ^ w := by
  induction n with
  | zero => simp
  | succ n ih =>
    rw [forLoop_succ, BitVec.toNat_add, ih, Finset.sum_range_succ, Nat.mod_add_mod]

end Lib
