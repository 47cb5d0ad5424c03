import Mathlib.Data.Nat.ModEq
import Mathlib.Data.Nat.Prime.Basic
import AflPlusPlus.Lib.Loop

/-!
# Bijective mixing of machine words

The steps hash finalisers are made of lose no information: the exclusive or of a word with itself
shifted to the right, and the product with an odd number. `interleave x y n` puts the lowest `n`
bits of two words on the even and the odd places of a third one.
-/

namespace Lib

variable {w : ℕ}

/-- `x ^= x >> k`. -/
def xorShift (k : ℕ) (x : BitVec w) : BitVec w := x ^^^ (x >>> k)

/-- The difference of two words with one image equals itself shifted, so it is zero. -/
theorem xorShift_injective {k : ℕ} (hk : 0 < k) :
    Function.Injective (xorShift k : BitVec w → BitVec w) := by
  intro x y h
  have hdiff : x ^^^ y = (x ^^^ y) >>> k := by
    apply BitVec.eq_of_getLsbD_eq
    intro i _
    have hbit := congrArg (fun z : BitVec w => z.getLsbD i) h
    simp only [xorShift, BitVec.getLsbD_xor, BitVec.getLsbD_ushiftRight] at hbit ⊢
    generalize x.getLsbD i = a, y.getLsbD i = b, x.getLsbD (k + i) = c, y.getLsbD (k + i) = d
      at hbit ⊢
    revert hbit
    cases a <;> cases b <;> cases c <;> cases d <;> simp
  have hnat : (x ^^^ y).toNat = (x ^^^ y).toNat / 2 ^ k := by
    calc (x ^^^ y).toNat = ((x ^^^ y) >>> k).toNat := congrArg BitVec.toNat hdiff
      _ = (x ^^^ y).toNat / 2 ^ k := by rw [BitVec.toNat_ushiftRight, Nat.shiftRight_eq_div_pow]
  have hzero : (x ^^^ y).toNat = 0 := by
    by_contra hne
    have hlt := Nat.div_lt_self (Nat.pos_of_ne_zero hne) (Nat.one_lt_two_pow (n := k) (by omega))
    omega
  exact BitVec.xor_eq_zero_iff.mp (BitVec.eq_of_toNat_eq hzero)

theorem mul_odd_injective {m : BitVec w} (hm : m.toNat % 2 = 1) :
    Function.Injective (fun x => x * m) := by
  intro x y h
  have hprod : x.toNat * m.toNat ≡ y.toNat * m.toNat [MOD 2 ^ w] := by
    have hnat := congrArg BitVec.toNat h
    rwa [BitVec.toNat_mul, BitVec.toNat_mul] at hnat
  have hcoprime : Nat.Coprime (2 ^ w) m.toNat :=
    Nat.Coprime.pow_left w (Nat.odd_iff.mpr hm).coprime_two_left
  have hmod := Nat.ModEq.cancel_right_of_coprime hcoprime hprod
  apply BitVec.eq_of_toNat_eq
  rwa [Nat.ModEq, Nat.mod_eq_of_lt x.isLt, Nat.mod_eq_of_lt y.isLt] at hmod

/-- `for (i = 0; i < n; i++) r |= ((x & (1 << i)) << i) | ((y & (1 << i)) << (i + 1));` from
zero. -/
def interleave (x y : BitVec w) (n : ℕ) : BitVec w :=
  forLoop n (fun i result =>
    result ||| (((x &&& (1#w <<< i)) <<< i) ||| ((y &&& (1#w <<< i)) <<< (i + 1)))) 0#w

/-- Bit `i` of a word alone, moved up by `j` places. -/
theorem getLsbD_single_shiftLeft (x : BitVec w) (i j : ℕ) {k : ℕ} (hk : k < w) :
    ((x &&& (1#w <<< i)) <<< j).getLsbD k = (decide (k = i + j) && x.getLsbD i) := by
  rw [BitVec.getLsbD_shiftLeft, BitVec.getLsbD_and, BitVec.getLsbD_shiftLeft]
  by_cases hkj : k = i + j
  · subst hkj
    simp [hk, show i < w by omega, show 0 < w by omega]
  · by_cases hlow : k < j
    · simp [hkj, hlow]
    · by_cases hbit : k - j < i
      · simp [hkj, hbit]
      · simp [hkj, show k - j - i ≠ 0 by omega]

/-- Bit `k` comes from `x` on an even place and from `y` on an odd one. -/
theorem getLsbD_interleave (x y : BitVec w) (n : ℕ) {k : ℕ} (hk : k < w) :
    (interleave x y n).getLsbD k =
      (decide (k < 2 * n) && if k % 2 = 0 then x.getLsbD (k / 2) else y.getLsbD (k / 2)) := by
  refine forLoop_induct (fun i (r : BitVec w) => ∀ k, k < w → r.getLsbD k =
    (decide (k < 2 * i) && if k % 2 = 0 then x.getLsbD (k / 2) else y.getLsbD (k / 2))) ?_ ?_ k hk
  · intro k _
    simp
  · intro i r _ ih k hk
    rw [BitVec.getLsbD_or, ih k hk, BitVec.getLsbD_or, getLsbD_single_shiftLeft x i i hk,
      getLsbD_single_shiftLeft y i (i + 1) hk]
    obtain hlt | rfl | rfl | hge : k < 2 * i ∨ k = 2 * i ∨ k = 2 * i + 1 ∨ 2 * i + 2 ≤ k := by
      omega
    · simp [hlt, show k < 2 * (i + 1) by omega, show k ≠ i + i by omega,
        show k ≠ i + (i + 1) by omega]
    · rw [decide_eq_true (show 2 * i = i + i by omega),
        decide_eq_false (show 2 * i ≠ i + (i + 1) by omega)]
      simp
    · rw [decide_eq_false (show 2 * i + 1 ≠ i + i by omega),
        decide_eq_true (show 2 * i + 1 = i + (i + 1) by omega)]
      simp [show (2 * i + 1) / 2 = i by omega, show ¬ 2 * i + 1 < 2 * i by omega,
        show 2 * i + 1 < 2 * (i + 1) by omega]
    · simp [show ¬ k < 2 * i by omega, show ¬ k < 2 * (i + 1) by omega,
        show k ≠ i + i by omega, show k ≠ i + (i + 1) by omega]

/-- The interleaved word tells the lowest `n` bits of both. -/
theorem interleave_eq_iff {n : ℕ} (hn : 2 * n ≤ w) (x y x' y' : BitVec w) :
    interleave x y n = interleave x' y' n ↔
      ∀ i, i < n → x.getLsbD i = x'.getLsbD i ∧ y.getLsbD i = y'.getLsbD i := by
  constructor
  · intro h i hi
    have heven := congrArg (fun z : BitVec w => z.getLsbD (2 * i)) h
    have hodd := congrArg (fun z : BitVec w => z.getLsbD (2 * i + 1)) h
    simp only [getLsbD_interleave _ _ n (show 2 * i < w by omega)] at heven
    simp only [getLsbD_interleave _ _ n (show 2 * i + 1 < w by omega)] at hodd
    refine ⟨by simpa [hi] using heven, ?_⟩
    simpa [show 2 * i + 1 < 2 * n by omega, show (2 * i + 1) / 2 = i by omega] using hodd
  · intro h
    apply BitVec.eq_of_getLsbD_eq
    intro k hk
    rw [getLsbD_interleave _ _ n hk, getLsbD_interleave _ _ n hk]
    by_cases hlt : k < 2 * n
    · obtain ⟨hx, hy⟩ := h (k / 2) (by omega)
      rw [hx, hy]
    · simp [hlt]

end Lib
