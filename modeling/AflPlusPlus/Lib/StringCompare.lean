import AflPlusPlus.Lib.Ctype

/-!
# The comparison functions of the C library

`compareFrom` is `memcmp`, or with `stop` one of the string functions, which do not look behind a
NUL; `fold` is the identity or `tolower`. The result is the difference of the first bytes that
differ, as unsigned numbers.
-/

namespace Lib

/-- `tolower` in the C locale. -/
def tolower (c : Byte) : Byte := if isupper c then c + 32 else c

/-- Compare at most `n` bytes from position `i` on. -/
def compareFrom (fold : Byte → Byte) (stop : Bool) (a b : Bytes) : ℕ → ℕ → ℤ
  | 0, _ => 0
  | n + 1, i =>
    if fold (a i) ≠ fold (b i) then (fold (a i)).toNat - (fold (b i)).toNat
    else if stop ∧ a i = 0 then 0
    else compareFrom fold stop a b n (i + 1)

variable {fold : Byte → Byte} {stop : Bool} {a b : Bytes}

@[simp]
theorem compareFrom_zero (i : ℕ) : compareFrom fold stop a b 0 i = 0 := rfl

theorem compareFrom_of_ne {n i : ℕ} (h : fold (a i) ≠ fold (b i)) :
    compareFrom fold stop a b (n + 1) i = (fold (a i)).toNat - (fold (b i)).toNat := by
  rw [compareFrom, if_pos h]

theorem compareFrom_of_eq {n i : ℕ} (h : fold (a i) = fold (b i)) :
    compareFrom fold stop a b (n + 1) i =
      if stop ∧ a i = 0 then 0 else compareFrom fold stop a b n (i + 1) := by
  rw [compareFrom, if_neg (not_not_intro h)]

theorem tolower_eq_zero {c : Byte} : tolower c = 0 ↔ c = 0 := by
  revert c
  decide

/-- No two bytes differ by 256, so only equal bytes have a difference that vanishes in a byte. -/
theorem bmod_sub_eq_zero_iff (x y : Byte) : ((x.toNat : ℤ) - y.toNat).bmod 256 = 0 ↔ x = y := by
  have hx := x.isLt
  have hy := y.isLt
  rw [← BitVec.toNat_inj, Int.bmod]
  split <;> omega

/-- The difference of two bytes, computed in a byte and sign-extended. -/
theorem toInt_signExtend_sub (x y : Byte) :
    ((x - y).signExtend 32).toInt = ((x.toNat : ℤ) - y.toNat).bmod 256 := by
  have hx := x.isLt
  have hy := y.isLt
  rw [BitVec.toInt_signExtend_of_le (by decide), BitVec.toInt_eq_toNat_bmod, BitVec.toNat_sub,
    Int.bmod, Int.bmod]
  split <;> split <;> omega

theorem compareFrom_of_agree {n i : ℕ} (h : ∀ k, k < n → fold (a (i + k)) = fold (b (i + k))) :
    compareFrom fold stop a b n i = 0 := by
  induction n generalizing i with
  | zero => rfl
  | succ n ih =>
    have hfirst : fold (a i) = fold (b i) := h 0 (Nat.succ_pos n)
    have hrest : compareFrom fold stop a b n (i + 1) = 0 := ih fun k hk => by
      have := h (k + 1) (by omega)
      rwa [show i + (k + 1) = i + 1 + k by omega] at this
    rw [compareFrom_of_eq hfirst, hrest, ite_self]

/-- A larger limit changes the result only when the bytes up to the smaller one agree and none of
them ends the strings; then the bytes behind it decide. -/
theorem compareFrom_add (fold : Byte → Byte) (stop : Bool) (a b : Bytes) (m d i : ℕ) :
    compareFrom fold stop a b (m + d) i = compareFrom fold stop a b m i ∨
      compareFrom fold stop a b m i = 0 ∧
        (∀ k, k < m → fold (a (i + k)) = fold (b (i + k)) ∧ ¬ (stop = true ∧ a (i + k) = 0)) ∧
        compareFrom fold stop a b (m + d) i = compareFrom fold stop a b d (i + m) := by
  induction m generalizing i with
  | zero => exact .inr ⟨rfl, fun k hk => absurd hk (Nat.not_lt_zero k), by rw [Nat.zero_add]; rfl⟩
  | succ m ih =>
    rw [show m + 1 + d = m + d + 1 by omega]
    by_cases h : fold (a i) = fold (b i)
    · rw [compareFrom_of_eq h, compareFrom_of_eq h]
      by_cases hs : stop ∧ a i = 0
      · rw [if_pos hs, if_pos hs]
        exact .inl rfl
      · rw [if_neg hs, if_neg hs]
        refine (ih (i + 1)).imp_right fun ⟨hzero, hpre, hrest⟩ => ⟨hzero, fun k hk => ?_, ?_⟩
        · cases k with
          | zero => exact ⟨h, hs⟩
          | succ k =>
            have := hpre k (by omega)
            rwa [show i + 1 + k = i + (k + 1) by omega] at this
        · rw [hrest, show i + 1 + m = i + (m + 1) by omega]
    · rw [compareFrom_of_ne h, compareFrom_of_ne h]
      exact .inl rfl

end Lib
