import Mathlib.Algebra.Order.Field.Rat
import Mathlib.Algebra.Order.Field.Power
import Mathlib.Order.WithBot
import Mathlib.Tactic.FieldSimp
import Mathlib.Tactic.Ring
import Mathlib.Tactic.Linarith

/-!
# Binary floating point formats

A format has a sign bit, `expBits` exponent bits and `fracBits` fraction bits. `value` is the number
a word stands for, on the extended rational line, and `key` the same number counted in units of the
smallest subnormal, with infinity next to the largest finite number. Words that are not NaN are
ordered by their keys, and keys of one sign by exponent and fraction.
-/

namespace Lib

structure FloatFormat where
  expBits : ℕ
  fracBits : ℕ
  expBits_pos : 0 < expBits

namespace FloatFormat

variable (F : FloatFormat)

def signField (n : ℕ) : Bool := decide (2 ^ (F.expBits + F.fracBits) ≤ n)

def expField (n : ℕ) : ℕ := n / 2 ^ F.fracBits % 2 ^ F.expBits

def fracField (n : ℕ) : ℕ := n % 2 ^ F.fracBits

def maxExp : ℕ := 2 ^ F.expBits - 1

def bias : ℤ := 2 ^ (F.expBits - 1) - 1

def isNaN (n : ℕ) : Bool := F.expField n = F.maxExp ∧ F.fracField n ≠ 0

/-- The number of a word whose exponent is not the largest. -/
def finiteValue (n : ℕ) : ℚ :=
  (if F.signField n then -1 else 1) *
    if F.expField n = 0 then (2 : ℚ) ^ (1 - F.bias) * (F.fracField n / 2 ^ F.fracBits)
    else (2 : ℚ) ^ (F.expField n - F.bias) * (1 + F.fracField n / 2 ^ F.fracBits)

/-- The number of a word that is not NaN. -/
def value (n : ℕ) : WithBot (WithTop ℚ) :=
  if F.expField n = F.maxExp then (if F.signField n then ⊥ else ((⊤ : WithTop ℚ) : WithBot _))
  else ((F.finiteValue n : WithTop ℚ) : WithBot (WithTop ℚ))

/-- The absolute value in units of the smallest subnormal. -/
def magnitude (e f : ℕ) : ℕ := if e = 0 then f else (2 ^ F.fracBits + f) * 2 ^ (e - 1)

/-- The smallest subnormal. -/
def unit : ℚ := 2 ^ (1 - F.bias) / 2 ^ F.fracBits

def key (n : ℕ) : ℤ :=
  (if F.signField n then -1 else 1) * (F.magnitude (F.expField n) (F.fracField n) : ℤ)

variable {F}

theorem fracField_lt (n : ℕ) : F.fracField n < 2 ^ F.fracBits :=
  Nat.mod_lt _ (Nat.two_pow_pos _)

theorem expField_lt (n : ℕ) : F.expField n < 2 ^ F.expBits := Nat.mod_lt _ (Nat.two_pow_pos _)

theorem unit_pos : 0 < F.unit := div_pos (zpow_pos (by norm_num) _) (by positivity)

theorem magnitude_lt {e f : ℕ} (hf : f < 2 ^ F.fracBits) :
    F.magnitude e f < 2 ^ F.fracBits * 2 ^ e := by
  rw [magnitude]
  split
  next he => rw [he, Nat.pow_zero, Nat.mul_one]; exact hf
  next he =>
    have hpow : 2 ^ e = 2 * 2 ^ (e - 1) := by
      rw [← Nat.pow_succ', Nat.succ_eq_add_one]; congr; omega
    have hpos := Nat.two_pow_pos (e - 1)
    rw [hpow]
    nlinarith

theorem le_magnitude {e : ℕ} (f : ℕ) (he : 0 < e) :
    2 ^ F.fracBits * 2 ^ (e - 1) ≤ F.magnitude e f := by
  rw [magnitude, if_neg he.ne']
  exact Nat.mul_le_mul_right _ (Nat.le_add_right _ _)

theorem magnitude_lt_of_exp_lt {e e' f f' : ℕ} (hf : f < 2 ^ F.fracBits) (h : e < e') :
    F.magnitude e f < F.magnitude e' f' :=
  calc F.magnitude e f < 2 ^ F.fracBits * 2 ^ e := magnitude_lt hf
    _ ≤ 2 ^ F.fracBits * 2 ^ (e' - 1) :=
        Nat.mul_le_mul_left _ (Nat.pow_le_pow_right (by decide) (by omega))
    _ ≤ F.magnitude e' f' := le_magnitude f' (by omega)

theorem magnitude_lt_of_frac_lt {e f f' : ℕ} (h : f < f') :
    F.magnitude e f < F.magnitude e f' := by
  rw [magnitude, magnitude]
  split
  · exact h
  · exact Nat.mul_lt_mul_of_pos_right (Nat.add_lt_add_left h _) (Nat.two_pow_pos _)

/-- Magnitudes are ordered by exponent, then by fraction. -/
theorem magnitude_lt_iff {e e' f f' : ℕ} (hf : f < 2 ^ F.fracBits) (hf' : f' < 2 ^ F.fracBits) :
    F.magnitude e f < F.magnitude e' f' ↔ e < e' ∨ e = e' ∧ f < f' := by
  rcases Nat.lt_trichotomy e e' with h | rfl | h
  · exact ⟨fun _ => .inl h, fun _ => magnitude_lt_of_exp_lt hf h⟩
  · refine ⟨fun hlt => .inr ⟨rfl, ?_⟩, fun h => magnitude_lt_of_frac_lt (by omega)⟩
    by_contra hnot
    rcases Nat.lt_or_eq_of_le (Nat.not_lt.mp hnot) with h | h
    · exact absurd (magnitude_lt_of_frac_lt (F := F) (e := e) h) (by omega)
    · rw [h] at hlt
      exact Nat.lt_irrefl _ hlt
  · have hgt : F.magnitude e' f' < F.magnitude e f := magnitude_lt_of_exp_lt hf' h
    exact ⟨fun _ => by omega, fun _ => by omega⟩

theorem magnitude_eq_iff {e e' f f' : ℕ} (hf : f < 2 ^ F.fracBits) (hf' : f' < 2 ^ F.fracBits) :
    F.magnitude e f = F.magnitude e' f' ↔ e = e' ∧ f = f' := by
  refine ⟨fun h => ?_, fun ⟨he, hff⟩ => by rw [he, hff]⟩
  have h₁ : F.magnitude e f < F.magnitude e' f' ↔ _ := magnitude_lt_iff hf hf'
  have h₂ : F.magnitude e' f' < F.magnitude e f ↔ _ := magnitude_lt_iff hf' hf
  omega

theorem magnitude_eq_zero {e f : ℕ} : F.magnitude e f = 0 ↔ e = 0 ∧ f = 0 := by
  rw [magnitude]
  split
  next he => simp [he]
  next he =>
    have hpos : 0 < (2 ^ F.fracBits + f) * 2 ^ (e - 1) :=
      Nat.mul_pos (Nat.add_pos_left (Nat.two_pow_pos _) _) (Nat.two_pow_pos _)
    exact ⟨fun h => absurd h hpos.ne', fun h => absurd h.1 he⟩

/-- A finite word counts units. -/
theorem finiteValue_eq (n : ℕ) : F.finiteValue n = F.key n * F.unit := by
  have hfrac : (2 : ℚ) ^ F.fracBits ≠ 0 := by positivity
  rw [finiteValue, key, unit, magnitude]
  rw [Int.cast_mul, mul_assoc]
  congr 1
  · split <;> simp
  · split
    next he =>
      push_cast
      field_simp
    next he =>
      have hexp : (2 : ℚ) ^ ((F.expField n : ℤ) - F.bias) =
          2 ^ (F.expField n - 1) * 2 ^ (1 - F.bias) := by
        rw [← zpow_natCast, ← zpow_add₀ (by norm_num)]
        congr 1
        push_cast [Nat.one_le_iff_ne_zero.mpr he]
        ring
      rw [hexp]
      push_cast
      field_simp

/-- Where infinity stands among the keys. -/
theorem key_bounds {n : ℕ} (hnan : F.isNaN n = false) :
    (F.expField n = F.maxExp ∧ F.key n =
        (if F.signField n then -1 else 1) * (F.magnitude F.maxExp 0 : ℤ)) ∨
      F.expField n ≠ F.maxExp ∧ -(F.magnitude F.maxExp 0 : ℤ) < F.key n ∧
        F.key n < F.magnitude F.maxExp 0 := by
  by_cases he : F.expField n = F.maxExp
  · have hf : F.fracField n = 0 := by
      simpa [isNaN, he] using hnan
    exact .inl ⟨he, by rw [key, he, hf]⟩
  · have hlt : F.magnitude (F.expField n) (F.fracField n) < F.magnitude F.maxExp 0 := by
      refine magnitude_lt_of_exp_lt (fracField_lt n) ?_
      have := expField_lt (F := F) n
      rw [maxExp] at he ⊢
      omega
    refine .inr ⟨he, ?_, ?_⟩ <;> rw [key] <;> split <;> omega

theorem key_of_signField_false {n : ℕ} (h : F.signField n = false) :
    F.key n = F.magnitude (F.expField n) (F.fracField n) := by
  rw [key, h, if_neg Bool.false_ne_true, one_mul]

theorem key_of_signField_true {n : ℕ} (h : F.signField n = true) :
    F.key n = -F.magnitude (F.expField n) (F.fracField n) := by
  rw [key, h, if_pos rfl, neg_one_mul]

/-- Keys of one sign are equal when exponent and fraction are. -/
theorem key_eq_iff {m n : ℕ} (h : F.signField m = F.signField n) :
    F.key m = F.key n ↔ F.expField m = F.expField n ∧ F.fracField m = F.fracField n := by
  rw [← magnitude_eq_iff (fracField_lt m) (fracField_lt n)]
  cases hn : F.signField n with
  | false => rw [key_of_signField_false (h.trans hn), key_of_signField_false hn, Nat.cast_inj]
  | true => rw [key_of_signField_true (h.trans hn), key_of_signField_true hn, neg_inj, Nat.cast_inj]

theorem key_lt_iff_of_nonneg {m n : ℕ} (hm : F.signField m = false) (hn : F.signField n = false) :
    F.key m < F.key n ↔
      F.expField m < F.expField n ∨
        F.expField m = F.expField n ∧ F.fracField m < F.fracField n := by
  rw [key_of_signField_false hm, key_of_signField_false hn, Nat.cast_lt,
    magnitude_lt_iff (fracField_lt m) (fracField_lt n)]

theorem key_lt_iff_of_neg {m n : ℕ} (hm : F.signField m = true) (hn : F.signField n = true) :
    F.key m < F.key n ↔
      F.expField n < F.expField m ∨
        F.expField n = F.expField m ∧ F.fracField n < F.fracField m := by
  rw [key_of_signField_true hm, key_of_signField_true hn, neg_lt_neg_iff, Nat.cast_lt,
    magnitude_lt_iff (fracField_lt n) (fracField_lt m)]

/-- Words that are not NaN are ordered by their keys. -/
theorem value_lt_value_iff {m n : ℕ} (hm : F.isNaN m = false) (hn : F.isNaN n = false) :
    F.value m < F.value n ↔ F.key m < F.key n := by
  have hpos : (0 : ℤ) < F.magnitude F.maxExp 0 := by
    have hmax : F.maxExp ≠ 0 := by
      have := Nat.pow_le_pow_right (n := 2) (by decide) F.expBits_pos
      rw [maxExp]
      omega
    exact_mod_cast Nat.pos_of_ne_zero fun h => hmax (magnitude_eq_zero.mp h).1
  rw [value, value]
  rcases key_bounds hm with ⟨hem, hkm⟩ | ⟨hem, hlm, hum⟩ <;>
    rcases key_bounds hn with ⟨hen, hkn⟩ | ⟨hen, hln, hun⟩
  · rw [if_pos hem, if_pos hen, hkm, hkn]
    cases F.signField m <;> cases F.signField n <;> simp
    omega
  · rw [if_pos hem, if_neg hen, hkm]
    split
    · simp; omega
    · simp; omega
  · rw [if_neg hem, if_pos hen, hkn]
    split
    · simp; omega
    · exact iff_of_true (WithBot.coe_lt_coe.mpr (WithTop.coe_lt_top _)) (by omega)
  · rw [if_neg hem, if_neg hen, WithBot.coe_lt_coe, WithTop.coe_lt_coe, finiteValue_eq,
      finiteValue_eq, mul_lt_mul_iff_of_pos_right unit_pos, Int.cast_lt]

theorem value_eq_value_iff {m n : ℕ} (hm : F.isNaN m = false) (hn : F.isNaN n = false) :
    F.value m = F.value n ↔ F.key m = F.key n := by
  have h₁ := value_lt_value_iff hm hn
  have h₂ := value_lt_value_iff hn hm
  constructor
  · intro h
    rw [h] at h₁ h₂
    have hnot₁ := mt h₁.mpr (lt_irrefl _)
    have hnot₂ := mt h₂.mpr (lt_irrefl _)
    omega
  · intro h
    rcases lt_trichotomy (F.value m) (F.value n) with hlt | heq | hlt
    · exact absurd (h₁.mp hlt) (by omega)
    · exact heq
    · exact absurd (h₂.mp hlt) (by omega)

end FloatFormat

end Lib
