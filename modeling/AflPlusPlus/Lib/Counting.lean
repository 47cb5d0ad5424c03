import Mathlib.Algebra.BigOperators.Group.Finset.Basic
import Mathlib.Algebra.Order.BigOperators.Group.Finset
import Mathlib.Data.Nat.Count

/-!
# Counting below a bound

How many numbers below a bound satisfy a condition: conditions that agree below the bound, periodic
ones, ones with a bound of their own, and the count block by block.
-/

namespace Lib

/-- Only the numbers below the bound matter. -/
theorem count_congr {p q : ℕ → Prop} [DecidablePred p] [DecidablePred q] {n : ℕ}
    (h : ∀ i < n, p i ↔ q i) : Nat.count p n = Nat.count q n := by
  induction n with
  | zero => rw [Nat.count_zero, Nat.count_zero]
  | succ n ih =>
    rw [Nat.count_succ, Nat.count_succ, ih fun i hi => h i (by omega)]
    simp only [h n (by omega)]

/-- Over whole periods. -/
theorem count_periodic {p : ℕ → Prop} [DecidablePred p] {k : ℕ} (hp : ∀ j, p (j + k) ↔ p j)
    (q : ℕ) : Nat.count p (q * k) = q * Nat.count p k := by
  induction q with
  | zero => simp
  | succ q ih =>
    rw [Nat.succ_mul, Nat.count_add', Nat.succ_mul, ← ih]
    simp only [hp]

/-- A condition that only numbers below `t` meet. -/
theorem count_lt_and (p : ℕ → Prop) [DecidablePred p] (t n : ℕ) :
    Nat.count (fun o => o < t ∧ p o) n = Nat.count p (min t n) := by
  induction n with
  | zero => rw [Nat.min_zero, Nat.count_zero, Nat.count_zero]
  | succ n ih =>
    rw [Nat.count_succ, ih]
    by_cases hn : n < t
    · rw [Nat.min_eq_right hn.le, Nat.min_eq_right hn, Nat.count_succ]
      simp only [hn, true_and]
    · rw [if_neg fun h => hn h.1, Nat.add_zero, Nat.min_eq_left (by omega),
        Nat.min_eq_left (by omega)]

/-- Counting block by block. -/
theorem count_blocks (p : ℕ → Prop) [DecidablePred p] (k n : ℕ) :
    Nat.count p (n * k) = ∑ b ∈ Finset.range n, Nat.count (fun i => p (b * k + i)) k := by
  induction n with
  | zero => rw [Nat.zero_mul, Nat.count_zero, Finset.range_zero, Finset.sum_empty]
  | succ n ih => rw [Nat.succ_mul, Nat.count_add, ih, Finset.sum_range_succ]

end Lib
