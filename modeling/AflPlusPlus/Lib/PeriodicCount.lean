import Mathlib.Order.Interval.Finset.Nat
import Mathlib.Data.Nat.Count

/-!
# Counting at every `m`-th place

A predicate that can only hold at the last place of each block of `m` places.
-/

namespace Lib

variable {p : ℕ → Prop} [DecidablePred p] {m i j n : ℕ}

/-- A block adds one if the predicate holds at its end. -/
theorem count_block (hm : 0 < m) (hp : ∀ j, p j → j % m = m - 1) (g : ℕ) :
    Nat.count p (m * (g + 1)) = Nat.count p (m * g) + if p (m * g + (m - 1)) then 1 else 0 := by
  obtain ⟨m, rfl⟩ := Nat.exists_eq_succ_of_ne_zero hm.ne'
  have hnone : Nat.count (fun k => p ((m + 1) * g + k)) m = 0 := by
    refine Nat.count_of_forall_not fun k hk hpk => ?_
    have hmod := hp _ hpk
    rw [Nat.mul_add_mod, Nat.mod_eq_of_lt (by omega)] at hmod
    omega
  rw [Nat.mul_succ, Nat.count_add, Nat.count_succ, hnone, Nat.zero_add]
  rfl

theorem count_blocks_le (hm : 0 < m) (hp : ∀ j, p j → j % m = m - 1) (g : ℕ) :
    Nat.count p (m * g) ≤ g := by
  induction g with
  | zero => simp
  | succ g ih =>
    rw [count_block hm hp]
    split <;> omega

theorem count_blocks_eq_iff (hm : 0 < m) (hp : ∀ j, p j → j % m = m - 1) (g : ℕ) :
    Nat.count p (m * g) = g ↔ ∀ k, k < g → p (m * k + (m - 1)) := by
  induction g with
  | zero => simp
  | succ g ih =>
    have hle := count_blocks_le hm hp g
    rw [count_block hm hp, Nat.forall_lt_succ_right, ← ih]
    by_cases hlast : p (m * g + (m - 1))
    · rw [if_pos hlast]
      simp [hlast]
    · rw [if_neg hlast]
      simp only [hlast, and_false, iff_false]
      omega

omit [DecidablePred p] in
/-- The places that are ends of blocks, as remainders. -/
theorem forall_blocks_iff (hm : 0 < m) {g : ℕ} :
    (∀ k, k < g → p (m * k + (m - 1))) ↔ ∀ j, j < m * g → j % m = m - 1 → p j := by
  constructor
  · intro h j hj hmod
    have hdiv := Nat.div_add_mod j m
    rw [hmod] at hdiv
    rw [← hdiv]
    exact h (j / m) (Nat.div_lt_of_lt_mul hj)
  · intro h k hk
    refine h _ ?_ ?_
    · calc m * k + (m - 1) < m * k + m := by omega
        _ = m * (k + 1) := (Nat.mul_succ m k).symm
        _ ≤ m * g := Nat.mul_le_mul_left m hk
    · rw [Nat.mul_add_mod, Nat.mod_eq_of_lt (by omega)]

/-- At the end of a block, the count is as large as it can be just when nothing was left out. -/
theorem lt_mul_count_iff (hm : 0 < m) (hp : ∀ j, p j → j % m = m - 1) (hi : i % m = m - 1) :
    i < m * Nat.count p (i + 1) ↔ ∀ j, j ≤ i → j % m = m - 1 → p j := by
  have hdiv := Nat.div_add_mod i m
  have hg : i + 1 = m * (i / m + 1) := by
    rw [Nat.mul_succ]
    omega
  have hle := count_blocks_le hm hp (i / m + 1)
  have hall := (count_blocks_eq_iff hm hp (i / m + 1)).trans (forall_blocks_iff hm)
  simp only [← Nat.lt_succ_iff (n := i), Nat.succ_eq_add_one, hg]
  rw [← hall]
  constructor
  · intro h
    by_contra hne
    have hlt : Nat.count p (m * (i / m + 1)) ≤ i / m := by omega
    have := Nat.mul_le_mul_left m hlt
    omega
  · intro h
    rw [h]
    omega

/-- What is not left out up to `i` is counted up to any place before. -/
theorem le_mul_count (hm : 0 < m) (hp : ∀ j, p j → j % m = m - 1)
    (hall : ∀ j, j ≤ i → j % m = m - 1 → p j) (hn : n ≤ i) :
    n + 1 ≤ m * Nat.count p (n + 1) + (m - 1) := by
  have hdiv := Nat.div_add_mod (n + 1) m
  have hmod := Nat.mod_lt (n + 1) hm
  have hblocks := (count_blocks_eq_iff hm hp ((n + 1) / m)).mpr
    ((forall_blocks_iff hm).mpr fun j hj => hall j (by omega))
  have hmono : Nat.count p (m * ((n + 1) / m)) ≤ Nat.count p (n + 1) :=
    Nat.count_monotone p (by omega)
  rw [hblocks] at hmono
  have := Nat.mul_le_mul_left m hmono
  omega

theorem lt_count_iff : i < Nat.count p (i + 1) ↔ ∀ j, j ≤ i → p j := by
  have h := lt_mul_count_iff (p := p) (i := i) Nat.one_pos (fun j _ => by omega) (by omega)
  rw [Nat.one_mul] at h
  exact h.trans (forall_congr' fun j => by simp [Nat.mod_one])

theorem lt_count_of_le (hall : ∀ j, j ≤ i → p j) (hn : n ≤ i) : n < Nat.count p (n + 1) :=
  lt_count_iff.mpr fun j hj => hall j (hj.trans hn)

/-- Every other place is counted at most. -/
theorem two_mul_count_le (hp : ∀ j, p j → j % 2 = 1) (hn : n ≤ i) :
    2 * Nat.count p i + i % 2 ≤ 2 * Nat.count p n + (i - n) + n % 2 := by
  induction i, hn using Nat.le_induction with
  | base => omega
  | succ i hn ih =>
    rw [Nat.count_succ]
    by_cases hi : p i
    · have := hp i hi
      rw [if_pos hi]
      omega
    · rw [if_neg hi]
      omega

end Lib
