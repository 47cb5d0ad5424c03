import Mathlib.Data.Set.Basic
import Mathlib.Order.Basic

/-!
# Greedy covers in index order

Every index `i` may have a candidate set `cand i`. The greedy cover goes through the indices in
increasing order and picks an index when it has a candidate and no set picked before contains it.
Every index with a candidate ends up picked or covered by a set picked earlier.
-/

namespace Lib

variable {cand : ℕ → Option (Set ℕ)}

/-- `i` has a candidate and lies in no set picked at a lower index. -/
def Picked (cand : ℕ → Option (Set ℕ)) (i : ℕ) : Prop :=
  (cand i).isSome ∧ ∀ j, j < i → Picked cand j → ∀ C, cand j = some C → i ∉ C
termination_by i

theorem picked_iff (i : ℕ) :
    Picked cand i ↔ (cand i).isSome ∧ ∀ j, j < i → Picked cand j → ∀ C, cand j = some C →
      i ∉ C := by
  rw [Picked]

/-- What the picks below `n` leave uncovered. -/
def Uncovered (cand : ℕ → Option (Set ℕ)) (n : ℕ) (x : ℕ) : Prop :=
  ∀ j, j < n → Picked cand j → ∀ C, cand j = some C → x ∉ C

theorem picked_iff_uncovered (i : ℕ) : Picked cand i ↔ (cand i).isSome ∧ Uncovered cand i i :=
  picked_iff i

theorem uncovered_zero (x : ℕ) : Uncovered cand 0 x := fun j hj => absurd hj (Nat.not_lt_zero j)

theorem uncovered_succ_of_picked {n x : ℕ} {C : Set ℕ} (hp : Picked cand n)
    (hC : cand n = some C) : Uncovered cand (n + 1) x ↔ Uncovered cand n x ∧ x ∉ C := by
  constructor
  · intro h
    exact ⟨fun j hj => h j (Nat.lt_succ_of_lt hj), h n (Nat.lt_succ_self n) hp C hC⟩
  · rintro ⟨h, hx⟩ j hj hpj D hD
    rcases Nat.lt_succ_iff_lt_or_eq.mp hj with hlt | rfl
    · exact h j hlt hpj D hD
    · obtain rfl : C = D := Option.some.inj (hC.symm.trans hD)
      exact hx

theorem uncovered_succ_of_not_picked {n x : ℕ} (hp : ¬ Picked cand n) :
    Uncovered cand (n + 1) x ↔ Uncovered cand n x := by
  constructor
  · exact fun h j hj => h j (Nat.lt_succ_of_lt hj)
  · intro h j hj hpj
    rcases Nat.lt_succ_iff_lt_or_eq.mp hj with hlt | rfl
    · exact h j hlt hpj
    · exact absurd hpj hp

/-- Every index that has a candidate is picked, or lies in a set picked at a lower index. -/
theorem picked_or_covered {i : ℕ} (h : (cand i).isSome) :
    Picked cand i ∨ ∃ j, j < i ∧ Picked cand j ∧ ∃ C, cand j = some C ∧ i ∈ C := by
  by_cases hu : Uncovered cand i i
  · exact Or.inl ((picked_iff_uncovered i).mpr ⟨h, hu⟩)
  · unfold Uncovered at hu
    push Not at hu
    obtain ⟨j, hj, hp, C, hC, hi⟩ := hu
    exact Or.inr ⟨j, hj, hp, C, hC, hi⟩

end Lib
