import Mathlib.Data.List.Perm.Basic
import Mathlib.Data.List.Pairwise
import Mathlib.Algebra.Group.Int.Defs
import Mathlib.Algebra.Group.Nat.Defs

/-!
# Sorting with a comparison function

What `qsort` promises: a permutation, which is in order if the comparison is the one of a total
preorder on the elements. A comparison that returns the difference of two 32-bit numbers as an `int`
is one as long as the numbers are less than `2 ^ 31` apart.
-/

namespace Lib

variable {α : Type} {compar : α → α → ℤ} {key : α → ℤ} {base sorted : List α}

/-- The comparison is the one of a total preorder on the elements. -/
structure Consistent (compar : α → α → ℤ) (l : List α) : Prop where
  flip : ∀ a ∈ l, ∀ b ∈ l, compar a b ≤ 0 ↔ 0 ≤ compar b a
  trans : ∀ a ∈ l, ∀ b ∈ l, ∀ c ∈ l, compar a b ≤ 0 → compar b c ≤ 0 → compar a c ≤ 0

/-- A call of `qsort`. -/
structure QsortCall (compar : α → α → ℤ) (base sorted : List α) : Prop where
  perm : sorted.Perm base
  ordered : Consistent compar base → sorted.Pairwise fun a b => compar a b ≤ 0

/-- Comparing by the difference of a key. -/
theorem consistent_of_key (h : ∀ a ∈ base, ∀ b ∈ base, compar a b = key a - key b) :
    Consistent compar base := by
  refine ⟨fun a ha b hb => ?_, fun a ha b hb c hc hab hbc => ?_⟩
  · rw [h a ha b hb, h b hb a ha]
    omega
  · rw [h a ha b hb] at hab
    rw [h b hb c hc] at hbc
    rw [h a ha c hc]
    omega

theorem QsortCall.ordered_of_key (hq : QsortCall compar base sorted)
    (h : ∀ a ∈ base, ∀ b ∈ base, compar a b = key a - key b) :
    sorted.Pairwise fun a b => key a ≤ key b := by
  refine (hq.ordered (consistent_of_key h)).imp_of_mem fun ha hb hle => ?_
  rw [h _ (hq.perm.mem_iff.mp ha) _ (hq.perm.mem_iff.mp hb)] at hle
  omega

/-- A list in order may be left as it is. -/
theorem QsortCall.refl (h : base.Pairwise fun a b => compar a b ≤ 0) : QsortCall compar base base :=
  ⟨List.Perm.refl _, fun _ => h⟩

theorem toInt_sub_of_near {a b : BitVec 32} (hab : a.toNat < b.toNat + 2 ^ 31)
    (hba : b.toNat ≤ a.toNat + 2 ^ 31) : (a - b).toInt = (a.toNat : ℤ) - b.toNat := by
  have ha := a.isLt
  have hb := b.isLt
  rw [BitVec.toInt_eq_toNat_cond, BitVec.toNat_sub]
  split <;> omega

end Lib
