import Mathlib.Algebra.BigOperators.Group.Finset.Basic
import Mathlib.Algebra.BigOperators.Group.Finset.Piecewise
import Mathlib.Algebra.Order.BigOperators.Group.Finset

/-!
# Sums and counts over an array under single writes

`total n g f` adds `g` over the first `n` cells of the array `f`, and `tally n p f` counts the
cells whose content satisfies `p`. One write changes either by what leaves and what enters.
-/

namespace Lib
open Finset

variable {β : Type*}

/-- The sum of `g` over cells `0 … n - 1`. -/
def total (n : ℕ) (g : β → ℕ) (f : ℕ → β) : ℕ := ∑ i ∈ range n, g (f i)

/-- The number of cells among `0 … n - 1` whose content satisfies `p`. -/
def tally (n : ℕ) (p : β → Prop) [DecidablePred p] (f : ℕ → β) : ℕ :=
  ((range n).filter fun i => p (f i)).card

theorem total_update {n i : ℕ} (g : β → ℕ) (f : ℕ → β) (b : β) (hi : i < n) :
    total n g (Function.update f i b) + g (f i) = total n g f + g b := by
  have hmem : i ∈ range n := mem_range.mpr hi
  have hrest : ∑ j ∈ (range n).erase i, g (Function.update f i b j) =
      ∑ j ∈ (range n).erase i, g (f j) := by
    refine sum_congr rfl fun j hj => ?_
    rw [Function.update_of_ne (ne_of_mem_erase hj)]
  unfold total
  rw [← add_sum_erase _ _ hmem, ← add_sum_erase _ (fun j => g (f j)) hmem, hrest,
    Function.update_self]
  omega

/-- A write beyond the counted cells is not seen. -/
theorem total_update_of_le {n i : ℕ} (g : β → ℕ) (f : ℕ → β) (b : β) (hi : n ≤ i) :
    total n g (Function.update f i b) = total n g f := by
  refine sum_congr rfl fun j hj => ?_
  have hne : j ≠ i := by have := mem_range.mp hj; omega
  rw [Function.update_of_ne hne]

theorem total_succ (n : ℕ) (g : β → ℕ) (f : ℕ → β) :
    total (n + 1) g f = total n g f + g (f n) := sum_range_succ _ _

theorem total_le_mul {n b : ℕ} {g : β → ℕ} {f : ℕ → β} (h : ∀ i, i < n → g (f i) ≤ b) :
    total n g f ≤ n * b := by
  induction n with
  | zero => exact Nat.zero_le _
  | succ n ih =>
    have hlast := h n (Nat.lt_succ_self n)
    have hrest := ih fun i hi => h i (Nat.lt_succ_of_lt hi)
    rw [total_succ, Nat.succ_mul]
    omega

variable {p : β → Prop} [DecidablePred p]

theorem tally_eq_total (n : ℕ) (f : ℕ → β) :
    tally n p f = total n (fun b => if p b then 1 else 0) f := card_filter _ _

theorem tally_update {n i : ℕ} (f : ℕ → β) (b : β) (hi : i < n) :
    tally n p (Function.update f i b) + (if p (f i) then 1 else 0) =
      tally n p f + (if p b then 1 else 0) := by
  rw [tally_eq_total, tally_eq_total]
  exact total_update _ f b hi

theorem tally_succ (n : ℕ) (f : ℕ → β) :
    tally (n + 1) p f = tally n p f + (if p (f n) then 1 else 0) := by
  rw [tally_eq_total, tally_eq_total, total_succ]

theorem tally_update_of_le {n i : ℕ} (f : ℕ → β) (b : β) (hi : n ≤ i) :
    tally n p (Function.update f i b) = tally n p f := by
  rw [tally_eq_total, tally_eq_total, total_update_of_le _ f b hi]

theorem tally_le (n : ℕ) (f : ℕ → β) : tally n p f ≤ n := by
  simpa [tally] using card_filter_le (range n) fun i => p (f i)

theorem tally_pos {n i : ℕ} {f : ℕ → β} (hi : i < n) (h : p (f i)) : 0 < tally n p f :=
  card_pos.mpr ⟨i, mem_filter.mpr ⟨mem_range.mpr hi, h⟩⟩

/-- The wrapped count after `l` has left and `e` has entered. -/
theorem ofNat_recount {w n n' l e : ℕ} (h : n' + l = n + e) :
    BitVec.ofNat w n' = BitVec.ofNat w n - BitVec.ofNat w l + BitVec.ofNat w e := by
  have hsum := congrArg (BitVec.ofNat w) h
  rw [BitVec.ofNat_add, BitVec.ofNat_add] at hsum
  rw [BitVec.sub_add_comm, ← hsum, BitVec.add_sub_cancel]

theorem tally_congr {n : ℕ} {f g : ℕ → β} (h : ∀ i, i < n → (p (f i) ↔ p (g i))) :
    tally n p f = tally n p g := by
  rw [tally, tally]
  exact congrArg card (filter_congr fun i hi => h i (mem_range.mp hi))

theorem tally_eq_zero {n : ℕ} {f : ℕ → β} : tally n p f = 0 ↔ ∀ i, i < n → ¬ p (f i) := by
  simp [tally, filter_eq_empty_iff]

end Lib
