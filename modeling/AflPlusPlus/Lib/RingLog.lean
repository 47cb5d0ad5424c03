import Mathlib.Data.List.Induction

/-!
# Ring logs

Entries are written one after the other into a log of `height` slots, entry `n` into slot
`n % height`. `lastAt height xs i` is the entry that slot `i` holds after the entries `xs`.
-/

namespace Lib

variable {α β : Type*}

/-- The last of the entries whose index is congruent to `i` modulo `height`. -/
def lastAt (height : ℕ) (xs : List α) (i : ℕ) : Option α :=
  ((xs.zipIdx.filter fun p => p.2 % height = i % height).getLast?).map Prod.fst

@[simp]
theorem lastAt_nil (height i : ℕ) : lastAt height ([] : List α) i = none := rfl

/-- One entry more replaces the contents of its own slot only. -/
theorem lastAt_concat (height : ℕ) (xs : List α) (x : α) (i : ℕ) :
    lastAt height (xs ++ [x]) i =
      if xs.length % height = i % height then some x else lastAt height xs i := by
  rw [lastAt, List.zipIdx_append, List.filter_append]
  by_cases h : xs.length % height = i % height
  · rw [if_pos h]
    simp [h]
  · rw [if_neg h]
    simp [h, lastAt]

/-- A slot holds an entry exactly when the log has come that far. -/
theorem lastAt_isSome_iff {height : ℕ} (xs : List α) {i : ℕ} (hi : i < height) :
    (lastAt height xs i).isSome ↔ i < xs.length := by
  induction xs using List.reverseRecOn with
  | nil => simp
  | append_singleton xs x ih =>
    rw [lastAt_concat, List.length_append, List.length_singleton, Nat.mod_eq_of_lt hi]
    by_cases h : xs.length % height = i
    · have hle : xs.length % height ≤ xs.length := Nat.mod_le _ _
      rw [if_pos h]
      exact iff_of_true rfl (by omega)
    · have hne : xs.length ≠ i := fun he => h (by rw [he, Nat.mod_eq_of_lt hi])
      rw [if_neg h, ih]
      omega

end Lib
