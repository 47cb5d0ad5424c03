import Mathlib.Data.Set.Insert
import Mathlib.Logic.Function.Basic

/-!
# Tables of chains

A table of chains holds each item in the chain that `index` assigns to it. `Stores` says which set a
table stands for; a search in the right chain decides membership, and putting an item in front of
its chain adds it to the set.
-/

namespace Lib

variable {α : Type*} {index : α → ℕ} {table : ℕ → List α} {s : Set α}

/-- The table stands for the set `s`. -/
def Stores (index : α → ℕ) (table : ℕ → List α) (s : Set α) : Prop :=
  ∀ x, x ∈ table (index x) ↔ x ∈ s

theorem stores_empty (index : α → ℕ) : Stores index (fun _ => []) ∅ :=
  fun _ => iff_of_false List.not_mem_nil (Set.notMem_empty _)

theorem Stores.insert (h : Stores index table s) (x : α) :
    Stores index (Function.update table (index x) (x :: table (index x))) (insert x s) := by
  intro y
  rw [Set.mem_insert_iff, ← h y]
  by_cases hy : index y = index x
  · rw [hy, Function.update_self, List.mem_cons]
  · rw [Function.update_of_ne hy]
    exact ⟨Or.inr, fun hor => hor.resolve_left fun heq => hy (congrArg index heq)⟩

end Lib
