import Mathlib.Data.List.Infix
import Mathlib.Logic.Function.Basic
import Mathlib.Tactic.SplitIfs

/-!
# The last entries of a ring

A ring of `n` slots with the next slot to be written at `idx`. Read from `idx` on it lists its
entries from the oldest to the newest; a write drops the oldest and appends the new one.
-/

namespace Lib

variable {α β : Type*}

/-- The entries from the oldest to the newest. -/
def ringList (n : ℕ) (slots : ℕ → α) (idx : ℕ) : List α :=
  (List.range n).map fun i => slots ((i + idx) % n)

/-- The slot behind `idx`. -/
def ringNext (n idx : ℕ) : ℕ := if n ≤ idx + 1 then 0 else idx + 1

/-- The slot that was written last. -/
def ringLast (n idx : ℕ) : ℕ := if idx = 0 then n - 1 else idx - 1

/-- The last `n` entries of a list. -/
def lastN (n : ℕ) (xs : List α) : List α := xs.drop (xs.length - n)

variable {n idx i : ℕ} {slots : ℕ → α} {x : α} {xs ys : List α}

@[simp]
theorem length_ringList : (ringList n slots idx).length = n := by
  rw [ringList, List.length_map, List.length_range]

theorem getElem_ringList (hi : i < (ringList n slots idx).length) :
    (ringList n slots idx)[i] = slots ((i + idx) % n) := by
  simp [ringList]

theorem ringNext_lt (hidx : idx < n) : ringNext n idx < n := by
  rw [ringNext]
  split_ifs <;> omega

theorem mod_ringNext (hidx : idx < n) : (i + ringNext n idx) % n = (i + 1 + idx) % n := by
  rw [ringNext]
  split_ifs with hwrap
  · obtain rfl : n = idx + 1 := by omega
    rw [Nat.add_zero, show i + 1 + idx = i + (idx + 1) by omega, Nat.add_mod_right]
  · rw [show i + (idx + 1) = i + 1 + idx by omega]

theorem mod_of_lt_two {a : ℕ} (ha : a < n + n) : a % n = if a < n then a else a - n := by
  split_ifs with hlt
  · exact Nat.mod_eq_of_lt hlt
  · rw [Nat.mod_eq_sub_mod (by omega), Nat.mod_eq_of_lt (by omega)]

/-- A write drops the oldest entry and appends the new one. -/
theorem ringList_write (hidx : idx < n) :
    ringList n (Function.update slots idx x) (ringNext n idx) =
      (ringList n slots idx).tail ++ [x] := by
  apply List.ext_getElem
  · rw [length_ringList, List.length_append, List.length_tail, length_ringList,
      List.length_singleton]
    omega
  · intro i hi hi'
    rw [length_ringList] at hi
    rw [getElem_ringList, mod_ringNext hidx]
    by_cases hlast : i + 1 = n
    · have hle : (ringList n slots idx).tail.length ≤ i := by
        rw [List.length_tail, length_ringList]
        omega
      rw [List.getElem_append_right hle, hlast, Nat.add_mod_left, Nat.mod_eq_of_lt hidx,
        Function.update_self, List.getElem_singleton]
    · have hlt : i < (ringList n slots idx).tail.length := by
        rw [List.length_tail, length_ringList]
        omega
      have hne : (i + 1 + idx) % n ≠ idx := by
        rw [mod_of_lt_two (by omega)]
        split_ifs <;> omega
      rw [List.getElem_append_left hlt, List.getElem_tail, getElem_ringList,
        Function.update_of_ne hne]

/-- When all slots but the one written last are cleared, its entry is the only one left. -/
theorem ringList_clear {e : α} (hidx : idx < n) :
    ringList n (fun i => if i = ringLast n idx then slots i else e) idx =
      List.replicate (n - 1) e ++ [slots (ringLast n idx)] := by
  have hnewest : ∀ i, i < n → ((i + idx) % n = ringLast n idx ↔ i = n - 1) := by
    intro i hi
    rw [mod_of_lt_two (by omega), ringLast]
    split_ifs <;> omega
  apply List.ext_getElem
  · rw [length_ringList, List.length_append, List.length_replicate, List.length_singleton]
    omega
  · intro i hi hi'
    rw [length_ringList] at hi
    rw [getElem_ringList]
    by_cases hlast : i = n - 1
    · have hle : (List.replicate (n - 1) e).length ≤ i := by
        rw [List.length_replicate]
        omega
      have hslot := (hnewest i hi).mpr hlast
      rw [if_pos hslot, hslot, List.getElem_append_right hle, List.getElem_singleton]
    · have hlt : i < (List.replicate (n - 1) e).length := by
        rw [List.length_replicate]
        omega
      rw [if_neg fun h => hlast ((hnewest i hi).mp h), List.getElem_append_left hlt,
        List.getElem_replicate]

/-- The newest entry stands at the end. -/
theorem getLast?_ringList (hidx : idx < n) :
    (ringList n slots idx).getLast? = some (slots (ringLast n idx)) := by
  have hmod : (n - 1 + idx) % n = ringLast n idx := by
    rw [mod_of_lt_two (by omega), ringLast]
    split_ifs <;> omega
  rw [List.getLast?_eq_getElem?, length_ringList,
    List.getElem?_eq_getElem (by rw [length_ringList]; omega), getElem_ringList, hmod]

/-! ### The window that the ring holds -/

/-- What a ring of `n` slots holds after the entries `xs`; at first every slot holds `e`. -/
def window (n : ℕ) (e : α) (xs : List α) : List α := (List.replicate n e ++ xs).drop xs.length

theorem window_nil {e : α} : window n e [] = List.replicate n e := by
  rw [window, List.append_nil, List.length_nil, List.drop_zero]

theorem window_concat {e : α} (hn : 0 < n) :
    window n e (xs ++ [x]) = (window n e xs).tail ++ [x] := by
  rw [window, window, ← List.drop_one, List.drop_drop, List.length_append, List.length_singleton,
    ← List.append_assoc, List.drop_append_of_le_length]
  rw [List.length_append, List.length_replicate]
  omega

theorem window_singleton {e : α} (hn : 0 < n) :
    window n e [x] = List.replicate (n - 1) e ++ [x] := by
  have hone : window n e ([] ++ [x]) = (window n e []).tail ++ [x] := window_concat hn
  rwa [List.nil_append, window_nil, List.tail_replicate] at hone

theorem length_lastN_le : (lastN n xs).length ≤ n := by
  rw [lastN, List.length_drop]
  omega

theorem mem_lastN_concat (hn : 0 < n) : x ∈ lastN n (xs ++ [x]) := by
  rw [lastN, List.length_append, List.length_singleton, List.drop_append_of_le_length (by omega)]
  exact List.mem_append_right _ (List.mem_singleton_self x)

/-- Without the entries that were there at first, the window is the last `n` entries. -/
theorem filter_window {e : α} {p : α → Bool} (he : p e = false) :
    (window n e xs).filter p = (lastN n xs).filter p := by
  rw [window, lastN, List.drop_append, List.filter_append, List.length_replicate,
    List.drop_replicate, List.filter_replicate_of_neg (by rw [he]; exact Bool.false_ne_true),
    List.nil_append]

end Lib
