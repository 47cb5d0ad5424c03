import Mathlib.Algebra.Group.Nat.Defs
import Mathlib.Data.List.Nodup
import Mathlib.Data.List.Sort

/-!
# Counters

A dictionary of counts in the order in which its keys were first seen, as Python's
`collections.Counter`: counting a list, adding another counter, and the items by falling count.
-/

namespace Lib

/-- Counts by key; no key occurs twice. -/
structure Counter (α : Type*) where
  items : List (α × ℕ)
  nodup : (items.map Prod.fst).Nodup

namespace Counter

variable {α : Type*}

def empty : Counter α := ⟨[], List.nodup_nil⟩

def keys (c : Counter α) : List α := c.items.map Prod.fst

@[simp]
theorem keys_empty : (empty : Counter α).keys = [] := rfl

variable [DecidableEq α]

def addItem (a : α) (n : ℕ) : List (α × ℕ) → List (α × ℕ)
  | [] => [(a, n)]
  | e :: es => if e.1 = a then (a, e.2 + n) :: es else e :: addItem a n es

def countItem (a : α) : List (α × ℕ) → ℕ
  | [] => 0
  | e :: es => if e.1 = a then e.2 else countItem a es

theorem keys_addItem (a : α) (n : ℕ) (l : List (α × ℕ)) :
    (addItem a n l).map Prod.fst =
      if a ∈ l.map Prod.fst then l.map Prod.fst else l.map Prod.fst ++ [a] := by
  induction l with
  | nil => rfl
  | cons e l ih =>
    rw [addItem]
    by_cases h : e.1 = a
    · rw [if_pos h, if_pos (by simp [h]), List.map_cons, List.map_cons, h]
    · rw [if_neg h, List.map_cons, List.map_cons, ih]
      by_cases hmem : a ∈ l.map Prod.fst
      · rw [if_pos hmem, if_pos (List.mem_cons_of_mem _ hmem)]
      · rw [if_neg hmem, if_neg fun hcons => (List.mem_cons.mp hcons).elim (Ne.symm h) hmem]
        rfl

/-- `self[a] = self.get(a, 0) + n`. -/
def add (c : Counter α) (a : α) (n : ℕ) : Counter α where
  items := addItem a n c.items
  nodup := by
    rw [keys_addItem]
    split_ifs with h
    · exact c.nodup
    · rw [List.nodup_append]
      refine ⟨c.nodup, List.nodup_singleton a, ?_⟩
      intro b hb d hd
      rw [List.mem_singleton.mp hd]
      rintro rfl
      exact h hb

/-- The count of a key, 0 when there is none. -/
def count (c : Counter α) (a : α) : ℕ := countItem a c.items

/-- `update` with an iterable. -/
def update (c : Counter α) (l : List α) : Counter α := l.foldl (fun c a => c.add a 1) c

/-- `update` with another counter. -/
def merge (c d : Counter α) : Counter α := d.items.foldl (fun c e => c.add e.1 e.2) c

/-- Items by falling count; equal counts keep their order. -/
def mostCommon (c : Counter α) : List (α × ℕ) := c.items.insertionSort fun e e' => e'.2 ≤ e.2

variable {c d : Counter α} {a b : α} {n : ℕ}

@[simp]
theorem count_empty : (empty : Counter α).count a = 0 := rfl

theorem countItem_addItem (a b : α) (n : ℕ) (l : List (α × ℕ)) :
    countItem b (addItem a n l) = countItem b l + if a = b then n else 0 := by
  induction l with
  | nil => simp [addItem, countItem]
  | cons e l ih =>
    rw [addItem]
    by_cases h : e.1 = a
    · rw [if_pos h, countItem, countItem, h]
      dsimp only
      split_ifs <;> rfl
    · rw [if_neg h, countItem, countItem, ih]
      split_ifs with heb hab
      · exact absurd (heb.trans hab.symm) h
      · rfl
      · rfl
      · rfl

theorem count_add : (c.add a n).count b = c.count b + if a = b then n else 0 :=
  countItem_addItem a b n c.items

theorem mem_keys_add : b ∈ (c.add a n).keys ↔ b ∈ c.keys ∨ b = a := by
  rw [keys, add, keys_addItem, keys]
  split_ifs with h
  · exact ⟨Or.inl, fun hb => hb.elim id fun heq => heq ▸ h⟩
  · rw [List.mem_append, List.mem_singleton]

theorem count_update (l : List α) : (c.update l).count b = c.count b + l.count b := by
  induction l generalizing c with
  | nil => rfl
  | cons a l ih =>
    change ((c.add a 1).update l).count b = _
    rw [ih, count_add, List.count_cons, Nat.add_assoc, Nat.add_comm (List.count b l)]
    simp only [beq_iff_eq]

theorem mem_keys_update (l : List α) : b ∈ (c.update l).keys ↔ b ∈ c.keys ∨ b ∈ l := by
  induction l generalizing c with
  | nil => simp [update]
  | cons a l ih =>
    change b ∈ ((c.add a 1).update l).keys ↔ _
    rw [ih, mem_keys_add, List.mem_cons, or_assoc]

/-- An item is a key with its count. -/
theorem mem_items_iff {e : α × ℕ} : e ∈ c.items ↔ e.1 ∈ c.keys ∧ e.2 = c.count e.1 := by
  obtain ⟨items, hnodup⟩ := c
  change e ∈ items ↔ e.1 ∈ items.map Prod.fst ∧ e.2 = countItem e.1 items
  induction items with
  | nil => simp
  | cons k items ih =>
    rw [List.map_cons, List.nodup_cons] at hnodup
    rw [List.mem_cons, List.map_cons, List.mem_cons, ih hnodup.2, countItem]
    by_cases h : k.1 = e.1
    · have hnot : e.1 ∉ items.map Prod.fst := h ▸ hnodup.1
      rw [if_pos h, and_iff_right (Or.inl h.symm)]
      constructor
      · rintro (rfl | ⟨hmem, -⟩)
        · rfl
        · exact absurd hmem hnot
      · exact fun heq => Or.inl (Prod.ext h.symm heq)
    · have hne : e ≠ k := fun heq => h (congrArg Prod.fst heq).symm
      rw [if_neg h, or_iff_right (Ne.symm h), or_iff_right hne]

theorem mem_mostCommon_iff {e : α × ℕ} :
    e ∈ c.mostCommon ↔ e.1 ∈ c.keys ∧ e.2 = c.count e.1 := by
  rw [mostCommon, List.mem_insertionSort]
  exact mem_items_iff

theorem count_of_not_mem (h : a ∉ c.keys) : c.count a = 0 := by
  obtain ⟨items, hnodup⟩ := c
  change countItem a items = 0
  change a ∉ items.map Prod.fst at h
  clear hnodup
  induction items with
  | nil => rfl
  | cons k items ih =>
    rw [List.map_cons, List.mem_cons, not_or] at h
    rw [countItem, if_neg (Ne.symm h.1), ih h.2]

theorem count_foldl_add (l : List (α × ℕ)) (hnodup : (l.map Prod.fst).Nodup) :
    (l.foldl (fun c e => c.add e.1 e.2) c).count b = c.count b + countItem b l := by
  induction l generalizing c with
  | nil => rfl
  | cons e l ih =>
    rw [List.map_cons, List.nodup_cons] at hnodup
    rw [List.foldl_cons, ih hnodup.2, count_add, countItem]
    split_ifs with h
    · have hzero : countItem b l = 0 :=
        count_of_not_mem (c := ⟨l, hnodup.2⟩) (h ▸ hnodup.1)
      rw [hzero, Nat.add_zero]
    · rw [Nat.add_zero]

theorem count_merge : (c.merge d).count b = c.count b + d.count b :=
  count_foldl_add d.items d.nodup

theorem mem_keys_merge : b ∈ (c.merge d).keys ↔ b ∈ c.keys ∨ b ∈ d.keys := by
  have hfold (l : List (α × ℕ)) (c : Counter α) :
      b ∈ (l.foldl (fun c e => c.add e.1 e.2) c).keys ↔ b ∈ c.keys ∨ b ∈ l.map Prod.fst := by
    induction l generalizing c with
    | nil => simp
    | cons e l ih => rw [List.foldl_cons, ih, mem_keys_add, List.map_cons, List.mem_cons, or_assoc]
  exact hfold d.items c

end Counter
end Lib
