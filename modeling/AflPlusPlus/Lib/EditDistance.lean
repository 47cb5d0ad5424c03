import Mathlib.Data.Nat.Init
import Mathlib.Order.Bounds.Defs

/-!
# Edit distance

`Edits n a b` says that `n` edits, each of which deletes, inserts or replaces one letter, turn `a`
into `b`. `levenshtein a b` is the usual recursion over both words; it is the least number of edits,
so it is a metric and can be computed from either end of the words.
-/

namespace Lib

variable {α : Type*}

/-- One edit. -/
inductive Edit : List α → List α → Prop
  | delete (u v : List α) (x : α) : Edit (u ++ x :: v) (u ++ v)
  | insert (u v : List α) (x : α) : Edit (u ++ v) (u ++ x :: v)
  | substitute (u v : List α) (x y : α) : Edit (u ++ x :: v) (u ++ y :: v)

inductive Edits : ℕ → List α → List α → Prop
  | refl (a : List α) : Edits 0 a a
  | step {n : ℕ} {a b c : List α} : Edit a b → Edits n b c → Edits (n + 1) a c

theorem Edit.symm {a b : List α} (h : Edit a b) : Edit b a := by
  cases h with
  | delete u v x => exact .insert u v x
  | insert u v x => exact .delete u v x
  | substitute u v x y => exact .substitute u v y x

theorem Edit.cons {a b : List α} (h : Edit a b) (z : α) : Edit (z :: a) (z :: b) := by
  cases h with
  | delete u v x => exact .delete (z :: u) v x
  | insert u v x => exact .insert (z :: u) v x
  | substitute u v x y => exact .substitute (z :: u) v x y

theorem Edit.reverse {a b : List α} (h : Edit a b) : Edit a.reverse b.reverse := by
  cases h with
  | delete u v x =>
    simp only [List.reverse_append, List.reverse_cons, List.append_assoc, List.singleton_append]
    exact .delete _ _ x
  | insert u v x =>
    simp only [List.reverse_append, List.reverse_cons, List.append_assoc, List.singleton_append]
    exact .insert _ _ x
  | substitute u v x y =>
    simp only [List.reverse_append, List.reverse_cons, List.append_assoc, List.singleton_append]
    exact .substitute _ _ x y

theorem Edits.trans {n m : ℕ} {a b c : List α} (h : Edits n a b) (h' : Edits m b c) :
    Edits (n + m) a c := by
  induction h with
  | refl a => rwa [Nat.zero_add]
  | step hedit _ ih =>
    rw [Nat.add_right_comm]
    exact .step hedit (ih h')

theorem Edits.single {a b : List α} (h : Edit a b) : Edits 1 a b := .step h (.refl b)

theorem Edits.symm {n : ℕ} {a b : List α} (h : Edits n a b) : Edits n b a := by
  induction h with
  | refl a => exact .refl a
  | step hedit _ ih => exact ih.trans (.single hedit.symm)

theorem Edits.cons {n : ℕ} {a b : List α} (h : Edits n a b) (z : α) :
    Edits n (z :: a) (z :: b) := by
  induction h with
  | refl a => exact .refl (z :: a)
  | step hedit _ ih => exact .step (hedit.cons z) ih

theorem Edits.reverse {n : ℕ} {a b : List α} (h : Edits n a b) : Edits n a.reverse b.reverse := by
  induction h with
  | refl a => exact .refl a.reverse
  | step hedit _ ih => exact .step hedit.reverse ih

theorem edits_nil (b : List α) : Edits b.length [] b := by
  induction b with
  | nil => exact .refl []
  | cons y b ih => exact ih.trans (.single (.insert [] b y))

variable [DecidableEq α]

def levenshtein : List α → List α → ℕ
  | [], b => b.length
  | x :: a, [] => (x :: a).length
  | x :: a, y :: b =>
    min (levenshtein a (y :: b) + 1)
      (min (levenshtein (x :: a) b + 1) (levenshtein a b + if x = y then 0 else 1))
termination_by a b => a.length + b.length

@[simp]
theorem levenshtein_nil_left (b : List α) : levenshtein [] b = b.length := by
  rw [levenshtein]

@[simp]
theorem levenshtein_nil_right (a : List α) : levenshtein a [] = a.length := by
  cases a with
  | nil => rw [levenshtein]
  | cons x a => rw [levenshtein]

theorem levenshtein_cons_cons (x y : α) (a b : List α) :
    levenshtein (x :: a) (y :: b) = min (levenshtein a (y :: b) + 1)
      (min (levenshtein (x :: a) b + 1) (levenshtein a b + if x = y then 0 else 1)) := by
  rw [levenshtein]

/-- As many edits as the distance are enough. -/
theorem edits_levenshtein (a b : List α) : Edits (levenshtein a b) a b := by
  induction a, b using levenshtein.induct with
  | case1 b =>
    rw [levenshtein_nil_left]
    exact edits_nil b
  | case2 x a =>
    rw [levenshtein_nil_right]
    exact (edits_nil (x :: a)).symm
  | case3 x a y b ihdel ihins ihsub =>
    rw [levenshtein_cons_cons]
    have hdel : Edits (levenshtein a (y :: b) + 1) (x :: a) (y :: b) :=
      .step (.delete [] a x) ihdel
    have hins : Edits (levenshtein (x :: a) b + 1) (x :: a) (y :: b) :=
      ihins.trans (.single (.insert [] b y))
    have hsub : Edits (levenshtein a b + if x = y then 0 else 1) (x :: a) (y :: b) := by
      by_cases hxy : x = y
      · subst hxy
        rw [if_pos rfl]
        exact ihsub.cons x
      · rw [if_neg hxy]
        exact .step (.substitute [] a x y) (ihsub.cons y)
    rcases Nat.le_total (levenshtein (x :: a) b + 1)
      (levenshtein a b + if x = y then 0 else 1) with hle | hle
    · rw [Nat.min_eq_left hle]
      rcases Nat.le_total (levenshtein a (y :: b) + 1) (levenshtein (x :: a) b + 1) with h | h
      · rwa [Nat.min_eq_left h]
      · rwa [Nat.min_eq_right h]
    · rw [Nat.min_eq_right hle]
      rcases Nat.le_total (levenshtein a (y :: b) + 1)
        (levenshtein a b + if x = y then 0 else 1) with h | h
      · rwa [Nat.min_eq_left h]
      · rwa [Nat.min_eq_right h]

/-! ### No fewer edits are enough -/

theorem levenshtein_cons_left_le (x : α) (a c : List α) :
    levenshtein (x :: a) c ≤ levenshtein a c + 1 := by
  cases c with
  | nil => simp
  | cons z c =>
    rw [levenshtein_cons_cons]
    omega

theorem levenshtein_cons_right_le (z : α) (a c : List α) :
    levenshtein a (z :: c) ≤ levenshtein a c + 1 := by
  cases a with
  | nil => simp
  | cons x a =>
    rw [levenshtein_cons_cons]
    omega

theorem levenshtein_le_cons_left (x : α) (a c : List α) :
    levenshtein a c ≤ levenshtein (x :: a) c + 1 := by
  induction c with
  | nil =>
    rw [levenshtein_nil_right, levenshtein_nil_right, List.length_cons]
    omega
  | cons z c ih =>
    have hz := levenshtein_cons_right_le z a c
    rw [levenshtein_cons_cons]
    omega

theorem levenshtein_substitute_le (x y : α) (a c : List α) :
    levenshtein (x :: a) c ≤ levenshtein (y :: a) c + 1 := by
  induction c with
  | nil => simp
  | cons z c ih =>
    have hx : (if x = z then 0 else 1) ≤ 1 := by split <;> omega
    rw [levenshtein_cons_cons, levenshtein_cons_cons]
    omega

theorem levenshtein_cons_le_of_le {a b : List α} (h : ∀ c, levenshtein a c ≤ levenshtein b c + 1)
    (x : α) (c : List α) : levenshtein (x :: a) c ≤ levenshtein (x :: b) c + 1 := by
  induction c with
  | nil =>
    have hnil := h []
    simp only [levenshtein_nil_right, List.length_cons] at hnil ⊢
    omega
  | cons z c ih =>
    have hz := h (z :: c)
    have hc := h c
    rw [levenshtein_cons_cons, levenshtein_cons_cons]
    omega

theorem levenshtein_append_le_of_le {a b : List α}
    (h : ∀ c, levenshtein a c ≤ levenshtein b c + 1) (u c : List α) :
    levenshtein (u ++ a) c ≤ levenshtein (u ++ b) c + 1 := by
  induction u generalizing c with
  | nil => exact h c
  | cons x u ih => exact levenshtein_cons_le_of_le ih x c

/-- An edit changes no distance by more than one. -/
theorem Edit.levenshtein_le {a b : List α} (h : Edit a b) (c : List α) :
    levenshtein a c ≤ levenshtein b c + 1 := by
  cases h with
  | delete u v x => exact levenshtein_append_le_of_le (levenshtein_cons_left_le x v) u c
  | insert u v x => exact levenshtein_append_le_of_le (levenshtein_le_cons_left x v) u c
  | substitute u v x y => exact levenshtein_append_le_of_le (levenshtein_substitute_le x y v) u c

theorem levenshtein_self (a : List α) : levenshtein a a = 0 := by
  induction a with
  | nil => simp
  | cons x a ih =>
    rw [levenshtein_cons_cons, ih, if_pos rfl]
    omega

theorem Edits.levenshtein_le {n : ℕ} {a b : List α} (h : Edits n a b) : levenshtein a b ≤ n := by
  induction h with
  | refl a => exact Nat.le_of_eq (levenshtein_self a)
  | step hedit _ ih => exact Nat.le_trans (hedit.levenshtein_le _) (Nat.succ_le_succ ih)

/-- The distance is the least number of edits. -/
theorem isLeast_levenshtein (a b : List α) : IsLeast {n | Edits n a b} (levenshtein a b) :=
  ⟨edits_levenshtein a b, fun _ h => Edits.levenshtein_le h⟩

/-! ### The metric laws and the recursion from the end -/

theorem levenshtein_eq_zero_iff {a b : List α} : levenshtein a b = 0 ↔ a = b := by
  constructor
  · intro h
    have hedits := edits_levenshtein a b
    rw [h] at hedits
    cases hedits with
    | refl => rfl
  · rintro rfl
    exact levenshtein_self a

theorem levenshtein_comm (a b : List α) : levenshtein a b = levenshtein b a :=
  Nat.le_antisymm (edits_levenshtein b a).symm.levenshtein_le
    (edits_levenshtein a b).symm.levenshtein_le

theorem levenshtein_triangle (a b c : List α) :
    levenshtein a c ≤ levenshtein a b + levenshtein b c :=
  ((edits_levenshtein a b).trans (edits_levenshtein b c)).levenshtein_le

theorem levenshtein_reverse (a b : List α) : levenshtein a.reverse b.reverse = levenshtein a b := by
  refine Nat.le_antisymm (edits_levenshtein a b).reverse.levenshtein_le ?_
  have h := (edits_levenshtein a.reverse b.reverse).reverse.levenshtein_le
  rwa [List.reverse_reverse, List.reverse_reverse] at h

theorem levenshtein_concat (a b : List α) (x y : α) :
    levenshtein (a ++ [x]) (b ++ [y]) = min (levenshtein a (b ++ [y]) + 1)
      (min (levenshtein (a ++ [x]) b + 1) (levenshtein a b + if x = y then 0 else 1)) := by
  have hsnoc : ∀ (l : List α) (z : α), (l ++ [z]).reverse = z :: l.reverse := fun l z => by simp
  rw [← levenshtein_reverse (a ++ [x]), ← levenshtein_reverse a (b ++ [y]),
    ← levenshtein_reverse (a ++ [x]) b, ← levenshtein_reverse a b, hsnoc, hsnoc,
    levenshtein_cons_cons]

end Lib
