import Mathlib.Algebra.Group.Nat.Defs
import Mathlib.Data.List.Lex
import Mathlib.Data.List.Sort
import Mathlib.Data.Nat.Log

/-!
# Names in the order of their text

A name is a list of character codes, and two names are compared as `strcmp` compares strings: by
the first place where they differ. `sortBy` lists a directory in that order.

`decimal w n` is the text that `printf` makes of `n` with the conversion `%0wu`, as a list of
character codes. Numbers that fit into `w` digits keep their order; at a power of ten from `10 ^ w`
on the text gets one digit longer and the order is lost.
-/

namespace Lib

/-- A file name, as the codes of its characters. -/
abbrev Name := List ℕ

def ascii (s : String) : Name := s.toList.map Char.toNat

/-- `strstr`: the text from the first occurrence of `pattern` on. -/
def strstr (pattern : Name) : Name → Option Name
  | [] => if pattern = [] then some [] else none
  | c :: cs => if pattern <+: c :: cs then some (c :: cs) else strstr pattern cs

/-! ### Sorting by a key -/

section Sorting

variable {α β : Type*} [LinearOrder β]

/-- `scandir` with `alphasort`, for `key` the name. -/
def sortBy (key : α → β) (l : List α) : List α := l.insertionSort fun a b => key a ≤ key b

theorem sortBy_perm (key : α → β) (l : List α) : (sortBy key l).Perm l :=
  List.perm_insertionSort _ l

theorem sortBy_pairwise_le (key : α → β) (l : List α) :
    (sortBy key l).Pairwise fun a b => key a ≤ key b := by
  have : Std.Total fun a b : α => key a ≤ key b := ⟨fun a b => le_total (key a) (key b)⟩
  have : IsTrans α fun a b : α => key a ≤ key b := ⟨fun _ _ _ hab hbc => hab.trans hbc⟩
  exact List.pairwise_insertionSort _ l

/-- Distinct keys come out in strictly increasing order. -/
theorem sortBy_pairwise_lt {key : α → β} {l : List α} (h : (l.map key).Nodup) :
    (sortBy key l).Pairwise fun a b => key a < key b := by
  have hne : (sortBy key l).Pairwise fun a b => key a ≠ key b :=
    List.pairwise_map.mp (((sortBy_perm key l).map key).nodup_iff.mpr h)
  exact (sortBy_pairwise_le key l).imp₂ (fun _ _ hle hne => lt_of_le_of_ne hle hne) hne

/-- A strictly increasing list is determined by its members. -/
theorem eq_of_pairwise_lt {l l' : List β} (h : l.Pairwise (· < ·)) (h' : l'.Pairwise (· < ·))
    (hmem : ∀ b, b ∈ l ↔ b ∈ l') : l = l' := by
  have hperm : l.Perm l' := (List.perm_ext_iff_of_nodup (h.imp ne_of_lt) (h'.imp ne_of_lt)).mpr hmem
  exact hperm.eq_of_pairwise (fun _ _ _ _ hab hba => absurd hab hba.asymm) h h'

end Sorting

/-! ### Printed numbers -/

/-- The last `w` decimal digits of `n`, most significant first. -/
def fixDigits : ℕ → ℕ → List ℕ
  | 0, _ => []
  | w + 1, n => (48 + n / 10 ^ w % 10) :: fixDigits w (n % 10 ^ w)

/-- The number of characters of `n` printed with at least `w` digits. -/
def printWidth (w n : ℕ) : ℕ := max w (Nat.log 10 n + 1)

def decimal (w n : ℕ) : List ℕ := fixDigits (printWidth w n) n

@[simp]
theorem fixDigits_length (w n : ℕ) : (fixDigits w n).length = w := by
  induction w generalizing n with
  | zero => rfl
  | succ w ih => simp [fixDigits, ih]

theorem fixDigits_digit {w n c : ℕ} (h : c ∈ fixDigits w n) : 48 ≤ c ∧ c ≤ 57 := by
  induction w generalizing n with
  | zero => cases h
  | succ w ih =>
    obtain rfl | h := List.mem_cons.mp h
    · omega
    · exact ih h

/-- Texts of one length are ordered as their numbers. -/
theorem fixDigits_lt {w n m : ℕ} (h : n < m) (hm : m < 10 ^ w) : fixDigits w n < fixDigits w m := by
  induction w generalizing n m with
  | zero =>
    rw [Nat.pow_zero] at hm
    omega
  | succ w ih =>
    have hpos : 0 < 10 ^ w := Nat.pow_pos (by decide)
    have hdigit : ∀ k, k ≤ m → k / 10 ^ w % 10 = k / 10 ^ w := by
      intro k hk
      apply Nat.mod_eq_of_lt
      rw [Nat.div_lt_iff_lt_mul hpos, ← Nat.pow_succ']
      omega
    have hle : n / 10 ^ w ≤ m / 10 ^ w := Nat.div_le_div_right h.le
    rw [fixDigits, fixDigits, hdigit n h.le, hdigit m le_rfl, List.cons_lt_cons_iff]
    by_cases heq : n / 10 ^ w = m / 10 ^ w
    · -- The leading digits agree, so the rest decides.
      right
      refine ⟨by rw [heq], ih ?_ (Nat.mod_lt m hpos)⟩
      have hn := Nat.div_add_mod n (10 ^ w)
      have hm' := Nat.div_add_mod m (10 ^ w)
      rw [heq] at hn
      omega
    · left
      omega

theorem lt_pow_printWidth (w n : ℕ) : n < 10 ^ printWidth w n :=
  lt_of_lt_of_le (Nat.lt_pow_succ_log_self (by decide) n)
    (Nat.pow_le_pow_right (by decide) (le_max_right _ _))

/-- The text gets longer only at a power of ten. -/
theorem printWidth_succ {w n : ℕ} (h : n + 1 < 10 ^ printWidth w n) :
    printWidth w (n + 1) = printWidth w n := by
  have hlog : Nat.log 10 (n + 1) < printWidth w n := Nat.log_lt_of_lt_pow (by omega) h
  have hmono : Nat.log 10 n ≤ Nat.log 10 (n + 1) := Nat.log_mono_right (by omega)
  unfold printWidth at hlog ⊢
  omega

theorem printWidth_of_lt {w n : ℕ} (hw : 0 < w) (h : n < 10 ^ w) : printWidth w n = w := by
  apply max_eq_left
  cases n with
  | zero =>
    rw [Nat.log_zero_right]
    exact hw
  | succ n => exact Nat.log_lt_of_lt_pow (by omega) h

/-- Numbers that fit into `w` digits are ordered as their texts. -/
theorem decimal_lt {w n m : ℕ} (hw : 0 < w) (h : n < m) (hm : m < 10 ^ w) :
    decimal w n < decimal w m := by
  rw [decimal, decimal, printWidth_of_lt hw hm, printWidth_of_lt hw (h.trans hm)]
  exact fixDigits_lt h hm

theorem decimal_length {w n : ℕ} (hw : 0 < w) (h : n < 10 ^ w) : (decimal w n).length = w := by
  rw [decimal, fixDigits_length, printWidth_of_lt hw h]

theorem decimal_ne {w n m : ℕ} (hw : 0 < w) (hn : n < 10 ^ w) (hm : m < 10 ^ w) (h : n ≠ m) :
    decimal w n ≠ decimal w m := by
  obtain hlt | hgt := lt_or_gt_of_ne h
  · exact (decimal_lt hw hlt hm).ne
  · exact (decimal_lt hw hgt hn).ne'

/-- Reading the digits gives the number back. -/
theorem foldl_fixDigits {w n : ℕ} (h : n < 10 ^ w) (a : ℕ) :
    (fixDigits w n).foldl (fun v c => 10 * v + (c - 48)) a = 10 ^ w * a + n := by
  induction w generalizing n a with
  | zero =>
    rw [Nat.pow_zero] at h
    rw [fixDigits, List.foldl_nil]
    omega
  | succ w ih =>
    have hpos : 0 < 10 ^ w := Nat.pow_pos (by decide)
    have hdigit : n / 10 ^ w % 10 = n / 10 ^ w := by
      apply Nat.mod_eq_of_lt
      rw [Nat.div_lt_iff_lt_mul hpos, ← Nat.pow_succ']
      exact h
    rw [fixDigits, List.foldl_cons, ih (Nat.mod_lt n hpos), hdigit, Nat.add_sub_cancel_left,
      Nat.mul_add, Nat.add_assoc, Nat.div_add_mod, Nat.pow_succ, Nat.mul_assoc]

theorem foldl_decimal (w n : ℕ) :
    (decimal w n).foldl (fun v c => 10 * v + (c - 48)) 0 = n := by
  rw [decimal, foldl_fixDigits (lt_pow_printWidth w n), Nat.mul_zero, Nat.zero_add]

theorem decimal_injective (w : ℕ) : Function.Injective (decimal w) := by
  intro n m h
  rw [← foldl_decimal w n, h, foldl_decimal]

/-- One less than a power of ten fills its width. -/
theorem printWidth_pred_pow {w n : ℕ} (hw : 0 < w) {m : ℕ} (h : n + 1 = 10 ^ (w + m)) :
    printWidth w n = w + m := by
  have hten : 10 ^ (w + m) = 10 * 10 ^ (w + m - 1) := by
    rw [← Nat.pow_succ']
    congr 1
    omega
  have hpos : 0 < 10 ^ (w + m - 1) := Nat.pow_pos (by decide)
  have hlog : Nat.log 10 n = w + m - 1 := by
    apply Nat.log_eq_of_pow_le_of_lt_pow
    · omega
    · rw [Nat.sub_add_cancel (by omega)]
      omega
  unfold printWidth
  omega

/-- Texts of one length are compared before anything that follows them. -/
theorem append_lt_append {a b : List ℕ} (s t : List ℕ) (hlen : a.length = b.length) (h : a < b) :
    a ++ s < b ++ t := by
  induction a generalizing b with
  | nil =>
    obtain rfl : b = [] := List.length_eq_zero_iff.mp hlen.symm
    exact absurd h (lt_irrefl _)
  | cons x a ih =>
    cases b with
    | nil => simp at hlen
    | cons y b =>
      rw [List.cons_lt_cons_iff] at h
      rw [List.cons_append, List.cons_append, List.cons_lt_cons_iff]
      obtain hxy | ⟨hxy, hab⟩ := h
      · exact .inl hxy
      · exact .inr ⟨hxy, ih (by simpa using hlen) hab⟩

theorem append_lt_append_left (p : List ℕ) {s t : List ℕ} : p ++ s < p ++ t ↔ s < t := by
  induction p with
  | nil => rfl
  | cons x p ih =>
    rw [List.cons_append, List.cons_append, List.cons_lt_cons_iff]
    simp [ih]

/-- The texts of a number and its successor are in order unless the successor is a power of ten
that needs one digit more. -/
theorem decimal_append_lt_iff {w : ℕ} (hw : 0 < w) (n : ℕ) (s t : List ℕ) :
    decimal w n ++ s < decimal w (n + 1) ++ t ↔ ∀ m, n + 1 ≠ 10 ^ (w + m) := by
  have hpow := lt_pow_printWidth w n
  by_cases h : n + 1 < 10 ^ printWidth w n
  · refine ⟨fun _ m hm => ?_, fun _ => ?_⟩
    · rw [printWidth_pred_pow hw hm] at h
      omega
    · unfold decimal
      rw [printWidth_succ h]
      exact append_lt_append s t (by simp) (fixDigits_lt (Nat.lt_succ_self n) h)
  · obtain ⟨m, hm⟩ : ∃ m, printWidth w n = w + m :=
      Nat.exists_eq_add_of_le (le_max_left w (Nat.log 10 n + 1))
    have heq : n + 1 = 10 ^ (w + m) := by
      rw [hm] at h hpow
      omega
    refine ⟨fun hlt => ?_, fun hne => absurd heq (hne m)⟩
    -- The first digits are 9 and 1.
    obtain ⟨v, hv⟩ : ∃ v, w + m = v + 1 := Nat.exists_eq_add_of_le' (by omega)
    have hpos : 0 < 10 ^ v := Nat.pow_pos (by decide)
    have hwidth : printWidth w (n + 1) = w + m + 1 := by
      rw [heq, printWidth, Nat.log_pow (by decide)]
      omega
    have hnine : n / 10 ^ v % 10 = 9 := by
      rw [hv, Nat.pow_succ] at heq
      have hdiv : n / 10 ^ v = 9 := by
        apply Nat.div_eq_of_lt_le <;> omega
      rw [hdiv]
    have hone : (n + 1) / 10 ^ (w + m) % 10 = 1 := by
      rw [heq, Nat.div_self (Nat.pow_pos (by decide))]
    rw [decimal, decimal, hwidth, hm, fixDigits, hone, hv, fixDigits, hnine, List.cons_append,
      List.cons_append, List.cons_lt_cons_iff] at hlt
    omega

end Lib
