import AflPlusPlus.Lib.Ctype
import AflPlusPlus.Lib.NameOrder
import Mathlib.Data.List.Induction
import Mathlib.Data.List.TakeWhile

/-!
# Digits read back

What `strtol` makes of a printed number, with a sign before it or with its end cut off.
-/

namespace Lib

/-- The number that decimal digits spell. -/
def decimalValue (text : List Byte) : ℕ := text.foldl (fun v c => v * 10 + digitValue c) 0

/-- The digits of a number as characters. -/
def digitBytes (n : ℕ) : List Byte := (decimal 1 n).map (BitVec.ofNat 8)

/-- The whole text is one decimal number. -/
def ReadsAs (text : List Byte) (v : ℤ) : Prop :=
  let n := scanInt (some 10) text
  n.length = text.length ∧ (if n.negative then -(n.magnitude : ℤ) else n.magnitude) = v

theorem isdigit_iff {c : Byte} : isdigit c = true ↔ 48 ≤ c.toNat ∧ c.toNat ≤ 57 := by
  simp only [isdigit, Bool.and_eq_true, decide_eq_true_eq, BitVec.le_def]
  rfl

theorem digitValue_of_isdigit {c : Byte} (h : isdigit c = true) : digitValue c = c.toNat - 48 := by
  rw [digitValue, if_pos h]

theorem digitValue_lt {c : Byte} (h : isdigit c = true) : digitValue c < 10 := by
  have hc := isdigit_iff.mp h
  rw [digitValue_of_isdigit h]
  omega

theorem decimalValue_concat (text : List Byte) (c : Byte) :
    decimalValue (text ++ [c]) = decimalValue text * 10 + digitValue c := by
  rw [decimalValue, List.foldl_append]
  rfl

theorem decimalValue_lt {text : List Byte} (h : ∀ c ∈ text, isdigit c = true) :
    decimalValue text < 10 ^ text.length := by
  induction text using List.reverseRecOn with
  | nil => exact Nat.one_pos
  | append_singleton text c ih =>
    have hc := digitValue_lt (h c (by simp))
    have htext := ih fun d hd => h d (List.mem_append_left _ hd)
    rw [decimalValue_concat, List.length_append, List.length_singleton, Nat.pow_succ]
    omega

/-! ### Scanning -/

/-- A digit is no space and no sign. -/
theorem isdigit_plain {c : Byte} (h : isdigit c = true) :
    isspace c = false ∧ c ≠ chr '-' ∧ c ≠ chr '+' := by
  have hc := isdigit_iff.mp h
  refine ⟨?_, ?_, ?_⟩
  · simp only [isspace, Bool.or_eq_false_iff, Bool.and_eq_false_iff, decide_eq_false_iff_not,
      BitVec.le_def, ← BitVec.toNat_inj]
    have h13 : (13 : Byte).toNat = 13 := rfl
    have h32 : (32 : Byte).toNat = 32 := rfl
    omega
  · rintro rfl
    exact absurd hc.1 (by decide)
  · rintro rfl
    exact absurd hc.1 (by decide)

theorem takeWhile_digits {text : List Byte} (h : ∀ c ∈ text, isdigit c = true) :
    text.takeWhile (digitValue · < 10) = text :=
  List.takeWhile_eq_self_iff.mpr fun c hc => decide_eq_true (digitValue_lt (h c hc))

theorem scanInt_digits {text : List Byte} (hne : text ≠ []) (h : ∀ c ∈ text, isdigit c = true) :
    scanInt (some 10) text = ⟨false, decimalValue text, text.length⟩ := by
  obtain ⟨c, rest, rfl⟩ := List.exists_cons_of_ne_nil hne
  obtain ⟨hspace, hminus, hplus⟩ := isdigit_plain (h c List.mem_cons_self)
  have hskip : (c :: rest).dropWhile isspace = c :: rest := by
    rw [List.dropWhile_cons_of_neg (by rw [hspace]; exact Bool.false_ne_true)]
  simp only [scanInt, hskip, scanSign, if_neg hminus, if_neg hplus, takeWhile_digits h, if_neg hne]
  rw [Nat.sub_self, Nat.sub_zero]
  rfl

theorem scanInt_minus {text : List Byte} (hne : text ≠ []) (h : ∀ c ∈ text, isdigit c = true) :
    scanInt (some 10) (chr '-' :: text) = ⟨true, decimalValue text, text.length + 1⟩ := by
  have hskip : (chr '-' :: text).dropWhile isspace = chr '-' :: text :=
    List.dropWhile_cons_of_neg (by decide)
  simp only [scanInt, hskip, scanSign, if_true, takeWhile_digits h, if_neg hne]
  rw [Nat.sub_self, Nat.sub_zero]
  rfl

/-- There is no number behind two signs. -/
theorem scanInt_minus_minus (text : List Byte) :
    scanInt (some 10) (chr '-' :: chr '-' :: text) = ⟨false, 0, 0⟩ := by
  have hskip : (chr '-' :: chr '-' :: text).dropWhile isspace = chr '-' :: chr '-' :: text :=
    List.dropWhile_cons_of_neg (by decide)
  have hnone : (chr '-' :: text).takeWhile (digitValue · < 10) = [] :=
    List.takeWhile_cons_of_neg (by decide)
  simp only [scanInt, hskip, scanSign, if_true, hnone]

theorem readsAs_digits_iff {text : List Byte} (hne : text ≠ []) (h : ∀ c ∈ text, isdigit c = true)
    (v : ℤ) : ReadsAs text v ↔ decimalValue text = v := by
  simp [ReadsAs, scanInt_digits hne h]

theorem readsAs_minus_iff {text : List Byte} (hne : text ≠ []) (h : ∀ c ∈ text, isdigit c = true)
    (v : ℤ) : ReadsAs (chr '-' :: text) v ↔ -(decimalValue text : ℤ) = v := by
  simp [ReadsAs, scanInt_minus hne h]

theorem not_readsAs_minus_minus (text : List Byte) (v : ℤ) :
    ¬ ReadsAs (chr '-' :: chr '-' :: text) v := by
  simp [ReadsAs, scanInt_minus_minus]

/-! ### Printed numbers -/

theorem digitBytes_isdigit (n : ℕ) : ∀ c ∈ digitBytes n, isdigit c = true := by
  intro c hc
  obtain ⟨d, hd, rfl⟩ := List.mem_map.mp hc
  have hdigit := fixDigits_digit hd
  rw [isdigit_iff, BitVec.toNat_ofNat]
  omega

theorem length_digitBytes (n : ℕ) : (digitBytes n).length = printWidth 1 n := by
  rw [digitBytes, List.length_map, decimal, fixDigits_length]

theorem digitBytes_ne_nil (n : ℕ) : digitBytes n ≠ [] := by
  rw [← List.length_pos_iff, length_digitBytes]
  exact lt_of_lt_of_le Nat.one_pos (le_max_left _ _)

theorem length_digitBytes_le_iff {k : ℕ} (hk : 1 ≤ k) (n : ℕ) :
    (digitBytes n).length ≤ k ↔ n < 10 ^ k := by
  rw [length_digitBytes]
  constructor
  · exact fun h => (lt_pow_printWidth 1 n).trans_le (Nat.pow_le_pow_right (by decide) h)
  · intro h
    have hwidth := printWidth_of_lt hk h
    unfold printWidth at hwidth ⊢
    omega

/-- Reading printed digits on from a value. -/
theorem foldl_map_decimal (w n v : ℕ) :
    ((decimal w n).map (BitVec.ofNat 8)).foldl (fun v c => v * 10 + digitValue c) v =
      10 ^ printWidth w n * v + n := by
  have hsame : ∀ (digits : List ℕ) (v : ℕ), (∀ d ∈ digits, 48 ≤ d ∧ d ≤ 57) →
      (digits.map (BitVec.ofNat 8)).foldl (fun v c => v * 10 + digitValue c) v =
        digits.foldl (fun v c => 10 * v + (c - 48)) v := by
    intro digits
    induction digits with
    | nil => exact fun _ _ => rfl
    | cons d digits ih =>
      intro v hdigits
      have hd := hdigits d List.mem_cons_self
      have hbyte : (BitVec.ofNat 8 d).toNat = d := by
        rw [BitVec.toNat_ofNat]
        omega
      have hdigit : isdigit (BitVec.ofNat 8 d) = true := isdigit_iff.mpr (by rw [hbyte]; exact hd)
      rw [List.map_cons, List.foldl_cons, List.foldl_cons, digitValue_of_isdigit hdigit, hbyte,
        Nat.mul_comm, ih _ fun e he => hdigits e (List.mem_cons_of_mem _ he)]
  have hdigits : ∀ d ∈ decimal w n, 48 ≤ d ∧ d ≤ 57 := fun d hd => fixDigits_digit hd
  rw [hsame _ _ hdigits, decimal, foldl_fixDigits (lt_pow_printWidth w n)]

theorem decimalValue_digitBytes (n : ℕ) : decimalValue (digitBytes n) = n := by
  rw [decimalValue, digitBytes, foldl_map_decimal, Nat.mul_zero, Nat.zero_add]

/-- The first `k` digits spell the number only if they are all of them. -/
theorem decimalValue_take_iff {k : ℕ} (hk : 1 ≤ k) (n : ℕ) :
    decimalValue ((digitBytes n).take k) = n ↔ n < 10 ^ k := by
  constructor
  · intro h
    have hdigits : ∀ c ∈ (digitBytes n).take k, isdigit c = true := fun c hc =>
      digitBytes_isdigit n c (List.mem_of_mem_take hc)
    have hlt := decimalValue_lt hdigits
    rw [h] at hlt
    exact hlt.trans_le (Nat.pow_le_pow_right (by decide) (List.length_take_le _ _))
  · intro h
    rw [List.take_of_length_le ((length_digitBytes_le_iff hk n).mpr h), decimalValue_digitBytes]

end Lib
