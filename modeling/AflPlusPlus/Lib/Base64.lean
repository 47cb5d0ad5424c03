import AflPlusPlus.Lib.Blocks
import Mathlib.Data.List.GetD

/-!
# Base64 text

Three bytes make a group of 24 bits, and every group becomes four characters of six bits each.
`base64Text m n` is the text of the first `n` bytes of a memory whose last group is completed with
the bytes that follow; the standard text of a byte string completes it with zeros.
-/

namespace Lib

/-- The characters `A`–`Z`, `a`–`z`, `0`–`9`, `+` and `/`. -/
def base64Alphabet : List ℕ :=
  (List.range 26).map ('A'.toNat + ·) ++ (List.range 26).map ('a'.toNat + ·) ++
    (List.range 10).map ('0'.toNat + ·) ++ ['+'.toNat, '/'.toNat]

def base64Char (d : ℕ) : Byte := BitVec.ofNat 8 (base64Alphabet.getD d 0)

/-- The 24 bits of group `k`. -/
def groupValue (m : Bytes) (k : ℕ) : ℕ :=
  (m (3 * k)).toNat * 65536 + (m (3 * k + 1)).toNat * 256 + (m (3 * k + 2)).toNat

/-- Digit `r` of a group, the first one being the most significant. -/
def sextet (v r : ℕ) : ℕ := v / 64 ^ (3 - r) % 64

/-- Character `r` of group `k`. A character whose bits all lie behind the `n` bytes is padding. -/
def base64TextChar (m : Bytes) (n k r : ℕ) : Byte :=
  if 8 * n ≤ 6 * (4 * k + r) then BitVec.ofNat 8 '='.toNat
  else base64Char (sextet (groupValue m k) r)

def base64Length (n : ℕ) : ℕ := 4 * ((n + 2) / 3)

def base64Text (m : Bytes) (n : ℕ) : List Byte :=
  (List.range (base64Length n)).map fun j => base64TextChar m n (j / 4) (j % 4)

/-- The memory that holds the bytes of `m` below `n` and zeros behind them. -/
def zeroExtend (m : Bytes) (n : ℕ) : Bytes := fun i => if i < n then m i else 0

/-- The standard text of a byte string. -/
def base64 (x : List Byte) : List Byte := base64Text (fun i => x.getD i 0) x.length

/-- The bits of the byte behind a string of `n` bytes that complete its last character. -/
def completion (n : ℕ) (b : Byte) : ℕ :=
  if n % 3 = 1 then b.toNat / 16 else if n % 3 = 2 then b.toNat / 64 else 0

theorem completion_zero {n : ℕ} (h : n % 3 = 0) (b : Byte) : completion n b = 0 := by
  rw [completion, if_neg (by omega), if_neg (by omega)]

theorem completion_one {n : ℕ} (h : n % 3 = 1) (b : Byte) : completion n b = b.toNat / 16 :=
  if_pos h

theorem completion_two {n : ℕ} (h : n % 3 = 2) (b : Byte) : completion n b = b.toNat / 64 := by
  rw [completion, if_neg (by omega), if_pos h]

theorem base64Char_inj {d e : ℕ} (hd : d < 64) (he : e < 64) (h : base64Char d = base64Char e) :
    d = e := by
  have hall : ∀ x : Fin 64, ∀ y : Fin 64, base64Char x = base64Char y → x = y := by decide +kernel
  exact congrArg Fin.val (hall ⟨d, hd⟩ ⟨e, he⟩ h)

theorem base64Char_ne_pad {d : ℕ} (hd : d < 64) : base64Char d ≠ BitVec.ofNat 8 '='.toNat := by
  have hall : ∀ x : Fin 64, base64Char x ≠ BitVec.ofNat 8 '='.toNat := by decide +kernel
  exact hall ⟨d, hd⟩

theorem sextet_lt (v r : ℕ) : sextet v r < 64 := Nat.mod_lt _ (by decide)

theorem base64_contents (m : Bytes) (n : ℕ) :
    base64 (contents m n) = base64Text (zeroExtend m n) n := by
  have hget : (fun i => (contents m n).getD i 0) = zeroExtend m n := by
    funext i
    rw [zeroExtend]
    by_cases hi : i < n
    · rw [if_pos hi, List.getD_eq_getElem _ _ (by rwa [length_contents])]
      simp [contents]
    · rw [if_neg hi, List.getD_eq_default _ _ (by rw [length_contents]; omega)]
  rw [base64, hget, length_contents]

theorem base64Text_eq_iff {m m' : Bytes} {n : ℕ} :
    base64Text m n = base64Text m' n ↔ ∀ k, k < (n + 2) / 3 → ∀ r, r < 4 →
      base64TextChar m n k r = base64TextChar m' n k r := by
  rw [base64Text, base64Text, List.map_inj_left]
  constructor
  · intro h k hk r hr
    have hj := h (4 * k + r) (List.mem_range.mpr (by rw [base64Length]; omega))
    rwa [show (4 * k + r) / 4 = k by omega, show (4 * k + r) % 4 = r by omega] at hj
  · intro h j hj
    rw [List.mem_range, base64Length] at hj
    exact h (j / 4) (by omega) (j % 4) (by omega)

/-- Two characters of which neither is padding agree when their bits do. -/
theorem base64TextChar_eq_iff {m m' : Bytes} {n k r : ℕ} (h : 6 * (4 * k + r) < 8 * n) :
    base64TextChar m n k r = base64TextChar m' n k r ↔
      sextet (groupValue m k) r = sextet (groupValue m' k) r := by
  rw [base64TextChar, base64TextChar, if_neg (by omega), if_neg (by omega)]
  constructor
  · exact base64Char_inj (sextet_lt _ _) (sextet_lt _ _)
  · intro heq
    rw [heq]

/-- The first characters of an incomplete group do not see the byte behind the string. -/
theorem sextet_eq_of_full {m m' : Bytes} {n k r : ℕ} (h : ∀ i, i < n → m i = m' i) (hr : r < 4)
    (hfull : 8 * (3 * k) + 6 * (r + 1) ≤ 8 * n) :
    sextet (groupValue m k) r = sextet (groupValue m' k) r := by
  have hb := (m (3 * k + 1)).isLt
  have hb' := (m' (3 * k + 1)).isLt
  have hc := (m (3 * k + 2)).isLt
  have hc' := (m' (3 * k + 2)).isLt
  have ha : m (3 * k) = m' (3 * k) := h _ (by omega)
  obtain rfl | rfl | rfl | rfl : r = 0 ∨ r = 1 ∨ r = 2 ∨ r = 3 := by omega
  · simp only [sextet, groupValue, ha]
    omega
  · have hbeq : m (3 * k + 1) = m' (3 * k + 1) := h _ (by omega)
    simp only [sextet, groupValue, ha, hbeq]
    omega
  · have hbeq : m (3 * k + 1) = m' (3 * k + 1) := h _ (by omega)
    have hceq : m (3 * k + 2) = m' (3 * k + 2) := h _ (by omega)
    simp only [sextet, groupValue, ha, hbeq, hceq]
  · have hbeq : m (3 * k + 1) = m' (3 * k + 1) := h _ (by omega)
    have hceq : m (3 * k + 2) = m' (3 * k + 2) := h _ (by omega)
    simp only [sextet, groupValue, ha, hbeq, hceq]

/-- The last character of an incomplete group has the completion bits as its last ones. -/
theorem sextet_eq_iff_completion {m m' : Bytes} {n k r : ℕ} (h : ∀ i, i < n → m i = m' i)
    (hpart : 6 * (4 * k + r) < 8 * n) (hend : 8 * n < 6 * (4 * k + r + 1)) (hr : r < 4) :
    sextet (groupValue m k) r = sextet (groupValue m' k) r ↔
      completion n (m n) = completion n (m' n) := by
  have hc := (m (3 * k + 2)).isLt
  have hc' := (m' (3 * k + 2)).isLt
  have ha : m (3 * k) = m' (3 * k) := h _ (by omega)
  obtain rfl | rfl : r = 1 ∨ r = 2 := by omega
  · have hn : n = 3 * k + 1 := by omega
    subst hn
    have hb := (m (3 * k + 1)).isLt
    have hb' := (m' (3 * k + 1)).isLt
    rw [completion_one (by omega), completion_one (by omega)]
    simp only [sextet, groupValue, ha]
    omega
  · have hn : n = 3 * k + 2 := by omega
    subst hn
    have hbeq : m (3 * k + 1) = m' (3 * k + 1) := h _ (by omega)
    rw [completion_two (by omega), completion_two (by omega)]
    simp only [sextet, groupValue, ha, hbeq]
    omega

/-- What the byte behind the string contributes to the text is its completion bits. -/
theorem base64Text_eq_iff_completion {m m' : Bytes} {n : ℕ} (h : ∀ i, i < n → m i = m' i) :
    base64Text m n = base64Text m' n ↔ completion n (m n) = completion n (m' n) := by
  rw [base64Text_eq_iff]
  constructor
  · intro htext
    by_cases hzero : n % 3 = 0
    · rw [completion_zero hzero, completion_zero hzero]
    · have hchar := htext (n / 3) (by omega) (n % 3) (by omega)
      rw [base64TextChar_eq_iff (by omega)] at hchar
      exact (sextet_eq_iff_completion h (by omega) (by omega) (by omega)).mp hchar
  · intro hcompl k hk r hr
    by_cases hpad : 8 * n ≤ 6 * (4 * k + r)
    · rw [base64TextChar, base64TextChar, if_pos hpad, if_pos hpad]
    · rw [base64TextChar_eq_iff (by omega)]
      by_cases hend : 8 * n < 6 * (4 * k + r + 1)
      · exact (sextet_eq_iff_completion h (by omega) hend hr).mpr hcompl
      · exact sextet_eq_of_full h hr (by omega)

end Lib
