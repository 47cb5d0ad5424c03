import Mathlib.Algebra.Group.Nat.Defs
import Mathlib.Logic.Function.Basic
import Mathlib.Tactic.Push

/-!
# Byte memories seen as words and as bitmaps

A memory is a function from addresses to bytes. `word w m k` is what a little-endian machine loads
through a `w`-bit pointer to element `k`, and `setWord w m k x` is the memory after a store through
it. `bitAt m i` is bit `i` of the memory read as a packed bitmap.
-/

namespace Lib

abbrev Byte := BitVec 8

abbrev Bytes := ℕ → Byte

/-- The first `n` bytes at address `a` as a little-endian number of `w` bits. -/
def gather (w : ℕ) (m : Bytes) (a : ℕ) : ℕ → BitVec w
  | 0 => 0
  | n + 1 => gather w m a n ||| ((m (a + n)).setWidth w <<< (8 * n))

/-- Element `k` of the memory seen as an array of `w`-bit words. -/
def word (w : ℕ) (m : Bytes) (k : ℕ) : BitVec w := gather w m (k * (w / 8)) (w / 8)

/-- The memory after storing `x` in word `k`. -/
def setWord (w : ℕ) (m : Bytes) (k : ℕ) (x : BitVec w) : Bytes := fun j =>
  if j / (w / 8) = k then x.extractLsb' (8 * (j % (w / 8))) 8 else m j

/-- Byte `b` of a word. -/
def wordByte {w : ℕ} (x : BitVec w) (b : ℕ) : Byte := x.extractLsb' (8 * b) 8

theorem getLsbD_gather {w : ℕ} (m : Bytes) (a n : ℕ) {i : ℕ} (hi : i < w) :
    (gather w m a n).getLsbD i = (decide (i < 8 * n) && (m (a + i / 8)).getLsbD (i % 8)) := by
  induction n with
  | zero => simp [gather]
  | succ n ih =>
    rw [gather, BitVec.getLsbD_or, ih, BitVec.getLsbD_shiftLeft, BitVec.getLsbD_setWidth]
    rcases Nat.lt_trichotomy (i / 8) n with h | h | h
    · have h1 : i < 8 * n := by omega
      have h2 : i < 8 * (n + 1) := by omega
      simp [h1, h2]
    · have h1 : ¬ i < 8 * n := by omega
      have h2 : i < 8 * (n + 1) := by omega
      have h3 : i - 8 * n = i % 8 := by omega
      have h4 : i % 8 < w := by omega
      simp [h1, h2, h3, h4, hi, h]
    · have h1 : ¬ i < 8 * n := by omega
      have h2 : ¬ i < 8 * (n + 1) := by omega
      have h3 : 8 ≤ i - 8 * n := by omega
      simp [h1, h2, BitVec.getLsbD_of_ge _ _ h3]

theorem getLsbD_word {w : ℕ} (hw : 8 ∣ w) (m : Bytes) (k : ℕ) {i : ℕ} (hi : i < w) :
    (word w m k).getLsbD i = (m (k * (w / 8) + i / 8)).getLsbD (i % 8) := by
  have h : i < 8 * (w / 8) := by omega
  simp [word, getLsbD_gather m _ _ hi, h]

theorem getLsbD_wordByte {w : ℕ} (x : BitVec w) (b i : ℕ) :
    (wordByte x b).getLsbD i = (decide (i < 8) && x.getLsbD (8 * b + i)) := by
  simp [wordByte, BitVec.getLsbD_extractLsb']

/-- Address `k * n + b` lies in block `k` of size `n`, at offset `b`. -/
theorem block_div_mod {n b : ℕ} (k : ℕ) (hb : b < n) :
    (k * n + b) / n = k ∧ (k * n + b) % n = b := by
  constructor
  · rw [Nat.add_comm, Nat.add_mul_div_right _ _ (by omega), Nat.div_eq_of_lt hb, Nat.zero_add]
  · rw [Nat.add_comm, Nat.add_mul_mod_self_right, Nat.mod_eq_of_lt hb]

/-- The bytes of a loaded word are the bytes of the memory. -/
theorem wordByte_word {w : ℕ} (hw : 8 ∣ w) (m : Bytes) (k : ℕ) {b : ℕ} (hb : b < w / 8) :
    wordByte (word w m k) b = m (k * (w / 8) + b) := by
  apply BitVec.eq_of_getLsbD_eq
  intro i hi
  have hlt : 8 * b + i < w := by omega
  have hdiv : (8 * b + i) / 8 = b := by omega
  have hmod : (8 * b + i) % 8 = i := by omega
  rw [getLsbD_wordByte, getLsbD_word hw m k hlt, hdiv, hmod]
  simp [hi]

@[simp]
theorem wordByte_and {w : ℕ} (x y : BitVec w) (b : ℕ) :
    wordByte (x &&& y) b = wordByte x b &&& wordByte y b := by
  simp [wordByte, BitVec.extractLsb'_and]

theorem wordByte_not {w : ℕ} (hw : 8 ∣ w) (x : BitVec w) {b : ℕ} (hb : b < w / 8) :
    wordByte (~~~ x) b = ~~~ wordByte x b := by
  apply BitVec.eq_of_getLsbD_eq
  intro i hi
  have hlt : 8 * b + i < w := by omega
  rw [getLsbD_wordByte, BitVec.getLsbD_not, BitVec.getLsbD_not, getLsbD_wordByte]
  simp [hi, hlt]

theorem wordByte_of_ge {w : ℕ} (hw : 8 ∣ w) (x : BitVec w) {b : ℕ} (hb : w / 8 ≤ b) :
    wordByte x b = 0#8 := by
  apply BitVec.eq_of_getLsbD_eq
  intro i _
  rw [getLsbD_wordByte, BitVec.getLsbD_of_ge x _ (by omega), Bool.and_false, BitVec.getLsbD_zero]

theorem wordByte_xor {w : ℕ} (x y : BitVec w) (b : ℕ) :
    wordByte (x ^^^ y) b = wordByte x b ^^^ wordByte y b := by
  simp [wordByte, BitVec.extractLsb'_xor]

theorem wordByte_allOnes {w b : ℕ} (hb : 8 * b + 8 ≤ w) :
    wordByte (BitVec.allOnes w) b = BitVec.allOnes 8 := by
  apply BitVec.eq_of_getLsbD_eq
  intro i hi
  rw [getLsbD_wordByte, BitVec.getLsbD_allOnes, BitVec.getLsbD_allOnes]
  simp [hi, show 8 * b + i < w by omega]

theorem wordByte_shift {w : ℕ} (v : BitVec w) (k i : ℕ) :
    wordByte (v >>> (8 * k)) i = wordByte v (i + k) := by
  apply BitVec.eq_of_getLsbD_eq
  intro j _
  rw [getLsbD_wordByte, getLsbD_wordByte, BitVec.getLsbD_ushiftRight,
    show 8 * k + (8 * i + j) = 8 * (i + k) + j by omega]

/-- Two words with the same bytes are equal. -/
theorem eq_of_wordByte {w : ℕ} (hw : 8 ∣ w) {x y : BitVec w}
    (h : ∀ b, b < w / 8 → wordByte x b = wordByte y b) : x = y := by
  apply BitVec.eq_of_getLsbD_eq
  intro i hi
  have hb : i / 8 < w / 8 := by omega
  have hbit := congrArg (fun z : Byte => z.getLsbD (i % 8)) (h (i / 8) hb)
  have hmod : i % 8 < 8 := Nat.mod_lt _ (by decide)
  simp only [getLsbD_wordByte, hmod, decide_true, Bool.true_and, Nat.div_add_mod] at hbit
  exact hbit

@[simp]
theorem wordByte_zero {w : ℕ} (b : ℕ) : wordByte (0#w) b = 0#8 := by
  simp [wordByte]

/-- A word is non-zero exactly when one of its bytes is. -/
theorem ne_zero_iff_wordByte {w : ℕ} (hw : 8 ∣ w) (x : BitVec w) :
    x ≠ 0#w ↔ ∃ b, b < w / 8 ∧ wordByte x b ≠ 0#8 := by
  constructor
  · intro hx
    by_contra hn
    push Not at hn
    exact hx (eq_of_wordByte hw fun b hb => by rw [hn b hb, wordByte_zero])
  · rintro ⟨b, _, hb⟩ rfl
    exact hb (wordByte_zero b)

/-- A store is seen by the load of the same word. -/
theorem word_setWord_self {w : ℕ} (hw : 8 ∣ w) (m : Bytes) (k : ℕ) (x : BitVec w) :
    word w (setWord w m k x) k = x := by
  apply eq_of_wordByte hw
  intro b hb
  obtain ⟨hdiv, hmod⟩ := block_div_mod k hb
  rw [wordByte_word hw _ _ hb, setWord, if_pos hdiv, hmod, wordByte]

/-- A store is not seen by loads of other words. -/
theorem word_setWord_ne {w : ℕ} (hw : 8 ∣ w) (m : Bytes) {k l : ℕ} (x : BitVec w) (h : l ≠ k) :
    word w (setWord w m k x) l = word w m l := by
  apply eq_of_wordByte hw
  intro b hb
  obtain ⟨hdiv, _⟩ := block_div_mod l hb
  rw [wordByte_word hw _ _ hb, wordByte_word hw _ _ hb, setWord, if_neg (by rw [hdiv]; exact h)]

/-- Masking with `1 << i` tests bit `i`. -/
theorem and_one_shiftLeft_eq_zero {w : ℕ} (x : BitVec w) {i : ℕ} (hi : i < w) :
    x &&& (1#w <<< i) = 0#w ↔ x.getLsbD i = false := by
  constructor
  · intro h
    have hbit := congrArg (fun y : BitVec w => y.getLsbD i) h
    simpa [hi, show 0 < w by omega] using hbit
  · intro h
    apply BitVec.eq_of_getLsbD_eq
    intro j hj
    rw [BitVec.getLsbD_and, BitVec.getLsbD_shiftLeft, BitVec.getLsbD_zero]
    by_cases hji : j = i
    · subst hji
      simp [h]
    · by_cases hlt : j < i
      · simp [hlt]
      · simp [show j - i ≠ 0 by omega]

/-- Bit `i` of a memory read as a packed bitmap. -/
def bitAt (m : Bytes) (i : ℕ) : Bool := (m (i >>> 3)).getLsbD (i &&& 7)

end Lib
