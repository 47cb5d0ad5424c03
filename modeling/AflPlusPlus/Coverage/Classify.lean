import AflPlusPlus.Lib.Loop
import AflPlusPlus.Lib.Memory
import Mathlib.Tactic.IntervalCases

/-!
# Hit-count classification

The bucket tables of `afl-fuzz-bitmap.c` and the word routines of `coverage-64.h` and
`coverage-32.h` that use them. Every routine of these two headers exists once per word size with
the same text, so it is written once over the word width `w` (a multiple of eight) and a word
classifier; the instances at 64 and 32 bits carry the source's names.
-/

namespace AflPlusPlus.Coverage
open Lib

/-- `count_class_lookup8`. -/
def countClassLookup8 (b : Byte) : Byte :=
  if b = 0 then 0
  else if b = 1 then 1
  else if b = 2 then 2
  else if b = 3 then 4
  else if b ≤ 7 then 8
  else if b ≤ 15 then 16
  else if b ≤ 31 then 32
  else if b ≤ 127 then 64
  else 128

/-- The table entry for the byte pair `b1`, `b2`. -/
def countClassPair (b1 b2 : ℕ) : BitVec 16 :=
  ((countClassLookup8 (BitVec.ofNat 8 b1)).setWidth 16 <<< 8) |||
    (countClassLookup8 (BitVec.ofNat 8 b2)).setWidth 16

/-- `init_count_class16`: fills the 16-bit table from the 8-bit one, row by row. -/
def initCountClass16 : ℕ → BitVec 16 :=
  forLoop 256 (fun b1 tbl =>
    forLoop 256 (fun b2 tbl => Function.update tbl ((b1 <<< 8) + b2) (countClassPair b1 b2)) tbl)
    (fun _ => 0)

/-- `count_class_lookup16[x]` after start-up. -/
def countClassLookup16 (x : BitVec 16) : BitVec 16 := initCountClass16 x.toNat

/-- `classify_word` of `coverage-64.h`: four table lookups on the halves of the halves. -/
def classifyWord64 (word : BitVec 64) : BitVec 64 :=
  countClassLookup16 (word.extractLsb' 48 16) ++ countClassLookup16 (word.extractLsb' 32 16) ++
    countClassLookup16 (word.extractLsb' 16 16) ++ countClassLookup16 (word.extractLsb' 0 16)

/-- `classify_word` of `coverage-32.h`. -/
def classifyWord32 (word : BitVec 32) : BitVec 32 :=
  countClassLookup16 (word.extractLsb' 16 16) ++ countClassLookup16 (word.extractLsb' 0 16)

/-- `classify_counts` over words of `w` bits: zero words are skipped. -/
def classifyCountsW (w : ℕ) (classify : BitVec w → BitVec w) (mapSize : ℕ) (trace : Bytes) :
    Bytes :=
  forLoop (mapSize / (w / 8)) (fun i mem =>
    if word w mem i ≠ 0#w then setWord w mem i (classify (word w mem i)) else mem) trace

def classifyCounts64 := classifyCountsW 64 classifyWord64

def classifyCounts32 := classifyCountsW 32 classifyWord32

/-- `simplify_lookup`. -/
def simplifyLookup (b : Byte) : Byte := if b = 0 then 1 else 128

/-- `simplify_trace` over words of `w` bits; `ones` is the word that replaces a zero word. -/
def simplifyTraceW (w : ℕ) (ones : BitVec w) (mapSize : ℕ) (trace : Bytes) : Bytes :=
  forLoop (mapSize / (w / 8)) (fun i mem =>
    if word w mem i ≠ 0#w then
      forLoop (w / 8) (fun b mem =>
        Function.update mem (i * (w / 8) + b) (simplifyLookup (mem (i * (w / 8) + b)))) mem
    else setWord w mem i ones) trace

def simplifyTrace64 := simplifyTraceW 64 0x0101010101010101

def simplifyTrace32 := simplifyTraceW 32 0x01010101

/-! ### The 16-bit table -/

/-- Writing `n` consecutive entries from `base` on. -/
theorem forLoop_update_apply {β : Type*} (tbl v : ℕ → β) (base n x : ℕ) :
    forLoop n (fun j t => Function.update t (base + j) (v j)) tbl x =
      if base ≤ x ∧ x < base + n then v (x - base) else tbl x := by
  refine forLoop_induct
    (fun k (t : ℕ → β) => t x = if base ≤ x ∧ x < base + k then v (x - base) else tbl x) ?_ ?_
  · rw [if_neg (by omega)]
  · intro k t _ ht
    by_cases hx : x = base + k
    · subst hx
      rw [Function.update_self, if_pos (by omega), Nat.add_sub_cancel_left]
    · rw [Function.update_of_ne hx, ht]
      by_cases hc : base ≤ x ∧ x < base + k
      · rw [if_pos hc, if_pos (by omega)]
      · rw [if_neg hc, if_neg (by omega)]

theorem initCountClass16_apply {b1 b2 : ℕ} (h1 : b1 < 256) (h2 : b2 < 256) :
    initCountClass16 (256 * b1 + b2) = countClassPair b1 b2 := by
  -- after `n` rows the entries of these rows are final
  have hrows : ∀ k c, k < 256 → c < 256 →
      initCountClass16 (256 * k + c) = countClassPair k c := by
    unfold initCountClass16
    refine forLoop_induct (fun n (t : ℕ → BitVec 16) =>
      ∀ k c, k < n → c < 256 → t (256 * k + c) = countClassPair k c) ?_ ?_
    · intro k c hk
      omega
    · intro n t _ ht k c hk hc
      have hbase : n <<< 8 = 256 * n := by rw [Nat.shiftLeft_eq]; omega
      rw [forLoop_update_apply, hbase]
      by_cases hkn : k = n
      · subst hkn
        rw [if_pos (by omega), Nat.add_sub_cancel_left]
      · rw [if_neg (by omega)]
        exact ht k c (by omega) hc
  exact hrows b1 b2 h1 h2

/-- The 16-bit table classifies both bytes independently. -/
theorem countClassLookup16_eq (x : BitVec 16) :
    countClassLookup16 x =
      countClassLookup8 (x.extractLsb' 8 8) ++ countClassLookup8 (x.extractLsb' 0 8) := by
  have hx : x.toNat = 256 * (x.toNat / 256) + x.toNat % 256 := by omega
  have hlt : x.toNat < 65536 := x.isLt
  have hhi : BitVec.ofNat 8 (x.toNat / 256) = x.extractLsb' 8 8 := by
    apply BitVec.eq_of_toNat_eq
    simp [BitVec.extractLsb'_toNat, Nat.shiftRight_eq_div_pow]
  have hlo : BitVec.ofNat 8 (x.toNat % 256) = x.extractLsb' 0 8 := by
    apply BitVec.eq_of_toNat_eq
    simp [BitVec.extractLsb'_toNat]
  rw [countClassLookup16, hx, initCountClass16_apply (by omega) (by omega),
    countClassPair, hhi, hlo, BitVec.append_def, BitVec.shiftLeftZeroExtend_eq,
    BitVec.setWidth'_eq]

@[simp]
theorem countClassLookup8_zero : countClassLookup8 0#8 = 0#8 := by decide

/-! ### Word classifiers act byte by byte -/

/-- A word routine that buckets every byte of its argument on its own. -/
def ClassifiesBytes {w : ℕ} (classify : BitVec w → BitVec w) : Prop :=
  ∀ x b, b < w / 8 → wordByte (classify x) b = countClassLookup8 (wordByte x b)

/-- One lookup classifies byte `2 * k` and byte `2 * k + 1` of a word. -/
theorem wordByte_countClassLookup16 {w : ℕ} (x : BitVec w) (k : ℕ) :
    wordByte (countClassLookup16 (x.extractLsb' (16 * k) 16)) 0 =
        countClassLookup8 (wordByte x (2 * k)) ∧
      wordByte (countClassLookup16 (x.extractLsb' (16 * k) 16)) 1 =
        countClassLookup8 (wordByte x (2 * k + 1)) := by
  have hlo : (x.extractLsb' (16 * k) 16).extractLsb' 0 8 = wordByte x (2 * k) := by
    apply BitVec.eq_of_getLsbD_eq
    intro i hi
    rw [getLsbD_wordByte, BitVec.getLsbD_extractLsb', BitVec.getLsbD_extractLsb',
      show 16 * k + (0 + i) = 8 * (2 * k) + i by omega]
    simp [show i < 16 by omega]
  have hhi : (x.extractLsb' (16 * k) 16).extractLsb' 8 8 = wordByte x (2 * k + 1) := by
    apply BitVec.eq_of_getLsbD_eq
    intro i hi
    rw [getLsbD_wordByte, BitVec.getLsbD_extractLsb', BitVec.getLsbD_extractLsb',
      show 16 * k + (8 + i) = 8 * (2 * k + 1) + i by omega]
    simp [show 8 + i < 16 by omega]
  rw [countClassLookup16_eq, hlo, hhi]
  exact ⟨BitVec.extractLsb'_append_eq_right, BitVec.extractLsb'_append_eq_left⟩

/-- Bytes of a word put together from a high part and a low 16-bit part. -/
theorem wordByte_append16 {v : ℕ} (hi : BitVec v) (lo : BitVec 16) (b : ℕ) :
    wordByte (hi ++ lo) b = if b < 2 then wordByte lo b else wordByte hi (b - 2) := by
  apply BitVec.eq_of_getLsbD_eq
  intro i hi'
  rw [getLsbD_wordByte, BitVec.getLsbD_append]
  by_cases hb : b < 2
  · rw [if_pos (by omega), if_pos hb, getLsbD_wordByte]
  · rw [if_neg (by omega), if_neg hb, getLsbD_wordByte,
      show 8 * b + i - 16 = 8 * (b - 2) + i by omega]

theorem classifyWord64_classifiesBytes : ClassifiesBytes classifyWord64 := by
  intro x b hb
  obtain ⟨h0, h1⟩ := wordByte_countClassLookup16 x 0
  obtain ⟨h2, h3⟩ := wordByte_countClassLookup16 x 1
  obtain ⟨h4, h5⟩ := wordByte_countClassLookup16 x 2
  obtain ⟨h6, h7⟩ := wordByte_countClassLookup16 x 3
  have hb' : b < 8 := hb
  interval_cases b <;>
    simp_all [classifyWord64, wordByte_append16]

theorem classifyWord32_classifiesBytes : ClassifiesBytes classifyWord32 := by
  intro x b hb
  obtain ⟨h0, h1⟩ := wordByte_countClassLookup16 x 0
  obtain ⟨h2, h3⟩ := wordByte_countClassLookup16 x 1
  have hb' : b < 4 := hb
  interval_cases b <;>
    simp_all [classifyWord32, wordByte_append16]

theorem ClassifiesBytes.zero {w : ℕ} {classify : BitVec w → BitVec w} (hw : 8 ∣ w)
    (hc : ClassifiesBytes classify) : classify 0#w = 0#w := by
  apply eq_of_wordByte hw
  intro b hb
  rw [hc _ _ hb, wordByte_zero, countClassLookup8_zero]

/-- After `classify_counts` every whole word of the map is classified. Zero words, which the loop
skips, are fixed points of the classifier. -/
theorem word_classifyCountsW {w : ℕ} (hw : 8 ∣ w) {classify : BitVec w → BitVec w}
    (hc : ClassifiesBytes classify) (mapSize : ℕ) (trace : Bytes) (k : ℕ) :
    word w (classifyCountsW w classify mapSize trace) k =
      if k < mapSize / (w / 8) then classify (word w trace k) else word w trace k := by
  refine forLoop_induct (fun i mem => ∀ k, word w mem k =
    if k < i then classify (word w trace k) else word w trace k) ?_ ?_ k
  · intro k
    rw [if_neg (Nat.not_lt_zero k)]
  · intro i mem _ ih k
    have hi : word w mem i = word w trace i := by rw [ih i, if_neg (lt_irrefl i)]
    by_cases hk : k = i
    · subst hk
      rw [if_pos (Nat.lt_succ_self k), hi]
      split
      · exact word_setWord_self hw _ _ _
      · rename_i hz
        rw [hi, not_not.mp hz]
        exact (hc.zero hw).symm
    · have hlt : k < i + 1 ↔ k < i := by omega
      simp only [hlt]
      split
      · rw [word_setWord_ne hw _ _ hk, ih k]
      · exact ih k

/-! ### Whole maps, byte by byte -/

/-- Every byte of a memory is a byte of the word it lies in. -/
theorem wordByte_word_div {w : ℕ} (hw : 8 ∣ w) (hpos : 0 < w) (m : Bytes) (i : ℕ) :
    wordByte (word w m (i / (w / 8))) (i % (w / 8)) = m i := by
  have hbyte : i % (w / 8) < w / 8 := Nat.mod_lt _ (by omega)
  rw [wordByte_word hw m _ hbyte]
  congr 1
  rw [Nat.mul_comm]
  exact Nat.div_add_mod i (w / 8)

/-- A byte lies in one of the map's words exactly when it lies in the map. -/
theorem div_lt_words_iff {w mapSize : ℕ} (hpos : 0 < w / 8) (hdvd : w / 8 ∣ mapSize) (i : ℕ) :
    i / (w / 8) < mapSize / (w / 8) ↔ i < mapSize := by
  rw [Nat.div_lt_iff_lt_mul hpos, Nat.div_mul_cancel hdvd]

theorem classifyCountsW_apply {w : ℕ} (hw : 8 ∣ w) (hpos : 0 < w) {classify : BitVec w → BitVec w}
    (hc : ClassifiesBytes classify) {mapSize : ℕ} (hdvd : w / 8 ∣ mapSize) (trace : Bytes) (i : ℕ) :
    classifyCountsW w classify mapSize trace i =
      if i < mapSize then countClassLookup8 (trace i) else trace i := by
  have hbyte : i % (w / 8) < w / 8 := Nat.mod_lt _ (by omega)
  rw [← wordByte_word_div hw hpos (classifyCountsW w classify mapSize trace),
    word_classifyCountsW hw hc]
  by_cases hi : i < mapSize
  · rw [if_pos hi, if_pos ((div_lt_words_iff (by omega) hdvd i).mpr hi), hc _ _ hbyte,
      wordByte_word_div hw hpos]
  · rw [if_neg hi, if_neg (mt (div_lt_words_iff (by omega) hdvd i).mp hi),
      wordByte_word_div hw hpos]

/-- `classify_counts` buckets every byte of a map of whole words. -/
theorem classifyCounts64_apply {mapSize i : ℕ} (hdvd : 8 ∣ mapSize) (hi : i < mapSize)
    (trace : Bytes) : classifyCounts64 mapSize trace i = countClassLookup8 (trace i) := by
  rw [classifyCounts64, classifyCountsW_apply (by decide) (by decide)
    classifyWord64_classifiesBytes hdvd, if_pos hi]

/-- The unrolled lookups on the bytes of one non-zero word. -/
theorem simplify_bytes_apply (base n : ℕ) (mem : Bytes) (x : ℕ) :
    forLoop n (fun b mem =>
        Function.update mem (base + b) (simplifyLookup (mem (base + b)))) mem x =
      if base ≤ x ∧ x < base + n then simplifyLookup (mem x) else mem x := by
  refine forLoop_induct (fun k (t : Bytes) => ∀ x, t x =
    if base ≤ x ∧ x < base + k then simplifyLookup (mem x) else mem x) ?_ ?_ x
  · intro x
    rw [if_neg (by omega)]
  · intro k t _ ih x
    by_cases hx : x = base + k
    · subst hx
      rw [Function.update_self, ih, if_neg (by omega), if_pos (by omega)]
    · rw [Function.update_of_ne hx, ih]
      by_cases hc : base ≤ x ∧ x < base + k
      · rw [if_pos hc, if_pos (by omega)]
      · rw [if_neg hc, if_neg (by omega)]

/-- A word that replaces a zero word has to consist of the bytes that a zero byte is mapped to. -/
def SimplifiesZero {w : ℕ} (ones : BitVec w) : Prop :=
  ∀ b, b < w / 8 → wordByte ones b = simplifyLookup 0

theorem simplifiesZero_64 : SimplifiesZero (0x0101010101010101 : BitVec 64) := by
  unfold SimplifiesZero
  decide

theorem simplifiesZero_32 : SimplifiesZero (0x01010101 : BitVec 32) := by
  unfold SimplifiesZero
  decide

theorem simplifyTraceW_apply {w : ℕ} (hw : 8 ∣ w) (hpos : 0 < w) {ones : BitVec w}
    (hones : SimplifiesZero ones) {mapSize : ℕ} (hdvd : w / 8 ∣ mapSize) (trace : Bytes) (x : ℕ) :
    simplifyTraceW w ones mapSize trace x =
      if x < mapSize then simplifyLookup (trace x) else trace x := by
  have hrun : ∀ x, simplifyTraceW w ones mapSize trace x =
      if x < mapSize / (w / 8) * (w / 8) then simplifyLookup (trace x) else trace x := by
    refine forLoop_induct (fun k (mem : Bytes) => ∀ x, mem x =
      if x < k * (w / 8) then simplifyLookup (trace x) else trace x) ?_ ?_
    · intro x
      rw [Nat.zero_mul, if_neg (Nat.not_lt_zero x)]
    · intro k mem _ ih x
      have hnext : (k + 1) * (w / 8) = k * (w / 8) + w / 8 := Nat.succ_mul k (w / 8)
      by_cases hx : k * (w / 8) ≤ x ∧ x < k * (w / 8) + w / 8
      · -- word `k` has not been touched yet
        have hraw : mem x = trace x := by rw [ih x, if_neg (by omega)]
        rw [if_pos (show x < (k + 1) * (w / 8) by omega), ← hraw]
        split
        · rw [simplify_bytes_apply, if_pos hx]
        · rename_i hzero
          obtain ⟨hdiv, hmod⟩ := block_div_mod k (b := x - k * (w / 8)) (n := w / 8) (by omega)
          rw [Nat.add_sub_cancel' hx.1] at hdiv hmod
          have hz : mem x = 0 := by
            rw [← wordByte_word_div hw hpos mem x, hdiv, not_not.mp hzero, wordByte_zero]
            rfl
          rw [setWord, if_pos hdiv, hz]
          exact hones _ (Nat.mod_lt x (by omega))
      · have hsame : x < (k + 1) * (w / 8) ↔ x < k * (w / 8) := by omega
        rw [if_congr hsame rfl rfl, ← ih x]
        split
        · rw [simplify_bytes_apply, if_neg hx]
        · rw [setWord, if_neg]
          rintro rfl
          have hlow := Nat.div_mul_le_self x (w / 8)
          have hhigh := Nat.lt_div_mul_add (a := x) (b := w / 8) (by omega)
          omega
  rw [hrun, Nat.div_mul_cancel hdvd]

/-- Buckets are zero exactly where counts are. -/
theorem simplifyLookup_countClassLookup8 :
    ∀ b : Byte, simplifyLookup (countClassLookup8 b) = simplifyLookup b := by
  decide

/-- Simplifying forgets the hit counts, so it does not matter whether they are classified first. -/
theorem simplifyTraceW_classifyCountsW {w : ℕ} (hw : 8 ∣ w) (hpos : 0 < w)
    {classify : BitVec w → BitVec w} (hc : ClassifiesBytes classify) {ones : BitVec w}
    (hones : SimplifiesZero ones) {mapSize : ℕ} (hdvd : w / 8 ∣ mapSize) (trace : Bytes) :
    simplifyTraceW w ones mapSize (classifyCountsW w classify mapSize trace) =
      simplifyTraceW w ones mapSize trace := by
  funext x
  rw [simplifyTraceW_apply hw hpos hones hdvd, simplifyTraceW_apply hw hpos hones hdvd,
    classifyCountsW_apply hw hpos hc hdvd]
  split
  · exact simplifyLookup_countClassLookup8 _
  · rfl

/-- On maps of whole 64-bit words both builds classify and simplify byte by byte, and simplifying
the classified map is simplifying the raw one. -/
theorem classify_simplify_bytewise {mapSize : ℕ} (hdvd : 8 ∣ mapSize) (trace : Bytes) :
    (∀ i, classifyCounts64 mapSize trace i =
        if i < mapSize then countClassLookup8 (trace i) else trace i) ∧
      (∀ i, classifyCounts32 mapSize trace i =
        if i < mapSize then countClassLookup8 (trace i) else trace i) ∧
      simplifyTrace64 mapSize (classifyCounts64 mapSize trace) = simplifyTrace64 mapSize trace ∧
      simplifyTrace32 mapSize (classifyCounts32 mapSize trace) = simplifyTrace32 mapSize trace ∧
      (∀ i, simplifyTrace64 mapSize trace i =
        if i < mapSize then (if trace i = 0 then 1 else 128) else trace i) ∧
      ∀ i, simplifyTrace32 mapSize trace i =
        if i < mapSize then (if trace i = 0 then 1 else 128) else trace i := by
  have hdvd32 : 4 ∣ mapSize := Dvd.dvd.trans (by decide) hdvd
  have h64 := classifyWord64_classifiesBytes
  have h32 := classifyWord32_classifiesBytes
  refine ⟨fun i => ?_, fun i => ?_, ?_, ?_, fun i => ?_, fun i => ?_⟩
  · exact classifyCountsW_apply (by decide) (by decide) h64 hdvd trace i
  · exact classifyCountsW_apply (by decide) (by decide) h32 hdvd32 trace i
  · exact simplifyTraceW_classifyCountsW (by decide) (by decide) h64 simplifiesZero_64 hdvd trace
  · exact simplifyTraceW_classifyCountsW (by decide) (by decide) h32 simplifiesZero_32 hdvd32 trace
  · exact simplifyTraceW_apply (by decide) (by decide) simplifiesZero_64 hdvd trace i
  · exact simplifyTraceW_apply (by decide) (by decide) simplifiesZero_32 hdvd32 trace i

/-- A map of one word with a counter of three hits. -/
theorem classify_simplify_bytewise_eight :
    8 ∣ 8 ∧ classifyCounts64 8 (fun _ => 3) 0 = 4 ∧ classifyCounts32 8 (fun _ => 3) 7 = 4 ∧
      simplifyTrace64 8 (fun _ => 3) 0 = 128 := by
  obtain ⟨h64, h32, -, -, hs, -⟩ := @classify_simplify_bytewise 8 (by decide) fun _ => 3
  exact ⟨by decide, by rw [h64]; rfl, by rw [h32]; rfl, by rw [hs]; rfl⟩

end AflPlusPlus.Coverage
