import AflPlusPlus.Coverage.Classify
import Mathlib.Tactic.Ring

/-!
# New coverage: `has_new_bits` and its fast path

`has_new_bits_unclassified` first skims the raw trace against the virgin map and only when the skim
finds something classifies the trace and runs `has_new_bits`. The skim exists in four versions of
different word and vector width. They are compared with the plain path through one predicate on a
single word, `freshWord`: the classified word still has a virgin bit.
-/

namespace AflPlusPlus.Coverage
open Lib

/-- The maps `has_new_bits` works on. The forkserver handshake rounds `map_size` up to a multiple of
64 and `real_map_size` is what the target asked for before rounding. -/
structure Maps where
  mapSize : ℕ
  realMapSize : ℕ
  traceBits : Bytes
  virginMap : Bytes
  /-- `virgin_map == afl->virgin_bits`. -/
  isVirginBits : Bool
  bitmapChanged : Bool
  aligned : 64 ∣ mapSize
  real_le : realMapSize ≤ mapSize

/-- `discover_word` on word `k`. -/
def discoverWordW (w : ℕ) (k : ℕ) (current : Bytes) (st : Byte × Bytes) : Byte × Bytes :=
  let ret := st.1
  let virgin := st.2
  if word w current k &&& word w virgin k ≠ 0#w then
    (if ret < 2 then
      if (List.range (w / 8)).any (fun b =>
          wordByte (word w current k) b ≠ 0 && wordByte (word w virgin k) b == 0xff)
      then 2 else 1
    else ret,
    setWord w virgin k (word w virgin k &&& ~~~ word w current k))
  else (ret, virgin)

/-- The loop of `has_new_bits`: words of the real map, last one rounded up. -/
def newBitsLoopW (w : ℕ) (realMapSize : ℕ) (current virgin : Bytes) : Byte × Bytes :=
  forLoop ((realMapSize + (w / 8 - 1)) / (w / 8)) (fun k st =>
    if word w current k ≠ 0#w then discoverWordW w k current st else st) (0, virgin)

def hasNewBitsW (w : ℕ) (s : Maps) : Byte × Maps :=
  let r := newBitsLoopW w s.realMapSize s.traceBits s.virginMap
  (r.1, { s with
    virginMap := r.2
    bitmapChanged := if r.1 ≠ 0 && s.isVirginBits then true else s.bitmapChanged })

/-! ### The four versions of `skim` -/

/-- `classify_word(current[x]) & virgin[x]` is non-zero. -/
def freshWord (w : ℕ) (classify : BitVec w → BitVec w) (virgin current : Bytes) (x : ℕ) : Bool :=
  classify (word w current x) &&& word w virgin x ≠ 0#w

/-- `current[x] && classify_word(current[x]) & virgin[x]`. -/
def skimWord (w : ℕ) (classify : BitVec w → BitVec w) (virgin current : Bytes) (x : ℕ) : Bool :=
  word w current x ≠ 0#w && freshWord w classify virgin current x

/-- The body of the unrolled loop of the plain versions, on the four words from `x` on. -/
def skimFour (w : ℕ) (classify : BitVec w → BitVec w) (virgin current : Bytes) (x : ℕ) : Bool :=
  skimWord w classify virgin current x || skimWord w classify virgin current (x + 1) ||
    skimWord w classify virgin current (x + 2) || skimWord w classify virgin current (x + 3)

/-- `skim` of `coverage-32.h`: blocks of four 32-bit words up to the end of the map. -/
def skim32 (virgin current : Bytes) (len : ℕ) : Bool :=
  (List.range ((len + 15) / 16)).any fun k => skimFour 32 classifyWord32 virgin current (4 * k)

/-- The plain `skim` of `coverage-64.h`. -/
def skim64 (virgin current : Bytes) (len : ℕ) : Bool :=
  (List.range ((len + 31) / 32)).any fun k => skimFour 64 classifyWord64 virgin current (4 * k)

/-- `_mm256_movemask_epi8(_mm256_cmpeq_epi64(value, zeroes))`: one byte of ones per zero lane. -/
def movemask (z0 z1 z2 z3 : Bool) : BitVec 32 :=
  let lane (z : Bool) : BitVec 8 := if z then 0xff else 0
  lane z3 ++ lane z2 ++ lane z1 ++ lane z0

/-- `skim` under `__AVX2__`. -/
def skimAvx2 (virgin current : Bytes) (len : ℕ) : Bool :=
  (List.range ((len + 31) / 32)).any fun k =>
    let zero (x : ℕ) : Bool := word 64 current (4 * k + x) = 0
    let fresh (x : ℕ) : Bool := freshWord 64 classifyWord64 virgin current (4 * k + x)
    let mask := movemask (zero 0) (zero 1) (zero 2) (zero 3)
    if mask = -1 then false
    else
      (mask &&& 0xff = 0 && fresh 0) || (mask &&& 0xff00 = 0 && fresh 1) ||
        (mask &&& 0xff0000 = 0 && fresh 2) || (mask &&& 0xff000000 = 0 && fresh 3)

/-- `_mm512_testn_epi64_mask(value, value)`: one bit per zero lane. -/
def testnMask (zero : ℕ → Bool) : BitVec 8 :=
  forLoop 8 (fun x mask => if zero x then mask ||| (1#8 <<< x) else mask) 0#8

/-- `skim` under `__AVX512F__`. The loop condition is `current != current_end`, which is reached
because the map is a whole number of 64-byte blocks. -/
def skimAvx512 (virgin current : Bytes) (len : ℕ) : Bool :=
  (List.range (len / 64)).any fun k =>
    let zero (x : ℕ) : Bool := word 64 current (8 * k + x) = 0
    let mask := testnMask zero
    if mask = 0xff then false
    else (List.range 8).any fun x =>
      mask &&& (1 <<< x) = 0 && freshWord 64 classifyWord64 virgin current (8 * k + x)

/-! ### The fast path -/

/-- The builds of the coverage routines. -/
inductive Build
  | word32
  | word64
  | avx2
  | avx512
  deriving DecidableEq, Repr

def Build.width : Build → ℕ
  | .word32 => 32
  | _ => 64

def Build.classifyWord : (b : Build) → BitVec b.width → BitVec b.width
  | .word32 => classifyWord32
  | .word64 => classifyWord64
  | .avx2 => classifyWord64
  | .avx512 => classifyWord64

def Build.skim : Build → Bytes → Bytes → ℕ → Bool
  | .word32 => skim32
  | .word64 => skim64
  | .avx2 => skimAvx2
  | .avx512 => skimAvx512

def Build.classifyCounts (b : Build) (s : Maps) : Maps :=
  { s with traceBits := classifyCountsW b.width b.classifyWord s.mapSize s.traceBits }

def Build.hasNewBits (b : Build) (s : Maps) : Byte × Maps := hasNewBitsW b.width s

/-- `has_new_bits_unclassified`, with the value it leaves in `*classified`. -/
def Build.hasNewBitsUnclassified (b : Build) (s : Maps) (classified : Bool) : Byte × Maps × Bool :=
  if !b.skim s.virginMap s.traceBits s.mapSize then (0, s, classified)
  else
    let r := b.hasNewBits (b.classifyCounts s)
    (r.1, r.2, true)

/-! ### All versions look for the same bytes -/

/-- The byte at `j`, once classified, still has a virgin bit. -/
def FreshByte (virgin current : Bytes) (j : ℕ) : Prop :=
  countClassLookup8 (current j) &&& virgin j ≠ 0

section Words

variable {w : ℕ} {classify : BitVec w → BitVec w} (hw : 8 ∣ w) (hc : ClassifiesBytes classify)
include hw hc

theorem freshWord_iff (virgin current : Bytes) (x : ℕ) :
    freshWord w classify virgin current x = true ↔
      ∃ b, b < w / 8 ∧ FreshByte virgin current (x * (w / 8) + b) := by
  simp only [freshWord, decide_eq_true_eq, FreshByte]
  rw [ne_zero_iff_wordByte hw]
  refine exists_congr fun b => and_congr_right fun hb => ?_
  rw [wordByte_and, hc _ _ hb, wordByte_word hw _ _ hb, wordByte_word hw _ _ hb]
  rfl

theorem freshWord_of_zero (virgin : Bytes) {current : Bytes} {x : ℕ}
    (hz : word w current x = 0#w) : freshWord w classify virgin current x = false := by
  simp [freshWord, hz, hc.zero hw]

/-- The zero test in front of the lookup only saves work. -/
theorem skimWord_eq (virgin current : Bytes) (x : ℕ) :
    skimWord w classify virgin current x = freshWord w classify virgin current x := by
  unfold skimWord
  by_cases hz : word w current x = 0#w
  · rw [freshWord_of_zero hw hc virgin hz, Bool.and_false]
  · simp [hz]

/-- A word of the map is fresh exactly when the map has a fresh byte. -/
theorem exists_freshWord_iff (hpos : 0 < w) (virgin current : Bytes) {len : ℕ}
    (hlen : w / 8 ∣ len) :
    (∃ x, x < len / (w / 8) ∧ freshWord w classify virgin current x = true) ↔
      ∃ j, j < len ∧ FreshByte virgin current j := by
  have hn : 0 < w / 8 := by omega
  obtain ⟨n, rfl⟩ := hlen
  rw [Nat.mul_div_cancel_left _ hn]
  constructor
  · rintro ⟨x, hx, hf⟩
    obtain ⟨b, hb, hj⟩ := (freshWord_iff hw hc virgin current x).mp hf
    refine ⟨x * (w / 8) + b, ?_, hj⟩
    calc x * (w / 8) + b < x * (w / 8) + w / 8 := by omega
      _ = (x + 1) * (w / 8) := by ring
      _ ≤ n * (w / 8) := Nat.mul_le_mul_right _ hx
      _ = w / 8 * n := Nat.mul_comm _ _
  · rintro ⟨j, hj, hf⟩
    refine ⟨j / (w / 8), Nat.div_lt_of_lt_mul hj, ?_⟩
    refine (freshWord_iff hw hc virgin current _).mpr ⟨j % (w / 8), Nat.mod_lt _ hn, ?_⟩
    rwa [Nat.mul_comm, Nat.div_add_mod]

theorem skimFour_iff (virgin current : Bytes) (x : ℕ) :
    skimFour w classify virgin current x = true ↔
      ∃ i, i < 4 ∧ freshWord w classify virgin current (x + i) = true := by
  simp only [skimFour, skimWord_eq hw hc, Bool.or_eq_true]
  constructor
  · rintro (((h | h) | h) | h)
    · exact ⟨0, by omega, h⟩
    · exact ⟨1, by omega, h⟩
    · exact ⟨2, by omega, h⟩
    · exact ⟨3, by omega, h⟩
  · rintro ⟨i, hi, h⟩
    interval_cases i
    · exact Or.inl (Or.inl (Or.inl h))
    · exact Or.inl (Or.inl (Or.inr h))
    · exact Or.inl (Or.inr h)
    · exact Or.inr h

end Words

/-- Scanning blocks of `n` items covers all items. -/
theorem exists_block_iff {n blocks : ℕ} (hn : 0 < n) (p : ℕ → Prop) :
    (∃ k, k < blocks ∧ ∃ i, i < n ∧ p (n * k + i)) ↔ ∃ x, x < n * blocks ∧ p x := by
  constructor
  · rintro ⟨k, hk, i, hi, hp⟩
    refine ⟨n * k + i, ?_, hp⟩
    calc n * k + i < n * k + n := by omega
      _ = n * (k + 1) := by ring
      _ ≤ n * blocks := Nat.mul_le_mul_left _ hk
  · rintro ⟨x, hx, hp⟩
    exact ⟨x / n, Nat.div_lt_of_lt_mul hx, x % n, Nat.mod_lt _ hn, by rwa [Nat.div_add_mod]⟩

theorem movemask_spec (z0 z1 z2 z3 : Bool) :
    (movemask z0 z1 z2 z3 = -1 ↔ (z0 && z1 && z2 && z3) = true) ∧
    (movemask z0 z1 z2 z3 &&& 0xff = 0 ↔ z0 = false) ∧
    (movemask z0 z1 z2 z3 &&& 0xff00 = 0 ↔ z1 = false) ∧
    (movemask z0 z1 z2 z3 &&& 0xff0000 = 0 ↔ z2 = false) ∧
    (movemask z0 z1 z2 z3 &&& 0xff000000 = 0 ↔ z3 = false) := by
  revert z0 z1 z2 z3
  decide

theorem getLsbD_testnMask (zero : ℕ → Bool) {x : ℕ} (hx : x < 8) :
    (testnMask zero).getLsbD x = zero x := by
  have h : ∀ x, x < 8 → (testnMask zero).getLsbD x = (decide (x < 8) && zero x) := by
    unfold testnMask
    refine forLoop_induct
      (fun n (m : BitVec 8) => ∀ x, x < 8 → m.getLsbD x = (decide (x < n) && zero x)) ?_ ?_
    · intro x _
      simp
    · intro n m hn ih x hx
      have hbit : (1#8 <<< n).getLsbD x = decide (x = n) := by
        interval_cases n <;> interval_cases x <;> rfl
      by_cases hxn : x = n
      · subst hxn
        cases hz : zero x <;> simp [ih x hx, hbit, hz]
      · have hlt : x < n + 1 ↔ x < n := by omega
        cases hz : zero n <;> simp [ih x hx, hbit, hxn, hlt]
  simpa [hx] using h x hx

/-- The block tests of the vector versions are those of the plain one. -/
theorem skimAvx2_eq (virgin current : Bytes) (len : ℕ) :
    skimAvx2 virgin current len = skim64 virgin current len := by
  unfold skimAvx2 skim64
  congr 1
  funext k
  obtain ⟨hall, h0, h1, h2, h3⟩ := movemask_spec (word 64 current (4 * k) = 0)
    (word 64 current (4 * k + 1) = 0) (word 64 current (4 * k + 2) = 0)
    (word 64 current (4 * k + 3) = 0)
  simp only [Nat.add_zero, hall, h0, h1, h2, h3, skimFour, skimWord, ne_eq, decide_not,
    decide_eq_false_iff_not]
  split
  · rename_i hz
    simp only [Bool.and_eq_true, decide_eq_true_eq] at hz
    simp [hz]
  · rfl

/-- One block of the AVX512 version: the mask skips zero lanes, which are never fresh. -/
theorem skimAvx512_block (virgin current : Bytes) (k : ℕ) :
    (let mask := testnMask fun x => word 64 current (8 * k + x) = 0
      if mask = 0xff then false
      else (List.range 8).any fun x =>
        mask &&& (1 <<< x) = 0 && freshWord 64 classifyWord64 virgin current (8 * k + x)) = true ↔
      ∃ i, i < 8 ∧ freshWord 64 classifyWord64 virgin current (8 * k + i) = true := by
  have hzero : ∀ i, word 64 current (8 * k + i) = 0#64 →
      freshWord 64 classifyWord64 virgin current (8 * k + i) = false := fun i =>
    freshWord_of_zero (by decide) classifyWord64_classifiesBytes virgin
  have hlane : ∀ i, i < 8 → (testnMask (fun x => word 64 current (8 * k + x) = 0) &&& (1 <<< i) = 0
      ↔ word 64 current (8 * k + i) ≠ 0#64) := by
    intro i hi
    refine (and_one_shiftLeft_eq_zero _ hi).trans ?_
    rw [getLsbD_testnMask _ hi, decide_eq_false_iff_not]
    rfl
  dsimp only
  split
  · -- all lanes are zero
    rename_i hmask
    refine iff_of_false (by simp) ?_
    rintro ⟨i, hi, hf⟩
    have hbit := getLsbD_testnMask (fun x => decide (word 64 current (8 * k + x) = 0)) hi
    rw [hmask] at hbit
    have hone : (0xff : BitVec 8).getLsbD i = true := by interval_cases i <;> rfl
    rw [hone] at hbit
    have hz : word 64 current (8 * k + i) = 0#64 := by simpa using hbit.symm
    rw [hzero i hz] at hf
    exact Bool.false_ne_true hf
  · -- the mask test of a lane is implied by its word being fresh
    simp only [List.any_eq_true, List.mem_range, Bool.and_eq_true, decide_eq_true_eq]
    refine exists_congr fun i => and_congr_right fun hi => ?_
    rw [hlane i hi]
    refine and_iff_right_of_imp fun hf hz => ?_
    rw [hzero i hz] at hf
    exact Bool.false_ne_true hf

theorem skimAvx512_iff (virgin current : Bytes) {len : ℕ} (hlen : 64 ∣ len) :
    skimAvx512 virgin current len = true ↔
      ∃ x, x < len / 8 ∧ freshWord 64 classifyWord64 virgin current x = true := by
  obtain ⟨n, rfl⟩ := hlen
  simp only [skimAvx512, List.any_eq_true, List.mem_range, skimAvx512_block]
  rw [exists_block_iff (by decide) fun x => freshWord 64 classifyWord64 virgin current x = true,
    Nat.mul_div_cancel_left _ (by decide), show 64 * n / 8 = 8 * n by omega]

theorem skim64_iff (virgin current : Bytes) {len : ℕ} (hlen : 64 ∣ len) :
    skim64 virgin current len = true ↔
      ∃ x, x < len / 8 ∧ freshWord 64 classifyWord64 virgin current x = true := by
  obtain ⟨n, rfl⟩ := hlen
  simp only [skim64, List.any_eq_true, List.mem_range,
    skimFour_iff (by decide) classifyWord64_classifiesBytes]
  rw [exists_block_iff (by decide) fun x => freshWord 64 classifyWord64 virgin current x = true,
    show 4 * ((64 * n + 31) / 32) = 64 * n / 8 by omega]

theorem skim32_iff (virgin current : Bytes) {len : ℕ} (hlen : 64 ∣ len) :
    skim32 virgin current len = true ↔
      ∃ x, x < len / 4 ∧ freshWord 32 classifyWord32 virgin current x = true := by
  obtain ⟨n, rfl⟩ := hlen
  simp only [skim32, List.any_eq_true, List.mem_range,
    skimFour_iff (by decide) classifyWord32_classifiesBytes]
  rw [exists_block_iff (by decide) fun x => freshWord 32 classifyWord32 virgin current x = true,
    show 4 * ((64 * n + 15) / 16) = 64 * n / 4 by omega]

theorem Build.width_dvd (b : Build) : 8 ∣ b.width := by cases b <;> decide

theorem Build.classifiesBytes (b : Build) : ClassifiesBytes b.classifyWord := by
  cases b with
  | word32 => exact classifyWord32_classifiesBytes
  | word64 => exact classifyWord64_classifiesBytes
  | avx2 => exact classifyWord64_classifiesBytes
  | avx512 => exact classifyWord64_classifiesBytes

/-- Every version of `skim` finds a word of the map that its build calls fresh. -/
theorem Build.skim_iff_word (b : Build) (virgin current : Bytes) {len : ℕ} (hlen : 64 ∣ len) :
    b.skim virgin current len = true ↔ ∃ x, x < len / (b.width / 8) ∧
      freshWord b.width b.classifyWord virgin current x = true := by
  cases b with
  | word32 => exact skim32_iff virgin current hlen
  | word64 => exact skim64_iff virgin current hlen
  | avx2 =>
    change skimAvx2 virgin current len = true ↔ _
    rw [skimAvx2_eq]
    exact skim64_iff virgin current hlen
  | avx512 => exact skimAvx512_iff virgin current hlen

/-- Every version of `skim` looks for a fresh byte anywhere in the map. -/
theorem Build.skim_iff_byte (b : Build) (virgin current : Bytes) {len : ℕ} (hlen : 64 ∣ len) :
    b.skim virgin current len = true ↔ ∃ j, j < len ∧ FreshByte virgin current j := by
  rw [b.skim_iff_word virgin current hlen]
  refine exists_freshWord_iff b.width_dvd b.classifiesBytes ?_ virgin current ?_
  · cases b <;> decide
  · refine Nat.dvd_trans ?_ hlen
    cases b <;> decide

theorem Build.skim_agree (b b' : Build) (virgin current : Bytes) {len : ℕ} (hlen : 64 ∣ len) :
    b.skim virgin current len = b'.skim virgin current len := by
  rw [Bool.eq_iff_iff, b.skim_iff_byte virgin current hlen, b'.skim_iff_byte virgin current hlen]

/-! ### Fast path and plain path -/

/-- Where no word is fresh, `has_new_bits` finds nothing and clears nothing. -/
theorem newBitsLoopW_of_not_fresh {w : ℕ} (realMapSize : ℕ) (current virgin : Bytes)
    (h : ∀ k, k < (realMapSize + (w / 8 - 1)) / (w / 8) →
      word w current k &&& word w virgin k = 0#w) :
    newBitsLoopW w realMapSize current virgin = (0, virgin) := by
  refine forLoop_eq_self fun k hk => ?_
  split
  · simp [discoverWordW, h k hk]
  · rfl

/-- When the skim finds nothing, neither does the plain path. -/
theorem Build.hasNewBits_of_skim_false (b : Build) (s : Maps)
    (hskim : b.skim s.virginMap s.traceBits s.mapSize = false) :
    (b.hasNewBits (b.classifyCounts s)).1 = 0 ∧
      (b.hasNewBits (b.classifyCounts s)).2.virginMap = s.virginMap ∧
      (b.hasNewBits (b.classifyCounts s)).2.bitmapChanged = s.bitmapChanged := by
  have hnone : ∀ x, x < s.mapSize / (b.width / 8) →
      freshWord b.width b.classifyWord s.virginMap s.traceBits x = false := by
    intro x hx
    by_contra hf
    rw [Bool.not_eq_false] at hf
    have := (b.skim_iff_word s.virginMap s.traceBits s.aligned).mpr ⟨x, hx, hf⟩
    rw [hskim] at this
    exact Bool.false_ne_true this
  have hloop : newBitsLoopW b.width s.realMapSize (b.classifyCounts s).traceBits s.virginMap =
      (0, s.virginMap) := by
    refine newBitsLoopW_of_not_fresh _ _ _ fun k hk => ?_
    -- the words of the real map are among the words that were skimmed
    have hmap : k < s.mapSize / (b.width / 8) := by
      have hreal := s.real_le
      obtain ⟨n, hn⟩ := s.aligned
      have hbytes : b.width / 8 = 8 ∨ b.width / 8 = 4 := by cases b <;> decide
      rcases hbytes with hb | hb <;> rw [hb] at hk ⊢ <;> omega
    have hfresh := hnone k hmap
    simp only [freshWord, ne_eq, decide_not, decide_eq_true_eq, Bool.not_eq_eq_eq_not,
      Bool.not_false] at hfresh
    have hword := word_classifyCountsW b.width_dvd b.classifiesBytes s.mapSize s.traceBits k
    rw [if_pos hmap] at hword
    simp only [Build.classifyCounts]
    rw [hword]
    exact hfresh
  simp only [Build.hasNewBits, hasNewBitsW]
  have hvirgin : (b.classifyCounts s).virginMap = s.virginMap := rfl
  have hreal : (b.classifyCounts s).realMapSize = s.realMapSize := rfl
  rw [hvirgin, hreal, hloop]
  simp [Build.classifyCounts]

/-- The fast path of every build gives the value and the virgin map of the plain path. It leaves the
trace alone when the skim finds nothing, and leaves it classified otherwise; and whether the skim
finds something does not depend on the build. -/
theorem hasNewBitsUnclassified_eq_plain (b : Build) (s : Maps) (classified : Bool) :
    let fast := b.hasNewBitsUnclassified s classified
    let plain := b.hasNewBits (b.classifyCounts s)
    fast.1 = plain.1 ∧
      fast.2.1.virginMap = plain.2.virginMap ∧
      fast.2.1.bitmapChanged = plain.2.bitmapChanged ∧
      (b.skim s.virginMap s.traceBits s.mapSize = false →
        fast.1 = 0 ∧ fast.2.1.traceBits = s.traceBits ∧ fast.2.2 = classified) ∧
      (b.skim s.virginMap s.traceBits s.mapSize = true →
        fast.2.1.traceBits = plain.2.traceBits ∧
        fast.2.1.traceBits = (b.classifyCounts s).traceBits ∧ fast.2.2 = true) ∧
      ∀ b' : Build, b'.skim s.virginMap s.traceBits s.mapSize =
        b.skim s.virginMap s.traceBits s.mapSize := by
  intro fast plain
  have hagree : ∀ b' : Build, b'.skim s.virginMap s.traceBits s.mapSize =
      b.skim s.virginMap s.traceBits s.mapSize := fun b' =>
    b'.skim_agree b s.virginMap s.traceBits s.aligned
  cases hskim : b.skim s.virginMap s.traceBits s.mapSize with
  | false =>
    have hfast : fast = (0, s, classified) := by
      simp only [fast, Build.hasNewBitsUnclassified, hskim]
      rfl
    obtain ⟨h1, h2, h3⟩ := b.hasNewBits_of_skim_false s hskim
    rw [hfast]
    exact ⟨h1.symm, h2.symm, h3.symm, fun _ => ⟨rfl, rfl, rfl⟩,
      fun h => absurd h Bool.false_ne_true, hskim ▸ hagree⟩
  | true =>
    have hfast : fast = (plain.1, plain.2, true) := by
      simp only [fast, Build.hasNewBitsUnclassified, hskim]
      rfl
    rw [hfast]
    exact ⟨rfl, rfl, rfl, fun h => absurd h.symm Bool.false_ne_true,
      fun _ => ⟨rfl, rfl, rfl⟩, hskim ▸ hagree⟩

end AflPlusPlus.Coverage
