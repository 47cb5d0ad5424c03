import AflPlusPlus.Lib.ByteLanes

/-!
# Counting in a bitmap

`count_bits`, `count_bytes` and `count_non_255_bytes` of `afl-fuzz-bitmap.c`. All three walk over
the map in words of 32 bits and count in 32 bits.
-/

namespace AflPlusPlus.Coverage
open Lib

/-- The number of words that cover the map; the sum is one of 32 bits. -/
def mapWords (realMapSize : BitVec 32) : ℕ := ((realMapSize + 3) >>> 2).toNat

/-- `while (i--) { v = *(ptr++); … }`, where `count` is the rest of the body. -/
def countWords (count : BitVec 32 → BitVec 32 → BitVec 32) (realMapSize : BitVec 32) (mem : Bytes) :
    BitVec 32 :=
  forLoop (mapWords realMapSize) (fun k ret => count (word 32 mem k) ret) 0

/-- The bits of a word, with `__builtin_popcount` or without. -/
def popcount (builtin : Bool) (v : BitVec 32) : BitVec 32 :=
  if builtin then v.cpop
  else
    let v := v - ((v >>> 1) &&& 0x55555555#32)
    let v := (v &&& 0x33333333#32) + ((v >>> 2) &&& 0x33333333#32)
    (((v + (v >>> 4)) &&& 0xF0F0F0F#32) * 0x01010101#32) >>> 24

def countBitsWord (builtin : Bool) (v ret : BitVec 32) : BitVec 32 :=
  if v = 0xffffffff#32 then ret + 32#32 else ret + popcount builtin v

def countBits (builtin : Bool) : BitVec 32 → Bytes → BitVec 32 := countWords (countBitsWord builtin)

/-- One test for each byte, unless the word is the most likely one. -/
def countLanes (likely : BitVec 32) (hit : BitVec 32 → BitVec 32 → Bool) (v ret : BitVec 32) :
    BitVec 32 :=
  if v = likely then ret
  else
    [0x000000ff#32, 0x0000ff00#32, 0x00ff0000#32, 0xff000000#32].foldl
      (fun ret mask => if hit v mask then ret + 1#32 else ret) ret

def countBytes : BitVec 32 → Bytes → BitVec 32 :=
  countWords (countLanes 0#32 fun v mask => v &&& mask ≠ 0#32)

def countNon255Bytes : BitVec 32 → Bytes → BitVec 32 :=
  countWords (countLanes 0xffffffff#32 fun v mask => v &&& mask ≠ mask)

/-! ### What is counted -/

/-- The bytes of the words that cover the map. -/
def covered (realMapSize : BitVec 32) : ℕ := mapWords realMapSize * 4

/-- The set bits of the first bytes. -/
def setBits (mem : Bytes) (n : ℕ) : ℕ := Nat.count (fun i => bitAt mem i = true) (n * 8)

/-- The first bytes that are none of the value `b`. -/
def bytesOtherThan (b : Byte) (mem : Bytes) (n : ℕ) : ℕ := Nat.count (fun i => mem i ≠ b) n

/-- The three counts of a map are right. -/
structure CountsRight (builtin : Bool) (realMapSize : BitVec 32) (mem : Bytes) : Prop where
  bits : (countBits builtin realMapSize mem).toNat = setBits mem (covered realMapSize)
  bytes : (countBytes realMapSize mem).toNat = bytesOtherThan 0 mem (covered realMapSize)
  non255 : (countNon255Bytes realMapSize mem).toNat = bytesOtherThan 255 mem (covered realMapSize)

/-! ### The fallback -/

/-- A byte as two bits for each pair of bits: how many of the pair are set. -/
def pairCounts (b : Byte) : Byte := (b &&& 0x55#8) + ((b >>> 1) &&& 0x55#8)

/-- A byte as four bits for each half: how many of the half are set. -/
def nibbleCounts (b : Byte) : Byte :=
  (pairCounts b &&& 0x33#8) + ((pairCounts b >>> 2) &&& 0x33#8)

theorem pairCounts_add : ∀ b : Byte,
    (pairCounts b).toNat + ((b >>> 1) &&& 0x55#8).toNat < 256 ∧
      pairCounts b + ((b >>> 1) &&& 0x55#8) = b := by
  decide +kernel

theorem nibbleCounts_le : ∀ b : Byte,
    (nibbleCounts b).toNat % 16 ≤ 4 ∧ (nibbleCounts b).toNat / 16 ≤ 4 := by
  decide +kernel

theorem nibbleCounts_sum : ∀ b : Byte,
    (nibbleCounts b).toNat % 16 + (nibbleCounts b).toNat / 16 = bitCount b := by
  decide +kernel

/-- All bytes of the mask are `c`, fields of `s` bits that are `s` bits apart. -/
structure FieldMask (m : BitVec 32) (c : Byte) (s : ℕ) : Prop where
  bytes : ∀ b < 4, wordByte m b = c
  top : ∀ j < 8, 8 ≤ s + j → c.getLsbD j = false
  noCarry : ∀ x : Byte, (x &&& c).toNat + ((x >>> s) &&& c).toNat < 256

theorem fieldMask_pairs : FieldMask 0x55555555#32 0x55#8 1 :=
  ⟨by decide, by decide, by decide +kernel⟩

theorem fieldMask_nibbles : FieldMask 0x33333333#32 0x33#8 2 :=
  ⟨by decide, by decide, by decide +kernel⟩

section Fields

variable {m : BitVec 32} {c : Byte} {s b : ℕ}

theorem FieldMask.shift (h : FieldMask m c s) (v : BitVec 32) (hb : b < 4) :
    wordByte ((v >>> s) &&& m) b = (wordByte v b >>> s) &&& c := by
  have htop : ∀ j < 8, 8 ≤ s + j → (wordByte m b).getLsbD j = false := by
    rw [h.bytes b hb]
    exact h.top
  rw [wordByte_shift_and v m htop, h.bytes b hb]

/-- The two fields of every pair are added byte by byte. -/
theorem FieldMask.add (h : FieldMask m c s) (v : BitVec 32) (hb : b < 4) :
    wordByte ((v &&& m) + ((v >>> s) &&& m)) b =
      (wordByte v b &&& c) + ((wordByte v b >>> s) &&& c) := by
  have hcarry : NoCarry (v &&& m) ((v >>> s) &&& m) := by
    intro d hd
    rw [wordByte_and, h.shift v hd, h.bytes d hd]
    exact h.noCarry (wordByte v d)
  rw [wordByte_add (by decide) hcarry hb, wordByte_and, h.shift v hb, h.bytes b hb]

end Fields

/-- `v -= ((v >> 1) & 0x55555555)` leaves the number of set bits of every pair. -/
theorem wordByte_sub_pairs (v : BitVec 32) {b : ℕ} (hb : b < 4) :
    wordByte (v - ((v >>> 1) &&& 0x55555555#32)) b = pairCounts (wordByte v b) := by
  have hpairs {d : ℕ} (hd : d < 4) := fieldMask_pairs.add v hd
  have hodd {d : ℕ} (hd : d < 4) := fieldMask_pairs.shift v hd
  have hcarry : NoCarry ((v &&& 0x55555555#32) + ((v >>> 1) &&& 0x55555555#32))
      ((v >>> 1) &&& 0x55555555#32) := by
    intro d hd
    rw [hpairs hd, hodd hd]
    exact (pairCounts_add (wordByte v d)).1
  have hsum :
      (v &&& 0x55555555#32) + ((v >>> 1) &&& 0x55555555#32) + ((v >>> 1) &&& 0x55555555#32) =
        v := by
    apply eq_of_wordByte (by decide)
    intro d hd
    rw [wordByte_add (by decide) hcarry hd, hpairs hd, hodd hd]
    exact (pairCounts_add (wordByte v d)).2
  rw [← BitVec.eq_sub_iff_add_eq.mpr hsum, hpairs hb, pairCounts]

/-- The bytes after the second step of the fallback. -/
theorem wordByte_nibbles (v : BitVec 32) {b : ℕ} (hb : b < 4) :
    wordByte (((v - ((v >>> 1) &&& 0x55555555#32)) &&& 0x33333333#32) +
      (((v - ((v >>> 1) &&& 0x55555555#32)) >>> 2) &&& 0x33333333#32)) b =
        nibbleCounts (wordByte v b) := by
  rw [fieldMask_nibbles.add _ hb, wordByte_sub_pairs v hb, nibbleCounts]

/-- `(v + (v >> 4)) & 0xF0F0F0F` adds the halves of every byte, also with the bits that the shift
brings in from the next byte. -/
theorem toNat_wordByte_halves {v : BitVec 32}
    (h : ∀ b < 4, (wordByte v b).toNat % 16 ≤ 4 ∧ (wordByte v b).toNat / 16 ≤ 4) {b : ℕ}
    (hb : b < 4) :
    (wordByte ((v + (v >>> 4)) &&& 0xF0F0F0F#32) b).toNat =
      (wordByte v b).toNat % 16 + (wordByte v b).toNat / 16 := by
  have hshift (d : ℕ) : (wordByte (v >>> 4) d).toNat = v.toNat / 256 ^ d % 4096 / 16 := by
    rw [toNat_wordByte, BitVec.toNat_ushiftRight, Nat.shiftRight_eq_div_pow, Nat.div_div_eq_div_mul,
      Nat.mul_comm, ← Nat.div_div_eq_div_mul]
    omega
  have hnext {d : ℕ} (hd : d < 4) : v.toNat / 256 ^ d / 256 % 16 ≤ 4 := by
    rw [Nat.div_div_eq_div_mul, ← pow_succ]
    by_cases hlast : d + 1 < 4
    · have hle := (h (d + 1) hlast).1
      rw [toNat_wordByte] at hle
      omega
    · have hzero : v.toNat / 256 ^ (d + 1) = 0 := by
        apply Nat.div_eq_of_lt
        have hpow : 256 ^ 4 ≤ 256 ^ (d + 1) := Nat.pow_le_pow_right (by decide) (by omega)
        exact lt_of_lt_of_le v.isLt hpow
      rw [hzero]
      decide
  have hcarry : NoCarry v (v >>> 4) := by
    intro d hd
    have hle := h d hd
    have hover := hnext hd
    rw [hshift d]
    rw [toNat_wordByte] at hle ⊢
    omega
  have hle := h b hb
  have hover := hnext hb
  have hmask : ∀ d < 4, wordByte 0xF0F0F0F#32 d = 0xF := by decide
  rw [wordByte_and, wordByte_add (by decide) hcarry hb, hmask b hb, BitVec.toNat_and,
    BitVec.toNat_add,
    hshift b]
  rw [show (0xF : Byte).toNat = 2 ^ 4 - 1 from rfl, Nat.and_two_pow_sub_one_eq_mod]
  rw [toNat_wordByte] at hle ⊢
  omega

/-- `(v * 0x01010101) >> 24` adds up the bytes. -/
theorem toNat_mul_bytes {v : BitVec 32} (h : ∀ b < 4, (wordByte v b).toNat ≤ 8) :
    ((v * 0x01010101#32) >>> 24).toNat = ∑ b ∈ Finset.range 4, (wordByte v b).toNat := by
  have h0 := h 0 (by decide)
  have h1 := h 1 (by decide)
  have h2 := h 2 (by decide)
  have h3 := h 3 (by decide)
  have hlt := v.isLt
  simp only [toNat_wordByte, Nat.reducePow, Nat.div_one] at h0 h1 h2 h3
  simp only [Finset.sum_range_succ, Finset.sum_range_zero, toNat_wordByte, Nat.reducePow,
    Nat.div_one]
  rw [BitVec.toNat_ushiftRight, Nat.shiftRight_eq_div_pow, BitVec.toNat_mul, BitVec.toNat_ofNat]
  generalize v.toNat = n at *
  have hdigits : n = n % 256 + 256 * (n / 256 % 256) + 65536 * (n / 65536 % 256) +
      16777216 * (n / 16777216 % 256) := by omega
  generalize n % 256 = b0 at *
  generalize n / 256 % 256 = b1 at *
  generalize n / 65536 % 256 = b2 at *
  generalize n / 16777216 % 256 = b3 at *
  -- the low word of the product, and what the multiplication pushes out of it
  have hprod : n * 16843009 = (16843009 * b0 + 16843008 * b1 + 16842752 * b2 + 16777216 * b3) +
      2 ^ 32 * (b1 + 257 * b2 + 65793 * b3) := by omega
  rw [Nat.mod_eq_of_lt (show 16843009 < 2 ^ 32 by decide), hprod, Nat.add_mul_mod_self_left,
    Nat.mod_eq_of_lt (by omega)]
  omega

theorem toNat_popcount (builtin : Bool) (v : BitVec 32) :
    (popcount builtin v).toNat = bitCount v := by
  cases builtin with
  | true => exact toNat_cpop_eq_bitCount v
  | false =>
    rw [popcount, if_neg Bool.false_ne_true]
    have hnibbles {b : ℕ} (hb : b < 4) := wordByte_nibbles v hb
    generalize hn : ((v - ((v >>> 1) &&& 0x55555555#32)) &&& 0x33333333#32) +
      (((v - ((v >>> 1) &&& 0x55555555#32)) >>> 2) &&& 0x33333333#32) = n at hnibbles
    have hhalves {b : ℕ} (hb : b < 4) :
        (wordByte ((n + (n >>> 4)) &&& 0xF0F0F0F#32) b).toNat = bitCount (wordByte v b) := by
      rw [toNat_wordByte_halves _ hb, hnibbles hb, nibbleCounts_sum]
      intro d hd
      rw [hnibbles hd]
      exact nibbleCounts_le _
    simp only [hn]
    rw [toNat_mul_bytes, bitCount_eq_sum (by decide)]
    · exact Finset.sum_congr rfl fun b hb => hhalves (Finset.mem_range.mp hb)
    · intro b hb
      rw [hhalves hb]
      exact bitCount_le _

theorem toNat_countBitsWord (builtin : Bool) (v ret : BitVec 32) :
    countBitsWord builtin v ret = ret + BitVec.ofNat 32 (bitCount v) := by
  rw [countBitsWord]
  split
  · next hfull =>
    have hcount : bitCount v = 32 := by
      rw [hfull, ← toNat_cpop_eq_bitCount]
      decide
    rw [hcount]
  · rw [← toNat_popcount builtin v, BitVec.ofNat_toNat, BitVec.setWidth_eq]

/-! ### The byte lanes -/

/-- The words agree in the lane of the mask when their bytes do. -/
theorem and_lane_eq_iff {m v x : BitVec 32} {b : ℕ}
    (hm : ∀ d < 4, wordByte m d = if d = b then 255 else 0) (hb : b < 4) :
    v &&& m = x &&& m ↔ wordByte v b = wordByte x b := by
  have hfull (y : Byte) : y &&& 255 = y := by
    rw [show (255 : Byte) = BitVec.allOnes 8 from rfl, BitVec.and_allOnes]
  constructor
  · intro h
    have hbyte := congrArg (wordByte · b) h
    simpa only [wordByte_and, hm b hb, if_true, hfull] using hbyte
  · intro h
    apply eq_of_wordByte (by decide)
    intro d hd
    rw [wordByte_and, wordByte_and, hm d hd]
    split
    · next hdb => rw [hdb, h]
    · exact (BitVec.and_zero).trans BitVec.and_zero.symm

/-- The mask of lane `b`. -/
def laneMask (b : ℕ) : BitVec 32 := 0xff#32 <<< (8 * b)

theorem wordByte_laneMask : ∀ b < 4, ∀ d < 4,
    wordByte (laneMask b) d = if d = b then 255 else 0 := by
  decide

theorem lane_masks : [0x000000ff#32, 0x0000ff00#32, 0x00ff0000#32, 0xff000000#32] =
    (List.range 4).map laneMask := by
  decide

theorem foldl_lanes {hit : BitVec 32 → Bool} {p : ℕ → Prop} [DecidablePred p] {n : ℕ}
    (h : ∀ b < n, hit (laneMask b) = true ↔ p b) (ret : BitVec 32) :
    ((List.range n).map laneMask).foldl (fun ret mask => if hit mask then ret + 1#32 else ret) ret =
      ret + BitVec.ofNat 32 (Nat.count p n) := by
  induction n with
  | zero => simp
  | succ n ih =>
    rw [List.range_succ, List.map_append, List.foldl_append, ih fun b hb => h b (by omega),
      Nat.count_succ]
    by_cases hp : p n
    · simp [(h n (by omega)).mpr hp, hp, BitVec.add_assoc, BitVec.ofNat_add]
    · simp [(h n (by omega)).not.mpr hp, hp]

/-- The tests count the bytes that are not `c`, also when the word is skipped. -/
theorem countLanes_eq {likely : BitVec 32} {hit : BitVec 32 → BitVec 32 → Bool} {c : Byte}
    (hlikely : ∀ b < 4, wordByte likely b = c)
    (hhit : ∀ v, ∀ b < 4, hit v (laneMask b) = true ↔ wordByte v b ≠ c) (v ret : BitVec 32) :
    countLanes likely hit v ret =
      ret + BitVec.ofNat 32 (Nat.count (fun b => wordByte v b ≠ c) 4) := by
  rw [countLanes, lane_masks, foldl_lanes (hhit v), ite_eq_right_iff]
  intro hv
  have hnone : Nat.count (fun b => wordByte v b ≠ c) 4 = 0 := by
    simp [Nat.count_succ, hv, hlikely]
  rw [hnone, BitVec.add_zero]

theorem countBytes_lane (v : BitVec 32) (b : ℕ) (hb : b < 4) :
    decide (v &&& laneMask b ≠ 0#32) = true ↔ wordByte v b ≠ 0 := by
  have h := and_lane_eq_iff (v := v) (x := 0#32) (wordByte_laneMask b hb) hb
  rw [BitVec.zero_and, wordByte_zero] at h
  rw [decide_eq_true_iff]
  exact not_congr h

theorem countNon255Bytes_lane (v : BitVec 32) (b : ℕ) (hb : b < 4) :
    decide (v &&& laneMask b ≠ laneMask b) = true ↔ wordByte v b ≠ 255 := by
  have h := and_lane_eq_iff (v := v) (x := BitVec.allOnes 32) (wordByte_laneMask b hb) hb
  rw [BitVec.allOnes_and, wordByte_allOnes (by omega)] at h
  rw [decide_eq_true_iff]
  exact not_congr h

/-! ### Whole maps -/

section Maps

variable (realMapSize : BitVec 32) (mem : Bytes)

theorem mapWords_lt : mapWords realMapSize < 2 ^ 30 := by
  have hlt := (realMapSize + 3).isLt
  rw [mapWords, BitVec.toNat_ushiftRight, Nat.shiftRight_eq_div_pow]
  omega

/-- A count that adds `f` of every word. -/
theorem toNat_countWords {count : BitVec 32 → BitVec 32 → BitVec 32} {f : BitVec 32 → ℕ}
    (h : ∀ v ret, count v ret = ret + BitVec.ofNat 32 (f v)) :
    (countWords count realMapSize mem).toNat =
      (∑ k ∈ Finset.range (mapWords realMapSize), f (word 32 mem k)) % 2 ^ 32 := by
  simp only [countWords, h]
  rw [toNat_forLoop_add]
  simp only [BitVec.toNat_ofNat]
  exact (Finset.sum_nat_mod _ _ _).symm

/-- The bits of a map are those of its words. -/
theorem setBits_covered : setBits mem (covered realMapSize) =
    ∑ k ∈ Finset.range (mapWords realMapSize), bitCount (word 32 mem k) := by
  rw [setBits, covered, Nat.mul_assoc, count_blocks]
  apply Finset.sum_congr rfl
  intro k _
  apply count_congr
  intro i hi
  have hdiv : (k * (4 * 8) + i) / 8 = k * (32 / 8) + i / 8 := by omega
  have hmod : (k * (4 * 8) + i) % 8 = i % 8 := by omega
  rw [getLsbD_word (by decide) mem k hi, bitAt, Nat.shiftRight_eq_div_pow,
    show 7 = 2 ^ 3 - 1 from rfl, Nat.and_two_pow_sub_one_eq_mod, hdiv, hmod]

theorem toNat_countBits (builtin : Bool) :
    (countBits builtin realMapSize mem).toNat = setBits mem (covered realMapSize) % 2 ^ 32 := by
  rw [countBits, toNat_countWords _ _ (toNat_countBitsWord builtin), setBits_covered]

/-- A byte count never reaches 2^32. -/
theorem toNat_count_lanes {c : Byte} {count : BitVec 32 → BitVec 32 → BitVec 32}
    (h : ∀ v ret, count v ret =
      ret + BitVec.ofNat 32 (Nat.count (fun b => wordByte v b ≠ c) 4)) :
    (countWords count realMapSize mem).toNat = bytesOtherThan c mem (covered realMapSize) := by
  have hwords : bytesOtherThan c mem (covered realMapSize) =
      ∑ k ∈ Finset.range (mapWords realMapSize),
        Nat.count (fun b => wordByte (word 32 mem k) b ≠ c) 4 := by
    rw [bytesOtherThan, covered, count_blocks]
    apply Finset.sum_congr rfl
    intro k _
    apply count_congr
    intro b hb
    rw [wordByte_word (by decide) mem k hb]
  have hlt : bytesOtherThan c mem (covered realMapSize) < 2 ^ 32 := by
    have hle : bytesOtherThan c mem (covered realMapSize) ≤ covered realMapSize := Nat.count_le _
    have hlt := mapWords_lt realMapSize
    rw [covered] at hle ⊢
    omega
  rw [toNat_countWords _ _ h, ← hwords, Nat.mod_eq_of_lt hlt]

theorem toNat_countBytes :
    (countBytes realMapSize mem).toNat = bytesOtherThan 0 mem (covered realMapSize) :=
  toNat_count_lanes realMapSize mem
    (countLanes_eq (fun b _ => wordByte_zero b) countBytes_lane)

theorem toNat_countNon255Bytes :
    (countNon255Bytes realMapSize mem).toNat = bytesOtherThan 255 mem (covered realMapSize) :=
  toNat_count_lanes realMapSize mem
    (countLanes_eq (fun b hb => wordByte_allOnes (w := 32) (b := b) (by omega))
      countNon255Bytes_lane)

/-- Only the number of bits can be too large for the counter. -/
theorem countsRight_iff (builtin : Bool) :
    CountsRight builtin realMapSize mem ↔ setBits mem (covered realMapSize) < 2 ^ 32 := by
  constructor
  · intro h
    rw [← h.bits]
    exact (countBits builtin realMapSize mem).isLt
  · intro h
    refine ⟨?_, toNat_countBytes realMapSize mem, toNat_countNon255Bytes realMapSize mem⟩
    rw [toNat_countBits, Nat.mod_eq_of_lt h]

end Maps

theorem setBits_ones (n : ℕ) : setBits (fun _ => 0xff) n = n * 8 := by
  rw [setBits, Nat.count_iff_forall]
  intro i _
  have hbit : ∀ j < 8, (0xff#8).getLsbD j = true := by decide
  apply hbit
  rw [show 7 = 2 ^ 3 - 1 from rfl, Nat.and_two_pow_sub_one_eq_mod]
  omega

/-- Fresh `virgin_bits` of the largest size that `get_map_size` allows. -/
theorem not_countsRight_largest_map : ¬ CountsRight true (1 <<< 29) fun _ => 0xff := by
  intro h
  have hbits := h.bits
  rw [toNat_countBits, show covered (1 <<< 29) = 2 ^ 29 from by decide, setBits_ones] at hbits
  exact absurd hbits (by decide)

end AflPlusPlus.Coverage
