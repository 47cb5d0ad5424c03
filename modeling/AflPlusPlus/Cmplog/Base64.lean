import AflPlusPlus.Lib.Base64
import AflPlusPlus.Lib.Loop
import Mathlib.Algebra.Order.Ring.Nat

/-!
# Base64 in the colorized buffer

`to_base64` and `from_base64`. A `u32` is a natural number, reduced modulo `2 ^ 32` where it can
wrap; a character in front of the decode table, which the callers exclude with `is_base64`, decodes
like the first one.
-/

namespace AflPlusPlus.Cmplog
open Lib

def base64EncodeTable : List Byte :=
  "ABCDEFGHIJKLMNOPQRSTUVWXYZabcdefghijklmnopqrstuvwxyz0123456789+/".toList.map fun c =>
    BitVec.ofNat 8 c.toNat

def base64DecodeTable : List Byte :=
  [62, 0, 0, 0, 63, 52, 53, 54, 55, 56, 57, 58, 59, 60, 61, 0,
    0, 0, 0, 0, 0, 0, 0, 1, 2, 3, 4, 5, 6, 7, 8, 9,
    10, 11, 12, 13, 14, 15, 16, 17, 18, 19, 20, 21, 22, 23, 24, 25,
    0, 0, 0, 0, 0, 0, 26, 27, 28, 29, 30, 31, 32, 33, 34, 35,
    36, 37, 38, 39, 40, 41, 42, 43, 44, 45, 46, 47, 48, 49, 50, 51]

def padByte : Byte := BitVec.ofNat 8 '='.toNat

/-- `v << 8 | b`. -/
def pushByte (v : BitVec 32) (b : Byte) : BitVec 32 := (v <<< 8) ||| b.setWidth 32

/-- `v << 6 | d`. -/
def pushDigit (v : BitVec 32) (d : Byte) : BitVec 32 := (v <<< 6) ||| d.setWidth 32

/-! ### Encoding -/

/-- The number of characters; the variable that both loops compare with. -/
def encodedLen (dstLen : ℕ) : ℕ :=
  let len := dstLen / 3 * 4 % 2 ^ 32
  if dstLen % 3 ≠ 0 then (len + 4) % 2 ^ 32 else len

def loadGroup (src : Bytes) (len i : ℕ) : BitVec 32 :=
  let v := (src i).setWidth 32
  let v := if i + 1 < len then pushByte v (src (i + 1)) else v <<< 8
  if i + 2 < len then pushByte v (src (i + 2)) else v <<< 8

def encodeDigit (v : BitVec 32) : Byte := base64EncodeTable.getD (v &&& 0x3f).toNat 0

def encodeGroup (src : Bytes) (len dstLen k : ℕ) (dst : Bytes) : Bytes :=
  let i := 3 * k
  let j := 4 * k
  let v := loadGroup src len i
  let dst := setByte dst j (encodeDigit (v >>> 18))
  let dst := setByte dst (j + 1) (encodeDigit (v >>> 12))
  let dst := setByte dst (j + 2) (if i + 1 < dstLen then encodeDigit (v >>> 6) else padByte)
  setByte dst (j + 3) (if i + 2 < dstLen then encodeDigit v else padByte)

/-- `dst` afterwards and the length that is returned. -/
def toBase64 (src dst : Bytes) (dstLen : ℕ) : Bytes × ℕ :=
  let len := encodedLen dstLen
  (setByte (forLoop (len / 4) (encodeGroup src len dstLen) dst) len 0, len)

/-! ### Decoding -/

def decodeDigit (c : Byte) : Byte := base64DecodeTable.getD (c.toNat - 43) 0

def decodeValue (src : Bytes) (i : ℕ) : BitVec 32 :=
  let v := (decodeDigit (src i)).setWidth 32
  let v := pushDigit v (decodeDigit (src (i + 1)))
  let v := if src (i + 2) = padByte then v <<< 6 else pushDigit v (decodeDigit (src (i + 2)))
  if src (i + 3) = padByte then v <<< 6 else pushDigit v (decodeDigit (src (i + 3)))

def decodeGroup (src : Bytes) (k : ℕ) (s : Bytes × ℕ) : Bytes × ℕ :=
  let (dst, ret) := s
  let i := 4 * k
  let j := 3 * k
  let v := decodeValue src i
  let (dst, ret) := (setByte dst j ((v >>> 16).setWidth 8), ret + 1)
  let (dst, ret) :=
    if src (i + 2) ≠ padByte then (setByte dst (j + 1) ((v >>> 8).setWidth 8), ret + 1)
    else (dst, ret)
  if src (i + 3) ≠ padByte then (setByte dst (j + 2) (v.setWidth 8), ret + 1) else (dst, ret)

/-- `dst` afterwards and the number of bytes that is returned. -/
def fromBase64 (src dst : Bytes) (dstLen : ℕ) : Bytes × ℕ :=
  let len := dstLen / 3 * 4 % 2 ^ 32
  forLoop (len / 4) (decodeGroup src) (dst, 0)

/-! ### Words -/

theorem toNat_pushByte {v : BitVec 32} (hv : v.toNat < 2 ^ 24) (b : Byte) :
    (pushByte v b).toNat = v.toNat * 256 + b.toNat := by
  have hb := b.isLt
  rw [pushByte, BitVec.toNat_or, BitVec.toNat_shiftLeft, BitVec.toNat_setWidth,
    Nat.mod_eq_of_lt (by omega : b.toNat < 2 ^ 32),
    Nat.mod_eq_of_lt (by rw [Nat.shiftLeft_eq]; omega),
    ← Nat.shiftLeft_add_eq_or_of_lt hb, Nat.shiftLeft_eq]

theorem toNat_pushDigit {v : BitVec 32} (hv : v.toNat < 2 ^ 26) {d : Byte} (hd : d.toNat < 64) :
    (pushDigit v d).toNat = v.toNat * 64 + d.toNat := by
  rw [pushDigit, BitVec.toNat_or, BitVec.toNat_shiftLeft, BitVec.toNat_setWidth,
    Nat.mod_eq_of_lt (by omega : d.toNat < 2 ^ 32),
    Nat.mod_eq_of_lt (by rw [Nat.shiftLeft_eq]; omega),
    ← Nat.shiftLeft_add_eq_or_of_lt hd, Nat.shiftLeft_eq]

theorem toNat_shiftLeft_six {v : BitVec 32} (hv : v.toNat < 2 ^ 26) :
    (v <<< 6).toNat = v.toNat * 64 := by
  rw [BitVec.toNat_shiftLeft, Nat.shiftLeft_eq, Nat.mod_eq_of_lt (by omega)]

theorem encodeDigit_shiftRight (v : BitVec 32) (s : ℕ) :
    encodeDigit (v >>> s) = base64Char (v.toNat / 2 ^ s % 64) := by
  have htable : ∀ d : Fin 64, base64EncodeTable.getD d 0 = base64Char d := by decide +kernel
  have hmask : ((v >>> s) &&& 0x3f).toNat = v.toNat / 2 ^ s % 64 := by
    rw [BitVec.toNat_and, BitVec.toNat_ushiftRight, Nat.shiftRight_eq_div_pow]
    exact Nat.and_two_pow_sub_one_eq_mod _ 6
  rw [encodeDigit, hmask]
  exact htable ⟨v.toNat / 2 ^ s % 64, Nat.mod_lt _ (by decide)⟩

theorem decodeDigit_base64Char {d : ℕ} (hd : d < 64) : (decodeDigit (base64Char d)).toNat = d := by
  have htable : ∀ x : Fin 64, (decodeDigit (base64Char x)).toNat = x := by decide +kernel
  exact htable ⟨d, hd⟩

/-! ### The encoder writes the text of the memory -/

theorem loadGroup_toNat (src : Bytes) {len k : ℕ} (h : 4 * k < len) (h4 : len % 4 = 0) :
    (loadGroup src len (3 * k)).toNat = groupValue src k := by
  have h0 := (src (3 * k)).isLt
  have h1 := (src (3 * k + 1)).isLt
  have hfirst : ((src (3 * k)).setWidth 32).toNat = (src (3 * k)).toNat := by
    rw [BitVec.toNat_setWidth, Nat.mod_eq_of_lt (by omega)]
  have hsecond := toNat_pushByte (v := (src (3 * k)).setWidth 32) (by omega) (src (3 * k + 1))
  rw [loadGroup, if_pos (by omega), if_pos (by omega), toNat_pushByte (by omega), hsecond, hfirst,
    groupValue]
  omega

theorem encodeGroup_char (src dst : Bytes) {len n k : ℕ} (h : 4 * k < len) (h4 : len % 4 = 0)
    (hk : 3 * k < n) {r : ℕ} (hr : r < 4) :
    encodeGroup src len n k dst (4 * k + r) = base64TextChar src n k r := by
  have hv := loadGroup_toNat src h h4
  have hdigit : ∀ s, encodeDigit (loadGroup src len (3 * k) >>> s) =
      base64Char (groupValue src k / 2 ^ s % 64) := fun s => by rw [encodeDigit_shiftRight, hv]
  rw [base64TextChar]
  obtain rfl | rfl | rfl | rfl : r = 0 ∨ r = 1 ∨ r = 2 ∨ r = 3 := by omega
  · simp [encodeGroup, setByte, hdigit, sextet, show ¬ 8 * n ≤ 6 * (4 * k) by omega]
  · simp [encodeGroup, setByte, hdigit, sextet, show ¬ 8 * n ≤ 6 * (4 * k + 1) by omega]
  · by_cases hpad : 3 * k + 1 < n
    · simp [encodeGroup, setByte, hdigit, sextet, hpad, show ¬ 8 * n ≤ 6 * (4 * k + 2) by omega]
    · simp [encodeGroup, setByte, padByte, hpad, show 8 * n ≤ 6 * (4 * k + 2) by omega]
  · by_cases hpad : 3 * k + 2 < n
    · have h0 := hdigit 0
      rw [BitVec.ushiftRight_zero] at h0
      simp [encodeGroup, setByte, h0, sextet, hpad, show ¬ 8 * n ≤ 6 * (4 * k + 3) by omega]
    · simp [encodeGroup, setByte, padByte, hpad, show 8 * n ≤ 6 * (4 * k + 3) by omega]

theorem encodeGroup_frame (src dst : Bytes) (len n k : ℕ) {i : ℕ} (hi : i < 4 * k) :
    encodeGroup src len n k dst i = dst i := by
  simp [encodeGroup, setByte, show i ≠ 4 * k by omega, show i ≠ 4 * k + 1 by omega,
    show i ≠ 4 * k + 2 by omega, show i ≠ 4 * k + 3 by omega]

theorem encodedLen_eq {n : ℕ} (hfit : base64Length n < 2 ^ 32) : encodedLen n = base64Length n := by
  rw [base64Length] at hfit ⊢
  rw [encodedLen]
  by_cases hn : n % 3 = 0
  · rw [if_neg (by omega), Nat.mod_eq_of_lt (by omega)]
    omega
  · rw [if_pos hn, Nat.mod_eq_of_lt (by omega : n / 3 * 4 < 2 ^ 32), Nat.mod_eq_of_lt (by omega)]
    omega

theorem toBase64_char (src dst : Bytes) {n k r : ℕ} (hfit : base64Length n < 2 ^ 32)
    (hk : k < (n + 2) / 3) (hr : r < 4) :
    (toBase64 src dst n).1 (4 * k + r) = base64TextChar src n k r := by
  have hlen : base64Length n / 4 = (n + 2) / 3 := by rw [base64Length]; omega
  have hloop : ∀ k, k < (n + 2) / 3 → ∀ r, r < 4 →
      forLoop ((n + 2) / 3) (encodeGroup src (base64Length n) n) dst (4 * k + r) =
        base64TextChar src n k r := by
    refine forLoop_induct (fun done (d : Bytes) => ∀ k, k < done → ∀ r, r < 4 →
      d (4 * k + r) = base64TextChar src n k r) (fun k hk => absurd hk (by omega)) ?_
    intro i d hi ih k hk r hr
    by_cases hki : k = i
    · subst hki
      exact encodeGroup_char src d (by rw [base64Length]; omega) (by rw [base64Length]; omega)
        (by omega) hr
    · rw [encodeGroup_frame _ _ _ _ _ (by omega)]
      exact ih k (by omega) r hr
  simp only [toBase64, encodedLen_eq hfit, hlen]
  rw [setByte, if_neg (by rw [base64Length]; omega)]
  exact hloop k hk r hr

/-- The encoder completes the last group with the byte behind the string. -/
theorem contents_toBase64 (src dst : Bytes) {n : ℕ} (hfit : base64Length n < 2 ^ 32) :
    contents (toBase64 src dst n).1 (toBase64 src dst n).2 = base64Text src n := by
  have hlen : (toBase64 src dst n).2 = base64Length n := encodedLen_eq hfit
  rw [hlen, contents, base64Text, List.map_inj_left]
  intro j hj
  rw [List.mem_range, base64Length] at hj
  have hchar := toBase64_char src dst (k := j / 4) (r := j % 4) hfit (by omega) (by omega)
  rwa [Nat.div_add_mod] at hchar

/-! ### The decoder reads it back -/

section Decode

variable {src text : Bytes} {n k : ℕ}
  (htext : ∀ r, r < 4 → text (4 * k + r) = base64TextChar src n k r)
include htext

theorem text_digit {r : ℕ} (hr : r < 4) (h : 6 * (4 * k + r) < 8 * n) :
    (decodeDigit (text (4 * k + r))).toNat = sextet (groupValue src k) r := by
  rw [htext r hr, base64TextChar, if_neg (by omega)]
  exact decodeDigit_base64Char (sextet_lt _ _)

theorem text_eq_pad_iff {r : ℕ} (hr : r < 4) :
    text (4 * k + r) = padByte ↔ 8 * n ≤ 6 * (4 * k + r) := by
  rw [htext r hr, base64TextChar]
  by_cases hpad : 8 * n ≤ 6 * (4 * k + r)
  · rw [if_pos hpad]
    exact iff_of_true rfl hpad
  · rw [if_neg hpad]
    exact iff_of_false (base64Char_ne_pad (sextet_lt _ _)) hpad

/-- The bytes of the group that lie in the string come back, whatever completed the group. -/
theorem decodeValue_text (hk : 3 * k < n) :
    (decodeValue text (4 * k)).toNat / 65536 % 256 = (src (3 * k)).toNat ∧
    (3 * k + 1 < n →
      (decodeValue text (4 * k)).toNat / 256 % 256 = (src (3 * k + 1)).toNat) ∧
    (3 * k + 2 < n → (decodeValue text (4 * k)).toNat % 256 = (src (3 * k + 2)).toNat) := by
  have ha := (src (3 * k)).isLt
  have hb := (src (3 * k + 1)).isLt
  have hc := (src (3 * k + 2)).isLt
  have hd0 := text_digit htext (r := 0) (by decide) (by omega)
  have hd1 := text_digit htext (r := 1) (by decide) (by omega)
  have hlt0 := sextet_lt (groupValue src k) 0
  have hlt1 := sextet_lt (groupValue src k) 1
  have hfirst : ((decodeDigit (text (4 * k))).setWidth 32).toNat =
      sextet (groupValue src k) 0 := by
    rw [BitVec.toNat_setWidth, Nat.mod_eq_of_lt (by omega)]
    exact hd0
  have hsecond := toNat_pushDigit (v := (decodeDigit (text (4 * k))).setWidth 32) (by omega)
    (by omega : (decodeDigit (text (4 * k + 1))).toNat < 64)
  rw [hfirst, hd1] at hsecond
  have hpad2 := text_eq_pad_iff htext (r := 2) (by decide)
  have hpad3 := text_eq_pad_iff htext (r := 3) (by decide)
  by_cases h1 : 3 * k + 1 < n
  · have hd2 := text_digit htext (r := 2) (by decide) (by omega)
    have hlt2 := sextet_lt (groupValue src k) 2
    have hthird := toNat_pushDigit (v := pushDigit ((decodeDigit (text (4 * k))).setWidth 32)
      (decodeDigit (text (4 * k + 1)))) (by omega)
      (by omega : (decodeDigit (text (4 * k + 2))).toNat < 64)
    rw [hsecond, hd2] at hthird
    have hnot2 : ¬ text (4 * k + 2) = padByte := fun h => by have := hpad2.mp h; omega
    by_cases h2 : 3 * k + 2 < n
    · have hd3 := text_digit htext (r := 3) (by decide) (by omega)
      have hlt3 := sextet_lt (groupValue src k) 3
      have hnot3 : ¬ text (4 * k + 3) = padByte := fun h => by have := hpad3.mp h; omega
      simp only [decodeValue, if_neg hnot2, if_neg hnot3]
      rw [toNat_pushDigit (by omega) (by omega), hthird, hd3]
      simp only [sextet, groupValue]
      omega
    · simp only [decodeValue, if_neg hnot2, if_pos (hpad3.mpr (by omega))]
      rw [toNat_shiftLeft_six (by omega), hthird]
      simp only [sextet, groupValue]
      omega
  · have hshift := toNat_shiftLeft_six (v := pushDigit ((decodeDigit (text (4 * k))).setWidth 32)
      (decodeDigit (text (4 * k + 1)))) (by omega)
    simp only [decodeValue, if_pos (hpad2.mpr (by omega)), if_pos (hpad3.mpr (by omega))]
    rw [toNat_shiftLeft_six (by omega), hshift, hsecond]
    simp only [sextet, groupValue]
    omega

/-- A group gives back as many bytes as the string has in it. -/
theorem decodeGroup_text (hk : 3 * k < n) (dst : Bytes) (ret : ℕ) :
    (decodeGroup text k (dst, ret)).2 = ret + min 3 (n - 3 * k) ∧
    (∀ i, i < 3 * k → (decodeGroup text k (dst, ret)).1 i = dst i) ∧
    ∀ t, t < min 3 (n - 3 * k) →
      (decodeGroup text k (dst, ret)).1 (3 * k + t) = src (3 * k + t) := by
  obtain ⟨hfirst, hsecond, hthird⟩ := decodeValue_text htext hk
  have hpad2 := text_eq_pad_iff htext (r := 2) (by decide)
  have hpad3 := text_eq_pad_iff htext (r := 3) (by decide)
  have ha : ((decodeValue text (4 * k)) >>> 16).setWidth 8 = src (3 * k) :=
    BitVec.eq_of_toNat_eq (by
      rw [BitVec.toNat_setWidth, BitVec.toNat_ushiftRight, Nat.shiftRight_eq_div_pow]
      exact hfirst)
  have hb : 3 * k + 1 < n → ((decodeValue text (4 * k)) >>> 8).setWidth 8 = src (3 * k + 1) :=
    fun h => BitVec.eq_of_toNat_eq (by
      rw [BitVec.toNat_setWidth, BitVec.toNat_ushiftRight, Nat.shiftRight_eq_div_pow]
      exact hsecond h)
  have hc : 3 * k + 2 < n → (decodeValue text (4 * k)).setWidth 8 = src (3 * k + 2) :=
    fun h => BitVec.eq_of_toNat_eq (by
      rw [BitVec.toNat_setWidth]
      exact hthird h)
  by_cases h1 : 3 * k + 1 < n
  · have hnot2 : ¬ text (4 * k + 2) = padByte := fun h => by have := hpad2.mp h; omega
    by_cases h2 : 3 * k + 2 < n
    · have hnot3 : ¬ text (4 * k + 3) = padByte := fun h => by have := hpad3.mp h; omega
      simp only [decodeGroup, ha, hb h1, hc h2, ne_eq, hnot2, hnot3, not_false_eq_true, if_true]
      refine ⟨by omega, fun i hi => ?_, fun t ht => ?_⟩
      · simp [setByte, show i ≠ 3 * k + 2 by omega, show i ≠ 3 * k + 1 by omega,
          show i ≠ 3 * k by omega]
      · obtain rfl | rfl | rfl : t = 0 ∨ t = 1 ∨ t = 2 := by omega
        all_goals simp [setByte]
    · have hp3 : text (4 * k + 3) = padByte := hpad3.mpr (by omega)
      simp only [decodeGroup, ha, hb h1, hp3, ne_eq, hnot2, not_false_eq_true, if_true,
        not_true_eq_false, if_false]
      refine ⟨by omega, fun i hi => ?_, fun t ht => ?_⟩
      · simp [setByte, show i ≠ 3 * k + 1 by omega, show i ≠ 3 * k by omega]
      · obtain rfl | rfl : t = 0 ∨ t = 1 := by omega
        all_goals simp [setByte]
  · have hp2 : text (4 * k + 2) = padByte := hpad2.mpr (by omega)
    have hp3 : text (4 * k + 3) = padByte := hpad3.mpr (by omega)
    simp only [decodeGroup, ha, hp2, hp3, ne_eq, not_true_eq_false, if_false]
    refine ⟨by omega, fun i hi => ?_, fun t ht => ?_⟩
    · simp [setByte, show i ≠ 3 * k by omega]
    · obtain rfl : t = 0 := by omega
      simp [setByte]

end Decode

/-! ### Main results -/

/-- Decoding what was encoded returns the string and its length, whatever bytes follow the string
in memory and whatever the destination held. The length of the text is a `u32`. -/
theorem base64_round_trip (src dst back : Bytes) (n : ℕ) (hfit : base64Length n < 2 ^ 32) :
    let text := (toBase64 src dst n).1
    (fromBase64 text back (3 * ((n + 2) / 3))).2 = n ∧
      contents (fromBase64 text back (3 * ((n + 2) / 3))).1 n = contents src n := by
  intro text
  have hlen : 3 * ((n + 2) / 3) / 3 * 4 % 2 ^ 32 / 4 = (n + 2) / 3 := by
    rw [base64Length] at hfit
    omega
  have hloop : ∀ s, s = forLoop ((n + 2) / 3) (decodeGroup text) (back, 0) →
      s.2 = min n (3 * ((n + 2) / 3)) ∧
        ∀ i, i < min n (3 * ((n + 2) / 3)) → s.1 i = src i := by
    rintro s rfl
    refine forLoop_induct (fun k (s : Bytes × ℕ) => s.2 = min n (3 * k) ∧
      ∀ i, i < min n (3 * k) → s.1 i = src i) ⟨by simp, fun i hi => by omega⟩ ?_
    rintro k ⟨d, ret⟩ hk ⟨hret, hd⟩
    obtain ⟨hret', hframe, hnew⟩ := decodeGroup_text (n := n)
      (fun r hr => toBase64_char src dst hfit hk hr) (by omega) d ret
    refine ⟨by rw [hret']; simp only at hret; omega, fun i hi => ?_⟩
    by_cases hold : i < 3 * k
    · rw [hframe i hold]
      exact hd i (by omega)
    · have h := hnew (i - 3 * k) (by omega)
      rwa [show 3 * k + (i - 3 * k) = i by omega] at h
  simp only [fromBase64, hlen]
  obtain ⟨hret, hbytes⟩ := hloop _ rfl
  refine ⟨by rw [hret]; omega, contents_eq_iff.mpr fun i hi => hbytes i (by omega)⟩

theorem base64_round_trip_two_bytes :
    base64Length 2 < 2 ^ 32 ∧
      (fromBase64 (toBase64 (fun i => BitVec.ofNat 8 (65 + i)) (fun _ => 0) 2).1 (fun _ => 0)
        (3 * ((2 + 2) / 3))).2 = 2 :=
  ⟨by decide, (base64_round_trip (fun i => BitVec.ofNat 8 (65 + i)) (fun _ => 0) (fun _ => 0) 2
    (by decide)).1⟩

/-- The text is the standard one exactly when the byte behind the string has no bits that complete
the last character, and the texts of two memories with the same string are the same exactly when
the bytes behind it agree in these bits. -/
theorem toBase64_standard_iff (src dst : Bytes) (n : ℕ) (hfit : base64Length n < 2 ^ 32) :
    (contents (toBase64 src dst n).1 (toBase64 src dst n).2 = base64 (contents src n) ↔
      completion n (src n) = 0) ∧
    ∀ src' dst' : Bytes, contents src n = contents src' n →
      (contents (toBase64 src dst n).1 (toBase64 src dst n).2 =
        contents (toBase64 src' dst' n).1 (toBase64 src' dst' n).2 ↔
          completion n (src n) = completion n (src' n)) := by
  have hzero : completion n (zeroExtend src n n) = 0 := by
    simp [completion, zeroExtend]
  have hbelow : ∀ i, i < n → src i = zeroExtend src n i := fun i hi => (if_pos hi).symm
  refine ⟨?_, fun src' dst' hsame => ?_⟩
  · rw [contents_toBase64 src dst hfit, base64_contents, base64Text_eq_iff_completion hbelow, hzero]
  · rw [contents_toBase64 src dst hfit, contents_toBase64 src' dst' hfit]
    exact base64Text_eq_iff_completion (contents_eq_iff.mp hsame)

theorem toBase64_standard_one_byte :
    contents (toBase64 (fun _ => 0) (fun _ => 0) 1).1 (toBase64 (fun _ => 0) (fun _ => 0) 1).2 =
      base64 (contents (fun _ => 0) 1) :=
  (toBase64_standard_iff (fun _ => 0) (fun _ => 0) 1 (by decide)).1.mpr (by decide)

/-- The string `A`, followed by the byte `0xff` or by a zero. -/
theorem toBase64_reads_behind :
    contents (fun i => if i = 0 then 65 else 0xff) 1 =
      contents (fun i => if i = 0 then 65 else 0) 1 ∧
      contents (toBase64 (fun i => if i = 0 then 65 else 0xff) (fun _ => 0) 1).1 4 ≠
        contents (toBase64 (fun i => if i = 0 then 65 else 0) (fun _ => 0) 1).1 4 := by
  decide +kernel

end AflPlusPlus.Cmplog
