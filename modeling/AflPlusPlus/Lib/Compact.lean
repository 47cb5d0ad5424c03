import AflPlusPlus.Lib.Blocks
import Mathlib.Data.Nat.Log

/-!
# The SCALE compact encoding

The two low bits of the first byte are the mode: a number in one, two or four bytes, or a length
followed by the bytes of a larger number. Numbers are stored with the lowest byte first.
-/

namespace Lib

/-- The first `k` bytes of a number. -/
def littleEndian (k n : ℕ) : List Byte := (List.range k).map fun i => BitVec.ofNat 8 (n / 256 ^ i)

/-- The least number of bytes that hold a number. -/
def byteCount (n : ℕ) : ℕ := Nat.log 256 n + 1

def compactEncode (n : ℕ) : List Byte :=
  if n < 2 ^ 6 then littleEndian 1 (4 * n)
  else if n < 2 ^ 14 then littleEndian 2 (4 * n + 1)
  else if n < 2 ^ 30 then littleEndian 4 (4 * n + 2)
  else BitVec.ofNat 8 (4 * (byteCount n - 4) + 3) :: littleEndian (byteCount n) n

def bytesValue : List Byte → ℕ
  | [] => 0
  | b :: bs => b.toNat + 256 * bytesValue bs

def compactDecode : List Byte → Option ℕ
  | [] => none
  | b :: bs =>
    match b.toNat % 4 with
    | 0 => some (b.toNat / 4)
    | 1 => some (bytesValue (b :: bs.take 1) / 4)
    | 2 => some (bytesValue (b :: bs.take 3) / 4)
    | _ => some (bytesValue (bs.take (b.toNat / 4 + 4)))

@[simp]
theorem length_littleEndian (k n : ℕ) : (littleEndian k n).length = k := by
  simp [littleEndian]

theorem littleEndian_succ (k n : ℕ) :
    littleEndian (k + 1) n = BitVec.ofNat 8 n :: littleEndian k (n / 256) := by
  rw [littleEndian, List.range_succ_eq_map, List.map_cons, List.map_map, Nat.pow_zero, Nat.div_one,
    littleEndian]
  congr 1
  apply List.map_congr_left
  intro i _
  show BitVec.ofNat 8 (n / 256 ^ (i + 1)) = BitVec.ofNat 8 (n / 256 / 256 ^ i)
  rw [Nat.div_div_eq_div_mul, Nat.pow_succ, Nat.mul_comm 256]

theorem bytesValue_littleEndian (k n : ℕ) : bytesValue (littleEndian k n) = n % 256 ^ k := by
  induction k generalizing n with
  | zero => simp [littleEndian, bytesValue, Nat.mod_one]
  | succ k ih =>
    have hpow : 256 ^ (k + 1) = 256 * 256 ^ k := Nat.pow_succ'
    rw [littleEndian_succ, bytesValue, ih, hpow, Nat.mod_mul]
    rfl

theorem byteCount_eq {n k : ℕ} (hlow : 256 ^ k ≤ n) (hhigh : n < 256 ^ (k + 1)) :
    byteCount n = k + 1 := by
  rw [byteCount, Nat.log_eq_of_pow_le_of_lt_pow hlow hhigh]

theorem lt_pow_byteCount (n : ℕ) : n < 256 ^ byteCount n := Nat.lt_pow_succ_log_self (by decide) n

theorem byteCount_le {n k : ℕ} (h : n < 256 ^ k) (hk : 0 < k) : byteCount n ≤ k := by
  have hlog := Nat.log_lt_of_lt_pow' (by omega) h
  rw [byteCount]
  omega

theorem four_le_byteCount {n : ℕ} (h : 2 ^ 30 ≤ n) : 4 ≤ byteCount n := by
  have hlog : 3 ≤ Nat.log 256 n :=
    Nat.le_log_of_pow_le (by decide) (by omega)
  rw [byteCount]
  omega

/-- The encoding of a large number has its length byte and all its bytes. -/
theorem length_compactEncode_big {n : ℕ} (h : 2 ^ 30 ≤ n) :
    (compactEncode n).length = byteCount n + 1 := by
  rw [compactEncode, if_neg (by omega), if_neg (by omega), if_neg (by omega), List.length_cons,
    length_littleEndian]

/-- Decoding an encoded number gives it back, if its length fits the length byte. -/
theorem compactDecode_compactEncode {n : ℕ} (hn : n < 256 ^ 67) :
    compactDecode (compactEncode n) = some n := by
  rw [compactEncode]
  split
  · have hfirst : (BitVec.ofNat 8 (4 * n)).toNat = 4 * n := by
      rw [BitVec.toNat_ofNat]
      omega
    rw [littleEndian_succ, compactDecode, hfirst, show 4 * n % 4 = 0 by omega]
    simp
  · split
    · have hvalue := bytesValue_littleEndian 2 (4 * n + 1)
      rw [littleEndian_succ] at hvalue ⊢
      have hmode : (BitVec.ofNat 8 (4 * n + 1)).toNat % 4 = 1 := by
        rw [BitVec.toNat_ofNat]
        omega
      rw [compactDecode, hmode]
      simp only [List.take_of_length_le (Nat.le_of_eq (length_littleEndian 1 _)), hvalue]
      congr 1
      omega
    · split
      · have hvalue := bytesValue_littleEndian 4 (4 * n + 2)
        rw [littleEndian_succ] at hvalue ⊢
        have hmode : (BitVec.ofNat 8 (4 * n + 2)).toNat % 4 = 2 := by
          rw [BitVec.toNat_ofNat]
          omega
        rw [compactDecode, hmode]
        simp only [List.take_of_length_le (Nat.le_of_eq (length_littleEndian 3 _)), hvalue]
        congr 1
        omega
      · have hcount : byteCount n ≤ 67 := byteCount_le hn (by decide)
        have hfour : 4 ≤ byteCount n := four_le_byteCount (by omega)
        have hfirst : (BitVec.ofNat 8 (4 * (byteCount n - 4) + 3)).toNat =
            4 * (byteCount n - 4) + 3 := by
          rw [BitVec.toNat_ofNat]
          omega
        rw [compactDecode, hfirst, show (4 * (byteCount n - 4) + 3) % 4 = 3 by omega]
        simp only [show (4 * (byteCount n - 4) + 3) / 4 + 4 = byteCount n by omega,
          List.take_of_length_le (Nat.le_of_eq (length_littleEndian (byteCount n) n)),
          bytesValue_littleEndian, Nat.mod_eq_of_lt (lt_pow_byteCount n)]

end Lib
