import AflPlusPlus.Lib.Memory
import AflPlusPlus.Lib.Smear
import Mathlib.Order.Bounds.Basic

/-!
# Buffers that grow

`next_pow2` and `afl_realloc` of `alloc-inl.h`, where `size_t` has 64 bits. The rounding smears the
highest bit over 32 positions only.
-/

namespace AflPlusPlus.Alloc
open Lib

/-- `next_pow2` on a 64-bit `size_t`. -/
def nextPow2 (n : BitVec 64) : BitVec 64 :=
  let out := n - 1
  let out := out ||| out >>> 1
  let out := out ||| out >>> 2
  let out := out ||| out >>> 4
  let out := out ||| out >>> 8
  let out := out ||| out >>> 16
  out + 1

def aflAllocSizeOffset : BitVec 64 := 8

def initialGrowthSize : BitVec 64 := 64

/-- A buffer of `afl_realloc`. The complete size counts the header. -/
structure AflAllocBuf where
  completeSize : BitVec 64
  buf : Bytes

/-- What `realloc` is asked for when the buffer is too small. -/
def nextSize (sizeNeeded : BitVec 64) : BitVec 64 :=
  if sizeNeeded < initialGrowthSize then initialGrowthSize
  else if nextPow2 sizeNeeded = 0 then sizeNeeded
  else nextPow2 sizeNeeded

def currentSize : Option AflAllocBuf → BitVec 64
  | none => 0
  | some b => b.completeSize

/-- `afl_realloc`, where `granted` tells which requests `realloc` fulfils. The old contents are kept
and the new memory is cleared. -/
def aflRealloc (granted : BitVec 64 → Bool) (buf : Option AflAllocBuf) (sizeNeeded : BitVec 64) :
    Option AflAllocBuf :=
  let sizeNeeded := sizeNeeded + aflAllocSizeOffset
  if currentSize buf ≥ sizeNeeded then buf
  else if granted (nextSize sizeNeeded) then
    some {
      completeSize := nextSize sizeNeeded
      buf := fun i =>
        if i + aflAllocSizeOffset.toNat < (currentSize buf).toNat then
          (buf.map fun b => b.buf i).getD 0
        else 0 }
  else none

/-- The powers of two from `n` on that 64 bits can hold. -/
def powersFrom (n : ℕ) : Set ℕ := {p | (∃ k, p = 2 ^ k) ∧ n ≤ p ∧ p < 2 ^ 64}

/-- What `next_pow2` promises: the least power of two that is at least its argument, or 0. -/
def RoundsUp (n out : BitVec 64) : Prop :=
  IsLeast (powersFrom n.toNat) out.toNat ∨ (powersFrom n.toNat = ∅ ∧ out = 0)

/-! ### Rounding -/

section Rounding

variable {n : BitVec 64}

/-- All steps together. -/
theorem nextPow2_eq (n : BitVec 64) : ∃ y, Smeared 32 (n - 1) y ∧ nextPow2 n = y + 1 :=
  ⟨_, (smeared_one (n - 1)).double.double.double.double.double, rfl⟩

theorem mem_powersFrom_iff {n p : ℕ} (hn : 0 < n) :
    p ∈ powersFrom n ↔ ∃ k, (n - 1).size ≤ k ∧ k < 64 ∧ p = 2 ^ k := by
  constructor
  · rintro ⟨⟨k, rfl⟩, hle, hlt⟩
    exact ⟨k, Nat.size_le.mpr (by omega), (Nat.pow_lt_pow_iff_right Nat.one_lt_two).mp hlt, rfl⟩
  · rintro ⟨k, hsize, hk, rfl⟩
    have hlt := Nat.size_le.mp hsize
    exact ⟨⟨k, rfl⟩, by omega, Nat.pow_lt_pow_right Nat.one_lt_two hk⟩

/-- Rounding up is adding one to the mask of ones up to the highest bit of the predecessor. -/
theorem roundsUp_succ_iff (hn : 1 ≤ n) (y : BitVec 64) :
    RoundsUp n (y + 1) ↔ y.toNat = 2 ^ (n - 1).toNat.size - 1 := by
  have hpos : 0 < n.toNat := BitVec.le_def.mp hn
  have hpred : (n - 1).toNat = n.toNat - 1 := by bv_omega
  have hsize : (n - 1).toNat.size ≤ 64 := Nat.size_le.mpr (n - 1).isLt
  have hmem : ∀ p, p ∈ powersFrom n.toNat ↔ ∃ k, (n - 1).toNat.size ≤ k ∧ k < 64 ∧ p = 2 ^ k :=
    fun p => hpred ▸ mem_powersFrom_iff hpos
  generalize (n - 1).toNat.size = s at hsize hmem
  rcases Nat.lt_or_ge s 64 with hs | hs
  · -- the least power is `2 ^ s`
    have hleast : IsLeast (powersFrom n.toNat) (2 ^ s) := by
      refine ⟨(hmem _).mpr ⟨s, Nat.le_refl s, hs, rfl⟩, fun p hp => ?_⟩
      obtain ⟨k, hk, -, rfl⟩ := (hmem p).mp hp
      exact Nat.pow_le_pow_right Nat.two_pos hk
    have hpow : 2 ^ s < 2 ^ 64 := Nat.pow_lt_pow_right Nat.one_lt_two hs
    have honce : (y + 1).toNat = 2 ^ s ↔ y.toNat = 2 ^ s - 1 := by
      have hsp := Nat.two_pow_pos s
      have hy := y.isLt
      rw [BitVec.toNat_add, show (1 : BitVec 64).toNat = 1 from rfl]
      omega
    rw [← honce]
    constructor
    · rintro (h | ⟨hempty, -⟩)
      · exact h.unique hleast
      · exact absurd (hempty ▸ hleast.1) (Set.notMem_empty _)
    · exact fun h => .inl (h ▸ hleast)
  · obtain rfl : s = 64 := Nat.le_antisymm hsize hs
    have hempty : powersFrom n.toNat = ∅ := by
      apply Set.eq_empty_of_forall_notMem
      intro p hp
      obtain ⟨k, hk, hk', -⟩ := (hmem p).mp hp
      omega
    have hzero : y + 1 = 0 ↔ y.toNat = 2 ^ 64 - 1 := by
      rw [← BitVec.toNat_inj, BitVec.toNat_add, show (1 : BitVec 64).toNat = 1 from rfl,
        show (0 : BitVec 64).toNat = 0 from rfl]
      have hy := y.isLt
      omega
    rw [← hzero]
    constructor
    · rintro (h | ⟨-, h⟩)
      · exact absurd (hempty ▸ h.1) (Set.notMem_empty _)
      · exact h
    · exact fun h => .inr ⟨hempty, h⟩

/-- The result is right exactly if no 32 bits in a row are zero below the highest bit of the
predecessor. -/
theorem nextPow2_roundsUp_iff (hn : 1 ≤ n) : RoundsUp n (nextPow2 n) ↔ NoGap 32 (n - 1) := by
  obtain ⟨y, hsmeared, heq⟩ := nextPow2_eq n
  rw [heq, roundsUp_succ_iff hn]
  exact ⟨hsmeared.noGap (by decide), hsmeared.toNat_eq⟩

theorem nextPow2_roundsUp_five : RoundsUp 5 (nextPow2 5) :=
  (nextPow2_roundsUp_iff (by decide)).mpr (noGap_of_lt (by decide))

/-- One more than `2 ^ 32`: the highest bit does not reach bit 0. -/
theorem nextPow2_not_roundsUp :
    nextPow2 0x100000001 = 0x1ffffffff ∧ ¬ RoundsUp 0x100000001 (nextPow2 0x100000001) := by
  refine ⟨by decide, ?_⟩
  rintro (⟨⟨⟨k, hk⟩, -⟩, -⟩ | ⟨-, hzero⟩)
  · cases k with
    | zero => exact absurd hk (by decide)
    | succ k =>
      have hodd : (nextPow2 0x100000001).toNat % 2 = 1 := by decide
      rw [hk, Nat.pow_succ] at hodd
      omega
  · exact absurd hzero (by decide)

end Rounding

/-! ### Growing -/

section Growing

variable {granted : BitVec 64 → Bool} {buf : Option AflAllocBuf} {n : BitVec 64} {b : AflAllocBuf}

/-- Also where it is no power of two the result is not below the argument. -/
theorem le_nextPow2 (hn : 1 ≤ n) (hne : nextPow2 n ≠ 0) : n ≤ nextPow2 n := by
  obtain ⟨y, hsmeared, heq⟩ := nextPow2_eq n
  have hle : n - 1 ≤ y := hsmeared.le (by decide)
  rw [heq] at hne ⊢
  bv_omega

theorem le_nextSize (n : BitVec 64) : n ≤ nextSize n := by
  rw [nextSize]
  split
  · rename_i hlt
    exact BitVec.le_of_lt hlt
  · rename_i hlarge
    have hn : 1 ≤ n := by
      rw [initialGrowthSize] at hlarge
      bv_omega
    split
    · exact BitVec.le_refl n
    · rename_i hne
      exact le_nextPow2 hn hne

/-- There is room for what was asked for, behind the old contents. -/
theorem aflRealloc_fits (hn : n.toNat + aflAllocSizeOffset.toNat < 2 ^ 64)
    (h : aflRealloc granted buf n = some b) :
    n.toNat + aflAllocSizeOffset.toNat ≤ b.completeSize.toNat ∧
      ∀ old, buf = some old → ∀ i, i + aflAllocSizeOffset.toNat < old.completeSize.toNat →
        b.buf i = old.buf i := by
  have hsum : (n + aflAllocSizeOffset).toNat = n.toNat + aflAllocSizeOffset.toNat := by
    rw [BitVec.toNat_add, Nat.mod_eq_of_lt hn]
  rw [aflRealloc] at h
  split at h
  · rename_i hroom
    subst h
    refine ⟨hsum ▸ BitVec.le_def.mp hroom, ?_⟩
    rintro old ⟨⟩ i -
    rfl
  · split at h
    · obtain rfl := Option.some.inj h
      refine ⟨hsum ▸ BitVec.le_def.mp (le_nextSize _), ?_⟩
      rintro old rfl i hi
      exact if_pos hi
    · cases h

end Growing

end AflPlusPlus.Alloc
