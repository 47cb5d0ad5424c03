import AflPlusPlus.Lib.Blocks
import AflPlusPlus.Lib.Lockstep

/-!
# Constants and draws of the mutation stages

The constants of `config.h`, the byte swaps of `types.h` and `rand_below`. The values that
`rand_next` returns are a given list, so that two programs can be fed with the same draws; a
computation that needs more of them than there are has no result.
-/

namespace AflPlusPlus.Mutation
open Lib

def arithMax : ℕ := 35

def maxFile : ℕ := 1024 * 1024

def havocBlkSmall : ℕ := 32

def havocBlkMedium : ℕ := 128

def havocBlkLarge : ℕ := 1500

def havocBlkXl : ℕ := 32768

def interesting8 : List ℤ := [-128, -1, 0, 1, 16, 32, 64, 100, 127]

def interesting16 : List ℤ :=
  interesting8 ++ [-32768, -129, 128, 255, 256, 512, 1000, 1024, 4096, 32767]

def interesting32 : List ℤ :=
  interesting16 ++ [-2147483648, -100663046, -32769, 32768, 65535, 65536, 100663045, 2139095040,
    2147483647]

def swap16 (x : BitVec 16) : BitVec 16 := (x <<< 8) ||| (x >>> 8)

def swap32 (x : BitVec 32) : BitVec 32 :=
  (x <<< 24) ||| (x >>> 24) ||| ((x <<< 8) &&& (0x00ff0000 : BitVec 32)) |||
    ((x >>> 8) &&& (0x0000ff00 : BitVec 32))

/-! ### The swaps -/

theorem wordByte_swap16 (x : BitVec 16) {b : ℕ} (hb : b < 2) :
    wordByte (swap16 x) b = wordByte x (1 - b) := by
  apply BitVec.eq_of_getLsbD_eq
  intro i hi
  rw [getLsbD_wordByte, getLsbD_wordByte, swap16, BitVec.getLsbD_or, BitVec.getLsbD_shiftLeft,
    BitVec.getLsbD_ushiftRight]
  obtain rfl | rfl : b = 0 ∨ b = 1 := by omega
  · simp [hi, show i < 16 by omega]
  · simp [hi, show 8 + i < 16 by omega, BitVec.getLsbD_of_ge x (8 + (8 + i)) (by omega)]

theorem getLsbD_mask (k : ℕ) {i : ℕ} (hi : i < 32) :
    ((0xff : BitVec 32) <<< k).getLsbD i = (decide (k ≤ i) && decide (i - k < 8)) := by
  have hones : (0xff : BitVec 32) = (BitVec.allOnes 8).setWidth 32 := by decide
  rw [BitVec.getLsbD_shiftLeft, hones, BitVec.getLsbD_setWidth, BitVec.getLsbD_allOnes]
  by_cases hk : k ≤ i
  · simp [hk, hi, Nat.not_lt.mpr hk, show i - k < 32 by omega]
  · simp [hk, Nat.lt_of_not_le hk]

theorem getLsbD_swap32 (x : BitVec 32) {i : ℕ} (hi : i < 32) :
    (swap32 x).getLsbD i = x.getLsbD (8 * (3 - i / 8) + i % 8) := by
  have hm2 : (0x00ff0000 : BitVec 32) = (0xff : BitVec 32) <<< 16 := by decide
  have hm1 : (0x0000ff00 : BitVec 32) = (0xff : BitVec 32) <<< 8 := by decide
  rw [swap32, hm1, hm2]
  simp only [BitVec.getLsbD_or, BitVec.getLsbD_and, BitVec.getLsbD_shiftLeft,
    BitVec.getLsbD_ushiftRight, getLsbD_mask _ hi]
  have hcases : i / 8 = 0 ∨ i / 8 = 1 ∨ i / 8 = 2 ∨ i / 8 = 3 := by omega
  rcases hcases with h | h | h | h
  · have hbit : 8 * (3 - i / 8) + i % 8 = 24 + i := by omega
    rw [hbit]
    simp [hi, show i < 24 by omega, show i < 8 by omega, show ¬ 16 ≤ i by omega,
      show ¬ 8 ≤ i by omega]
  · have hbit : 8 * (3 - i / 8) + i % 8 = 8 + i := by omega
    rw [hbit]
    simp [hi, show i < 24 by omega, show ¬ 16 ≤ i by omega, show 8 ≤ i by omega,
      show i - 8 < 8 by omega, BitVec.getLsbD_of_ge x (24 + i) (by omega)]
  · have hbit : 8 * (3 - i / 8) + i % 8 = i - 8 := by omega
    rw [hbit]
    simp [hi, show i < 24 by omega, show 16 ≤ i by omega, show ¬ i < 8 by omega,
      show i - 16 < 8 by omega, show ¬ i - 8 < 8 by omega,
      BitVec.getLsbD_of_ge x (24 + i) (by omega)]
  · have hbit : 8 * (3 - i / 8) + i % 8 = i - 24 := by omega
    rw [hbit]
    simp [hi, show ¬ i < 24 by omega, show 16 ≤ i by omega, show ¬ i < 8 by omega,
      show ¬ i - 16 < 8 by omega, show ¬ i - 8 < 8 by omega,
      BitVec.getLsbD_of_ge x (24 + i) (by omega)]

theorem wordByte_swap32 (x : BitVec 32) {b : ℕ} (hb : b < 4) :
    wordByte (swap32 x) b = wordByte x (3 - b) := by
  apply BitVec.eq_of_getLsbD_eq
  intro i hi
  have hdiv : (8 * b + i) / 8 = b := by omega
  have hmod : (8 * b + i) % 8 = i := by omega
  rw [getLsbD_wordByte, getLsbD_wordByte, getLsbD_swap32 x (by omega), hdiv, hmod]

theorem swap32_swap32 (x : BitVec 32) : swap32 (swap32 x) = x := by
  refine eq_of_wordByte (by decide) fun b hb => ?_
  rw [wordByte_swap32 _ hb, wordByte_swap32 x (by omega)]
  congr 1
  omega

/-! ### Draws -/

abbrev Draws := List (BitVec 64)

abbrev Rand := StateT Draws Option

def u64Max : ℕ := 2 ^ 64 - 1

/-- The loop of `rand_below` that keeps the result unbiased. -/
def unbiased (limit : ℕ) : Draws → Option (ℕ × Draws)
  | [] => none
  | rnd :: ds =>
    if rnd.toNat ≥ u64Max - u64Max % limit then unbiased limit ds
    else some (rnd.toNat % limit, ds)

def randBelow (limit : ℕ) : Rand ℕ := fun ds =>
  if limit ≤ 1 then some (0, ds) else unbiased limit ds

/-- Draw again while the number is `other`; at most `fuel` times. -/
def redraw (limit other : ℕ) : ℕ → Rand ℕ
  | 0 => fun _ => none
  | fuel + 1 => do
    let x ← randBelow limit
    if x = other then redraw limit other fuel else pure x

/-- `do x = rand_below(limit); while (x == other)`. Every round takes a draw when `limit` is not
one. -/
def randBelowOther (limit other : ℕ) : Rand ℕ := fun ds => redraw limit other (ds.length + 1) ds

theorem unbiased_lt {limit : ℕ} (h : 0 < limit) {ds ds' : Draws} {x : ℕ}
    (hx : unbiased limit ds = some (x, ds')) : x < limit := by
  induction ds with
  | nil => simp [unbiased] at hx
  | cons rnd ds ih =>
    rw [unbiased] at hx
    split at hx
    · exact ih hx
    · obtain ⟨rfl, -⟩ : rnd.toNat % limit = x ∧ ds = ds' := by simpa using hx
      exact Nat.mod_lt _ h

theorem randBelow_lt {limit : ℕ} (h : 0 < limit) : Returns (randBelow limit) (· < limit) := by
  intro ds x ds' hx
  rw [randBelow] at hx
  split at hx
  · obtain ⟨rfl, -⟩ : 0 = x ∧ ds = ds' := by simpa using hx
    exact h
  · exact unbiased_lt h hx

theorem redraw_lt {limit other : ℕ} (h : 0 < limit) (fuel : ℕ) :
    Returns (redraw limit other fuel) fun x => x < limit ∧ x ≠ other := by
  induction fuel with
  | zero =>
    intro ds x ds' hx
    simp [redraw] at hx
  | succ fuel ih =>
    refine (randBelow_lt h).bind fun x hx => ?_
    split
    · exact ih
    · exact .pure ⟨hx, ‹_›⟩

theorem randBelowOther_lt {limit : ℕ} (h : 0 < limit) (other : ℕ) :
    Returns (randBelowOther limit other) fun x => x < limit ∧ x ≠ other :=
  fun ds x ds' hx => redraw_lt h _ ds x ds' hx

/-- What `choose_block_len` reads of the fuzzer. -/
structure Afl where
  queueCycle : ℕ
  runOver10m : Bool

/-- The bounds for a block, from small to extra large. -/
def blockBounds (afl : Afl) : Rand (ℕ × ℕ) := do
  let rlim := if afl.runOver10m then min afl.queueCycle 3 else 1
  match ← randBelow rlim with
  | 0 => pure (1, havocBlkSmall)
  | 1 => pure (havocBlkSmall, havocBlkMedium)
  | _ =>
    if (← randBelow 10) ≠ 0 then pure (havocBlkMedium, havocBlkLarge)
    else pure (havocBlkLarge, havocBlkXl)

def chooseBlockLen (afl : Afl) (limit : ℕ) : Rand ℕ := do
  let (minValue, maxValue) ← blockBounds afl
  let minValue := if minValue ≥ limit then 1 else minValue
  return minValue + (← randBelow (min maxValue limit - minValue + 1))

end AflPlusPlus.Mutation
