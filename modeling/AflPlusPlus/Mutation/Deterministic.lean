import AflPlusPlus.Lib.Trials
import AflPlusPlus.Mutation.Values

/-!
# The deterministic stages

The bit flips, the walking arithmetic and the interesting values of `fuzz_one_original`, in a run in
which no execution asks to stop and the time for these stages does not run out. A stage changes
`out_buf`, executes it and puts it back. Three filters skip what an earlier step should have tried.

An execution leaves the buffer as `Bench.after` says; it leaves it alone unless the `post_process`
function of a custom mutator changes it. `deterministicRuns` is for fuzzers without such a mutator.
-/

namespace AflPlusPlus.Mutation
open Lib Trials

/-! ### The filters -/

/-- Shift to the right until the lowest bit is set; at most `fuel` times. -/
def shiftOut : ℕ → ℕ → BitVec 32 → ℕ × BitVec 32
  | 0, sh, x => (sh, x)
  | fuel + 1, sh, x => if x &&& 1 = 0 then shiftOut fuel (sh + 1) (x >>> 1) else (sh, x)

def couldBeBitflip (xorVal : BitVec 32) : Bool :=
  if xorVal = 0 then true
  else
    let (sh, x) := shiftOut 32 0 xorVal
    if x = 1 ∨ x = 3 ∨ x = 15 then true
    else if sh &&& 7 ≠ 0 then false
    else x = 0xff ∨ x = 0xffff ∨ x = 0xffffffff

/-- How many of the first `n` elements differ, and the last ones that do. -/
def differing (w : ℕ) (oldVal newVal : BitVec 32) (n : ℕ) : ℕ × BitVec w × BitVec w :=
  (List.range n).foldl (fun (diffs, ov, nv) i =>
    let a := (oldVal >>> (w * i)).setWidth w
    let b := (newVal >>> (w * i)).setWidth w
    if a ≠ b then (diffs + 1, a, b) else (diffs, ov, nv)) (0, 0, 0)

def withinRange {w : ℕ} (ov nv : BitVec w) : Bool :=
  (ov - nv).toNat ≤ arithMax ∨ (nv - ov).toNat ≤ arithMax

def couldBeArith (oldVal newVal : BitVec 32) (blen : ℕ) : Bool :=
  if oldVal = newVal then true
  else
    let (diffs, ov, nv) := differing 8 oldVal newVal blen
    if diffs = 1 ∧ withinRange ov nv then true
    else if blen = 1 then false
    else
      let (diffs, ov, nv) := differing 16 oldVal newVal (blen / 2)
      if diffs = 1 ∧ (withinRange ov nv ∨ withinRange (swap16 ov) (swap16 nv)) then true
      else if blen = 4 then
        withinRange oldVal newVal ∨ withinRange (swap32 oldVal) (swap32 newVal)
      else false

/-- The old value with `v` put in at byte `i`. -/
def insertOver {w : ℕ} (oldVal : BitVec 32) (i : ℕ) (v : BitVec w) : BitVec 32 :=
  (oldVal &&& ~~~((BitVec.allOnes w).setWidth 32 <<< (i * 8))) ||| (v.setWidth 32 <<< (i * 8))

def couldBeInterest (oldVal newVal : BitVec 32) (blen : ℕ) (checkLe : Bool) : Bool :=
  if oldVal = newVal then true
  else if (List.range blen).any fun i => interesting8.any fun v =>
      newVal = insertOver oldVal i (BitVec.ofInt 8 v) then true
  else if blen = 2 ∧ checkLe = false then false
  else if (List.range (blen - 1)).any fun i => interesting16.any fun v =>
      newVal = insertOver oldVal i (BitVec.ofInt 16 v) ∨
        blen > 2 ∧ newVal = insertOver oldVal i (swap16 (BitVec.ofInt 16 v)) then true
  else blen = 4 ∧ checkLe ∧ interesting32.any fun v => newVal = BitVec.ofInt 32 v

/-! ### The stages -/

abbrev Stage := Trials Bytes Unit

/-- A loop over the bytes that are marked in `skip_eff_map`. -/
def walk (eff : ℕ → Bool) (n : ℕ) (body : ℕ → Stage) : Stage :=
  (List.range n).forM fun i => onlyIf (eff i = true) (body i)

/-- `FLIP_BIT`; bit 0 is the highest bit of the first byte. -/
def flipBit (m : Bytes) (b : ℕ) : Bytes :=
  setByte m (b >>> 3) (m (b >>> 3) ^^^ ((128 : Byte) >>> (b &&& 7)))

/-- `FLIP_BIT` for `n` bits from `cur` on. -/
def flipBits (n cur : ℕ) (m : Bytes) : Bytes :=
  (List.range n).foldl (fun m k => flipBit m (cur + k)) m

/-- The walking bits. -/
def bitflip (eff : ℕ → Bool) (len n : ℕ) : Stage :=
  (List.range ((len <<< 3) - (n - 1))).forM fun stageCur =>
    onlyIf (eff (stageCur >>> 3) = true) do
      change (flipBits n stageCur)
      attempt
      change (flipBits n stageCur)

def flipWord (w i : ℕ) (m : Bytes) : Bytes := store w m i (load w m i ^^^ BitVec.allOnes w)

/-- The walking bytes. -/
def byteflip (w : ℕ) (eff : ℕ → Bool) (n : ℕ) : Stage :=
  walk eff n fun i => do
    change (flipWord w i)
    attempt
    change (flipWord w i)

def storeWord {w : ℕ} (i : ℕ) (v : BitVec w) : Stage := change fun m => store w m i v

/-- Execute the buffer with `v` in it, if the filters let it through. -/
def runValue {w : ℕ} (p : Prop) [Decidable p] (i : ℕ) (v : BitVec w) : Stage :=
  onlyIf p do
    storeWord i v
    attempt

/-- A loop over the bytes, with the number that starts at each. -/
def walkWords (w : ℕ) (eff : ℕ → Bool) (n : ℕ) (body : ℕ → BitVec w → Stage) : Stage :=
  walk eff n fun i => do
    let s ← get
    body i (load w s.work i)

def arith8 (eff : ℕ → Bool) (n : ℕ) : Stage :=
  walkWords 8 eff n fun i orig =>
    (List.range arithMax).forM fun k => do
      let j := BitVec.ofNat 8 (k + 1)
      runValue (!couldBeBitflip ((orig ^^^ (orig + j)).setWidth 32)) i (orig + j)
      runValue (!couldBeBitflip ((orig ^^^ (orig - j)).setWidth 32)) i (orig - j)
      storeWord i orig

/-- The arithmetic stages for more than one byte. `leLow` and `beLow` are the part of a number that
must overflow; it is at most `limit`. -/
def arithWords {w : ℕ} (swap : BitVec w → BitVec w) (limit : ℕ) (leLow beLow : BitVec w → ℕ)
    (eff : ℕ → Bool) (n : ℕ) : Stage :=
  walkWords w eff n fun i orig =>
    (List.range arithMax).forM fun k => do
      let j := k + 1
      let plus := orig + BitVec.ofNat w j
      let minus := orig - BitVec.ofNat w j
      let plusBe := swap (swap orig + BitVec.ofNat w j)
      let minusBe := swap (swap orig - BitVec.ofNat w j)
      runValue (leLow orig + j > limit ∧ !couldBeBitflip ((orig ^^^ plus).setWidth 32)) i plus
      runValue (leLow orig < j ∧ !couldBeBitflip ((orig ^^^ minus).setWidth 32)) i minus
      runValue (beLow orig + j > limit ∧ !couldBeBitflip ((orig ^^^ plusBe).setWidth 32)) i plusBe
      runValue (beLow orig < j ∧ !couldBeBitflip ((orig ^^^ minusBe).setWidth 32)) i minusBe
      storeWord i orig

def arith16 : (ℕ → Bool) → ℕ → Stage :=
  arithWords swap16 0xff (fun orig => (orig &&& 0xff).toNat) fun orig => (orig >>> 8).toNat

def arith32 : (ℕ → Bool) → ℕ → Stage :=
  arithWords swap32 0xffff (fun orig => (orig &&& 0xffff).toNat) fun orig =>
    (swap32 orig &&& 0xffff).toNat

def interest8 (eff : ℕ → Bool) (n : ℕ) : Stage :=
  walkWords 8 eff n fun i orig =>
    interesting8.forM fun value => do
      let v := BitVec.ofInt 8 value
      onlyIf (¬ (couldBeBitflip ((orig ^^^ v).setWidth 32) ∨
          couldBeArith (orig.setWidth 32) (v.setWidth 32) 1)) do
        storeWord i v
        attempt
        storeWord i orig

/-- The stages for interesting values of more than one byte. -/
def interestWords {w : ℕ} (swap : BitVec w → BitVec w) (values : List ℤ) (eff : ℕ → Bool)
    (n : ℕ) : Stage :=
  walkWords w eff n fun i orig => do
    values.forM fun value => do
      let v := BitVec.ofInt w value
      runValue (!couldBeBitflip ((orig ^^^ v).setWidth 32) ∧
        !couldBeArith (orig.setWidth 32) (v.setWidth 32) (w / 8) ∧
        !couldBeInterest (orig.setWidth 32) (v.setWidth 32) (w / 8) false) i v
      runValue (v ≠ swap v ∧ !couldBeBitflip ((orig ^^^ swap v).setWidth 32) ∧
        !couldBeArith (orig.setWidth 32) ((swap v).setWidth 32) (w / 8) ∧
        !couldBeInterest (orig.setWidth 32) ((swap v).setWidth 32) (w / 8) true) i (swap v)
    storeWord i orig

def interest16 : (ℕ → Bool) → ℕ → Stage := interestWords swap16 interesting16

def interest32 : (ℕ → Bool) → ℕ → Stage := interestWords swap32 interesting32

/-- Up to `skip_bitflip`. The first execution is there for a clean checksum. -/
def bitflips (eff : ℕ → Bool) (len : ℕ) : Stage := do
  attempt
  bitflip eff len 1
  bitflip eff len 2
  bitflip eff len 4
  byteflip 8 eff len
  onlyIf (2 ≤ len) (byteflip 16 eff (len - 1))
  onlyIf (4 ≤ len) (byteflip 32 eff (len - 3))

/-- Up to `skip_arith`. -/
def ariths (eff : ℕ → Bool) (len : ℕ) : Stage := do
  arith8 eff len
  onlyIf (2 ≤ len) (arith16 eff (len - 1))
  onlyIf (4 ≤ len) (arith32 eff (len - 3))

/-- Up to `skip_interest`. -/
def interests (noArith : Bool) (eff : ℕ → Bool) (len : ℕ) : Stage := do
  interest8 eff len
  onlyIf (noArith = false ∧ 2 ≤ len) (interest16 eff (len - 1))
  onlyIf (noArith = false ∧ 4 ≤ len) (interest32 eff (len - 3))

def deterministic (noArith : Bool) (eff : ℕ → Bool) (len : ℕ) : Stage := do
  bitflips eff len
  onlyIf (noArith = false) (ariths eff len)
  interests noArith eff len

/-- The buffers that are executed, when no `post_process` drops or changes them. -/
def deterministicRuns (noArith : Bool) (eff : ℕ → Bool) (buf : Bytes) (len : ℕ) : List Bytes :=
  attempts (deterministic noArith eff len) buf

end AflPlusPlus.Mutation
