import AflPlusPlus.Mutation.Values

/-!
# The havoc stage

One step of the havoc loop of `fuzz_one_original`, on the operators that the library mutator shares
with it. A step takes its operator from an array; an operator may ask for another one.
-/

namespace AflPlusPlus.Mutation
open Lib

inductive Mut
  | flipbit
  | interesting8
  | interesting16
  | interesting16be
  | interesting32
  | interesting32be
  | arith8_
  | arith8
  | arith16_
  | arith16be_
  | arith16
  | arith16be
  | arith32_
  | arith32be_
  | arith32
  | arith32be
  | rand8
  | cloneCopy
  | cloneFixed
  | overwriteFixed
  | byteadd
  | bytesub
  | flip8
  | switch
  | del
  | shuffle
  | delone
  deriving DecidableEq

/-- The buffers of the fuzzer. -/
structure Havoc where
  outBuf : Bytes
  outScratch : Bytes
  tempLen : ℕ

/-- `*p = interesting_8[item]`, and likewise for the other widths. -/
def interestingValue (w : ℕ) (values : List ℤ) (item : ℕ) : BitVec w :=
  BitVec.ofInt w (values.getD item 0)

/-- The loop of the shuffle, from `i` down. -/
def shuffleLoop (off : ℕ) : ℕ → Bytes → Rand Bytes
  | 0, m => pure m
  | i + 1, m => do
    let j ← randBelowOther (i + 2) (i + 1)
    shuffleLoop off i
      (setByte (setByte m (off + (i + 1)) (m (off + j))) (off + j) (m (off + (i + 1))))

namespace Havoc

/-- A number in the buffer is replaced; the draws are its position and `1 + rand_below(ARITH_MAX)`,
in this order. -/
def arith (w : ℕ) (s : Havoc) (f : BitVec w → ℕ → BitVec w) : Rand (Option Havoc) := do
  if s.tempLen < w / 8 then return some s
  let pos ← randBelow (s.tempLen - (w / 8 - 1))
  let num := 1 + (← randBelow arithMax)
  return some { s with outBuf := store w s.outBuf pos (f (load w s.outBuf pos) num) }

def interesting (w : ℕ) (s : Havoc) (values : List ℤ) (f : BitVec w → BitVec w) :
    Rand (Option Havoc) := do
  if s.tempLen < w / 8 then return some s
  let item ← randBelow values.length
  let pos ← randBelow (s.tempLen - (w / 8 - 1))
  return some { s with outBuf := store w s.outBuf pos (f (interestingValue w values item)) }

/-- `out_scratch` gets the head, the block and the tail, and becomes `out_buf`. -/
def insertBlock (s : Havoc) (cloneTo cloneLen : ℕ) (fill : Bytes → Bytes) : Havoc :=
  let newBuf := copyBlock s.outScratch 0 s.outBuf 0 cloneTo
  let newBuf := fill newBuf
  let newBuf := copyBlock newBuf (cloneTo + cloneLen) s.outBuf cloneTo (s.tempLen - cloneTo)
  { outBuf := newBuf, outScratch := s.outBuf, tempLen := s.tempLen + cloneLen }

def delete (s : Havoc) (delFrom delLen : ℕ) : Havoc :=
  { s with
    outBuf := copyBlock s.outBuf delFrom s.outBuf (delFrom + delLen) (s.tempLen - delFrom - delLen)
    tempLen := s.tempLen - delLen }

end Havoc

/-- The operator `op` of the havoc loop; `none` is `goto retry_havoc_step`. -/
def havocOp (afl : Afl) (s : Havoc) : Mut → Rand (Option Havoc)
  | .flipbit => do
    let bit ← randBelow 8
    let off ← randBelow s.tempLen
    return some { s with outBuf := setByte s.outBuf off (s.outBuf off ^^^ (1 <<< bit)) }
  | .interesting8 => do
    let item ← randBelow interesting8.length
    let pos ← randBelow s.tempLen
    return some { s with outBuf := setByte s.outBuf pos (interestingValue 8 interesting8 item) }
  | .interesting16 => s.interesting 16 interesting16 id
  | .interesting16be => s.interesting 16 interesting16 swap16
  | .interesting32 => s.interesting 32 interesting32 id
  | .interesting32be => s.interesting 32 interesting32 swap32
  | .arith8_ => do
    let item := 1 + (← randBelow arithMax)
    let pos ← randBelow s.tempLen
    return some { s with outBuf := setByte s.outBuf pos (s.outBuf pos - BitVec.ofNat 8 item) }
  | .arith8 => do
    let item := 1 + (← randBelow arithMax)
    let pos ← randBelow s.tempLen
    return some { s with outBuf := setByte s.outBuf pos (s.outBuf pos + BitVec.ofNat 8 item) }
  | .arith16_ => s.arith 16 fun x num => x - BitVec.ofNat 16 num
  | .arith16be_ => s.arith 16 fun x num => swap16 (swap16 x - BitVec.ofNat 16 num)
  | .arith16 => s.arith 16 fun x num => x + BitVec.ofNat 16 num
  | .arith16be => s.arith 16 fun x num => swap16 (swap16 x + BitVec.ofNat 16 num)
  | .arith32_ => s.arith 32 fun x num => x - BitVec.ofNat 32 num
  | .arith32be_ => s.arith 32 fun x num => swap32 (swap32 x - BitVec.ofNat 32 num)
  | .arith32 => s.arith 32 fun x num => x + BitVec.ofNat 32 num
  | .arith32be => s.arith 32 fun x num => swap32 (swap32 x + BitVec.ofNat 32 num)
  | .rand8 => do
    let pos ← randBelow s.tempLen
    let item := 1 + (← randBelow 255)
    return some { s with outBuf := setByte s.outBuf pos (s.outBuf pos ^^^ BitVec.ofNat 8 item) }
  | .cloneCopy => do
    if s.tempLen + havocBlkXl < maxFile then
      let cloneLen ← chooseBlockLen afl s.tempLen
      let cloneFrom ← randBelow (s.tempLen - cloneLen + 1)
      let cloneTo ← randBelow s.tempLen
      return some (s.insertBlock cloneTo cloneLen fun newBuf =>
        copyBlock newBuf cloneTo s.outBuf cloneFrom cloneLen)
    else if s.tempLen < 8 then return some s
    else return none
  | .cloneFixed => do
    if s.tempLen + havocBlkXl < maxFile then
      let cloneLen ← chooseBlockLen afl havocBlkXl
      let cloneTo ← randBelow s.tempLen
      let strat ← randBelow 2
      let cloneFrom := if cloneTo ≠ 0 then cloneTo - 1 else 0
      let item ← if strat ≠ 0 then BitVec.ofNat 8 <$> randBelow 256 else pure (s.outBuf cloneFrom)
      return some (s.insertBlock cloneTo cloneLen fun newBuf =>
        fillBlock newBuf cloneTo item cloneLen)
    else if s.tempLen < 8 then return some s
    else return none
  | .overwriteFixed => do
    if s.tempLen < 2 then return some s
    let copyLen ← chooseBlockLen afl (s.tempLen - 1)
    let copyTo ← randBelow (s.tempLen - copyLen + 1)
    let strat ← randBelow 2
    let copyFrom := if copyTo ≠ 0 then copyTo - 1 else 0
    let item ← if strat ≠ 0 then BitVec.ofNat 8 <$> randBelow 256 else pure (s.outBuf copyFrom)
    return some { s with outBuf := fillBlock s.outBuf copyTo item copyLen }
  | .byteadd => do
    let pos ← randBelow s.tempLen
    return some { s with outBuf := setByte s.outBuf pos (s.outBuf pos + 1) }
  | .bytesub => do
    let pos ← randBelow s.tempLen
    return some { s with outBuf := setByte s.outBuf pos (s.outBuf pos - 1) }
  | .flip8 => do
    let pos ← randBelow s.tempLen
    return some { s with outBuf := setByte s.outBuf pos (s.outBuf pos ^^^ 0xff) }
  | .switch => do
    if s.tempLen < 4 then return some s
    let switchFrom ← randBelow s.tempLen
    let switchTo ← randBelowOther s.tempLen switchFrom
    let (switchLen, toEnd) :=
      if switchFrom < switchTo then (switchTo - switchFrom, s.tempLen - switchTo)
      else (switchFrom - switchTo, s.tempLen - switchFrom)
    let switchLen ← chooseBlockLen afl (min switchLen toEnd)
    let newBuf := copyBlock s.outScratch 0 s.outBuf switchFrom switchLen
    let outBuf := copyBlock s.outBuf switchFrom s.outBuf switchTo switchLen
    let outBuf := copyBlock outBuf switchTo newBuf 0 switchLen
    return some { s with outBuf := outBuf, outScratch := newBuf }
  | .del => do
    if s.tempLen < 2 then return some s
    let delLen ← chooseBlockLen afl (s.tempLen - 1)
    let delFrom ← randBelow (s.tempLen - delLen + 1)
    return some (s.delete delFrom delLen)
  | .shuffle => do
    if s.tempLen < 4 then return some s
    let len ← chooseBlockLen afl (s.tempLen - 1)
    let off ← randBelow (s.tempLen - len + 1)
    let outBuf ← shuffleLoop off (len - 1) s.outBuf
    return some { s with outBuf := outBuf }
  | .delone => do
    if s.tempLen < 2 then return some s
    let delLen := 1
    let delFrom ← randBelow (s.tempLen - delLen + 1)
    return some (s.delete delFrom delLen)

/-- The buffer as it is executed. -/
def Havoc.output (s : Havoc) : List Byte := contents s.outBuf s.tempLen

/-- A step as the switch makes it: `op` is one program's operators, `view` what is seen of its
buffers. `none` in the array stands for an operator that only one of the programs has in this form;
a step that takes it is not followed (`none`). -/
def stepLoop {σ : Type} (op : σ → Mut → Rand (Option σ)) (array : List (Option Mut)) (s : σ) :
    ℕ → Rand (Option σ)
  | 0 => fun _ => none
  | fuel + 1 => do
    let r ← randBelow array.length
    match array.getD r none with
    | none => return none
    | some choice =>
      match ← op s choice with
      | some s' => return some s'
      | none => stepLoop op array s fuel

/-- One step of the havoc loop. -/
def havocStep (afl : Afl) (array : List (Option Mut)) (s : Havoc) : Rand (Option Havoc) := fun ds =>
  stepLoop (havocOp afl) array s (ds.length + 1) ds

end AflPlusPlus.Mutation
