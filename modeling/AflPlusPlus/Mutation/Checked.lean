import AflPlusPlus.Cmplog.Solve
import AflPlusPlus.Mutation.Library
import AflPlusPlus.Mutation.Overwrite

/-!
# The library mutator with its accesses

All of `afl_mutate`. Each access to a buffer is checked against the size of the buffer, each signed
operation against the range of its type, and unsigned operations wrap. Offsets that are added to a
pointer do not wrap.
-/

namespace AflPlusPlus.Mutation
open Lib Lib.Stopping

/-- Why an operator does not return: the draws end, `goto retry_havoc_step`, an access outside of a
buffer, or a signed overflow. -/
inductive MutateHalt
  | noDraws
  | retry
  | outside
  | overflow
  deriving DecidableEq

abbrev Checked := Stopping MutateHalt Draws

inductive Operator
  | flipbit
  | interesting8
  | interesting16
  | interesting16be
  | interesting32
  | interesting32be
  | arith8_
  | arith8
  | arith16_
  | arith16be_
  | arith16
  | arith16be
  | arith32_
  | arith32be_
  | arith32
  | arith32be
  | rand8
  | cloneCopy
  | cloneFixed
  | overwriteCopy
  | overwriteFixed
  | byteadd
  | bytesub
  | flip8
  | switch
  | del
  | shuffle
  | delone
  | insertone
  | asciinum
  | insertasciinum
  | extraOverwrite
  | extraInsert
  | autoExtraOverwrite
  | autoExtraInsert
  | spliceOverwrite
  | spliceInsert
  deriving DecidableEq

/-- `MUT_STRATEGY_ARRAY_SIZE`. -/
def mutStrategyArraySize : ℕ := 256

/-- What a call of `afl_mutate` works with. -/
structure Arena where
  afl : Afl
  maxLen : ℕ
  /-- `splice_buf`, which may be null. -/
  spliceBuf : Option (List Byte)
  spliceLen_lt : ∀ data ∈ spliceBuf, data.length < 2 ^ 32
  extras : List (List Byte)
  aExtras : List (List Byte)
  mutationArray : List Operator
  mutationArray_length : mutationArray.length = mutStrategyArraySize

/-! ### Numbers and draws -/

/-- `a + b` as a `u32`. -/
def add32 (a b : ℕ) : ℕ := (a + b) % 2 ^ 32

/-- `a - b` as a `u32`. -/
def sub32 (a b : ℕ) : ℕ := (a + 2 ^ 32 - b) % 2 ^ 32

def int64Max : ℤ := 2 ^ 63 - 1

def int64Min : ℤ := -2 ^ 63

/-- The result of a signed operation. -/
def s64 (x : ℤ) : Checked ℤ := if int64Min ≤ x ∧ x ≤ int64Max then pure x else stop .overflow

def draw {α : Type} (m : Rand α) : Checked α := fun ds =>
  match m ds with
  | none => (.error .noDraws, ds)
  | some (a, ds') => (.ok a, ds')

def rand (limit : ℕ) : Checked ℕ := draw (randBelow limit)

def randNext : Rand (BitVec 64)
  | [] => none
  | rnd :: ds => some (rnd, ds)

def pickBlockLen (a : Arena) (limit : ℕ) : Checked ℕ := draw (chooseBlockLen a.afl limit)

/-! ### Accesses -/

/-- An access to `size` bytes at `off` of a buffer of `cap` bytes. -/
def within (cap off size : ℕ) : Checked Unit :=
  if off + size ≤ cap then pure () else stop .outside

namespace Library

def readBuf (a : Arena) (s : Library) (i : ℕ) : Checked Byte := do
  within a.maxLen i 1
  return s.buf i

def writeBuf (a : Arena) (s : Library) (i : ℕ) (x : Byte) : Checked Library := do
  within a.maxLen i 1
  return { s with buf := setByte s.buf i x }

/-- `buf[i] = f(buf[i])`. -/
def changeBuf (a : Arena) (s : Library) (i : ℕ) (f : Byte → Byte) : Checked Library := do
  s.writeBuf a i (f (← s.readBuf a i))

/-- `memmove(buf + d, buf + o, n)`. -/
def moveBuf (a : Arena) (s : Library) (d o n : ℕ) : Checked Library := do
  within a.maxLen o n
  within a.maxLen d n
  return { s with buf := copyBlock s.buf d s.buf o n }

/-- `memset(buf + d, x, n)`. -/
def fillBuf (a : Arena) (s : Library) (d : ℕ) (x : Byte) (n : ℕ) : Checked Library := do
  within a.maxLen d n
  return { s with buf := fillBlock s.buf d x n }

/-- `memcpy(tmp_buf + d, buf + o, n)`. -/
def bufToTmp (a : Arena) (s : Library) (d o n : ℕ) : Checked Library := do
  within a.maxLen o n
  within a.maxLen d n
  return { s with tmpBuf := copyBlock s.tmpBuf d s.buf o n }

/-- `memcpy(buf + d, tmp_buf + o, n)`. -/
def tmpToBuf (a : Arena) (s : Library) (d o n : ℕ) : Checked Library := do
  within a.maxLen o n
  within a.maxLen d n
  return { s with buf := copyBlock s.buf d s.tmpBuf o n }

/-- `memset(tmp_buf + d, x, n)`. -/
def fillTmp (a : Arena) (s : Library) (d : ℕ) (x : Byte) (n : ℕ) : Checked Library := do
  within a.maxLen d n
  return { s with tmpBuf := fillBlock s.tmpBuf d x n }

/-- `memcpy(buf + d, data + o, n)`. -/
def dataToBuf (a : Arena) (s : Library) (data : List Byte) (d o n : ℕ) : Checked Library := do
  within data.length o n
  within a.maxLen d n
  return { s with buf := copyBlock s.buf d (tokenBytes data) o n }

/-- `memcpy(tmp_buf + d, data + o, n)`. -/
def dataToTmp (a : Arena) (s : Library) (data : List Byte) (d o n : ℕ) : Checked Library := do
  within data.length o n
  within a.maxLen d n
  return { s with tmpBuf := copyBlock s.tmpBuf d (tokenBytes data) o n }

/-! ### Numbers in binary -/

def checkedArith8 (a : Arena) (s : Library) (f : Byte → ℕ → Byte) : Checked Library := do
  let item := 1 + (← rand arithMax)
  let pos ← rand s.len
  s.changeBuf a pos fun x => f x item

def checkedArith16 (a : Arena) (s : Library) (f : BitVec 16 → ℕ → BitVec 16) : Checked Library := do
  if s.len < 2 then return s
  else
    let pos ← rand (sub32 s.len 1)
    let item := 1 + (← rand arithMax)
    within a.maxLen pos 2
    return { s with buf := insert16 s.buf pos (f (extract16 s.buf pos) item) }

def checkedArith32 (a : Arena) (s : Library) (f : BitVec 32 → ℕ → BitVec 32) : Checked Library := do
  if s.len < 4 then return s
  else
    let pos ← rand (sub32 s.len 3)
    let item := 1 + (← rand arithMax)
    within a.maxLen pos 4
    return { s with buf := insert32 s.buf pos (f (extract32 s.buf pos) item) }

def checkedInteresting16 (a : Arena) (s : Library) (f : BitVec 16 → BitVec 16) :
    Checked Library := do
  if s.len < 2 then return s
  else
    let item ← rand Mutation.interesting16.length
    let pos ← rand (sub32 s.len 1)
    within a.maxLen pos 2
    return { s with
      buf := insert16 s.buf pos (f (interestingValue 16 Mutation.interesting16 item)) }

def checkedInteresting32 (a : Arena) (s : Library) (f : BitVec 32 → BitVec 32) :
    Checked Library := do
  if s.len < 4 then return s
  else
    let item ← rand Mutation.interesting32.length
    let pos ← rand (sub32 s.len 3)
    within a.maxLen pos 4
    return { s with
      buf := insert32 s.buf pos (f (interestingValue 32 Mutation.interesting32 item)) }

/-! ### Blocks -/

/-- The tail behind an inserted part in `tmp_buf`, and the way back. -/
def checkedTail (a : Arena) (s : Library) (cloneTo cloneLen : ℕ) : Checked Library := do
  let s ← s.bufToTmp a (cloneTo + cloneLen) cloneTo (sub32 s.len cloneTo)
  let s := { s with len := add32 s.len cloneLen }
  s.tmpToBuf a 0 0 s.len

/-- The byte of a constant block at `cloneTo`: it is drawn, or it stands before the block. -/
def constantItem (a : Arena) (s : Library) (cloneTo : ℕ) : Checked Byte := do
  let strat ← rand 2
  let cloneFrom := if cloneTo ≠ 0 then cloneTo - 1 else 0
  if strat ≠ 0 then return BitVec.ofNat 8 (← rand 256) else s.readBuf a cloneFrom

/-- A constant block is inserted. -/
def insertConstant (a : Arena) (s : Library) (cloneLen : ℕ) : Checked Library := do
  let cloneTo ← rand s.len
  let item ← s.constantItem a cloneTo
  let s ← s.bufToTmp a 0 0 cloneTo
  let s ← s.fillTmp a cloneTo item cloneLen
  s.checkedTail a cloneTo cloneLen

/-- "no retry if we have a small input". -/
def retryOrBreak (s : Library) : Checked Library := if s.len < 8 then pure s else stop .retry

def checkedCloneCopy (a : Arena) (s : Library) : Checked Library := do
  if add32 s.len havocBlkXl < a.maxLen then
    let cloneLen ← pickBlockLen a s.len
    let cloneFrom ← rand (add32 (sub32 s.len cloneLen) 1)
    let cloneTo ← rand s.len
    let s ← s.bufToTmp a 0 0 cloneTo
    let s ← s.bufToTmp a cloneTo cloneFrom cloneLen
    s.checkedTail a cloneTo cloneLen
  else s.retryOrBreak

def checkedCloneFixed (a : Arena) (s : Library) : Checked Library := do
  if add32 s.len havocBlkXl < a.maxLen then s.insertConstant a (← pickBlockLen a havocBlkXl)
  else s.retryOrBreak

def checkedOverwriteCopy (a : Arena) (s : Library) : Checked Library := do
  if s.len < 2 then return s
  else
    let copyLen ← pickBlockLen a (sub32 s.len 1)
    let copyFrom ← rand (add32 (sub32 s.len copyLen) 1)
    let copyTo ← rand (add32 (sub32 s.len copyLen) 1)
    if copyFrom ≠ copyTo then s.moveBuf a copyTo copyFrom copyLen else return s

def checkedOverwriteFixed (a : Arena) (s : Library) : Checked Library := do
  if s.len < 2 then return s
  else
    let copyLen ← pickBlockLen a (sub32 s.len 1)
    let copyTo ← rand (add32 (sub32 s.len copyLen) 1)
    s.fillBuf a copyTo (← s.constantItem a copyTo) copyLen

def checkedSwitch (a : Arena) (s : Library) : Checked Library := do
  if s.len < 4 then return s
  else
    let switchFrom ← rand s.len
    let switchTo ← draw (randBelowOther s.len switchFrom)
    let (switchLen, toEnd) :=
      if switchFrom < switchTo then (sub32 switchTo switchFrom, sub32 s.len switchTo)
      else (sub32 switchFrom switchTo, sub32 s.len switchFrom)
    let switchLen ← pickBlockLen a (min switchLen toEnd)
    let s ← s.bufToTmp a 0 switchFrom switchLen
    let s ← s.moveBuf a switchFrom switchTo switchLen
    s.tmpToBuf a switchTo 0 switchLen

/-- `delLen` bytes are deleted. -/
def deleteBlock (a : Arena) (s : Library) (delLen : ℕ) : Checked Library := do
  let delFrom ← rand (add32 (sub32 s.len delLen) 1)
  let s ← s.moveBuf a delFrom (delFrom + delLen) (sub32 (sub32 s.len delFrom) delLen)
  return { s with len := sub32 s.len delLen }

def checkedDel (a : Arena) (s : Library) : Checked Library := do
  if s.len < 2 then return s
  else s.deleteBlock a (← pickBlockLen a (sub32 s.len 1))

def checkedDelone (a : Arena) (s : Library) : Checked Library :=
  if s.len < 2 then return s else s.deleteBlock a 1

/-- The loop of the shuffle, from `i` down. -/
def checkedShuffleLoop (a : Arena) (off : ℕ) : ℕ → Library → Checked Library
  | 0, s => pure s
  | i + 1, s => do
    let j ← draw (randBelowOther (i + 2) (i + 1))
    let temp ← s.readBuf a (add32 off (i + 1))
    let other ← s.readBuf a (add32 off j)
    let s ← s.writeBuf a (add32 off (i + 1)) other
    let s ← s.writeBuf a (add32 off j) temp
    checkedShuffleLoop a off i s

def checkedShuffle (a : Arena) (s : Library) : Checked Library := do
  if s.len < 4 then return s
  else
    let blen ← pickBlockLen a (sub32 s.len 1)
    let off ← rand (add32 (sub32 s.len blen) 1)
    checkedShuffleLoop a off (sub32 blen 1) s

def checkedInsertone (a : Arena) (s : Library) : Checked Library := do
  if s.len < 2 then return s
  else if add32 s.len 1 > a.maxLen then stop .retry
  else s.insertConstant a 1

/-! ### Tokens and the splice buffer -/

/-- `MUT_EXTRA_OVERWRITE`, and the same for the other tokens. -/
def overwriteExtra (a : Arena) (s : Library) (extras : List (List Byte)) : Checked Library := do
  if extras = [] then stop .retry
  else
    let useExtra ← rand extras.length
    match extras[useExtra]? with
    | none => stop .outside
    | some data =>
      if data.length > s.len then stop .retry
      else
        let insertAt ← rand (add32 (sub32 s.len data.length) 1)
        s.dataToBuf a data insertAt 0 data.length

/-- `MUT_EXTRA_INSERT`, and the same for the other tokens. -/
def insertExtra (a : Arena) (s : Library) (extras : List (List Byte)) : Checked Library := do
  if extras = [] then stop .retry
  else
    let useExtra ← rand extras.length
    match extras[useExtra]? with
    | none => stop .outside
    | some data =>
      if add32 s.len data.length > a.maxLen then stop .retry
      else
        let insertAt ← rand (add32 s.len 1)
        let s ← s.moveBuf a (insertAt + data.length) insertAt (sub32 s.len insertAt)
        let s ← s.dataToBuf a data insertAt 0 data.length
        return { s with len := add32 s.len data.length }

def checkedSpliceOverwrite (a : Arena) (s : Library) : Checked Library := do
  match a.spliceBuf with
  | none => stop .retry
  | some data =>
    if data = [] then stop .retry
    else
      let copyLen ← pickBlockLen a (sub32 data.length 1)
      let copyLen := if copyLen > s.len then s.len else copyLen
      let copyFrom ← rand (add32 (sub32 data.length copyLen) 1)
      let copyTo ← rand (add32 (sub32 s.len copyLen) 1)
      s.dataToBuf a data copyTo copyFrom copyLen

def checkedSpliceInsert (a : Arena) (s : Library) : Checked Library := do
  match a.spliceBuf with
  | none => stop .retry
  | some data =>
    if data = [] then stop .retry
    else if add32 s.len havocBlkXl > a.maxLen then stop .retry
    else
      let cloneLen ← pickBlockLen a data.length
      let cloneFrom ← rand (add32 (sub32 data.length cloneLen) 1)
      let cloneTo ← rand (add32 s.len 1)
      let s ← s.bufToTmp a 0 0 cloneTo
      let s ← s.dataToTmp a data cloneTo cloneFrom cloneLen
      s.checkedTail a cloneTo cloneLen

end Library

end AflPlusPlus.Mutation
