import AflPlusPlus.Mutation.Havoc

/-!
# The library mutator

One step of `afl_mutate`. It works in place on the caller's buffer, with `tmp_buf` beside it, and
reaches numbers in the buffer byte by byte through the macros of `types.h`.
-/

namespace AflPlusPlus.Mutation
open Lib

def extract16 (s : Bytes) (o : ℕ) : BitVec 16 :=
  let ret : BitVec 16 := (s (o + 1)).setWidth 16
  (ret <<< 8) ||| (s o).setWidth 16

def extract32 (s : Bytes) (o : ℕ) : BitVec 32 :=
  let ret : BitVec 32 := (s (o + 3)).setWidth 32
  let ret := (ret <<< 8) ||| (s (o + 2)).setWidth 32
  let ret := (ret <<< 8) ||| (s (o + 1)).setWidth 32
  (ret <<< 8) ||| (s o).setWidth 32

def insert16 (d : Bytes) (o : ℕ) (x : BitVec 16) : Bytes :=
  let d := setByte d o ((x &&& 0xff).setWidth 8)
  setByte d (o + 1) (((x >>> 8) &&& 0xff).setWidth 8)

def insert32 (d : Bytes) (o : ℕ) (x : BitVec 32) : Bytes :=
  let d := setByte d o ((x &&& 0xff).setWidth 8)
  let x := x >>> 8
  let d := setByte d (o + 1) ((x &&& 0xff).setWidth 8)
  let x := x >>> 8
  let d := setByte d (o + 2) ((x &&& 0xff).setWidth 8)
  let x := x >>> 8
  setByte d (o + 3) ((x &&& 0xff).setWidth 8)

structure Library where
  buf : Bytes
  tmpBuf : Bytes
  len : ℕ

namespace Library

/-- A number of two bytes in the buffer is replaced. -/
def arith16 (s : Library) (f : BitVec 16 → ℕ → BitVec 16) : Rand (Option Library) := do
  if s.len < 2 then return some s
  let pos ← randBelow (s.len - 1)
  let item := 1 + (← randBelow arithMax)
  return some { s with buf := insert16 s.buf pos (f (extract16 s.buf pos) item) }

def arith32 (s : Library) (f : BitVec 32 → ℕ → BitVec 32) : Rand (Option Library) := do
  if s.len < 4 then return some s
  let pos ← randBelow (s.len - 3)
  let item := 1 + (← randBelow arithMax)
  return some { s with buf := insert32 s.buf pos (f (extract32 s.buf pos) item) }

def interesting16 (s : Library) (f : BitVec 16 → BitVec 16) : Rand (Option Library) := do
  if s.len < 2 then return some s
  let item ← randBelow Mutation.interesting16.length
  let pos ← randBelow (s.len - 1)
  return some { s with
    buf := insert16 s.buf pos (f (interestingValue 16 Mutation.interesting16 item)) }

def interesting32 (s : Library) (f : BitVec 32 → BitVec 32) : Rand (Option Library) := do
  if s.len < 4 then return some s
  let item ← randBelow Mutation.interesting32.length
  let pos ← randBelow (s.len - 3)
  return some { s with
    buf := insert32 s.buf pos (f (interestingValue 32 Mutation.interesting32 item)) }

/-- `tmp_buf` gets the head, the block and the tail, and is copied back. -/
def insertBlock (s : Library) (cloneTo cloneLen : ℕ) (fill : Bytes → Bytes) : Library :=
  let tmpBuf := copyBlock s.tmpBuf 0 s.buf 0 cloneTo
  let tmpBuf := fill tmpBuf
  let tmpBuf := copyBlock tmpBuf (cloneTo + cloneLen) s.buf cloneTo (s.len - cloneTo)
  let len := s.len + cloneLen
  { buf := copyBlock s.buf 0 tmpBuf 0 len, tmpBuf := tmpBuf, len := len }

def delete (s : Library) (delFrom delLen : ℕ) : Library :=
  { s with
    buf := copyBlock s.buf delFrom s.buf (delFrom + delLen) (s.len - delFrom - delLen)
    len := s.len - delLen }

end Library

/-- The operator `op` of `afl_mutate`; `none` is `goto retry_havoc_step`. -/
def mutateOp (afl : Afl) (maxLen : ℕ) (s : Library) : Mut → Rand (Option Library)
  | .flipbit => do
    let bit ← randBelow 8
    let off ← randBelow s.len
    return some { s with buf := setByte s.buf off (s.buf off ^^^ (1 <<< bit)) }
  | .interesting8 => do
    let item ← randBelow interesting8.length
    let pos ← randBelow s.len
    return some { s with buf := setByte s.buf pos (interestingValue 8 interesting8 item) }
  | .interesting16 => s.interesting16 id
  | .interesting16be => s.interesting16 swap16
  | .interesting32 => s.interesting32 id
  | .interesting32be => s.interesting32 swap32
  | .arith8_ => do
    let item := 1 + (← randBelow arithMax)
    let pos ← randBelow s.len
    return some { s with buf := setByte s.buf pos (s.buf pos - BitVec.ofNat 8 item) }
  | .arith8 => do
    let item := 1 + (← randBelow arithMax)
    let pos ← randBelow s.len
    return some { s with buf := setByte s.buf pos (s.buf pos + BitVec.ofNat 8 item) }
  | .arith16_ => s.arith16 fun x item => x - BitVec.ofNat 16 item
  | .arith16be_ => s.arith16 fun x item => swap16 (swap16 x - BitVec.ofNat 16 item)
  | .arith16 => s.arith16 fun x item => x + BitVec.ofNat 16 item
  | .arith16be => s.arith16 fun x item => swap16 (swap16 x + BitVec.ofNat 16 item)
  | .arith32_ => s.arith32 fun x item => x - BitVec.ofNat 32 item
  | .arith32be_ => s.arith32 fun x item => swap32 (swap32 x - BitVec.ofNat 32 item)
  | .arith32 => s.arith32 fun x item => x + BitVec.ofNat 32 item
  -- the sum is inside both swaps
  | .arith32be => s.arith32 fun x item => swap32 (swap32 (x + BitVec.ofNat 32 item))
  | .rand8 => do
    let pos ← randBelow s.len
    let item := 1 + (← randBelow 255)
    return some { s with buf := setByte s.buf pos (s.buf pos ^^^ BitVec.ofNat 8 item) }
  | .cloneCopy => do
    if s.len + havocBlkXl < maxLen then
      let cloneLen ← chooseBlockLen afl s.len
      let cloneFrom ← randBelow (s.len - cloneLen + 1)
      let cloneTo ← randBelow s.len
      return some (s.insertBlock cloneTo cloneLen fun tmpBuf =>
        copyBlock tmpBuf cloneTo s.buf cloneFrom cloneLen)
    else if s.len < 8 then return some s
    else return none
  | .cloneFixed => do
    if s.len + havocBlkXl < maxLen then
      let cloneLen ← chooseBlockLen afl havocBlkXl
      let cloneTo ← randBelow s.len
      let strat ← randBelow 2
      let cloneFrom := if cloneTo ≠ 0 then cloneTo - 1 else 0
      let item ← if strat ≠ 0 then BitVec.ofNat 8 <$> randBelow 256 else pure (s.buf cloneFrom)
      return some (s.insertBlock cloneTo cloneLen fun tmpBuf =>
        fillBlock tmpBuf cloneTo item cloneLen)
    else if s.len < 8 then return some s
    else return none
  | .overwriteFixed => do
    if s.len < 2 then return some s
    let copyLen ← chooseBlockLen afl (s.len - 1)
    let copyTo ← randBelow (s.len - copyLen + 1)
    let strat ← randBelow 2
    let copyFrom := if copyTo ≠ 0 then copyTo - 1 else 0
    let item ← if strat ≠ 0 then BitVec.ofNat 8 <$> randBelow 256 else pure (s.buf copyFrom)
    return some { s with buf := fillBlock s.buf copyTo item copyLen }
  | .byteadd => do
    let pos ← randBelow s.len
    return some { s with buf := setByte s.buf pos (s.buf pos + 1) }
  | .bytesub => do
    let pos ← randBelow s.len
    return some { s with buf := setByte s.buf pos (s.buf pos - 1) }
  | .flip8 => do
    let pos ← randBelow s.len
    return some { s with buf := setByte s.buf pos (s.buf pos ^^^ 0xff) }
  | .switch => do
    if s.len < 4 then return some s
    let switchFrom ← randBelow s.len
    let switchTo ← randBelowOther s.len switchFrom
    let (switchLen, toEnd) :=
      if switchFrom < switchTo then (switchTo - switchFrom, s.len - switchTo)
      else (switchFrom - switchTo, s.len - switchFrom)
    let switchLen ← chooseBlockLen afl (min switchLen toEnd)
    let tmpBuf := copyBlock s.tmpBuf 0 s.buf switchFrom switchLen
    let buf := copyBlock s.buf switchFrom s.buf switchTo switchLen
    let buf := copyBlock buf switchTo tmpBuf 0 switchLen
    return some { s with buf := buf, tmpBuf := tmpBuf }
  | .del => do
    if s.len < 2 then return some s
    let delLen ← chooseBlockLen afl (s.len - 1)
    let delFrom ← randBelow (s.len - delLen + 1)
    return some (s.delete delFrom delLen)
  | .shuffle => do
    if s.len < 4 then return some s
    let blen ← chooseBlockLen afl (s.len - 1)
    let off ← randBelow (s.len - blen + 1)
    let buf ← shuffleLoop off (blen - 1) s.buf
    return some { s with buf := buf }
  | .delone => do
    if s.len < 2 then return some s
    let delLen := 1
    let delFrom ← randBelow (s.len - delLen + 1)
    return some (s.delete delFrom delLen)

def Library.output (s : Library) : List Byte := contents s.buf s.len

/-- One step of `afl_mutate`. -/
def mutateStep (afl : Afl) (maxLen : ℕ) (array : List (Option Mut)) (s : Library) :
    Rand (Option Library) := fun ds => stepLoop (mutateOp afl maxLen) array s (ds.length + 1) ds

end AflPlusPlus.Mutation
