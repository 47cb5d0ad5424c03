import AflPlusPlus.Lib.Ctype
import AflPlusPlus.Lib.NameOrder
import AflPlusPlus.Lib.Stopping
import AflPlusPlus.Mutation.Values

/-!
# Solving a comparison

`cmp_extend_encoding` and `cmp_extend_encodingN` patch the colorized buffer at one position, execute
it and put back what was there. What the executions do is a function of the test cases executed so
far; arithmetic on floating-point numbers is a parameter, since nothing here depends on it. Reads
and writes go through pointers into the buffer: a read behind its end sees what is there, a write
behind its end is a fault. The position lies in the buffer, and an operand has at most 16 bytes.
-/

namespace AflPlusPlus.Cmplog
open Lib Lib.Stopping Mutation

/-! ### Attributes and levels -/

def isEqual : BitVec 8 := 1

def isGreater : BitVec 8 := 2

def isLesser : BitVec 8 := 4

def isFp : BitVec 8 := 8

def isFpMod : BitVec 8 := 16

def isIntMod : BitVec 8 := 32

def isTransform : BitVec 8 := 64

def lvl1 : BitVec 8 := 1

def lvl3 : BitVec 8 := 4

/-! ### The state -/

/-- What `common_fuzz_stuff` does: it asks to stop, or the target was run. -/
inductive Outcome
  | stop
  | newFind
  | nothing

/-- Why a call does not return 0: it returns 1, it has written outside of the buffer, or the model
has run out of recursion depth. -/
inductive Stop
  | stopped
  | fault
  | fuel
  deriving DecidableEq

/-- `x + 1.0` and `x - 1.0` in both precisions, and the conversion to single precision. -/
structure Floats where
  inc32 : BitVec 32 → BitVec 32
  dec32 : BitVec 32 → BitVec 32
  inc64 : BitVec 64 → BitVec 64
  dec64 : BitVec 64 → BitVec 64
  toSingle : BitVec 64 → BitVec 32

/-- What stays the same during the solving. -/
structure Target where
  len : ℕ
  origBuf : Bytes
  enableTransform : Bool
  enableScale : Bool
  enableArith : Bool
  outcome : List (List Byte) → Outcome
  floats : Floats

structure Solver where
  buf : Bytes
  cbuf : Bytes
  /-- The allocation `out_scratch_buf` with what was last left in it. -/
  scratch : Bytes
  /-- The executed test cases. -/
  runs : List (List Byte)
  status : ℕ
  hshape : ℕ
  /-- `errno` is `ERANGE`. -/
  errno : Bool

abbrev Solve := Stopping Stop Solver

/-- The parameters that a recursive call may change; operands have `w` bits. -/
structure CmpArgs (w : ℕ) where
  pattern : BitVec w
  repl : BitVec w
  oPattern : BitVec w
  changedVal : BitVec w
  attr : BitVec 8
  idx : ℕ
  taintLen : ℕ
  doReverse : Bool
  lvl : BitVec 8

/-! ### One test case -/

def itsFuzz (t : Target) (data : List Byte) : Solve Unit := do
  modify fun s => { s with runs := s.runs ++ [data] }
  match t.outcome (← get).runs with
  | .stop => stop .stopped
  | .newFind => modify fun s => { s with status := 1 }
  | .nothing => modify fun s => { s with status := 2 }

/-- `memcpy(buf + a, src, n)`. -/
def writeBuf (t : Target) (a n : ℕ) (src : Bytes) : Solve Unit :=
  if n = 0 ∨ a + n ≤ t.len then modify fun s => { s with buf := copyBlock s.buf a src 0 n }
  else stop .fault

/-- Execute the patched buffer, and keep the patch in `cbuf` if it was a find. -/
def runPatched (t : Target) (idx n : ℕ) (src : Bytes) : Solve Unit := do
  itsFuzz t (contents (← get).buf t.len)
  onlyIf ((← get).status = 1) do
    modify fun s => { s with cbuf := copyBlock s.cbuf idx src 0 n }

/-- Patch `n` bytes at `idx`, execute, and put back what was there. -/
def tryBytes (t : Target) (idx n : ℕ) (src : Bytes) : Solve Unit := do
  let saved := (← get).buf
  writeBuf t idx n src
  runPatched t idx n src
  writeBuf t idx n fun i => saved (idx + i)

/-! ### Numbers in the input -/

/-- The decimal text of a number, as `%lld` and `%llu` print it. -/
def decimalText (n : ℤ) : List Byte :=
  let digits := (decimal 1 n.natAbs).map (BitVec.ofNat 8)
  if n < 0 then chr '-' :: digits else digits

/-- `strntoll` with base 0: the number and the distance of `endptr` from the start of the text, or
nothing when 1 is returned; and `errno`. -/
def strntoll (errno : Bool) (text : List Byte) : Option (ℤ × ℕ) × Bool :=
  let beg := text.dropWhile (· = chr ' ')
  if beg = [] then (none, errno)
  else
    let scanned := scanInt none (cString (beg.take 63))
    let (ret, range) := scanned.signed 64
    let errno := errno || range
    if (ret = -2 ^ 63 ∨ ret = 2 ^ 63 - 1) ∧ errno then (none, errno)
    else (some (ret, text.length - beg.length + scanned.length), errno)

def strntoull (errno : Bool) (text : List Byte) : Option (ℕ × ℕ) × Bool :=
  let beg := text.dropWhile (· = chr ' ')
  if beg = [] then (none, errno)
  else
    let scanned := scanInt none (cString (beg.take 63))
    let (ret, range) := scanned.unsigned 64
    let errno := errno || range
    if ret = 2 ^ 64 - 1 ∧ errno then (none, errno)
    else (some (ret, text.length - beg.length + scanned.length), errno)

/-- The number text at the position and the text to put in its place, if the step fires; and
`errno`. -/
def numberStep (a : CmpArgs 64) (errno : Bool) (text : List Byte) :
    Option (ℕ × List Byte) × Bool :=
  match strntoll errno text with
  | (some (num, oldLen), errno) =>
    if BitVec.ofInt 64 num = a.pattern ∨ num = 0 then
      (some (oldLen, decimalText a.repl.toInt), errno)
    else (none, errno)
  | (none, errno) => match strntoull errno text with
    | (some (unum, oldLen), errno) =>
      if BitVec.ofNat 64 unum = a.pattern ∨ unum = 0 then
        (some (oldLen, decimalText a.repl.toNat), errno)
      else (none, errno)
    | (none, errno) => (none, errno)

/-- The buffer in the scratch allocation with the new number text. -/
def renumbered (len idx oldLen : ℕ) (new : List Byte) (buf scratch : Bytes) : Bytes :=
  let numLen := new.length
  let newBuf := copyBlock scratch 0 buf 0 idx
  let newBuf := copyBlock newBuf idx (fun i => new.getD i 0) 0 numLen
  let newBuf := copyBlock newBuf (idx + numLen) buf (idx + oldLen) (len - idx - oldLen)
  if isdigit (newBuf (idx + numLen)) then setByte newBuf (idx + numLen) (chr ' ') else newBuf

def placeNumber (t : Target) (idx : ℕ) : Option (ℕ × List Byte) → Solve Unit
  | none => pure ()
  | some (oldLen, new) => do
    modify fun s => { s with scratch := renumbered t.len idx oldLen new s.buf s.scratch }
    itsFuzz t (contents (← get).scratch t.len)

def solveNumber (t : Target) (a : CmpArgs 64) : Solve Unit := do
  let s ← get
  let step := numberStep a s.errno ((contents s.buf t.len).drop a.idx)
  modify fun s => { s with errno := step.2 }
  placeNumber t a.idx step.1

/-! ### Transformations -/

/-- The width of the integers that are looked at, from the number of bytes. -/
def magicWidth (bytes : ℕ) : ℕ :=
  if bytes ≤ 1 then 8 else if bytes ≤ 3 then 16 else if bytes ≤ 7 then 32 else 64

def lowerBits : BitVec 64 := 0x2020202020202020

def upperBits : BitVec 64 := 0x5f5f5f5f5f5f5f5f

def solveTransform (self : CmpArgs 64 → Solve Unit) (t : Target) (a : CmpArgs 64) (bytes : ℕ) :
    Solve Unit := do
  let s ← get
  let w := magicWidth bytes
  let bVal : BitVec 64 := (load w s.buf a.idx).setWidth 64
  let oBVal : BitVec 64 := (load w t.origBuf a.idx).setWidth 64
  let mask : BitVec 64 := (BitVec.allOnes w).setWidth 64
  let again := fun newRepl => self
    { a with repl := newRepl, changedVal := a.repl, attr := isTransform, doReverse := true }
  onlyIf (a.pattern - bVal = a.oPattern - oBVal ∧ a.pattern - bVal ≠ 0) do
    again (a.repl - (a.pattern - bVal))
  onlyIf ((← get).status ≠ 1) do
    onlyIf (a.pattern ^^^ bVal = a.oPattern ^^^ oBVal ∧ a.pattern ^^^ bVal ≠ 0) do
      again (a.repl ^^^ (a.pattern ^^^ bVal))
  onlyIf ((← get).status ≠ 1) do
    onlyIf (oBVal ||| (lowerBits &&& mask) = a.oPattern &&& mask ∧
        bVal ||| (lowerBits &&& mask) = a.pattern &&& mask) do
      again (a.repl &&& (upperBits &&& mask))
  onlyIf ((← get).status ≠ 1) do
    onlyIf (oBVal &&& (upperBits &&& mask) = a.oPattern &&& mask ∧
        bVal &&& (upperBits &&& mask) = a.pattern &&& mask) do
      again (a.repl ||| (lowerBits &&& mask))
  modify fun s => { s with status := 0 }

/-! ### Direct tests -/

def swap64 (x : BitVec 64) : BitVec 64 :=
  let x := ((x &&& 0x00000000FFFFFFFF) <<< 32) ||| ((x &&& 0xFFFFFFFF00000000) >>> 32)
  let x := ((x &&& 0x0000FFFF0000FFFF) <<< 16) ||| ((x &&& 0xFFFF0000FFFF0000) >>> 16)
  ((x &&& 0x00FF00FF00FF00FF) <<< 8) ||| ((x &&& 0xFF00FF00FF00FF00) >>> 8)

/-- All operands go through a byte swap. -/
def CmpArgs.swapped {w : ℕ} (swap : BitVec w → BitVec w) (a : CmpArgs w) : CmpArgs w :=
  { a with
    pattern := swap a.pattern
    repl := swap a.repl
    oPattern := swap a.oPattern
    changedVal := swap a.changedVal
    doReverse := false }

/-- The test of the low `w` bits, and of the operands in the other byte order. -/
def solveWidth (self : CmpArgs 64 → Solve Unit) (t : Target) (a : CmpArgs 64) (itsLen w : ℕ)
    (swap : BitVec 64 → BitVec 64) : Solve Unit := do
  let s ← get
  onlyIf (s.hshape ≥ w / 8 ∧ s.status ≠ 1) do
    onlyIf (itsLen ≥ w / 8 ∧ ((load w s.buf a.idx = a.pattern.setWidth w ∧
        load w t.origBuf a.idx = a.oPattern.setWidth w) ∨ a.attr ≥ isFpMod)) do
      tryBytes t a.idx (w / 8) (wordByte a.repl)
    onlyIf (a.doReverse ∧ (← get).status ≠ 1) do
      self (a.swapped swap)

/-! ### The scale encoding -/

/-- The loop that counts the bytes of a number; a number has at most sixteen. -/
def countBytes : ℕ → BitVec 128 → ℕ
  | 0, _ => 0
  | fuel + 1, v => if v = 0 then 0 else countBytes fuel (v >>> 8) + 1

/-- The encoding of a number with a length prefix. -/
def scaleBig (repl : BitVec 128) : ℕ × BitVec 128 :=
  let scaleLen := countBytes 16 repl
  let scaleLen := if scaleLen ≥ 4 then scaleLen - 4 else 0
  (scaleLen + 5, (repl <<< 8) + (BitVec.ofNat 128 (scaleLen <<< 2) + 3))

/-- `ilen` and the number of which `ilen` bytes are placed. -/
def scaleCode (repl changedVal : BitVec 64) : ℕ × BitVec 128 :=
  let newVal := repl <<< 2
  if changedVal ≤ 255 then (1, newVal.setWidth 128)
  else if newVal ≤ 65535 then (2, (newVal + 1).setWidth 128)
  else if newVal ≤ 4294967295 then (4, (newVal + 2).setWidth 128)
  else scaleBig (repl.setWidth 128)

def solveScale (t : Target) (a : CmpArgs 64) (itsLen : ℕ) : Solve Unit :=
  onlyIf (a.attr < isFp ∧ (t.enableScale ∨ a.lvl ≥ lvl3) ∧ a.repl = a.changedVal) do
    let (ilen, newVal) := scaleCode a.repl a.changedVal
    onlyIf (ilen ≤ itsLen ∧ ilen > 1) do
      tryBytes t a.idx ilen (wordByte newVal)

/-! ### Neighbours of the operands -/

/-- The replacement that is one larger or smaller as a floating-point number. -/
def floatNeighbour (f : Floats) (greater : Bool) (hshape itsLen : ℕ) (repl : BitVec 64) :
    Option (BitVec 64) :=
  if greater then
    if hshape = 4 ∧ itsLen ≥ 4 then some ((f.inc32 (repl.setWidth 32)).setWidth 64)
    else if hshape = 8 ∧ itsLen ≥ 8 then some (f.inc64 repl)
    else none
  else
    if hshape = 4 then some ((f.dec32 (repl.setWidth 32)).setWidth 64)
    else if hshape = 8 then some (f.dec64 repl)
    else none

def solveFloat (self : CmpArgs 64 → Solve Unit) (t : Target) (a : CmpArgs 64) (attr : BitVec 8)
    (itsLen : ℕ) : Solve Unit := do
  let again := fun newRepl => self
    { a with repl := newRepl, changedVal := newRepl, attr := isFpMod, doReverse := true }
  match floatNeighbour t.floats (attr &&& isGreater ≠ 0) (← get).hshape itsLen a.repl with
  | none => pure ()
  | some replNew =>
    again replNew
    onlyIf ((← get).hshape = 8 ∧ itsLen ≥ 4) do
      modify fun s => { s with hshape := 4 }
      restoring (fun s => { s with hshape := 8 })
        (again ((t.floats.toSingle a.repl).setWidth 64))

/-- `>=` becomes `<` and `<=` becomes `>`. -/
def strictAttr (attr : BitVec 8) : BitVec 8 :=
  if attr &&& isEqual ≠ 0 ∧ attr &&& (isGreater ||| isLesser) ≠ 0 then
    if attr &&& 2 ≠ 0 then attr + 2 else attr - 2
  else attr

def solveArith (self : CmpArgs 64 → Solve Unit) (t : Target) (a : CmpArgs 64) (itsLen : ℕ) :
    Solve Unit := do
  let s ← get
  if ¬ t.enableArith ∨ a.lvl < lvl3 ∨ a.attr = isTransform then pure ()
  else if a.attr &&& (isGreater ||| isLesser) = 0 ∨ s.hshape < 4 then pure ()
  else
    let attr := strictAttr a.attr
    if attr ≥ isFp ∧ attr < isFpMod then solveFloat self t a attr itsLen
    else onlyIf (attr < isFp) do
      let replNew := if attr &&& isGreater ≠ 0 then a.repl + 1 else a.repl - 1
      self { a with repl := replNew, changedVal := replNew, attr := isIntMod, doReverse := true }

/-! ### The two functions -/

/-- The number of bytes of an operand, from its shape. -/
def shapeBytes (hshape : ℕ) : ℕ :=
  if hshape ≤ 1 then 1 else if hshape = 2 then 2 else if hshape ≤ 4 then 4 else 8

/-- One call, with `self` for the calls of the function to itself. -/
def solveBody (self : CmpArgs 64 → Solve Unit) (t : Target) (a : CmpArgs 64) : Solve Unit := do
  let bytes := min (shapeBytes (← get).hshape) (t.len - a.idx)
  let itsLen := min (t.len - a.idx) a.taintLen
  if bytes ≤ 1 then pure ()
  else
    onlyIf (t.enableTransform ∧ a.lvl &&& lvl3 ≠ 0) do
      solveNumber t a
      onlyIf (a.pattern ≠ a.oPattern ∧ a.repl = a.changedVal ∧ a.attr ≤ isEqual) do
        solveTransform self t a bytes
    -- equal patterns are only looked at for numbers
    onlyIf (a.pattern ≠ a.oPattern) do
      onlyIf (a.lvl &&& lvl1 ≠ 0 ∨ a.attr ≥ isFpMod) do
        solveWidth self t a itsLen 64 swap64
        solveWidth self t a itsLen 32 fun x => (swap32 (x.setWidth 32)).setWidth 64
        solveWidth self t a itsLen 16 fun x => (swap16 (x.setWidth 16)).setWidth 64
      solveScale t a itsLen
      solveArith self t a itsLen

def cmpExtendEncoding (t : Target) : ℕ → CmpArgs 64 → Solve Unit
  | 0, _ => stop .fuel
  | fuel + 1, a => solveBody (cmpExtendEncoding t fuel) t a

/-- `SWAPN(x, l)`. The shift count is a `u32`; a count of 128 and more, which the language leaves
open, is taken modulo 128 as the machines do that the fuzzer runs on. -/
def swapN (x : BitVec 128) (l : ℕ) : BitVec 128 :=
  let ret := gather 128 (fun i => wordByte x (15 - i)) 0 16
  let sr := 128#32 - (BitVec.ofNat 32 l <<< 3)
  ret >>> (sr.toNat % 128)

/-- The test of the bytes at the position. -/
def attemptN (t : Target) (a : CmpArgs 128) (hshape : ℕ) : Solve Unit := do
  let s ← get
  onlyIf ((∀ i, i < hshape → s.buf (a.idx + i) = wordByte a.pattern i) ∧
      ∀ i, i < hshape → t.origBuf (a.idx + i) = wordByte a.oPattern i) do
    tryBytes t a.idx hshape (wordByte a.repl)

/-- `ilen` and the number of which `ilen` bytes are placed, if the value is small enough. -/
def scaleCodeN (repl : BitVec 128) : Option (ℕ × BitVec 128) :=
  let newVal := repl <<< 2
  if newVal ≤ 255 then some (1, newVal)
  else if newVal ≤ 65535 then some (2, newVal + 1)
  else if newVal ≤ 4294967295 then some (4, newVal + 2)
  else if repl < (1 : BitVec 128) <<< 120 then some (scaleBig repl)
  else none

def solveScaleN (t : Target) (a : CmpArgs 128) (itsLen : ℕ) : Solve Unit :=
  onlyIf (a.attr < isFp ∧ a.attr < 32 ∧ (t.enableScale ∨ a.lvl ≥ lvl3)) do
    match scaleCodeN a.repl with
    | none => pure ()
    | some (ilen, newVal) => onlyIf (ilen ≤ itsLen) do
      tryBytes t a.idx ilen (wordByte newVal)

def solveBodyN (self : CmpArgs 128 → Solve Unit) (t : Target) (a : CmpArgs 128) : Solve Unit := do
  let hshape := (← get).hshape
  let itsLen := min (t.len - a.idx) a.taintLen
  onlyIf (itsLen ≥ hshape) do
    attemptN t a hshape
    onlyIf (a.doReverse ∧ (← get).status ≠ 1) do
      -- the length argument of `SWAPN` is given in bits here
      self (a.swapped fun x => swapN x (hshape <<< 3))
    solveScaleN t a itsLen

def cmpExtendEncodingN (t : Target) : ℕ → CmpArgs 128 → Solve Unit
  | 0, _ => stop .fuel
  | fuel + 1, a => solveBodyN (cmpExtendEncodingN t fuel) t a

/-! ### Solving without finds -/

/-- A target that finds nothing, with all encodings enabled. -/
def quietTarget (len : ℕ) (origBuf : Bytes) : Target where
  len := len
  origBuf := origBuf
  enableTransform := true
  enableScale := true
  enableArith := true
  outcome _ := .nothing
  floats := ⟨id, id, id, id, BitVec.setWidth 32⟩

/-- The solver before its first test case. -/
def Solver.fresh (buf : Bytes) (hshape : ℕ) : Solver where
  buf := buf
  cbuf := buf
  scratch _ := 0
  runs := []
  status := 0
  hshape := hshape
  errno := false

/-- A comparison for equality at the start of the buffer. -/
def CmpArgs.equality {w : ℕ} (pattern repl oPattern : BitVec w) (taintLen : ℕ) : CmpArgs w where
  pattern := pattern
  repl := repl
  oPattern := oPattern
  changedVal := repl
  attr := isEqual
  idx := 0
  taintLen := taintLen
  doReverse := true
  lvl := lvl3

end AflPlusPlus.Cmplog
