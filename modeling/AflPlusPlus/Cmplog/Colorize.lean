import AflPlusPlus.Lib.Ctype
import AflPlusPlus.Lib.LinkedList
import AflPlusPlus.Lib.Stopping
import AflPlusPlus.Mutation.Values

/-!
# Colorization

`colorization` replaces as much of an input as it can without a change of the path: ranges of
changed bytes are tried from the largest on, and a range that is not accepted is split in two. The
ranges are cells of a doubly linked list, which lives in a heap here as it does there. What an
execution reports is a function of all test cases executed so far. It leaves the buffer alone: no
custom mutator has a `post_process` function that drops a test case or changes it.
-/

namespace AflPlusPlus.Cmplog
open Lib Lib.Stopping Mutation

def cmplogPositionsMax : ℕ := 12 * 1024

def cmplogCorpusPercent : ℕ := 5

/-! ### The state -/

/-- The bytes from `start` to `last`, which is the field `end`. -/
structure Range where
  start : ℕ
  last : ℕ
  ok : ℕ
  deriving DecidableEq

structure Tainted where
  pos : ℕ
  len : ℕ
  deriving DecidableEq

/-- Why there is no result: 1 is returned, the draws end before a new value was drawn, a pointer
is followed that must not be, or the model has run out of rounds. -/
inductive Halt
  | checksumFail
  | noDraws
  | fault
  | fuel
  deriving DecidableEq

/-- What stays the same during a colorization. An execution reports a checksum and a time. -/
structure Colorizer where
  len : ℕ
  randomColorization : Bool
  draws : Draws
  run : List (List Byte) → Option (BitVec 64 × BitVec 64)
  execUs : BitVec 64
  fixedSeed : Bool
  cmplogLvl : ℕ
  activeItems : ℕ

structure Coloring where
  heap : Heap Range
  /-- The address of the next allocation. -/
  fresh : ℕ
  ranges : Option ℕ
  buf : Bytes
  /-- The executed test cases. -/
  runs : List (List Byte)
  stageCur : ℕ
  colorizeSuccess : ℕ

abbrev Color := Stopping Halt Coloring

/-- A step that fails where a pointer is followed that must not be. -/
def orFault (f : Coloring → Option Coloring) : Color Unit := do
  match f (← get) with
  | none => stop .fault
  | some s => set s

/-! ### The list of ranges -/

def addRange (start last : ℕ) : Color Unit := orFault fun s => do
  return { s with
    heap := ← s.heap.push s.fresh ⟨start, last, 0⟩ s.ranges
    fresh := s.fresh + 1
    ranges := some s.fresh }

/-- One step of the search for the biggest range, with the largest size so far. -/
def largerRange (best : ℕ × Option (ℕ × Range)) (x : ℕ × Range) : ℕ × Option (ℕ × Range) :=
  if x.2.ok = 0 then
    let s := 1 + x.2.last - x.2.start
    if s ≥ best.1 then (s, some x) else best
  else best

/-- The last of the ranges of maximal size that are not `ok`. -/
def biggestRange (l : List (ℕ × Range)) : Option (ℕ × Range) := (l.foldl largerRange (0, none)).2

/-- The ranges in the order in which a traversal visits them. -/
def visitRanges : Color (List (ℕ × Range)) := do
  let s ← get
  match s.heap.nodes s.fresh s.ranges with
  | none => stop .fault
  | some l => pure l

def popBiggestRange : Color (Option (ℕ × Range)) := biggestRange <$> visitRanges

def markRange (a ok : ℕ) : Color Unit := orFault fun s => do
  return { s with heap := ← s.heap.setData a fun rng => { rng with ok := ok } }

def removeRange (a : ℕ) : Color Unit := orFault fun s => do
  let (heap, ranges) ← s.heap.unlink s.ranges a
  return { s with heap := heap, ranges := ranges }

/-! ### New values -/

/-- The classes of characters that are drawn from. -/
def typeClasses : List (Byte × Byte) :=
  [(chr 'A', chr 'F'), (chr 'a', chr 'f'), (chr '2', chr '9'), (chr 'G', chr 'Z'),
    (chr 'g', chr 'z'), (chr '!', chr '*'), (chr ',', chr '.'), (chr ':', chr '@'),
    (chr '[', 0x60), (chr '\x7b', chr '~')]

/-- The characters that are exchanged for a fixed other one. -/
def typePartners : List (Byte × Byte) :=
  [(chr '0', chr '1'), (chr '1', chr '0'), (chr '+', chr '/'), (chr '/', chr '+'),
    (chr ' ', chr '\t'), (chr '\t', chr ' '), (chr '\r', chr '\n'), (chr '\n', chr '\r'),
    (0, 1), (1, 0), (0xff, 0)]

def typeOther (c : Byte) : Byte :=
  match typePartners.lookup c with
  | some d => d
  | none => if c < 32 then c ^^^ 0x1f else c ^^^ 0x7f

/-- A new value of the same type. -/
def typeValue (c : Byte) : Mutation.Rand Byte :=
  match typeClasses.find? fun p => p.1 ≤ c && c ≤ p.2 with
  | some (lo, hi) => do
    let x ← randBelowOther (1 + hi.toNat - lo.toNat) (c.toNat - lo.toNat)
    return BitVec.ofNat 8 (lo.toNat + x)
  | none => pure (typeOther c)

def randomValue (c : Byte) : Mutation.Rand Byte := BitVec.ofNat 8 <$> randBelowOther 256 c.toNat

/-- The loop over the buffer. -/
def replaceBytes (value : Byte → Mutation.Rand Byte) : ℕ → Bytes → Mutation.Rand Bytes
  | 0, buf => pure buf
  | n + 1, buf => do
    let buf ← replaceBytes value n buf
    return setByte buf n (← value (buf n))

def randomReplace (buf : Bytes) (len : ℕ) : Mutation.Rand Bytes := replaceBytes randomValue len buf

def typeReplace (buf : Bytes) (len : ℕ) : Mutation.Rand Bytes := replaceBytes typeValue len buf

/-! ### Splitting -/

def getExecChecksum (t : Colorizer) : Color (BitVec 64 × BitVec 64) := do
  modify fun s => { s with runs := s.runs ++ [contents s.buf t.len] }
  match t.run (← get).runs with
  | none => stop .checksumFail
  | some report => pure report

/-- The path is another one, or it takes too long. -/
def Colorizer.rejects (t : Colorizer) (execCksum : BitVec 64) (report : BitVec 64 × BitVec 64) :
    Bool :=
  report.1 ≠ execCksum || (report.2 > 3 * t.execUs && !t.fixedSeed)

/-- One round: the bytes of a range are replaced and executed. -/
def tryRange (t : Colorizer) (execCksum : BitVec 64) (backup changed : Bytes) (a : ℕ)
    (rng : Range) : Color Unit := do
  let s := 1 + rng.last - rng.start
  modify fun c => { c with buf := copyBlock c.buf rng.start changed rng.start s }
  let report ← getExecChecksum t
  if t.rejects execCksum report then
    modify fun c => { c with buf := copyBlock c.buf rng.start backup rng.start s }
    onlyIf (s > 1) do
      -- `start - 1 + s / 2` in 32 bits
      addRange rng.start ((rng.start + (2 ^ 32 - 1) + s / 2) % 2 ^ 32)
      addRange (rng.start + s / 2) rng.last
    removeRange a
  else markRange a 1
  modify fun c => { c with stageCur := c.stageCur + 1 }

def stageMax (t : Colorizer) : ℕ := (t.len <<< 1) % 2 ^ 32

def splitRanges (t : Colorizer) (execCksum : BitVec 64) (backup changed : Bytes) : ℕ → Color Unit
  | 0 => stop .fuel
  | fuel + 1 => do
    match ← popBiggestRange with
    | none => pure ()
    | some (a, rng) => onlyIf ((← get).stageCur < stageMax t) do
      tryRange t execCksum backup changed a rng
      splitRanges t execCksum backup changed fuel

/-! ### Merging -/

/-- What a traversal finds: a range that continues the newest taint, or else the accepted range
with the first position, or nothing. -/
inductive Scan
  | adjacent (a : ℕ) (rng : Range)
  | first (a : ℕ) (rng : Range)
  | done

def endsAt (taint : List Tainted) (pos : ℕ) : Bool :=
  match taint with
  | [] => false
  | t :: _ => t.pos + t.len = pos

def scanRanges (taint : List Tainted) : Option (ℕ × Range) → ℕ → List (ℕ × Range) → Scan
  | none, _, [] => .done
  | some r, _, [] => .first r.1 r.2
  | r, pos, x :: l =>
    if x.2.ok = 1 ∧ x.2.start < pos then
      if endsAt taint x.2.start then .adjacent x.1 x.2
      else scanRanges taint (some x) x.2.start l
    else scanRanges taint r pos l

def lengthen (n : ℕ) : List Tainted → List Tainted
  | [] => []
  | t :: taint => { t with len := t.len + n } :: taint

/-- The taints, the newest first, and the number of their positions. -/
def mergeRanges : ℕ → List Tainted → ℕ → Color (List Tainted × ℕ)
  | 0, _, _ => stop .fuel
  | fuel + 1, taint, positions => do
    match scanRanges taint none (2 ^ 32 - 1) (← visitRanges) with
    | .done => pure (taint, positions)
    | .adjacent a rng =>
      let s := 1 + rng.last - rng.start
      markRange a 2
      mergeRanges fuel (lengthen s taint) (positions + s)
    | .first a rng =>
      let s := 1 + rng.last - rng.start
      markRange a 2
      mergeRanges fuel (⟨rng.start, s⟩ :: taint) (positions + s)

/-! ### The function -/

/-- Too many positions for too few successes. -/
def unsatisfactory (t : Colorizer) (colorizeSuccess positions : ℕ) : Prop :=
  colorizeSuccess ≠ 0 ∧ t.cmplogLvl < 3 ∧ positions > cmplogPositionsMax ∧
    t.len / positions = 1 ∧ t.activeItems / colorizeSuccess > cmplogCorpusPercent

instance (t : Colorizer) (colorizeSuccess positions : ℕ) :
    Decidable (unsatisfactory t colorizeSuccess positions) :=
  inferInstanceAs (Decidable (_ ∧ _ ∧ _ ∧ _ ∧ _))

/-- What is written to `*taints`, if anything; an unsatisfactory result is discarded. -/
def giveTaints (t : Colorizer) (taint : List Tainted) (positions : ℕ) :
    Color (Option (List Tainted)) := do
  if taint = [] then return none
  else if unsatisfactory t (← get).colorizeSuccess positions then return some []
  else
    modify fun s => { s with colorizeSuccess := s.colorizeSuccess + 1 }
    return some taint

def colorization (t : Colorizer) : Color (Option (List Tainted)) := do
  addRange 0 (t.len - 1)
  let (execCksum, _) ← getExecChecksum t
  let buf := (← get).buf
  match (if t.randomColorization then randomReplace buf t.len else typeReplace buf t.len) t.draws
    with
  | none => stop .noDraws
  | some (changed, _) =>
    splitRanges t execCksum buf changed (stageMax t + 1)
    let (taint, positions) ← mergeRanges ((← get).fresh + 1) [] 0
    giveTaints t taint positions

/-- The state in which the function is called. -/
def Coloring.start (buf : Bytes) (colorizeSuccess : ℕ) : Coloring where
  heap _ := none
  fresh := 0
  ranges := none
  buf := buf
  runs := []
  stageCur := 0
  colorizeSuccess := colorizeSuccess

end AflPlusPlus.Cmplog
