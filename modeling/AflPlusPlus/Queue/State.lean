import AflPlusPlus.Lib.Loop
import AflPlusPlus.Lib.Memory
import Mathlib.Algebra.Order.Ring.Rat

/-!
# The fuzzer state behind queue scheduling

The fields of `struct queue_entry` and `afl_state_t` that the scoring, culling, calibration and
dry-run code reads or writes. A pointer to a queue entry is its position in `queue_buf`; `NULL` is
`none`. Arrays are functions on indices, and fixed-width counters are bit vectors so that `++` and
`--` wrap as they do in the source.
-/

namespace AflPlusPlus
open Lib

abbrev U8 := BitVec 8
abbrev U32 := BitVec 32
abbrev U64 := BitVec 64

/-- `rand_below`, with the random number `r` that its loop accepts. -/
def randBelow (r limit : ℕ) : ℕ := if limit ≤ 1 then 0 else r % limit

theorem randBelow_lt (r : ℕ) {limit : ℕ} (h : 0 < limit) : randBelow r limit < limit := by
  rw [randBelow]
  split
  · exact h
  · exact Nat.mod_lt r h

theorem randBelow_of_lt {r limit : ℕ} (h : r < limit) : randBelow r limit = r := by
  rw [randBelow]
  split
  · omega
  · exact Nat.mod_eq_of_lt h

/-- `fsrv.map_size` and `fsrv.real_map_size`: the target's own map size, and that `u32` after the
forkserver code has rounded it up to a multiple of 64. -/
structure MapSize where
  val : ℕ
  real : ℕ
  lt : val < 2 ^ 32
  aligned : 64 ∣ val
  real_le : real ≤ val

/-- The smallest map, one block of 64 bytes. -/
def MapSize.block : MapSize := ⟨64, 64, by decide, by decide, by decide⟩

/-- The trace that hits the listed indices once each. -/
def hits (is : List ℕ) : Bytes := fun i => if i ∈ is then 1 else 0

/-- The results of one execution of the target, `FSRV_RUN_OK` and so on. -/
inductive Fault
  | ok
  | tmout
  | crash
  | error
  | noinst
  | nobits
  deriving DecidableEq, Repr

/-- The power schedules, in the order of the source's enumeration. -/
inductive Schedule
  | explore
  | mmopt
  | exploit
  | fast
  | coe
  | lin
  | quad
  | rare
  | seek
  deriving DecidableEq, Repr

def Schedule.toNat : Schedule → ℕ
  | .explore => 0
  | .mmopt => 1
  | .exploit => 2
  | .fast => 3
  | .coe => 4
  | .lin => 5
  | .quad => 6
  | .rare => 7
  | .seek => 8

/-- The members of `struct queue_entry` from `colorized` up to, but without, `mother`. This is the
range that `fastresume.bin` stores as raw bytes. The doubles are read as exact rationals. -/
structure QueueMeta where
  colorized : U8 := 0
  calFailed : U8 := 0
  trimDone : Bool := false
  wasFuzzed : Bool := false
  passedDet : Bool := false
  hasNewCov : Bool := false
  varBehavior : Bool := false
  favored : Bool := false
  fsRedundant : Bool := false
  isAscii : Bool := false
  disabled : Bool := false
  bitmapSize : U32 := 0
  fuzzLevel : U32 := 0
  nFuzzEntry : U32 := 0
  execUs : U64 := 0
  handicap : U64 := 0
  depth : U64 := 0
  execCksum : U64 := 0
  custom : U64 := 0
  statsMutated : U64 := 0
  tcRef : U32 := 0
  perfScore : ℚ := 0
  weight : ℚ := 0

structure QueueEntry extends QueueMeta where
  len : U32 := 0
  id : ℕ := 0
  mother : Option ℕ := none
  traceMini : Option Bytes := none

structure AflState where
  schedule : Schedule := .explore
  fixedSeed : Bool := false
  nonInstrumentedMode : Bool := false
  /-- `FSRV_RUN_CRASH` in crash exploration mode, zero otherwise. -/
  crashMode : Fault := .ok
  /-- `shm.cmplog_mode`. -/
  cmplogMode : Bool := false
  inPlaceResume : Bool := false
  timeoutGiven : Bool := false
  aflDisableRedundant : Bool := false
  aflCalFast : Bool := false
  aflExitOnSeedIssues : Bool := false
  aflIgnoreSeedProblems : Bool := false
  aflCrashingSeedsAsNewCrash : Bool := false
  aflCmplogOnlyNew : Bool := false
  aflSha1Filenames : Bool := false
  /-- The compile option `SIMPLE_FILES`. -/
  simpleFiles : Bool := false
  mapSize : MapSize
  traceBits : Bytes := fun _ => 0
  mapTmpBuf : Bytes := fun _ => 0
  firstTrace : Bytes := fun _ => 0
  virginBits : Bytes := fun _ => 0xff
  virginTmout : Bytes := fun _ => 0xff
  virginCrash : Bytes := fun _ => 0xff
  varBytes : Bytes := fun _ => 0
  nFuzz : ℕ → U32 := fun _ => 0
  queueBuf : ℕ → QueueEntry := fun _ => {}
  queuedItems : ℕ := 0
  queueCur : Option ℕ := none
  topRated : ℕ → Option ℕ := fun _ => none
  /-- The ids listed after the count, or the empty list for a null pointer. -/
  topRatedCandidates : ℕ → List ℕ := fun _ => []
  lastScoredIdx : ℤ := -1
  scoreChanged : Bool := false
  bitmapChanged : Bool := false
  reinitTable : Bool := false
  queuedFavored : U32 := 0
  pendingFavored : U32 := 0
  smallestFavored : ℤ := -1
  activeItems : U32 := 0
  pendingNotFuzzed : U32 := 0
  queuedVariable : U32 := 0
  queuedWithCov : U32 := 0
  uselessAtStart : U32 := 0
  totalBitmapSize : U64 := 0
  totalBitmapEntries : U64 := 0
  totalCrashes : U64 := 0
  savedCrashes : U64 := 0
  readyForSplicingCount : U32 := 0
  curDepth : U32 := 0
  maxDepth : U32 := 0
  /-- Ghost: some `--tc_ref` was applied to zero. -/
  tcUnderflow : Bool := false

/-- The state right after start-up: no entries, no slot owned. -/
def AflState.init (mapSize : MapSize) : AflState := { mapSize := mapSize }

/-- Write through a queue entry pointer. -/
def AflState.modify (s : AflState) (q : ℕ) (f : QueueEntry → QueueEntry) : AflState :=
  { s with queueBuf := Function.update s.queueBuf q (f (s.queueBuf q)) }

@[simp]
theorem AflState.modify_queueBuf_self (s : AflState) (q : ℕ) (f : QueueEntry → QueueEntry) :
    (s.modify q f).queueBuf q = f (s.queueBuf q) := by
  simp [AflState.modify]

theorem AflState.modify_queueBuf_ne (s : AflState) {q p : ℕ} (f : QueueEntry → QueueEntry)
    (h : p ≠ q) : (s.modify q f).queueBuf p = s.queueBuf p := by
  simp [AflState.modify, Function.update_of_ne h]

/-- A write depends on its function only at the entry written. -/
theorem AflState.modify_congr (s : AflState) (q : ℕ) {f g : QueueEntry → QueueEntry}
    (h : f (s.queueBuf q) = g (s.queueBuf q)) : s.modify q f = s.modify q g := by
  rw [AflState.modify, h]
  rfl

theorem AflState.modify_eq_self (s : AflState) (q : ℕ) {f : QueueEntry → QueueEntry}
    (h : f (s.queueBuf q) = s.queueBuf q) : s.modify q f = s := by
  rw [AflState.modify, h, Function.update_eq_self]

/-- Reading a component of an entry after a write that leaves that component alone. -/
theorem AflState.modify_queueBuf_frame {β : Type*} (s : AflState) (q p : ℕ)
    (f : QueueEntry → QueueEntry) (g : QueueEntry → β) (h : ∀ e, g (f e) = g e) :
    g ((s.modify q f).queueBuf p) = g (s.queueBuf p) := by
  by_cases hp : p = q
  · subst hp
    rw [modify_queueBuf_self, h]
  · rw [modify_queueBuf_ne s f hp]

/-- `add_to_queue`, without the file name, the time stamps and the custom mutator hook. In the
cmplog mode it also sets `is_ascii` to the result of `check_if_text`, which no run of this model
reads. -/
def addToQueue (s : AflState) (len : U32) (passedDet : Bool) : AflState :=
  let depth : U64 := (s.curDepth + 1).setWidth 64
  let q : QueueEntry :=
    { len := len, id := s.queuedItems, depth := depth, passedDet := passedDet
      mother := s.queueCur, weight := 1, perfScore := 100 }
  { s with
    queueBuf := Function.update s.queueBuf s.queuedItems q
    maxDepth := if depth > s.maxDepth.setWidth 64 then depth.setWidth 32 else s.maxDepth
    readyForSplicingCount :=
      if len > 4 then s.readyForSplicingCount + 1 else s.readyForSplicingCount
    queuedItems := s.queuedItems + 1
    activeItems := s.activeItems + 1
    pendingNotFuzzed := s.pendingNotFuzzed + 1 }

end AflPlusPlus
