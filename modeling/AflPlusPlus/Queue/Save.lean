import AflPlusPlus.Lib.Reach
import AflPlusPlus.Queue.Counters

/-!
# Saving an execution

`save_if_interesting` looks at the result of one execution. An execution that ends as expected goes
to the queue when its trace has new bits, timeouts and crashes are kept when they are new of their
kind, and with extra sanitizer binaries the input may be run once more under each of them. The
labels `save_to_queue`, `may_save_fault` and `keep_as_crash` are the points of the model, since one
`goto` leads backwards. File names, files and time stamps are left out.
-/

namespace AflPlusPlus
open Lib Coverage

def keepUniqueHang : U64 := 512
def keepUniqueCrash : U64 := 25600

/-- `SAN_CRASH_ONLY`. -/
def sanCrashOnly : U32 := 16

/-- `NON_COV_INCREASE_BUG`. -/
def nonCovIncreaseBug : U32 := 32

inductive SanitizerAbstraction
  | simplifyTrace
  | uniqueTrace
  | coverageIncrease
  deriving DecidableEq, Repr

structure SaveState extends AflState where
  aflIgnoreTimeouts : Bool := false
  aflKeepTimeouts : Bool := false
  fuzzMode : Bool := false
  switchFuzzMode : Bool := false
  execTmout : U32 := 1000
  hangTmout : U32 := 1000
  totalTmouts : U64 := 0
  savedTmouts : U64 := 0
  savedHangs : U64 := 0
  sanBinaryLength : ℕ := 0
  sanAbstraction : SanitizerAbstraction := .simplifyTrace
  sanCaseStatus : U32 := 0
  /-- `san_fsrvs[0].trace_bits`, a buffer that no execution writes to. -/
  sanTraceBits : Bytes := fun _ => 0
  nFuzzDup : Bytes := fun _ => 0
  simplifiedNFuzz : Bytes := fun _ => 0

/-- One more execution of the target: the length written by `write_to_testcase`, the result, the
raw trace and `stop_soon` afterwards. -/
structure Rerun where
  len : U32
  fault : Fault
  trace : Bytes
  stopSoon : Bool := false

/-- The arguments of `save_if_interesting` and what the outside world contributes to the call. The
trace of the execution is in the state. -/
structure SaveInput where
  hash64 : Bytes → U64
  len : U32
  fault : Fault
  /-- Length and result for each of the extra sanitizer binaries. -/
  sanRun : ℕ → U32 × Fault := fun _ => (1, .ok)
  /-- The executions with the hang timeout. -/
  rerun : ℕ → Rerun := fun _ => ⟨1, .tmout, fun _ => 0, false⟩
  /-- The calibrations of new queue entries. -/
  cal : ℕ → CalInput := fun _ => { run := fun _ => (.ok, fun _ => 0) }

/-- `hash32`, the lower half of the same checksum. -/
def SaveInput.hash32 (inp : SaveInput) (m : Bytes) : U32 := (inp.hash64 m).setWidth 32

def bitmapRead (map : Bytes) (index : U32) : Bool :=
  (map (index.toNat / 8) >>> (index.toNat % 8)) &&& 1 ≠ 0

def bitmapSet (map : Bytes) (index : U32) : Bytes :=
  Function.update map (index.toNat / 8) (map (index.toNat / 8) ||| 1#8 <<< (index.toNat % 8))

/-- `schedule >= FAST && schedule <= RARE`: the schedules that count paths. -/
def Schedule.countsPaths (sched : Schedule) : Bool :=
  sched.toNat ≥ Schedule.fast.toNat && sched.toNat ≤ Schedule.rare.toNat

/-- The saturated increment of the counter of a path. -/
def countPath (cksum : U64) (s : AflState) : AflState :=
  let i := cksum.toNat % nFuzzSize
  if s.nFuzz i < 0xffffffff then
    { s with nFuzz := Function.update s.nFuzz i (s.nFuzz i + 1) }
  else s

/-- The maps that `has_new_bits(afl, afl->virgin_bits)` works on. -/
def AflState.virginMaps (s : AflState) : Maps where
  mapSize := s.mapSize.val
  realMapSize := s.mapSize.real
  traceBits := s.traceBits
  virginMap := s.virginBits
  isVirginBits := true
  bitmapChanged := s.bitmapChanged
  aligned := s.mapSize.aligned
  real_le := s.mapSize.real_le

/-- `has_new_bits_unclassified(afl, afl->virgin_bits, classified)`. -/
def AflState.hasNewBitsUnclassified (s : AflState) (classified : Bool) : U8 × AflState × Bool :=
  let r := Build.word64.hasNewBitsUnclassified s.virginMaps classified
  (r.1,
    { s with
      traceBits := r.2.1.traceBits
      virginBits := r.2.1.virginMap
      bitmapChanged := r.2.1.bitmapChanged },
    r.2.2)

/-- `simplify_trace(afl, afl->fsrv.trace_bits)`. -/
def AflState.simplifyTrace (s : AflState) : AflState :=
  { s with traceBits := simplifyTrace64 s.mapSize.val s.traceBits }

/-- `simplify_trace` and `has_new_bits(afl, afl->virgin_tmout)`. In non-instrumented mode there is
no map to look at, and everything counts as new. -/
def AflState.hasNewTimeoutBits (s : AflState) : U8 × AflState :=
  if !s.nonInstrumentedMode then
    let s := s.simplifyTrace
    let r := newBitsLoopW 64 s.mapSize.real s.traceBits s.virginTmout
    (r.1, { s with virginTmout := r.2 })
  else (1, s)

/-- The same with `virgin_crash`. -/
def AflState.hasNewCrashBits (s : AflState) : U8 × AflState :=
  if !s.nonInstrumentedMode then
    let s := s.simplifyTrace
    let r := newBitsLoopW 64 s.mapSize.real s.traceBits s.virginCrash
    (r.1, { s with virginCrash := r.2 })
  else (1, s)

/-! ### The function -/

/-- The state with the local variables. -/
structure SaveRun where
  afl : SaveState
  len : U32
  fault : Fault
  sanFault : Fault := .ok
  feedSan : Bool := false
  keeping : Bool := false
  classified : Bool := false
  bitsCounted : Bool := false
  cksumed : Bool := false
  newBits : U8 := 0
  cksum : U64 := 0
  /-- The executions with the hang timeout so far. -/
  reruns : ℕ := 0
  /-- The calibrations so far. -/
  cals : ℕ := 0
  /-- Ghost: how often `goto save_to_queue` was taken. -/
  jumps : ℕ := 0

inductive SavePoint
  | saveToQueue
  | maySaveFault
  | keepAsCrash
  | returned
  | fatal
  deriving DecidableEq, Repr

namespace SaveRun

def classifyIfNecessary (m : SaveRun) : SaveRun :=
  if m.classified then m
  else
    { m with
      afl := { m.afl with toAflState := m.afl.toAflState.classifyCounts }
      classified := true }

def calculateCksumIfNecessary (hash64 : Bytes → U64) (m : SaveRun) : SaveRun :=
  if m.cksumed then m
  else
    let m := m.classifyIfNecessary
    { m with cksum := hash64 m.afl.traceBits, cksumed := true }

def calculateNewBitsIfNecessary (m : SaveRun) : SaveRun :=
  if m.bitsCounted then m
  else if m.classified then
    let r := m.afl.toAflState.hasNewBits
    { m with
      afl := { m.afl with toAflState := r.2 }
      newBits := r.1
      bitsCounted := true }
  else
    let r := m.afl.toAflState.hasNewBitsUnclassified m.classified
    { m with
      afl := { m.afl with toAflState := r.2.1 }
      newBits := r.1
      classified := r.2.2
      bitsCounted := true }

/-- "Update path frequency". -/
def updatePathFrequency (inp : SaveInput) (m : SaveRun) : SaveRun :=
  if m.afl.schedule.countsPaths then
    let m := m.calculateCksumIfNecessary inp.hash64
    { m with afl := { m.afl with toAflState := countPath m.cksum m.afl.toAflState } }
  else m

/-- The block for `SIMPLIFY_TRACE`. -/
def feedSimplified (inp : SaveInput) (m : SaveRun) : SaveRun :=
  if m.afl.sanBinaryLength ≠ 0 && m.afl.sanAbstraction = .simplifyTrace then
    let trace := simplifyTrace64 m.afl.mapSize.val m.afl.traceBits
    let m := { m with afl := { m.afl with sanTraceBits := trace } }
    let cksumSimplified := inp.hash32 m.afl.sanTraceBits
    if !bitmapRead m.afl.simplifiedNFuzz cksumSimplified then
      { m with
        feedSan := true
        afl := { m.afl with
          simplifiedNFuzz := bitmapSet m.afl.simplifiedNFuzz cksumSimplified } }
    else m
  else m

/-- The block for `COVERAGE_INCREASE`. -/
def feedCoverage (m : SaveRun) : SaveRun :=
  if m.afl.sanBinaryLength ≠ 0 && m.afl.sanAbstraction = .coverageIncrease then
    let m := m.calculateNewBitsIfNecessary
    if m.newBits ≠ 0 then { m with feedSan := true } else m
  else m

/-- The block for `UNIQUE_TRACE`. It reads the bitmap at `cksum`, which only the schedules that
count paths have computed by now, and sets the bit of the checksum of the trace. -/
def feedUnique (inp : SaveInput) (m : SaveRun) : SaveRun :=
  if m.afl.sanBinaryLength ≠ 0 && m.afl.sanAbstraction = .uniqueTrace then
    let m := m.classifyIfNecessary
    let cksumUnique := inp.hash32 m.afl.traceBits
    if !bitmapRead m.afl.nFuzzDup (m.cksum.setWidth 32) && m.fault = m.afl.crashMode then
      { m with
        feedSan := true
        afl := { m.afl with nFuzzDup := bitmapSet m.afl.nFuzzDup cksumUnique } }
    else m
  else m

/-- The loop over the sanitizer binaries, from their lengths and results. The first crash ends it;
any other result is read as no fault. -/
def sanLoop : List (U32 × Fault) → U32 → U32 → U32 × Fault × U32
  | [], len, status => (len, .ok, status)
  | (len, fault) :: rest, _, status =>
    let status := if fault ≠ .ok then status ||| sanCrashOnly else status
    if fault = .crash then (len, .crash, status) else sanLoop rest len status

def runSanitizers (inp : SaveInput) (m : SaveRun) : SaveRun :=
  if m.feedSan then
    let runs := (List.range m.afl.sanBinaryLength).map inp.sanRun
    let r := sanLoop runs m.len m.afl.sanCaseStatus
    { m with
      len := r.1
      sanFault := r.2.1
      afl := { m.afl with sanCaseStatus := r.2.2 } }
  else m

/-- `if (likely(fault == afl->crash_mode))` up to the label `save_to_queue`. -/
def checkNewBits (m : SaveRun) : SavePoint × SaveRun :=
  let m := m.calculateNewBitsIfNecessary
  if m.newBits = 0 then
    if m.sanFault = .ok then
      (.returned,
        if m.afl.crashMode ≠ .ok then
          { m with afl := { m.afl with totalCrashes := m.afl.totalCrashes + 1 } }
        else m)
    else
      (.maySaveFault,
        { m with
          fault := m.sanFault
          afl := { m.afl with sanCaseStatus := m.afl.sanCaseStatus ||| nonCovIncreaseBug } })
  else (.saveToQueue, { m with fault := m.sanFault })

/-- The flags and counters of the new entry `q` up to its calibration. -/
def fillEntry (m : SaveRun) (q : ℕ) (s : AflState) : AflState :=
  let s := s.modify q fun e => { e with execCksum := m.cksum }
  let s :=
    if m.newBits = 2 then
      { s.modify q fun e => { e with hasNewCov := true } with queuedWithCov := s.queuedWithCov + 1 }
    else s
  if s.schedule.countsPaths then
    let i := m.cksum.toNat % nFuzzSize
    { s.modify q fun e => { e with nFuzzEntry := BitVec.ofNat 32 i } with
      nFuzz := Function.update s.nFuzz i 1 }
  else s

/-- From the label `save_to_queue` to `may_save_fault`. -/
def saveToQueue (inp : SaveInput) (m : SaveRun) : SavePoint × SaveRun :=
  let m := m.calculateCksumIfNecessary inp.hash64
  let m := m.calculateNewBitsIfNecessary
  let q := m.afl.queuedItems
  let s := addToQueue m.afl.toAflState m.len false
  let explores := m.afl.fuzzMode && m.afl.switchFuzzMode && !m.afl.nonInstrumentedMode
  let r := calibrateCase inp.hash64 (m.fillEntry q s) q (inp.cal m.cals)
  let m := { m with
    afl := { m.afl with
      toAflState := r.2
      fuzzMode := if explores then false else m.afl.fuzzMode }
    cals := m.cals + 1 }
  if r.1 = .error then (.fatal, m) else (.maySaveFault, { m with keeping := true })

/-- A timeout that the second run confirms, or that needs none. -/
def keepHang (m : SaveRun) : SavePoint × SaveRun :=
  (.returned, { m with afl := { m.afl with savedHangs := m.afl.savedHangs + 1 } })

/-- The run with the hang timeout, and what follows from it. -/
def rerunTimeout (inp : SaveInput) (m : SaveRun) : SavePoint × SaveRun :=
  let r := inp.rerun m.reruns
  let m := { m with
    len := r.len
    afl := { m.afl with traceBits := r.trace }
    classified := false
    bitsCounted := false
    cksumed := false
    reruns := m.reruns + 1 }
  if !r.stopSoon && r.fault = .crash then (.keepAsCrash, m)
  else if r.stopSoon || r.fault ≠ .tmout then
    if m.afl.aflKeepTimeouts then
      (.saveToQueue, { m with
        afl := { m.afl with savedTmouts := m.afl.savedTmouts + 1 }
        jumps := m.jumps + 1 })
    else (.returned, m)
  else m.keepHang

/-- `case FSRV_RUN_TMOUT`. -/
def saveTimeout (inp : SaveInput) (m : SaveRun) : SavePoint × SaveRun :=
  let m := { m with afl := { m.afl with totalTmouts := m.afl.totalTmouts + 1 } }
  if m.afl.savedHangs ≥ keepUniqueHang then (.returned, m)
  else
    let r := m.afl.toAflState.hasNewTimeoutBits
    let m := { m with afl := { m.afl with toAflState := r.2 } }
    if r.1 = 0 then (.returned, m)
    else if m.afl.execTmout < m.afl.hangTmout then m.rerunTimeout inp
    else m.keepHang

/-- From the label `keep_as_crash`. -/
def keepAsCrash (m : SaveRun) : SavePoint × SaveRun :=
  let m := { m with afl := { m.afl with totalCrashes := m.afl.totalCrashes + 1 } }
  if m.afl.savedCrashes ≥ keepUniqueCrash then (.returned, m)
  else
    let r := m.afl.toAflState.hasNewCrashBits
    let m := { m with afl := { m.afl with toAflState := r.2 } }
    if r.1 = 0 then (.returned, m)
    else (.returned, { m with afl := { m.afl with savedCrashes := m.afl.savedCrashes + 1 } })

/-- `switch (fault)`. -/
def maySaveFault (inp : SaveInput) (m : SaveRun) : SavePoint × SaveRun :=
  match m.fault with
  | .tmout => m.saveTimeout inp
  | .crash => (.keepAsCrash, m)
  | .error => (.fatal, m)
  | _ => (.returned, m)

end SaveRun

/-- The early return for a timeout under `AFL_IGNORE_TIMEOUTS`. -/
def ignoreTimeout (inp : SaveInput) (s : SaveState) : SaveState :=
  if s.schedule.countsPaths then
    let a := s.toAflState.classifyCounts
    { s with toAflState := countPath (inp.hash64 a.traceBits) a }
  else s

/-- What is done for an execution that ended as expected before its bits are looked at. -/
def SaveRun.feedSanitizers (inp : SaveInput) (m : SaveRun) : SaveRun :=
  (((m.feedSimplified inp).feedCoverage).feedUnique inp).runSanitizers inp

/-- The local variables and the path frequency. -/
def saveStart (inp : SaveInput) (s : SaveState) : SaveRun :=
  let m : SaveRun :=
    { afl := { s with sanCaseStatus := 0 }, len := inp.len, fault := inp.fault }
  m.updatePathFrequency inp

/-- `save_if_interesting` up to the first label it comes to. -/
def saveHead (inp : SaveInput) (s : SaveState) : SavePoint × SaveRun :=
  if inp.len = 0 then (.returned, { afl := s, len := inp.len, fault := inp.fault })
  else if inp.fault = .tmout && s.aflIgnoreTimeouts then
    (.returned, { afl := ignoreTimeout inp s, len := inp.len, fault := inp.fault })
  else
    let m := saveStart inp s
    if m.fault = m.afl.crashMode then (m.feedSanitizers inp).checkNewBits else (.maySaveFault, m)

/-- From one label to the next. -/
def saveStep (inp : SaveInput) (st : SavePoint × SaveRun) (_ : Unit) :
    Option (SavePoint × SaveRun) :=
  match st.1 with
  | .saveToQueue => some (st.2.saveToQueue inp)
  | .maySaveFault => some (st.2.maySaveFault inp)
  | .keepAsCrash => some st.2.keepAsCrash
  | .returned => none
  | .fatal => none

/-- The points that a call of `save_if_interesting` comes to. -/
def SaveReaches (inp : SaveInput) (s : SaveState) (st : SavePoint × SaveRun) : Prop :=
  Reaches (saveStep inp) (fun _ _ => True) (saveHead inp s) st

end AflPlusPlus
