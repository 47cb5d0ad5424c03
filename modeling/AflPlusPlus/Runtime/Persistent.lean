import AflPlusPlus.Lib.Memory

/-!
# Selective coverage in a persistent target

`__AFL_LOOP` runs the target again and again in one process. What a trace point records depends on
the area pointer, which the target switches with `__afl_coverage_on` and `__afl_coverage_off` and
which `__afl_coverage_skip` switches off for the rest of the iteration, and on the previous
location. The head of the loop has to put all of that back for the next iteration.
-/

namespace AflPlusPlus.Runtime
open Lib

/-- Where `__afl_area_ptr` points to: the shared map, which is also `__afl_area_ptr_backup`, or
`__afl_area_ptr_dummy`. -/
inductive Area
  | shm
  | dummy
  deriving DecidableEq, Repr

/-- What does not change while the target runs. -/
structure Target where
  selectiveCoverage : Bool
  isPersistent : Bool
  mapSize : ℕ
  setMapSize : ℕ

/-- The globals of the runtime that decide what is recorded. -/
structure Recorder where
  areaPtr : Area
  map : Area → Bytes
  /-- `__afl_cmp_map` is not `NULL`. -/
  cmpMap : Bool
  /-- `__afl_cmp_map_backup` is not `NULL`. -/
  cmpMapBackup : Bool
  prevLoc : ℕ → BitVec 32
  ijonState : BitVec 32
  selectiveCoverageTemp : Bool
  firstPass : Bool
  cycleCnt : BitVec 32

/-- `memset(p, 0, n); p[0] = 1`. -/
def clearArea (n : ℕ) (m : Bytes) : Bytes := fun j =>
  if j = 0 then 1 else if j < n then 0 else m j

variable (t : Target)

def coverageOff (s : Recorder) : Recorder :=
  if t.selectiveCoverage then { s with areaPtr := .dummy, cmpMap := false } else s

def coverageOn (s : Recorder) : Recorder :=
  if t.selectiveCoverage && s.selectiveCoverageTemp then
    { s with areaPtr := .shm, cmpMap := if s.cmpMapBackup then true else s.cmpMap }
  else s

def coverageDiscard (s : Recorder) : Recorder :=
  { s with map := Function.update s.map .shm (clearArea t.mapSize (s.map .shm)) }

/-- `none` is `exit(0)`. -/
def coverageSkip (s : Recorder) : Option Recorder :=
  let s := coverageDiscard t s
  if t.isPersistent && t.selectiveCoverage then
    some { coverageOff t s with selectiveCoverageTemp := false }
  else none

/-- `__afl_trace`, whose counters never wrap to 0. -/
def trace (x : BitVec 32) (s : Recorder) : Recorder :=
  let edge := (s.prevLoc 0 ^^^ x).toNat
  let count := s.map s.areaPtr edge
  { s with
    prevLoc := Function.update s.prevLoc 0 (x >>> 1)
    map := Function.update s.map s.areaPtr (Function.update (s.map s.areaPtr) edge
      (count + 1 + if count = 255 then 1 else 0)) }

def ijonXorState (val : BitVec 32) (s : Recorder) : Recorder :=
  { s with ijonState := (s.ijonState ^^^ val) % 65536 }

/-- `__afl_persistent_loop`. Between the iterations the process is stopped, and the fuzzer clears
the shared map before it lets it go on. -/
def persistentLoop (maxCnt : BitVec 32) (s : Recorder) : Bool × Recorder :=
  if s.firstPass then
    (true, { s with
      map := Function.update s.map s.areaPtr (clearArea t.setMapSize (s.map s.areaPtr))
      prevLoc := fun _ => 0
      firstPass := false
      selectiveCoverageTemp := true
      cycleCnt := maxCnt })
  else
    let cycleCnt := s.cycleCnt - 1
    if cycleCnt ≠ 0 then
      let map := Function.update s.map .shm fun j => if j < t.mapSize then 0 else s.map .shm j
      (true, { s with
        map := Function.update map s.areaPtr (Function.update (map s.areaPtr) 0 1)
        ijonState := if s.ijonState ≠ 0 then 0 else s.ijonState
        selectiveCoverageTemp := if s.selectiveCoverageTemp then false else s.selectiveCoverageTemp
        prevLoc := fun _ => 0
        cycleCnt := cycleCnt })
    else (false, { s with areaPtr := .dummy, cycleCnt := cycleCnt })

/-! ### Iterations -/

/-- What the target can do inside an iteration. -/
inductive Call
  | coverageOn
  | coverageOff
  | coverageSkip
  | trace (x : BitVec 32)
  | ijonXorState (val : BitVec 32)
  deriving DecidableEq, Repr

def call (s : Recorder) : Call → Option Recorder
  | .coverageOn => some (Runtime.coverageOn t s)
  | .coverageOff => some (Runtime.coverageOff t s)
  | .coverageSkip => Runtime.coverageSkip t s
  | .trace x => some (Runtime.trace x s)
  | .ijonXorState val => some (Runtime.ijonXorState val s)

def calls (s : Recorder) : List Call → Option Recorder
  | [] => some s
  | c :: cs => (call t s c).bind fun s' => calls s' cs

/-- The trace points of a call sequence that are counted in the shared map. -/
def recorded (s : Recorder) : List Call → List (BitVec 32)
  | [] => []
  | c :: cs =>
    let rest := match call t s c with
      | some s' => recorded s' cs
      | none => []
    match c with
    | .trace x => if s.areaPtr = .shm then x :: rest else rest
    | _ => rest

/-- The states in which the iterations of `while (__AFL_LOOP(maxCnt))` start, for a target that
would do `bodies` one after the other. -/
def iterationStarts (maxCnt : BitVec 32) (s : Recorder) : List (List Call) → List Recorder
  | [] => []
  | body :: bodies =>
    let r := persistentLoop t maxCnt s
    if r.1 then
      r.2 :: match calls t r.2 body with
        | some s' => iterationStarts maxCnt s' bodies
        | none => []
    else []

/-- A later iteration starts as the first one did. -/
structure SameRecording (first later : Recorder) : Prop where
  temp : later.selectiveCoverageTemp = first.selectiveCoverageTemp
  areaPtr : later.areaPtr = first.areaPtr
  prevLoc : ∀ i, later.prevLoc i = 0
  ijonState : later.ijonState = 0

section Selective

variable {t}
variable (hsel : t.selectiveCoverage = true) (hper : t.isPersistent = true)
include hsel

/-- A call sequence that asks for coverage, in a state where asking is of use. -/
theorem recorded_on {s : Recorder} (htemp : s.selectiveCoverageTemp = true) (x : BitVec 32) :
    recorded t s [.coverageOff, .coverageOn, .trace x] = [x] := by
  simp [recorded, call, coverageOff, coverageOn, hsel, htemp]

/-- The same call sequence when `__afl_coverage_on` has no effect. -/
theorem recorded_on_ineffective {s : Recorder} (htemp : s.selectiveCoverageTemp = false)
    (x : BitVec 32) : recorded t s [.coverageOff, .coverageOn, .trace x] = [] := by
  simp [recorded, call, coverageOff, coverageOn, hsel, htemp]

include hper

/-- No call ends a persistent target, and none touches the state of the loop. -/
theorem call_frame (s : Recorder) (c : Call) :
    ∃ s', call t s c = some s' ∧ s'.firstPass = s.firstPass ∧ s'.cycleCnt = s.cycleCnt := by
  cases c with
  | coverageOn =>
    by_cases htemp : s.selectiveCoverageTemp <;> simp [call, coverageOn, hsel, htemp]
  | coverageOff => simp [call, coverageOff, hsel]
  | coverageSkip => simp [call, coverageSkip, coverageDiscard, coverageOff, hsel, hper]
  | trace x => simp [call, trace]
  | ijonXorState val => simp [call, ijonXorState]

theorem calls_frame (s : Recorder) (cs : List Call) :
    ∃ s', calls t s cs = some s' ∧ s'.firstPass = s.firstPass ∧ s'.cycleCnt = s.cycleCnt := by
  induction cs generalizing s with
  | nil => exact ⟨s, rfl, rfl, rfl⟩
  | cons c cs ih =>
    obtain ⟨s1, hcall, hfirst, hcycle⟩ := call_frame hsel hper s c
    obtain ⟨s2, hcalls, hfirst', hcycle'⟩ := ih s1
    refine ⟨s2, ?_, hfirst'.trans hfirst, hcycle'.trans hcycle⟩
    rw [calls, hcall]
    exact hcalls

end Selective

/-- The first pass switches selective coverage on. -/
theorem persistentLoop_first (maxCnt : BitVec 32) {s : Recorder} (h : s.firstPass = true) :
    (persistentLoop t maxCnt s).1 = true ∧
      (persistentLoop t maxCnt s).2.selectiveCoverageTemp = true ∧
      (persistentLoop t maxCnt s).2.firstPass = false ∧
      (persistentLoop t maxCnt s).2.cycleCnt = maxCnt := by
  simp [persistentLoop, h]

/-- A later pass that goes on switches it off. -/
theorem persistentLoop_later (maxCnt : BitVec 32) {s : Recorder} (h : s.firstPass = false)
    (hcnt : s.cycleCnt ≠ 1) :
    (persistentLoop t maxCnt s).1 = true ∧
      (persistentLoop t maxCnt s).2.selectiveCoverageTemp = false := by
  have hne : s.cycleCnt - 1#32 ≠ 0#32 := by
    intro h0
    have hcancel := BitVec.sub_add_cancel s.cycleCnt 1#32
    rw [h0, BitVec.zero_add] at hcancel
    exact hcnt hcancel.symm
  simp [persistentLoop, h, hne]

theorem persistentLoop_last (maxCnt : BitVec 32) {s : Recorder} (h : s.firstPass = false)
    (hcnt : s.cycleCnt = 1) : (persistentLoop t maxCnt s).1 = false := by
  simp [persistentLoop, h, hcnt]

/-- The later iterations start as the first one and record what it would, exactly when there are
none: the head of the loop leaves `__afl_coverage_on` without effect in all of them. -/
theorem clean_slate_iff_one_iteration (hsel : t.selectiveCoverage = true)
    (hper : t.isPersistent = true) (maxCnt : BitVec 32) (s : Recorder)
    (hfirst : s.firstPass = true) (bodies : List (List Call)) :
    ((∀ first later, iterationStarts t maxCnt s bodies = first :: later →
        ∀ start ∈ later, SameRecording first start) ↔ bodies.length ≤ 1 ∨ maxCnt = 1) ∧
    ((∀ first later, iterationStarts t maxCnt s bodies = first :: later →
        ∀ start ∈ later, ∀ cs, recorded t start cs = recorded t first cs) ↔
      bodies.length ≤ 1 ∨ maxCnt = 1) := by
  obtain ⟨hgo, htemp, hpass, hcycle⟩ := persistentLoop_first t maxCnt hfirst
  match bodies with
  | [] => simp [iterationStarts]
  | [body] =>
    obtain ⟨s1, hcalls, -, -⟩ := calls_frame hsel hper (persistentLoop t maxCnt s).2 body
    simp [iterationStarts, hgo, hcalls]
  | body :: body' :: bodies =>
    obtain ⟨s1, hcalls, hpass1, hcycle1⟩ :=
      calls_frame hsel hper (persistentLoop t maxCnt s).2 body
    rw [hpass] at hpass1
    rw [hcycle] at hcycle1
    have hlen : ¬ (body :: body' :: bodies).length ≤ 1 := by simp
    by_cases hone : maxCnt = 1
    · have hlast := persistentLoop_last t maxCnt hpass1 (hcycle1.trans hone)
      have hstarts : iterationStarts t maxCnt s (body :: body' :: bodies) =
          [(persistentLoop t maxCnt s).2] := by
        simp [iterationStarts, hgo, hcalls, hlast]
      rw [hstarts]
      constructor
      · refine iff_of_true (fun first later h start hstart => ?_) (Or.inr hone)
        obtain ⟨-, rfl⟩ := List.cons.inj h
        exact absurd hstart List.not_mem_nil
      · refine iff_of_true (fun first later h start hstart => ?_) (Or.inr hone)
        obtain ⟨-, rfl⟩ := List.cons.inj h
        exact absurd hstart List.not_mem_nil
    · obtain ⟨hgo2, htemp2⟩ := persistentLoop_later t maxCnt hpass1 (by rw [hcycle1]; exact hone)
      have hstarts : ∃ rest, iterationStarts t maxCnt s (body :: body' :: bodies) =
          (persistentLoop t maxCnt s).2 :: (persistentLoop t maxCnt s1).2 :: rest := by
        simp [iterationStarts, hgo, hcalls, hgo2]
      obtain ⟨rest, hstarts⟩ := hstarts
      have hfalse : ¬ ((body :: body' :: bodies).length ≤ 1 ∨ maxCnt = 1) := not_or.mpr ⟨hlen, hone⟩
      constructor
      · refine iff_of_false (fun hsame => ?_) hfalse
        have h := (hsame _ _ hstarts _ List.mem_cons_self).temp
        rw [htemp, htemp2] at h
        exact Bool.false_ne_true h
      · refine iff_of_false (fun hsame => ?_) hfalse
        have h := hsame _ _ hstarts _ List.mem_cons_self
          [.coverageOff, .coverageOn, .trace 0]
        rw [recorded_on hsel htemp, recorded_on_ineffective hsel htemp2] at h
        exact absurd h (by decide)

/-- A target with selective coverage, as the runtime finds it at its loop. -/
def selectiveTarget : Target := ⟨true, true, 65536, 65536⟩

def atLoop : Recorder := ⟨.shm, fun _ _ => 0, false, false, fun _ => 0, 0, true, true, 0⟩

/-- Two iterations that do nothing: in the second one, coverage cannot be switched on again. -/
theorem second_iteration_records_nothing :
    let starts := iterationStarts selectiveTarget 1000 atLoop [[], []]
    starts.length = 2 ∧
      starts.map (fun s => recorded selectiveTarget s [.coverageOff, .coverageOn, .trace 7]) =
        [[7], []] := by
  decide

/-- Two inputs of a target that asks for coverage and drops it again. -/
def selectiveBodies : List (List Call) :=
  [[.coverageOff, .coverageOn, .trace 7], [.trace 9, .ijonXorState 3, .coverageSkip]]

/-- With a count of one, the loop makes one iteration and there is nothing to restore. -/
theorem single_iteration_starts_clean :
    ((∀ first later, iterationStarts selectiveTarget 1 atLoop selectiveBodies = first :: later →
        ∀ start ∈ later, SameRecording first start) ↔
      selectiveBodies.length ≤ 1 ∨ (1 : BitVec 32) = 1) ∧
    ((∀ first later, iterationStarts selectiveTarget 1 atLoop selectiveBodies = first :: later →
        ∀ start ∈ later, ∀ cs,
          recorded selectiveTarget start cs = recorded selectiveTarget first cs) ↔
      selectiveBodies.length ≤ 1 ∨ (1 : BitVec 32) = 1) :=
  clean_slate_iff_one_iteration selectiveTarget rfl rfl 1 atLoop rfl selectiveBodies

end AflPlusPlus.Runtime
