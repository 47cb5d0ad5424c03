import AflPlusPlus.Coverage.NewBits
import AflPlusPlus.Queue.Score

/-!
# Calibration

`calibrate_case` runs an entry several times, compares the checksums of the traces, and scores the
entry. The executions and the clock are inputs; `hash64` is the checksum of a whole map.
-/

namespace AflPlusPlus
open Lib Coverage

/-- `count_bytes`: the non-zero bytes of the real map, word by word. -/
def countBytes (realMapSize : ℕ) (mem : Bytes) : U32 :=
  forLoop ((realMapSize + 3) / 4) (fun i ret =>
    let v := word 32 mem i
    if v = 0 then ret
    else
      let ret := if v &&& 0x000000ff ≠ 0 then ret + 1 else ret
      let ret := if v &&& 0x0000ff00 ≠ 0 then ret + 1 else ret
      let ret := if v &&& 0x00ff0000 ≠ 0 then ret + 1 else ret
      if v &&& 0xff000000 ≠ 0 then ret + 1 else ret) 0

/-- `has_new_bits(afl, afl->virgin_bits)` on the state. -/
def AflState.hasNewBits (s : AflState) : U8 × AflState :=
  let r := newBitsLoopW 64 s.mapSize.real s.traceBits s.virginBits
  (r.1, { s with virginBits := r.2, bitmapChanged := if r.1 ≠ 0 then true else s.bitmapChanged })

def AflState.classifyCounts (s : AflState) : AflState :=
  { s with traceBits := classifyCounts64 s.mapSize.val s.traceBits }

/-- The comparison with the first trace: differing bytes become variable and fully discovered. -/
def markVarBytes (s : AflState) : AflState :=
  forLoop s.mapSize.val (fun i s =>
    if s.varBytes i = 0#8 && s.firstTrace i ≠ s.traceBits i then
      { s with
        varBytes := Function.update s.varBytes i 1
        virginBits := Function.update s.virginBits i 0 }
    else s) s

/-- What the outside world contributes to one calibration. -/
structure CalInput where
  /-- Result and raw trace of the `k`-th execution. -/
  run : ℕ → Fault × Bytes
  /-- `stop_soon` as read after the `k`-th execution. -/
  stopSoon : ℕ → Bool := fun _ => false
  diffUs : U64 := 1
  handicap : U64 := 0

/-- The local variables of the calibration loop. -/
structure CalLoop where
  afl : AflState
  newBits : U8
  varDetected : Bool := false
  stageMax : ℕ
  fault : Fault := .ok
  aborted : Bool := false

def calCyclesFast : ℕ := 3
def calCycles : ℕ := 7
def calCyclesLong : ℕ := 12

/-- The rest of an iteration that has not left the loop: the trace is classified and its checksum
compared with that of the entry. -/
def calibrateCompare (hash64 : Bytes → U64) (q : ℕ) (fault : Fault) (s : AflState) (c : CalLoop) :
    CalLoop :=
  let s := s.classifyCounts
  let cksum := hash64 s.traceBits
  if (s.queueBuf q).execCksum ≠ cksum then
    let r := s.hasNewBits
    let newBits := if r.1 > c.newBits then r.1 else c.newBits
    if (r.2.queueBuf q).execCksum ≠ 0 then
      { c with
        afl := markVarBytes r.2
        newBits := newBits
        fault := fault
        varDetected := true
        stageMax := if s.aflCalFast then calCycles else calCyclesLong }
    else
      -- the first execution that counts sets the checksum for the others
      { c with
        afl := { r.2.modify q fun e => { e with execCksum := cksum } with
          firstTrace := r.2.traceBits }
        newBits := newBits
        fault := fault }
  else { c with afl := s, fault := fault }

/-- One iteration of the calibration loop, with `stage_cur = k`. -/
def calibrateRun (hash64 : Bytes → U64) (q : ℕ) (inp : CalInput) (k : ℕ) (c : CalLoop) : CalLoop :=
  if c.aborted || k ≥ c.stageMax then c
  else
    let fault := (inp.run k).1
    let s := { c.afl with traceBits := (inp.run k).2 }
    if inp.stopSoon k || fault ≠ s.crashMode then
      { c with afl := s, fault := fault, aborted := true }
    else if !s.nonInstrumentedMode && countBytes s.mapSize.real s.traceBits = 0 then
      { c with afl := s, fault := .noinst, aborted := true }
    else calibrateCompare hash64 q fault s c

/-- The code in front of the loop. -/
def calibrateStart (s : AflState) (q : ℕ) : CalLoop :=
  -- with CmpLog the checksum of an earlier calibration is forgotten
  let s := if s.cmplogMode then s.modify q fun e => { e with execCksum := 0 } else s
  let s := s.modify q fun e => { e with calFailed := e.calFailed + 1 }
  let stageMax := if s.aflCalFast then calCyclesFast else calCycles
  if (s.queueBuf q).execCksum ≠ 0 then
    let r := { s with firstTrace := s.traceBits }.hasNewBits
    { afl := r.2, newBits := r.1, stageMax := stageMax }
  else { afl := s, newBits := 0, stageMax := stageMax }

/-- The calibration loop. At most `CAL_CYCLES_LONG` iterations are ever asked for. -/
def calibrateLoop (hash64 : Bytes → U64) (s : AflState) (q : ℕ) (inp : CalInput) : CalLoop :=
  forLoop calCyclesLong (calibrateRun hash64 q inp) (calibrateStart s q)

/-- The code between the loop and the label `abort_calibration`. -/
def calibrateFinish (firstRun : Bool) (q : ℕ) (inp : CalInput) (c : CalLoop) : Fault × AflState :=
  if c.aborted then (c.fault, c.afl)
  else
    let execUs := inp.diffUs / BitVec.ofNat 64 c.stageMax
    let bitmapSize := countBytes c.afl.mapSize.real c.afl.traceBits
    let s := c.afl.modify q fun e =>
      { e with
        execUs := if execUs = 0 then 1 else execUs
        bitmapSize := bitmapSize
        handicap := inp.handicap
        calFailed := 0 }
    let s := { s with
      totalBitmapSize := s.totalBitmapSize + bitmapSize.setWidth 64
      totalBitmapEntries := s.totalBitmapEntries + 1 }
    let s := updateBitmapScore s q true
    (if !s.nonInstrumentedMode && firstRun && c.fault = .ok && c.newBits = 0 then .nobits
      else c.fault, s)

/-- `calibrate_case`. At its end a variable entry is counted, but its `var_behavior` flag is only
read there, never set. -/
def calibrateCase (hash64 : Bytes → U64) (s : AflState) (q : ℕ) (inp : CalInput) :
    Fault × AflState :=
  let c := calibrateLoop hash64 s q inp
  let r := calibrateFinish ((s.queueBuf q).execCksum = 0) q inp c
  let s := r.2
  let s :=
    if c.newBits = 2 && !(s.queueBuf q).hasNewCov then
      { s.modify q fun e => { e with hasNewCov := true } with queuedWithCov := s.queuedWithCov + 1 }
    else s
  let s :=
    if c.varDetected && !(s.queueBuf q).varBehavior then
      { s with queuedVariable := s.queuedVariable + 1 }
    else s
  (r.1, s)

/-! ### When a calibration calls an entry variable -/

/-- The `k`-th execution counts: it is not interrupted, ends as expected and hits something. -/
def CalInput.counts (inp : CalInput) (s : AflState) (k : ℕ) : Prop :=
  inp.stopSoon k = false ∧ (inp.run k).1 = s.crashMode ∧
    (s.nonInstrumentedMode = true ∨ countBytes s.mapSize.real (inp.run k).2 ≠ 0)

/-- The checksum of the `k`-th execution. -/
def CalInput.cksum (hash64 : Bytes → U64) (inp : CalInput) (s : AflState) (k : ℕ) : U64 :=
  hash64 (classifyCounts64 s.mapSize.val (inp.run k).2)

/-- The checksum that the calibration starts from. -/
def AflState.startCksum (s : AflState) (q : ℕ) : U64 :=
  if s.cmplogMode then 0 else (s.queueBuf q).execCksum

def AflState.calStages (s : AflState) : ℕ := if s.aflCalFast then calCyclesFast else calCycles

/-- Some checksum that the calibration has seen before execution `k` is `c`. -/
def CalInput.Seen (hash64 : Bytes → U64) (inp : CalInput) (s : AflState) (q k : ℕ) (c : U64) :
    Prop :=
  c = s.startCksum q ∨ ∃ j, j < k ∧ inp.cksum hash64 s j = c

theorem CalInput.Seen.succ {hash64 : Bytes → U64} {inp : CalInput} {s : AflState} {q k : ℕ}
    {c : U64}
    (h : inp.Seen hash64 s q k c) : inp.Seen hash64 s q (k + 1) c := by
  rcases h with hc | ⟨j, hj, hc⟩
  · exact Or.inl hc
  · exact Or.inr ⟨j, Nat.lt_succ_of_lt hj, hc⟩

/-- No execution that counts has a checksum other than an earlier non-zero one. -/
def CalInput.Stable (hash64 : Bytes → U64) (inp : CalInput) (s : AflState) (q : ℕ) : Prop :=
  ∀ k, k < s.calStages → (∀ j, j ≤ k → inp.counts s j) → ∀ c, c ≠ 0 →
    inp.Seen hash64 s q k c → inp.cksum hash64 s k = c

/-- What the calibration loop does not change as long as no variation has shown. -/
structure CalFrame (s : AflState) (c : CalLoop) : Prop where
  stageMax : c.stageMax = s.calStages
  mapSize : c.afl.mapSize = s.mapSize
  crashMode : c.afl.crashMode = s.crashMode
  nonInstrumented : c.afl.nonInstrumentedMode = s.nonInstrumentedMode

theorem calibrateStart_frame (s : AflState) (q : ℕ) : CalFrame s (calibrateStart s q) := by
  refine ⟨?_, ?_, ?_, ?_⟩
  all_goals
    unfold calibrateStart
    dsimp only
    split <;> split <;> rfl

/-- The entry as the calibration starts: its checksum may be dropped, and one failure is noted. -/
theorem calibrateStart_cksum (s : AflState) (q : ℕ) :
    ((calibrateStart s q).afl.queueBuf q).execCksum = s.startCksum q := by
  unfold calibrateStart AflState.startCksum AflState.hasNewBits
  dsimp only
  split <;> split <;> simp

theorem calibrateStart_flags (s : AflState) (q : ℕ) :
    (calibrateStart s q).varDetected = false ∧ (calibrateStart s q).aborted = false := by
  constructor
  all_goals
    unfold calibrateStart
    dsimp only
    split <;> split <;> rfl

section CalRun

variable {hash64 : Bytes → U64} {inp : CalInput} {s : AflState} {q k : ℕ} {c : CalLoop}

/-- An execution that counts is compared; every other one ends the loop. -/
theorem CalFrame.calibrateRun (h : CalFrame s c) (hash64 : Bytes → U64) (inp : CalInput) (q : ℕ)
    (hab : c.aborted = false) (hk : k < s.calStages) :
    inp.counts s k ∧ calibrateRun hash64 q inp k c = calibrateCompare hash64 q (inp.run k).1
        { c.afl with traceBits := (inp.run k).2 } c ∨
      ¬ inp.counts s k ∧ (calibrateRun hash64 q inp k c).aborted = true ∧
        calibrateRun hash64 q inp k c = { c with
          afl := { c.afl with traceBits := (inp.run k).2 }
          fault := (calibrateRun hash64 q inp k c).fault
          aborted := (calibrateRun hash64 q inp k c).aborted } := by
  have hgo : ¬ (c.aborted || k ≥ c.stageMax) = true := by
    rw [hab, h.stageMax, Bool.false_or, decide_eq_true_eq]
    omega
  unfold AflPlusPlus.calibrateRun CalInput.counts
  rw [if_neg hgo, ← h.crashMode, ← h.nonInstrumented, ← h.mapSize]
  dsimp only
  cases hstop : inp.stopSoon k with
  | true => exact Or.inr ⟨by simp, by simp, by simp⟩
  | false =>
    by_cases hfault : (inp.run k).1 = c.afl.crashMode
    · by_cases hinst : c.afl.nonInstrumentedMode = true ∨
        countBytes c.afl.mapSize.real (inp.run k).2 ≠ 0#32
      · refine Or.inl ⟨⟨rfl, hfault, hinst⟩, ?_⟩
        rw [if_neg (by simp [hfault]), if_neg]
        rcases hinst with hn | hz
        · simp [hn]
        · simp [hz]
      · refine Or.inr ⟨fun hc => hinst hc.2.2, ?_⟩
        obtain ⟨hn, hz⟩ := not_or.mp hinst
        rw [not_not] at hz
        rw [if_neg (by simp [hfault]), if_pos (by simp [hn, hz])]
        exact ⟨rfl, rfl⟩
    · refine Or.inr ⟨fun hc => hfault hc.2.1, ?_⟩
      rw [if_pos (by simp [hfault])]
      exact ⟨rfl, rfl⟩

/-- The three outcomes of the comparison. -/
theorem CalFrame.calibrateCompare (h : CalFrame s c) (fault : Fault) :
    (c.afl.queueBuf q).execCksum ≠ 0 ∧ (c.afl.queueBuf q).execCksum ≠ inp.cksum hash64 s k ∧
        (calibrateCompare hash64 q fault { c.afl with traceBits := (inp.run k).2 } c).varDetected =
          true ∨
      CalFrame s (calibrateCompare hash64 q fault { c.afl with traceBits := (inp.run k).2 } c) ∧
        (calibrateCompare hash64 q fault { c.afl with traceBits := (inp.run k).2 } c).varDetected =
          c.varDetected ∧
        (calibrateCompare hash64 q fault { c.afl with traceBits := (inp.run k).2 } c).aborted =
          c.aborted ∧
        ((calibrateCompare hash64 q fault { c.afl with traceBits := (inp.run k).2 }
          c).afl.queueBuf q).execCksum = inp.cksum hash64 s k ∧
        ((c.afl.queueBuf q).execCksum = 0 ∨
          (c.afl.queueBuf q).execCksum = inp.cksum hash64 s k) := by
  have hsum : hash64 (classifyCounts64 c.afl.mapSize.val (inp.run k).2) =
      inp.cksum hash64 s k := by
    rw [h.mapSize]
    rfl
  unfold AflPlusPlus.calibrateCompare
  dsimp only [AflState.classifyCounts]
  rw [hsum]
  split
  · rename_i hne
    split
    · rename_i hnz
      exact Or.inl ⟨hnz, hne, rfl⟩
    · rename_i hz
      rw [ne_eq, not_not] at hz
      refine Or.inr ⟨⟨h.stageMax, h.mapSize, h.crashMode, h.nonInstrumented⟩, rfl, rfl, ?_,
        Or.inl hz⟩
      simp
  · rename_i heq
    rw [ne_eq, not_not] at heq
    exact Or.inr ⟨⟨h.stageMax, h.mapSize, h.crashMode, h.nonInstrumented⟩, rfl, rfl, heq,
      Or.inr heq⟩

/-- The calibration loop before iteration `k` when no variation has shown. -/
structure NotVaried (hash64 : Bytes → U64) (inp : CalInput) (s : AflState) (q k : ℕ)
    (c : CalLoop) : Prop where
  frame : CalFrame s c
  notDetected : c.varDetected = false
  running : c.aborted = false ↔ ∀ j, j < k → j < s.calStages → inp.counts s j
  cksum : (c.afl.queueBuf q).execCksum = 0 ∨ inp.Seen hash64 s q k (c.afl.queueBuf q).execCksum
  unique : c.aborted = false → k ≤ s.calStages → ∀ x, x ≠ 0 → inp.Seen hash64 s q k x →
    (c.afl.queueBuf q).execCksum = x
  stable : ∀ i, i < k → i < s.calStages → (∀ j, j ≤ i → inp.counts s j) → ∀ x, x ≠ 0 →
    inp.Seen hash64 s q i x → inp.cksum hash64 s i = x

theorem calibrateStart_notVaried (hash64 : Bytes → U64) (inp : CalInput) (s : AflState) (q : ℕ) :
    NotVaried hash64 inp s q 0 (calibrateStart s q) := by
  obtain ⟨hdet, hab⟩ := calibrateStart_flags s q
  have hck := calibrateStart_cksum s q
  refine ⟨calibrateStart_frame s q, hdet,
    ⟨fun _ j hj => absurd hj (Nat.not_lt_zero j), fun _ => hab⟩,
    Or.inr (Or.inl hck), fun _ _ x _ hx => ?_, fun i hi => absurd hi (Nat.not_lt_zero i)⟩
  rcases hx with rfl | ⟨j, hj, _⟩
  · exact hck
  · exact absurd hj (Nat.not_lt_zero j)

/-- Iterations that are not entered any more. -/
theorem NotVaried.skip (h : NotVaried hash64 inp s q k c)
    (hskip : c.aborted = true ∨ s.calStages ≤ k) : NotVaried hash64 inp s q (k + 1) c := by
  have hiff : c.aborted = false ↔ ∀ j, j < k + 1 → j < s.calStages → inp.counts s j := by
    rw [h.running]
    constructor
    · intro hall j hj hstage
      rcases hskip with hab | hk
      · rw [h.running.mpr hall] at hab
        cases hab
      · exact hall j (by omega) hstage
    · exact fun hall j hj => hall j (Nat.lt_succ_of_lt hj)
  have hnot : c.aborted = true → ¬ ∀ j, j ≤ k → inp.counts s j := by
    intro hab hall
    rw [h.running.mpr fun j hj _ => hall j hj.le] at hab
    cases hab
  refine ⟨h.frame, h.notDetected, hiff, h.cksum.imp_right CalInput.Seen.succ,
    fun hab hk => ?_, fun i hi hstage hall => ?_⟩
  · rcases hskip with hab' | hk'
    · rw [hab] at hab'
      cases hab'
    · omega
  · rcases Nat.lt_succ_iff_lt_or_eq.mp hi with hlt | rfl
    · exact h.stable i hlt hstage hall
    · rcases hskip with hab | hk
      · exact absurd hall (hnot hab)
      · omega

/-- An execution that does not count goes to `abort_calibration`, and takes no part in the
comparison. -/
theorem NotVaried.abort (h : NotVaried hash64 inp s q k c) (hk : k < s.calStages)
    (hcount : ¬ inp.counts s k) (fault : Fault) (trace : Bytes) :
    NotVaried hash64 inp s q (k + 1)
      { c with afl := { c.afl with traceBits := trace }, fault := fault, aborted := true } := by
  have hnot : ¬ ∀ j, j < k + 1 → j < s.calStages → inp.counts s j := fun hall =>
    hcount (hall k k.lt_succ_self hk)
  refine ⟨⟨h.frame.stageMax, h.frame.mapSize, h.frame.crashMode, h.frame.nonInstrumented⟩,
    h.notDetected, iff_of_false nofun hnot, h.cksum.imp_right CalInput.Seen.succ, nofun,
    fun i hi hstage halli => ?_⟩
  rcases Nat.lt_succ_iff_lt_or_eq.mp hi with hlt | rfl
  · exact h.stable i hlt hstage halli
  · exact absurd (halli i le_rfl) hcount

/-- An execution whose checksum is the one stored, or the first one to be stored. -/
theorem NotVaried.unvaried {c' : CalLoop} (h : NotVaried hash64 inp s q k c)
    (hab : c.aborted = false)
    (hk : k < s.calStages) (hall : ∀ j, j ≤ k → inp.counts s j) (hframe : CalFrame s c')
    (hdet : c'.varDetected = c.varDetected) (hab' : c'.aborted = c.aborted)
    (hck : (c'.afl.queueBuf q).execCksum = inp.cksum hash64 s k)
    (hold : (c.afl.queueBuf q).execCksum = 0 ∨
      (c.afl.queueBuf q).execCksum = inp.cksum hash64 s k) :
    NotVaried hash64 inp s q (k + 1) c' := by
  have hkeep : ∀ x, x ≠ 0 → inp.Seen hash64 s q k x → inp.cksum hash64 s k = x := by
    intro x hx hseen
    have hxe := h.unique hab hk.le x hx hseen
    rw [← hold.resolve_left (hxe ▸ hx), hxe]
  refine ⟨hframe, hdet.trans h.notDetected, ?_, Or.inr (Or.inr ⟨k, k.lt_succ_self, hck.symm⟩),
    fun _ _ x hx hseen => ?_, fun i hi hstage halli x hx hseen => ?_⟩
  · rw [hab', hab]
    exact iff_of_true rfl fun j hj _ => hall j (by omega)
  · rw [hck]
    rcases hseen with hx' | ⟨j, hj, hx'⟩
    · exact hkeep x hx (Or.inl hx')
    · rcases Nat.lt_succ_iff_lt_or_eq.mp hj with hlt | rfl
      · exact hkeep x hx (Or.inr ⟨j, hlt, hx'⟩)
      · exact hx'
  · rcases Nat.lt_succ_iff_lt_or_eq.mp hi with hlt | rfl
    · exact h.stable i hlt hstage halli x hx hseen
    · exact hkeep x hx hseen

/-- An iteration either keeps the invariant or detects a variation that the inputs do contain. -/
theorem NotVaried.calibrateRun (h : NotVaried hash64 inp s q k c) :
    NotVaried hash64 inp s q (k + 1) (calibrateRun hash64 q inp k c) ∨
      (calibrateRun hash64 q inp k c).varDetected = true ∧ ¬ inp.Stable hash64 s q := by
  by_cases hskip : c.aborted = true ∨ s.calStages ≤ k
  · -- the loop has ended
    refine Or.inl ?_
    have heq : AflPlusPlus.calibrateRun hash64 q inp k c = c := by
      rw [AflPlusPlus.calibrateRun, if_pos]
      simpa [h.frame.stageMax] using hskip
    rw [heq]
    exact h.skip hskip
  · obtain ⟨hab, hk⟩ := not_or.mp hskip
    rw [Bool.not_eq_true] at hab
    rw [not_le] at hk
    have hcounted := h.running.mp hab
    rcases h.frame.calibrateRun hash64 inp q hab hk with
      ⟨hcount, heq⟩ | ⟨hcount, habort, heq⟩
    · have hall : ∀ j, j ≤ k → inp.counts s j := by
        intro j hj
        rcases hj.lt_or_eq with hlt | rfl
        · exact hcounted j hlt (by omega)
        · exact hcount
      rw [heq]
      rcases h.frame.calibrateCompare (inp.run k).1 with
        ⟨hnz, hne, hdet⟩ | ⟨hframe, hdet, hab', hck, hold⟩
      · -- the stored checksum was seen before and differs from that of execution `k`
        refine Or.inr ⟨hdet, fun hst => ?_⟩
        exact hne (hst k hk hall _ hnz (h.cksum.resolve_left hnz)).symm
      · exact Or.inl (h.unvaried hab hk hall hframe hdet hab' hck hold)
    · refine Or.inl ?_
      rw [heq, habort]
      exact h.abort hk hcount _ _

theorem calibrateRun_varDetected (h : c.varDetected = true) :
    (calibrateRun hash64 q inp k c).varDetected = true := by
  unfold calibrateRun calibrateCompare
  split
  · exact h
  · dsimp only
    split
    · exact h
    · split
      · exact h
      · split
        · split
          · rfl
          · exact h
        · exact h

/-- A calibration detects a variation exactly when its executions contain one. -/
theorem calibrateLoop_varDetected :
    (calibrateLoop hash64 s q inp).varDetected = true ↔ ¬ inp.Stable hash64 s q := by
  have h : NotVaried hash64 inp s q calCyclesLong (calibrateLoop hash64 s q inp) ∨
      (calibrateLoop hash64 s q inp).varDetected = true ∧ ¬ inp.Stable hash64 s q := by
    refine forLoop_induct (fun k c => NotVaried hash64 inp s q k c ∨
      c.varDetected = true ∧ ¬ inp.Stable hash64 s q)
      (Or.inl (calibrateStart_notVaried hash64 inp s q)) fun k c _ hc => ?_
    rcases hc with hc | ⟨hdet, hst⟩
    · exact hc.calibrateRun
    · exact Or.inr ⟨calibrateRun_varDetected hdet, hst⟩
  rcases h with h | h
  · rw [h.notDetected]
    refine iff_of_false Bool.false_ne_true (not_not.mpr fun k hk hall x hx hseen => ?_)
    have hstages : s.calStages ≤ calCyclesLong := by
      unfold AflState.calStages
      split <;> decide
    exact h.stable k (by omega) hk hall x hx hseen
  · exact iff_of_true h.1 h.2

end CalRun

end AflPlusPlus
