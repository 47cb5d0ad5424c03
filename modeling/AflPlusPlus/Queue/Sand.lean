import AflPlusPlus.Queue.SaveSteps

/-!
# Which executions the sanitizer binaries see

In the abstraction modes `SIMPLIFY_TRACE` and `UNIQUE_TRACE` a bitmap remembers the checksums of the
abstracted traces, and an execution is fed to the sanitizer binaries when its bit is not set yet.
`UNIQUE_TRACE` reads the bitmap at a checksum that some schedules never compute, and sets the bit of
the checksum of the trace.
-/

namespace AflPlusPlus
open Lib Coverage

/-! ### The bitmap -/

theorem bitmapRead_eq (map : Bytes) (i : U32) :
    bitmapRead map i = (map (i.toNat / 8)).getLsbD (i.toNat % 8) := by
  have hbit : ∀ b : Bool, (decide (BitVec.setWidth 8 (BitVec.ofBool b) ≠ 0)) = b := by decide
  have hone : ∀ x : Byte, x &&& 1 = BitVec.setWidth 8 (BitVec.ofBool (x.getLsbD 0)) := fun x =>
    BitVec.and_one_eq_setWidth_ofBool_getLsbD
  unfold bitmapRead
  rw [hone, hbit, BitVec.getLsbD_ushiftRight, Nat.add_zero]

/-- Setting a bit changes what is read there and nowhere else. -/
theorem bitmapRead_bitmapSet (map : Bytes) (i j : U32) :
    bitmapRead (bitmapSet map i) j = (decide (j = i) || bitmapRead map j) := by
  rw [bitmapRead_eq, bitmapRead_eq]
  unfold bitmapSet
  by_cases hbyte : j.toNat / 8 = i.toNat / 8
  · have hmod : j = i ↔ i.toNat % 8 = j.toNat % 8 := by
      rw [← BitVec.toNat_inj]
      omega
    rw [hbyte, Function.update_self, BitVec.getLsbD_or,
      getLsbD_one_shiftLeft _ (Nat.mod_lt _ (by decide)), decide_eq_decide.mpr hmod, Bool.or_comm]
  · have hne : j ≠ i := fun h => hbyte (by rw [h])
    rw [Function.update_of_ne hbyte, decide_eq_false hne, Bool.false_or]

/-! ### What one call does to the bitmap -/

/-- Whether the execution was fed, with the bitmaps and the settings. -/
@[ext]
structure SandView where
  feedSan : Bool
  nFuzzDup : Bytes
  simplifiedNFuzz : Bytes
  sanBinaryLength : ℕ
  sanAbstraction : SanitizerAbstraction

def SaveRun.sand (m : SaveRun) : SandView where
  feedSan := m.feedSan
  nFuzzDup := m.afl.nFuzzDup
  simplifiedNFuzz := m.afl.simplifiedNFuzz
  sanBinaryLength := m.afl.sanBinaryLength
  sanAbstraction := m.afl.sanAbstraction

section Frames

variable {inp : SaveInput} {m m' : SaveRun}

theorem CalcFrame.sand (h : CalcFrame m m') : m'.sand = m.sand := by
  rw [h.rest]
  rfl

theorem runSanitizers_sand (inp : SaveInput) (m : SaveRun) :
    (m.runSanitizers inp).sand = m.sand := by
  unfold SaveRun.runSanitizers
  dsimp only
  split <;> rfl

theorem checkNewBits_sand (m : SaveRun) : m.checkNewBits.2.sand = m.sand := by
  rw [← (calculateNewBitsIfNecessary_frame m).sand]
  unfold SaveRun.checkNewBits
  dsimp only
  split
  · split
    · dsimp only
      split <;> rfl
    · rfl
  · rfl

theorem saveToQueue_sand (inp : SaveInput) (m : SaveRun) :
    (m.saveToQueue inp).2.sand = m.sand := by
  have hcalc := (calculateCksumIfNecessary_frame inp.hash64 m).trans
    (calculateNewBitsIfNecessary_frame _)
  rw [← hcalc.sand]
  unfold SaveRun.saveToQueue
  dsimp only
  split <;> rfl

theorem FaultFrame.sand (h : FaultFrame m m') : m'.sand = m.sand := by
  rw [h.rest]
  rfl

/-- From the first label on nothing is fed and no bit is set. -/
theorem saveStep_sand {st st' : SavePoint × SaveRun} (h : saveStep inp st () = some st') :
    st'.2.sand = st.2.sand := by
  obtain ⟨point, m⟩ := st
  cases point with
  | saveToQueue =>
    obtain rfl : m.saveToQueue inp = st' := Option.some.inj h
    exact saveToQueue_sand inp m
  | maySaveFault =>
    obtain rfl : m.maySaveFault inp = st' := Option.some.inj h
    exact (maySaveFault_faultFrame inp m).sand
  | keepAsCrash =>
    obtain rfl : m.keepAsCrash = st' := Option.some.inj h
    exact (keepAsCrash_faultFrame m).sand
  | returned => cases h
  | fatal => cases h

theorem SaveReaches.sand {s : SaveState} {st : SavePoint × SaveRun} (h : SaveReaches inp s st) :
    st.2.sand = (saveHead inp s).2.sand :=
  h.invariant (P := fun st => st.2.sand = (saveHead inp s).2.sand) rfl
    fun _ _ _ hu _ hstep => (saveStep_sand hstep).trans hu

/-- A block of another abstraction mode does nothing. -/
theorem feedSimplified_of_ne (h : m.afl.sanAbstraction ≠ .simplifyTrace) :
    m.feedSimplified inp = m := by
  unfold SaveRun.feedSimplified
  rw [if_neg (by simp [h])]

theorem feedCoverage_of_ne (h : m.afl.sanAbstraction ≠ .coverageIncrease) :
    m.feedCoverage = m := by
  unfold SaveRun.feedCoverage
  rw [if_neg (by simp [h])]

theorem feedUnique_of_ne (h : m.afl.sanAbstraction ≠ .uniqueTrace) : m.feedUnique inp = m := by
  unfold SaveRun.feedUnique
  rw [if_neg (by simp [h])]

/-- The trace and its checksum after the path frequency has been updated. -/
theorem saveStart_cases (inp : SaveInput) (s : SaveState) :
    s.schedule.countsPaths = true ∧ (saveStart inp s).classified = true ∧
        (saveStart inp s).afl.traceBits = classifyCounts64 s.mapSize.val s.traceBits ∧
        (saveStart inp s).cksum = inp.hash64 (classifyCounts64 s.mapSize.val s.traceBits) ∨
      s.schedule.countsPaths = false ∧ (saveStart inp s).classified = false ∧
        (saveStart inp s).afl.traceBits = s.traceBits ∧ (saveStart inp s).cksum = 0 := by
  have htrace : ∀ (c : U64) (a : AflState), (countPath c a).traceBits = a.traceBits := by
    intro c a
    unfold countPath
    dsimp only
    split <;> rfl
  unfold saveStart SaveRun.updatePathFrequency
  dsimp only
  cases hsched : s.schedule.countsPaths with
  | true => exact Or.inl ⟨rfl, rfl, htrace _ _, rfl⟩
  | false => exact Or.inr ⟨rfl, rfl, rfl, rfl⟩

end Frames

/-! ### Which executions are looked at, and by which checksum -/

/-- A call of `save_if_interesting` and whether it fed the execution to the sanitizer binaries. -/
structure SandCall where
  state : SaveState
  inp : SaveInput
  fed : Bool

/-- The bitmap of the abstraction mode. -/
def SanitizerAbstraction.bitmap (a : SanitizerAbstraction) (simplifiedNFuzz nFuzzDup : Bytes) :
    Bytes :=
  match a with
  | .simplifyTrace => simplifiedNFuzz
  | _ => nFuzzDup

def SaveState.sandBitmap (s : SaveState) : Bytes :=
  s.sanAbstraction.bitmap s.simplifiedNFuzz s.nFuzzDup

/-- The abstracted trace. -/
def SaveState.sandTrace (s : SaveState) : Bytes :=
  match s.sanAbstraction with
  | .simplifyTrace => simplifyTrace64 s.mapSize.val s.traceBits
  | _ => classifyCounts64 s.mapSize.val s.traceBits

namespace SandCall

/-- The execution ended as expected, which is when the sanitizers are thought of at all. -/
def Examined (c : SandCall) : Prop := ¬ c.inp.Ignored c.state ∧ c.inp.fault = c.state.crashMode

/-- The checksum of the abstracted trace. -/
def traceHash (c : SandCall) : U32 := c.inp.hash32 c.state.sandTrace

/-- Where the bitmap is read. -/
def readIndex (c : SandCall) : U32 :=
  if c.state.sanAbstraction = .uniqueTrace && !c.state.schedule.countsPaths then 0 else c.traceHash

/-- What is read is the bit of the trace's own checksum, or has the same value. -/
def ReadsOwnBit (c : SandCall) : Prop :=
  c.Examined → c.state.sanAbstraction = .uniqueTrace →
    c.state.schedule.countsPaths = true ∨
      bitmapRead c.state.nFuzzDup 0 = bitmapRead c.state.nFuzzDup c.traceHash

end SandCall

/-- An earlier execution that was looked at had this checksum. -/
def Seen (earlier : List SandCall) (hash : U32) : Prop :=
  ∃ c ∈ earlier, c.Examined ∧ c.traceHash = hash

/-- In a list of calls, the latest first, an execution was fed exactly when it was looked at and its
checksum was new. -/
def FedOnce : List SandCall → Prop
  | [] => True
  | c :: earlier =>
    (c.fed = true ↔ c.Examined ∧ ¬ Seen earlier c.traceHash) ∧ FedOnce earlier

/-- SAND is enabled, and no execution has been looked at. -/
structure SandEnabled (s : SaveState) : Prop where
  binaries : s.sanBinaryLength ≠ 0
  abstraction : s.sanAbstraction ≠ .coverageIncrease
  empty : s.sandBitmap = fun _ => 0

/-- What the rest of the fuzzer leaves alone between two calls. -/
structure SandKept (s t : SaveState) : Prop where
  binaries : t.sanBinaryLength = s.sanBinaryLength
  abstraction : t.sanAbstraction = s.sanAbstraction
  bitmap : t.sandBitmap = s.sandBitmap

/-- The calls so far, the latest first, and the state they lead to. -/
inductive SandRuns (s : SaveState) : List SandCall → SaveState → Prop
  | start : SandRuns s [] s
  | between {calls : List SandCall} {t t' : SaveState} : SandRuns s calls t → SandKept t t' →
      SandRuns s calls t'
  | call {calls : List SandCall} {t : SaveState} {inp : SaveInput} {point : SavePoint}
      {m : SaveRun} : SandRuns s calls t → SaveReaches inp t (point, m) →
      saveStep inp (point, m) () = none → SandRuns s (⟨t, inp, m.feedSan⟩ :: calls) m.afl

/-! ### What the calls feed -/

/-- The view at the start of a call. -/
def SaveState.sandStart (s : SaveState) : SandView where
  feedSan := false
  nFuzzDup := s.nFuzzDup
  simplifiedNFuzz := s.simplifiedNFuzz
  sanBinaryLength := s.sanBinaryLength
  sanAbstraction := s.sanAbstraction

/-- The execution is fed, and the bit of a checksum set. -/
def SandView.feed (v : SandView) (hash : U32) : SandView :=
  match v.sanAbstraction with
  | .simplifyTrace => { v with
      feedSan := true
      simplifiedNFuzz := bitmapSet v.simplifiedNFuzz hash }
  | _ => { v with
      feedSan := true
      nFuzzDup := bitmapSet v.nFuzzDup hash }

theorem SandView.feed_simplifyTrace {v : SandView} (h : v.sanAbstraction = .simplifyTrace)
    (hash : U32) : v.feed hash =
      { v with feedSan := true, simplifiedNFuzz := bitmapSet v.simplifiedNFuzz hash } := by
  cases v
  cases h
  rfl

theorem SandView.feed_uniqueTrace {v : SandView} (h : v.sanAbstraction = .uniqueTrace)
    (hash : U32) : v.feed hash =
      { v with feedSan := true, nFuzzDup := bitmapSet v.nFuzzDup hash } := by
  cases v
  cases h
  rfl

section Feeding

variable {inp : SaveInput} {m : SaveRun} {s : SaveState}

theorem feedSimplified_sand (inp : SaveInput) (hbin : m.afl.sanBinaryLength ≠ 0)
    (hmode : m.afl.sanAbstraction = .simplifyTrace) :
    let hash := inp.hash32 (simplifyTrace64 m.afl.mapSize.val m.afl.traceBits)
    bitmapRead m.afl.simplifiedNFuzz hash = false ∧
        (m.feedSimplified inp).sand = m.sand.feed hash ∨
      bitmapRead m.afl.simplifiedNFuzz hash = true ∧ (m.feedSimplified inp).sand = m.sand := by
  intro hash
  rw [SandView.feed_simplifyTrace hmode]
  unfold SaveRun.feedSimplified
  rw [if_pos (by simp [hbin, hmode])]
  dsimp only
  by_cases hread : bitmapRead m.afl.simplifiedNFuzz hash = true
  · rw [if_neg (show ¬ (!bitmapRead m.afl.simplifiedNFuzz hash) = true by simp [hread])]
    exact Or.inr ⟨hread, rfl⟩
  · rw [if_pos (show (!bitmapRead m.afl.simplifiedNFuzz hash) = true by simp [hread])]
    exact Or.inl ⟨Bool.eq_false_iff.mpr hread, rfl⟩

theorem feedUnique_sand (inp : SaveInput) (hbin : m.afl.sanBinaryLength ≠ 0)
    (hmode : m.afl.sanAbstraction = .uniqueTrace) (hfault : m.fault = m.afl.crashMode) :
    let hash := inp.hash32 m.classifyIfNecessary.afl.traceBits
    bitmapRead m.afl.nFuzzDup (m.cksum.setWidth 32) = false ∧
        (m.feedUnique inp).sand = m.sand.feed hash ∨
      bitmapRead m.afl.nFuzzDup (m.cksum.setWidth 32) = true ∧
        (m.feedUnique inp).sand = m.sand := by
  intro hash
  have hclass := classifyIfNecessary_frame m
  have hdup : m.classifyIfNecessary.afl.nFuzzDup = m.afl.nFuzzDup := by rw [hclass.rest]
  have hcksum : m.classifyIfNecessary.cksum = m.cksum := by
    unfold SaveRun.classifyIfNecessary
    split <;> rfl
  have hexpected : m.classifyIfNecessary.fault = m.classifyIfNecessary.afl.crashMode := by
    rw [hclass.fault, hclass.crashMode, hfault]
  rw [SandView.feed_uniqueTrace hmode, ← hdup, ← hclass.sand]
  unfold SaveRun.feedUnique
  rw [if_pos (by simp [hbin, hmode])]
  dsimp only
  rw [hcksum]
  by_cases hread : bitmapRead m.classifyIfNecessary.afl.nFuzzDup (m.cksum.setWidth 32) = true
  · rw [if_neg (by simp [hread])]
    exact Or.inr ⟨hread, rfl⟩
  · rw [if_pos (by simp [hread, hexpected])]
    exact Or.inl ⟨Bool.eq_false_iff.mpr hread, rfl⟩

theorem feedSimplified_sanAbstraction (inp : SaveInput) (m : SaveRun) :
    (m.feedSimplified inp).afl.sanAbstraction = m.afl.sanAbstraction := by
  unfold SaveRun.feedSimplified
  dsimp only
  split
  · split <;> rfl
  · rfl

theorem feedBlocks_simplifyTrace (h : m.afl.sanAbstraction = .simplifyTrace) :
    (m.feedSimplified inp).feedCoverage.feedUnique inp = m.feedSimplified inp := by
  have hmode := (feedSimplified_sanAbstraction inp m).trans h
  rw [feedCoverage_of_ne (by rw [hmode]; exact nofun),
    feedUnique_of_ne (by rw [hmode]; exact nofun)]

theorem feedBlocks_uniqueTrace (h : m.afl.sanAbstraction = .uniqueTrace) :
    (m.feedSimplified inp).feedCoverage.feedUnique inp = m.feedUnique inp := by
  rw [feedSimplified_of_ne (by rw [h]; exact nofun), feedCoverage_of_ne (by rw [h]; exact nofun)]

theorem saveStart_sand (inp : SaveInput) (s : SaveState) : (saveStart inp s).sand = s.sandStart :=
  (saveStart_frame inp s).sand

/-- In `SIMPLIFY_TRACE` mode the bit of the simplified trace is read, under every schedule. -/
theorem saveStart_feedSimplified (inp : SaveInput) (hbin : s.sanBinaryLength ≠ 0)
    (habs : s.sanAbstraction = .simplifyTrace) (fed : Bool) :
    let c : SandCall := ⟨s, inp, fed⟩
    bitmapRead s.sandBitmap c.readIndex = false ∧
        ((saveStart inp s).feedSimplified inp).sand = s.sandStart.feed c.traceHash ∨
      bitmapRead s.sandBitmap c.readIndex = true ∧
        ((saveStart inp s).feedSimplified inp).sand = s.sandStart := by
  intro c
  have hstart := saveStart_frame inp s
  have hsand := saveStart_sand inp s
  have hhash : inp.hash32 (simplifyTrace64 (saveStart inp s).afl.mapSize.val
      (saveStart inp s).afl.traceBits) = c.traceHash := by
    rw [show (saveStart inp s).afl.mapSize = s.mapSize from hstart.mapSize,
      show simplifyTrace64 s.mapSize.val (saveStart inp s).afl.traceBits =
        simplifyTrace64 s.mapSize.val s.traceBits from hstart.simplified]
    simp only [c, SandCall.traceHash, SaveState.sandTrace, habs]
  have hbitmap : s.sandBitmap = (saveStart inp s).afl.simplifiedNFuzz := by
    rw [show (saveStart inp s).afl.simplifiedNFuzz = s.simplifiedNFuzz from
      congrArg SandView.simplifiedNFuzz hsand]
    simp only [SaveState.sandBitmap, SanitizerAbstraction.bitmap, habs]
  have hindex : c.readIndex = c.traceHash := by
    rw [SandCall.readIndex, if_neg (by simp [c, habs])]
  have hblock := feedSimplified_sand (m := saveStart inp s) inp
    (ne_of_eq_of_ne (congrArg SandView.sanBinaryLength hsand) hbin)
    ((congrArg SandView.sanAbstraction hsand).trans habs)
  rw [hhash, hsand] at hblock
  rw [hbitmap, hindex]
  exact hblock

/-- In `UNIQUE_TRACE` mode the bit at `cksum` is read, which is zero unless paths are counted. -/
theorem saveStart_feedUnique (inp : SaveInput) (hbin : s.sanBinaryLength ≠ 0)
    (habs : s.sanAbstraction = .uniqueTrace) (hfault : inp.fault = s.crashMode) (fed : Bool) :
    let c : SandCall := ⟨s, inp, fed⟩
    bitmapRead s.sandBitmap c.readIndex = false ∧
        ((saveStart inp s).feedUnique inp).sand = s.sandStart.feed c.traceHash ∨
      bitmapRead s.sandBitmap c.readIndex = true ∧
        ((saveStart inp s).feedUnique inp).sand = s.sandStart := by
  intro c
  have hstart := saveStart_frame inp s
  have hsand := saveStart_sand inp s
  have htrace : (saveStart inp s).classifyIfNecessary.afl.traceBits =
      classifyCounts64 s.mapSize.val s.traceBits := by
    unfold SaveRun.classifyIfNecessary
    rcases saveStart_cases inp s with ⟨-, hclass, htrace, -⟩ | ⟨-, hclass, htrace, -⟩
    · rw [hclass, if_pos rfl, htrace]
    · rw [hclass, if_neg Bool.false_ne_true]
      change classifyCounts64 (saveStart inp s).afl.mapSize.val (saveStart inp s).afl.traceBits = _
      rw [show (saveStart inp s).afl.mapSize = s.mapSize from hstart.mapSize, htrace]
  have hhash : inp.hash32 (saveStart inp s).classifyIfNecessary.afl.traceBits = c.traceHash := by
    rw [htrace]
    simp only [c, SandCall.traceHash, SaveState.sandTrace, habs]
  have hbitmap : s.sandBitmap = (saveStart inp s).afl.nFuzzDup := by
    rw [show (saveStart inp s).afl.nFuzzDup = s.nFuzzDup from congrArg SandView.nFuzzDup hsand]
    simp only [SaveState.sandBitmap, SanitizerAbstraction.bitmap, habs]
  have hindex : c.readIndex = (saveStart inp s).cksum.setWidth 32 := by
    unfold SandCall.readIndex
    rcases saveStart_cases inp s with ⟨hsched, -, -, hcksum⟩ | ⟨hsched, -, -, hcksum⟩
    · rw [if_neg (by simp [c, hsched]), hcksum]
      simp only [c, SandCall.traceHash, SaveState.sandTrace, habs, SaveInput.hash32]
    · rw [if_pos (by simp [c, hsched, habs]), hcksum]
      rfl
  have hexpected : (saveStart inp s).fault = (saveStart inp s).afl.crashMode := by
    rw [hstart.fault, hstart.crashMode]
    exact hfault
  have hblock := feedUnique_sand (m := saveStart inp s) inp
    (ne_of_eq_of_ne (congrArg SandView.sanBinaryLength hsand) hbin)
    ((congrArg SandView.sanAbstraction hsand).trans habs) hexpected
  rw [hhash, hsand] at hblock
  rw [hbitmap, hindex]
  exact hblock

/-- The call reads one bit of the bitmap, and sets the bit of the trace's checksum when it feeds the
execution. -/
theorem saveHead_sand (inp : SaveInput) (hbin : s.sanBinaryLength ≠ 0)
    (habs : s.sanAbstraction ≠ .coverageIncrease) (fed : Bool) :
    let c : SandCall := ⟨s, inp, fed⟩
    (c.Examined ∧ bitmapRead s.sandBitmap c.readIndex = false) ∧
        (saveHead inp s).2.sand = s.sandStart.feed c.traceHash ∨
      ¬ (c.Examined ∧ bitmapRead s.sandBitmap c.readIndex = false) ∧
        (saveHead inp s).2.sand = s.sandStart := by
  intro c
  rcases saveHead_cases inp s with
    ⟨hign, a, heq, hframe⟩ | ⟨hign, hfault, heq⟩ | ⟨hign, hfault, heq⟩
  · -- the call returned at once
    refine Or.inr ⟨fun h => h.1.1 hign, ?_⟩
    rw [heq, hframe]
    rfl
  · have hexamined : c.Examined := ⟨hign, hfault⟩
    have hdecide : ∀ v : SandView,
        bitmapRead s.sandBitmap c.readIndex = false ∧ v = s.sandStart.feed c.traceHash ∨
          bitmapRead s.sandBitmap c.readIndex = true ∧ v = s.sandStart →
        (c.Examined ∧ bitmapRead s.sandBitmap c.readIndex = false) ∧
            v = s.sandStart.feed c.traceHash ∨
          ¬ (c.Examined ∧ bitmapRead s.sandBitmap c.readIndex = false) ∧ v = s.sandStart :=
      fun v hv => hv.imp (fun h => ⟨⟨hexamined, h.1⟩, h.2⟩)
        fun h => ⟨fun hread => Bool.false_ne_true (hread.2.symm.trans h.1), h.2⟩
    have hmode : (saveStart inp s).afl.sanAbstraction = s.sanAbstraction :=
      congrArg SandView.sanAbstraction (saveStart_sand inp s)
    rw [heq, checkNewBits_sand, SaveRun.feedSanitizers, runSanitizers_sand]
    -- of the three blocks only the one for the mode does something
    cases habs' : s.sanAbstraction with
    | simplifyTrace =>
      rw [feedBlocks_simplifyTrace (hmode.trans habs')]
      exact hdecide _ (saveStart_feedSimplified inp hbin habs' fed)
    | uniqueTrace =>
      rw [feedBlocks_uniqueTrace (hmode.trans habs')]
      exact hdecide _ (saveStart_feedUnique inp hbin habs' hfault fed)
    | coverageIncrease => exact absurd habs' habs
  · -- a fault other than the expected one
    refine Or.inr ⟨fun h => hfault h.1.2, ?_⟩
    rw [heq]
    exact saveStart_sand inp s

theorem SandCall.readsOwnBit_iff (c : SandCall) :
    c.ReadsOwnBit ↔ (c.Examined → bitmapRead c.state.sandBitmap c.readIndex =
      bitmapRead c.state.sandBitmap c.traceHash) := by
  unfold SandCall.ReadsOwnBit SandCall.readIndex SaveState.sandBitmap
  cases habs : c.state.sanAbstraction with
  | simplifyTrace => simp
  | coverageIncrease => simp
  | uniqueTrace =>
    cases hsched : c.state.schedule.countsPaths with
    | true => simp
    | false => simp [SanitizerAbstraction.bitmap]

theorem seen_cons (c : SandCall) (earlier : List SandCall) (hash : U32) :
    Seen (c :: earlier) hash ↔ c.Examined ∧ c.traceHash = hash ∨ Seen earlier hash := by
  simp [Seen]

/-- The bitmap has exactly the bits of the checksums seen so far. -/
structure SandInv (calls : List SandCall) (t : SaveState) : Prop where
  binaries : t.sanBinaryLength ≠ 0
  abstraction : t.sanAbstraction ≠ .coverageIncrease
  marks : ∀ hash, bitmapRead t.sandBitmap hash = true ↔ Seen calls hash

theorem SandEnabled.inv (h : SandEnabled s) : SandInv [] s := by
  refine ⟨h.binaries, h.abstraction, fun hash => ?_⟩
  rw [h.empty, bitmapRead_eq]
  simp [Seen]

theorem SandInv.kept {calls : List SandCall} {t t' : SaveState} (h : SandInv calls t)
    (hkept : SandKept t t') : SandInv calls t' := by
  refine ⟨?_, ?_, ?_⟩
  · rw [hkept.binaries]
    exact h.binaries
  · rw [hkept.abstraction]
    exact h.abstraction
  · rw [hkept.bitmap]
    exact h.marks

/-- Feeding sets one bit in the bitmap of the mode. -/
theorem feed_bitmap {hash : U32} (hfed : m.sand = s.sandStart.feed hash) :
    m.feedSan = true ∧ m.afl.sanBinaryLength = s.sanBinaryLength ∧
      m.afl.sanAbstraction = s.sanAbstraction ∧
      m.afl.sandBitmap = bitmapSet s.sandBitmap hash := by
  have hview : m.afl.sandBitmap =
      m.sand.sanAbstraction.bitmap m.sand.simplifiedNFuzz m.sand.nFuzzDup := rfl
  rw [hview, show m.feedSan = m.sand.feedSan from rfl,
    show m.afl.sanBinaryLength = m.sand.sanBinaryLength from rfl,
    show m.afl.sanAbstraction = m.sand.sanAbstraction from rfl, hfed]
  unfold SandView.feed SaveState.sandBitmap
  cases habs : s.sanAbstraction with
  | simplifyTrace => simp [SaveState.sandStart, SanitizerAbstraction.bitmap, habs]
  | uniqueTrace => simp [SaveState.sandStart, SanitizerAbstraction.bitmap, habs]
  | coverageIncrease => simp [SaveState.sandStart, SanitizerAbstraction.bitmap, habs]

/-- As long as the bitmap is exact, a call is right if and only if it reads its own bit, and then
the bitmap stays exact. -/
theorem SandInv.call {calls : List SandCall} {t : SaveState} {point : SavePoint}
    (h : SandInv calls t) (hreach : SaveReaches inp t (point, m)) :
    let c : SandCall := ⟨t, inp, m.feedSan⟩
    ((c.fed = true ↔ c.Examined ∧ ¬ Seen calls c.traceHash) ↔ c.ReadsOwnBit) ∧
      (c.ReadsOwnBit → SandInv (c :: calls) m.afl) := by
  intro c
  have hview : m.sand = (saveHead inp t).2.sand := hreach.sand
  have hunseen : ¬ Seen calls c.traceHash ↔ bitmapRead t.sandBitmap c.traceHash = false := by
    rw [← h.marks, Bool.not_eq_true]
  rw [c.readsOwnBit_iff, hunseen]
  rcases saveHead_sand inp h.binaries h.abstraction m.feedSan with
    ⟨⟨hexamined, hread⟩, hsand⟩ | ⟨hnot, hsand⟩
  · -- fed: the bit that was read is not set, and that of the trace is set now
    obtain ⟨hfed, hbin, habs, hbitmap⟩ := feed_bitmap (hview.trans hsand)
    have hbits : (c.Examined → bitmapRead t.sandBitmap c.readIndex =
        bitmapRead t.sandBitmap c.traceHash) ↔ bitmapRead t.sandBitmap c.traceHash = false :=
      ⟨fun hown => (hown hexamined).symm.trans hread, fun hbit _ => hread.trans hbit.symm⟩
    rw [hbits]
    refine ⟨⟨fun hright => (hright.mp hfed).2, fun hbit => iff_of_true hfed ⟨hexamined, hbit⟩⟩,
      fun _ => ⟨hbin ▸ h.binaries, habs ▸ h.abstraction, fun hash => ?_⟩⟩
    rw [hbitmap, bitmapRead_bitmapSet, Bool.or_eq_true, decide_eq_true_eq, h.marks, seen_cons]
    exact or_congr_left ⟨fun heq => ⟨hexamined, heq.symm⟩, fun heq => heq.2.symm⟩
  · have hkept : SandKept t m.afl := by
      have hstart : m.sand = t.sandStart := hview.trans hsand
      refine ⟨congrArg SandView.sanBinaryLength hstart, congrArg SandView.sanAbstraction hstart, ?_⟩
      show m.sand.sanAbstraction.bitmap m.sand.simplifiedNFuzz m.sand.nFuzzDup = _
      rw [hstart]
      rfl
    have hfed : c.fed = false := congrArg SandView.feedSan (hview.trans hsand)
    rw [hfed]
    refine ⟨⟨fun hright hexamined => ?_, fun hown => ?_⟩, fun hown => ?_⟩
    · -- not fed although looked at: both bits are set
      have hread : bitmapRead t.sandBitmap c.readIndex = true :=
        Bool.eq_true_of_not_eq_false fun hbit => hnot ⟨hexamined, hbit⟩
      have hhash : bitmapRead t.sandBitmap c.traceHash = true :=
        Bool.eq_true_of_not_eq_false fun hbit => Bool.false_ne_true (hright.mpr ⟨hexamined, hbit⟩)
      exact hread.trans hhash.symm
    · -- the call reads its own bit, which is set
      refine iff_of_false Bool.false_ne_true fun ⟨hexamined, hbit⟩ => hnot ⟨hexamined, ?_⟩
      exact (hown hexamined).trans hbit
    · have hinv := h.kept hkept
      refine ⟨hinv.binaries, hinv.abstraction, fun hash => ?_⟩
      rw [hinv.marks, seen_cons]
      -- a trace that was looked at and not fed has its bit already
      refine ⟨Or.inr, fun hseen => hseen.elim (fun ⟨hexamined, heq⟩ => ?_) id⟩
      rw [← heq, ← h.marks, ← hown hexamined]
      exact Bool.eq_true_of_not_eq_false fun hbit => hnot ⟨hexamined, hbit⟩

end Feeding

/-- SAND is right about every execution of a run if and only if every call reads the bit of its own
checksum: always in `SIMPLIFY_TRACE` mode, and in `UNIQUE_TRACE` mode under the schedules that count
paths. -/
theorem fedOnce_iff {s t : SaveState} {calls : List SandCall} (h : SandEnabled s)
    (hrun : SandRuns s calls t) : FedOnce calls ↔ ∀ c ∈ calls, c.ReadsOwnBit := by
  suffices hinv : (FedOnce calls ↔ ∀ c ∈ calls, c.ReadsOwnBit) ∧
      ((∀ c ∈ calls, c.ReadsOwnBit) → SandInv calls t) from hinv.1
  induction hrun with
  | start => exact ⟨by simp [FedOnce], fun _ => h.inv⟩
  | between _ hkept ih => exact ⟨ih.1, fun hall => (ih.2 hall).kept hkept⟩
  | @call calls t inp point m _ hreach _ ih =>
    rw [FedOnce, ih.1, List.forall_mem_cons]
    constructor
    · refine ⟨fun ⟨hright, hall⟩ => ⟨?_, hall⟩, fun ⟨hown, hall⟩ => ⟨?_, hall⟩⟩
      · exact ((ih.2 hall).call hreach).1.mp hright
      · exact ((ih.2 hall).call hreach).1.mpr hown
    · rintro ⟨hown, hall⟩
      exact ((ih.2 hall).call hreach).2 hown

/-! ### The same trace twice -/

section Uncounted

variable {inp : SaveInput} {m : SaveRun}

theorem Uncounted.feedUnique (h : Uncounted m) (inp : SaveInput) :
    Uncounted (m.feedUnique inp) := by
  have hclass := h.classifyIfNecessary
  unfold SaveRun.feedUnique
  dsimp only
  split
  · split
    · exact ⟨hclass.bitsCounted, hclass.virginBits, hclass.sanFault⟩
    · exact hclass
  · exact h

theorem Uncounted.runSanitizers (h : Uncounted m) (hok : ∀ i, (inp.sanRun i).2 = .ok) :
    Uncounted (m.runSanitizers inp) := by
  have hloop : ∀ (is : List ℕ) (len status : U32),
      (SaveRun.sanLoop (is.map inp.sanRun) len status).2.1 = .ok := by
    intro is
    induction is with
    | nil => exact fun _ _ => rfl
    | cons i is ih =>
      intro len status
      rw [List.map_cons, show inp.sanRun i = ((inp.sanRun i).1, Fault.ok) from
        Prod.ext rfl (hok i), SaveRun.sanLoop]
      exact ih _ _
  unfold SaveRun.runSanitizers
  dsimp only
  split
  · exact ⟨h.bitsCounted, h.virginBits, hloop _ _ _⟩
  · exact h

end Uncounted

/-- `UNIQUE_TRACE` with one sanitizer binary and everything discovered, after an execution that hit
the first byte of the map. -/
def sandState (sched : Schedule) (dup : Bytes) : SaveState where
  schedule := sched
  mapSize := .block
  traceBits := hits [0]
  virginBits := fun _ => 0
  sanBinaryLength := 1
  sanAbstraction := .uniqueTrace
  nFuzzDup := dup

def sandInput : SaveInput where
  hash64 := hashFirst
  len := 1
  fault := .ok

def sandCall (sched : Schedule) (dup : Bytes) : SandCall where
  state := sandState sched dup
  inp := sandInput
  fed := (saveHead sandInput (sandState sched dup)).2.feedSan

theorem sandCall_examined (sched : Schedule) (dup : Bytes) : (sandCall sched dup).Examined :=
  ⟨fun h => h.elim (show ¬ (1 : U32) = 0 by decide) fun h => Fault.noConfusion h.1, rfl⟩

theorem sandCall_traceHash (sched : Schedule) (dup : Bytes) :
    (sandCall sched dup).traceHash = 1 := by
  unfold SandCall.traceHash SaveInput.hash32 SaveState.sandTrace
  dsimp only [sandCall, sandInput, sandState, MapSize.block]
  rw [hashFirst_hits]
  rfl

/-- The call ends without saving anything. -/
theorem sandCall_reaches (sched : Schedule) (dup : Bytes) :
    SaveReaches sandInput (sandState sched dup)
      (.returned, (saveHead sandInput (sandState sched dup)).2) := by
  refine saveReaches_returned ?_
  rcases saveHead_cases sandInput (sandState sched dup) with
    ⟨hign, -⟩ | ⟨-, -, heq⟩ | ⟨-, hfault, -⟩
  · exact absurd hign (sandCall_examined sched dup).1
  · rw [heq, SaveRun.feedSanitizers, feedBlocks_uniqueTrace]
    · exact (((saveStart_uncounted sandInput rfl).feedUnique sandInput).runSanitizers
        fun _ => rfl).checkNewBits
    · exact congrArg SandView.sanAbstraction (saveStart_frame sandInput _).sand
  · exact absurd rfl hfault

/-- The execution is fed when the bit that is read is not set. -/
theorem sandCall_fed (sched : Schedule) {dup : Bytes}
    (hread : bitmapRead dup (sandCall sched dup).readIndex = false) :
    (sandCall sched dup).fed = true ∧
      (saveHead sandInput (sandState sched dup)).2.sand =
        (sandState sched dup).sandStart.feed 1 := by
  rcases saveHead_sand (s := sandState sched dup) sandInput Nat.one_ne_zero nofun
    (sandCall sched dup).fed with ⟨-, hsand⟩ | ⟨hnot, -⟩
  · refine ⟨(feed_bitmap hsand).1, ?_⟩
    rw [hsand]
    exact congrArg _ (sandCall_traceHash sched dup)
  · exact absurd ⟨sandCall_examined sched dup, hread⟩ hnot

theorem bitmapRead_zero (i : U32) : bitmapRead (fun _ => 0) i = false := by
  simp [bitmapRead_eq]

/-- The bitmap after the first of the two calls. -/
def sandMarked : Bytes := bitmapSet (fun _ => 0) 1

/-- The same execution comes twice. The first of the two calls feeds it under every schedule. -/
theorem sandRuns_twice (sched : Schedule) :
    ∃ t, SandRuns (sandState sched fun _ => 0)
      [sandCall sched sandMarked, sandCall sched fun _ => 0] t := by
  have hbitmap := feed_bitmap (sandCall_fed sched (bitmapRead_zero _)).2
  refine ⟨_, .call (.between (.call .start (sandCall_reaches sched _) rfl) ?_)
    (sandCall_reaches sched _) rfl⟩
  exact ⟨hbitmap.2.1.symm, hbitmap.2.2.1.symm, hbitmap.2.2.2.symm⟩

theorem sandState_enabled (sched : Schedule) : SandEnabled (sandState sched fun _ => 0) :=
  ⟨Nat.one_ne_zero, nofun, rfl⟩

/-- Under a schedule that counts paths only the first of two equal executions is fed. -/
theorem fedOnce_iff_twice :
    FedOnce [sandCall .fast sandMarked, sandCall .fast fun _ => 0] := by
  obtain ⟨t, hrun⟩ := sandRuns_twice .fast
  refine (fedOnce_iff (sandState_enabled .fast) hrun).mpr fun c hc => ?_
  rcases List.mem_cons.mp hc with rfl | hc
  · exact fun _ _ => Or.inl rfl
  · rw [List.mem_singleton.mp hc]
    exact fun _ _ => Or.inl rfl

/-- Under the default schedule the second execution is fed again. -/
theorem not_fedOnce_explore :
    SandEnabled (sandState .explore fun _ => 0) ∧
      (∃ t, SandRuns (sandState .explore fun _ => 0)
        [sandCall .explore sandMarked, sandCall .explore fun _ => 0] t) ∧
      ¬ FedOnce [sandCall .explore sandMarked, sandCall .explore fun _ => 0] := by
  refine ⟨sandState_enabled .explore, sandRuns_twice .explore, fun honce => ?_⟩
  have hindex : (sandCall .explore sandMarked).readIndex = 0 := by
    rw [SandCall.readIndex, if_pos (by decide)]
  have hread : bitmapRead sandMarked (sandCall .explore sandMarked).readIndex = false := by
    rw [hindex, sandMarked, bitmapRead_bitmapSet, bitmapRead_zero]
    decide
  have hseen : (sandCall .explore fun _ => 0).traceHash =
      (sandCall .explore sandMarked).traceHash :=
    (sandCall_traceHash .explore _).trans (sandCall_traceHash .explore _).symm
  exact (honce.1.mp (sandCall_fed .explore hread).1).2 ⟨sandCall .explore fun _ => 0,
    List.mem_singleton.mpr rfl, sandCall_examined .explore _, hseen⟩

end AflPlusPlus
