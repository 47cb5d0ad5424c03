import AflPlusPlus.Coverage.Accumulate
import AflPlusPlus.Queue.Save

/-!
# What the pieces of `save_if_interesting` do

Calibration and the calculations of checksum and new bits leave most of the state alone. For the
code between two labels it is stated which label comes next and what has been counted: entries of
the queue, timeouts, crashes and backward jumps.
-/

namespace AflPlusPlus
open Lib Coverage

/-! ### What a calibration leaves alone -/

/-- `s'` differs from `s` only in what calibration and scoring write. -/
structure CalibrationFrame (s s' : AflState) : Prop where
  rest : s' = { s with
    queueBuf := s'.queueBuf
    topRated := s'.topRated
    scoreChanged := s'.scoreChanged
    tcUnderflow := s'.tcUnderflow
    traceBits := s'.traceBits
    firstTrace := s'.firstTrace
    virginBits := s'.virginBits
    varBytes := s'.varBytes
    bitmapChanged := s'.bitmapChanged
    queuedVariable := s'.queuedVariable
    queuedWithCov := s'.queuedWithCov
    totalBitmapSize := s'.totalBitmapSize
    totalBitmapEntries := s'.totalBitmapEntries }

theorem CalibrationFrame.refl (s : AflState) : CalibrationFrame s s := ⟨rfl⟩

theorem CalibrationFrame.trans {s t u : AflState} (h : CalibrationFrame s t)
    (h' : CalibrationFrame t u) : CalibrationFrame s u := by
  refine ⟨?_⟩
  rw [h'.rest, h.rest]

theorem ScoreFrame.calibrationFrame {s t : AflState} (h : ScoreFrame s t) :
    CalibrationFrame s t := by
  refine ⟨?_⟩
  rw [h.rest]

theorem markVarBytes_frame (s : AflState) : CalibrationFrame s (markVarBytes s) := by
  refine forLoop_invariant (CalibrationFrame s) (.refl s) fun i t _ ht => ht.trans ?_
  split
  · exact ⟨rfl⟩
  · exact .refl t

theorem calibrateStart_rest (s : AflState) (q : ℕ) :
    CalibrationFrame s (calibrateStart s q).afl := by
  unfold calibrateStart
  dsimp only
  split <;> split <;> exact ⟨rfl⟩

theorem calibrateCompare_frame (hash64 : Bytes → U64) (q : ℕ) (fault : Fault) (s : AflState)
    (c : CalLoop) : CalibrationFrame s (calibrateCompare hash64 q fault s c).afl := by
  unfold calibrateCompare
  dsimp only
  split
  · split
    · exact CalibrationFrame.trans ⟨rfl⟩ (markVarBytes_frame _)
    · exact ⟨rfl⟩
  · exact ⟨rfl⟩

theorem calibrateRun_frame (hash64 : Bytes → U64) (q : ℕ) (inp : CalInput) (k : ℕ) (c : CalLoop) :
    CalibrationFrame c.afl (calibrateRun hash64 q inp k c).afl := by
  have htrace : ∀ trace, CalibrationFrame c.afl { c.afl with traceBits := trace } :=
    fun trace => ⟨rfl⟩
  unfold calibrateRun
  dsimp only
  split
  · exact .refl _
  · split
    · exact htrace _
    · split
      · exact htrace _
      · exact (htrace _).trans (calibrateCompare_frame hash64 q _ _ c)

theorem calibrateFinish_frame (firstRun : Bool) (q : ℕ) (inp : CalInput) (c : CalLoop) :
    CalibrationFrame c.afl (calibrateFinish firstRun q inp c).2 := by
  unfold calibrateFinish
  split
  · exact .refl _
  · exact CalibrationFrame.trans ⟨rfl⟩ (updateBitmapScore_frame _ q true).calibrationFrame

theorem calibrateCase_frame (hash64 : Bytes → U64) (s : AflState) (q : ℕ) (inp : CalInput) :
    CalibrationFrame s (calibrateCase hash64 s q inp).2 := by
  have hloop : CalibrationFrame s (calibrateLoop hash64 s q inp).afl :=
    forLoop_invariant (fun c : CalLoop => CalibrationFrame s c.afl) (calibrateStart_rest s q)
      fun k c _ hc => hc.trans (calibrateRun_frame hash64 q inp k c)
  have hfinish := hloop.trans (calibrateFinish_frame ((s.queueBuf q).execCksum = 0) q inp _)
  rw [calibrateCase]
  dsimp only
  generalize (calibrateFinish _ q inp (calibrateLoop hash64 s q inp)).2 = t at hfinish ⊢
  refine hfinish.trans ?_
  split <;> split <;> exact ⟨rfl⟩

theorem markVarBytes_queueBuf (s : AflState) : (markVarBytes s).queueBuf = s.queueBuf := by
  refine forLoop_frame AflState.queueBuf fun i t _ => ?_
  split
  · rfl
  · rfl

/-- What calibration leaves alone in the entries: the length and the fuzz level. -/
def QueueEntry.sizes (e : QueueEntry) : U32 × U32 := (e.len, e.fuzzLevel)

def AflState.sizes (s : AflState) : ℕ → U32 × U32 := fun r => (s.queueBuf r).sizes

theorem AflState.modify_sizes (s : AflState) (q : ℕ) {f : QueueEntry → QueueEntry}
    (h : ∀ e, (f e).sizes = e.sizes) : (s.modify q f).sizes = s.sizes :=
  funext fun r => s.modify_queueBuf_frame q r f QueueEntry.sizes h

theorem calibrateCompare_sizes (hash64 : Bytes → U64) (q : ℕ) (fault : Fault) (s : AflState)
    (c : CalLoop) : (calibrateCompare hash64 q fault s c).afl.sizes = s.sizes := by
  have hset : ∀ (t : AflState) (x : U64),
      (t.modify q fun e => { e with execCksum := x }).sizes = t.sizes :=
    fun t _ => t.modify_sizes q fun _ => rfl
  unfold calibrateCompare
  dsimp only
  split
  · split
    · exact congrArg (fun buf r => QueueEntry.sizes (buf r)) (markVarBytes_queueBuf _)
    · exact hset _ _
  · rfl

theorem calibrateLoop_sizes (hash64 : Bytes → U64) (s : AflState) (q : ℕ) (inp : CalInput) :
    (calibrateLoop hash64 s q inp).afl.sizes = s.sizes := by
  have hstart : (calibrateStart s q).afl.sizes = s.sizes := by
    have hcksum : ∀ t : AflState, (t.modify q fun e => { e with execCksum := 0 }).sizes = t.sizes :=
      fun t => t.modify_sizes q fun _ => rfl
    have hcal : ∀ t : AflState,
        (t.modify q fun e => { e with calFailed := e.calFailed + 1 }).sizes = t.sizes :=
      fun t => t.modify_sizes q fun _ => rfl
    unfold calibrateStart
    dsimp only
    split <;> split
    · exact (hcal _).trans (hcksum s)
    · exact (hcal _).trans (hcksum s)
    · exact hcal s
    · exact hcal s
  refine (forLoop_frame (fun c : CalLoop => c.afl.sizes) fun k c _ => ?_).trans hstart
  unfold calibrateRun
  split
  · rfl
  · dsimp only
    split
    · rfl
    · split
      · rfl
      · exact calibrateCompare_sizes hash64 q _ _ c

theorem calibrateCase_sizes (hash64 : Bytes → U64) (s : AflState) (q : ℕ) (inp : CalInput) :
    (calibrateCase hash64 s q inp).2.sizes = s.sizes := by
  have hfinish : (calibrateFinish ((s.queueBuf q).execCksum = 0) q inp
      (calibrateLoop hash64 s q inp)).2.sizes = s.sizes := by
    refine Eq.trans ?_ (calibrateLoop_sizes hash64 s q inp)
    unfold calibrateFinish
    split
    · rfl
    · dsimp only
      funext r
      refine (congrArg QueueEntry.sizes ((updateBitmapScore_frame _ q true).entry r)).trans ?_
      by_cases hr : r = q
      · subst hr
        simp [AflState.sizes, QueueEntry.sizes]
      · simp [AflState.sizes, QueueEntry.sizes, AflState.modify_queueBuf_ne _ _ hr]
  have hcov : ∀ t : AflState, (t.modify q fun e => { e with hasNewCov := true }).sizes = t.sizes :=
    fun t => t.modify_sizes q fun _ => rfl
  rw [calibrateCase]
  dsimp only
  generalize (calibrateFinish _ q inp (calibrateLoop hash64 s q inp)).2 = t at hfinish ⊢
  split <;> split
  · exact (hcov _).trans hfinish
  · exact (hcov _).trans hfinish
  · exact hfinish
  · exact hfinish

/-- Only an execution that could not be started makes a calibration fail. -/
theorem calibrateCase_ne_error {inp : CalInput} (h : ∀ k, (inp.run k).1 ≠ .error)
    (hash64 : Bytes → U64) (s : AflState) (q : ℕ) : (calibrateCase hash64 s q inp).1 ≠ .error := by
  have hloop : (calibrateLoop hash64 s q inp).fault ≠ .error := by
    refine forLoop_invariant (fun c : CalLoop => c.fault ≠ .error) ?_ fun k c _ hc => ?_
    · unfold calibrateStart
      dsimp only
      split <;> split <;> exact nofun
    · unfold calibrateRun
      split
      · exact hc
      · dsimp only
        split
        · exact h k
        · split
          · exact nofun
          · unfold calibrateCompare
            dsimp only
            split
            · split <;> exact h k
            · exact h k
  have hresult : ∀ (b : Bool) (fault : Fault), fault ≠ .error →
      (if b = true then Fault.nobits else fault) ≠ .error := by
    intro b fault hfault
    cases b
    · exact hfault
    · exact nofun
  unfold calibrateCase calibrateFinish
  dsimp only
  by_cases hab : (calibrateLoop hash64 s q inp).aborted = true
  · rw [if_pos hab]
    exact hloop
  · rw [if_neg hab]
    exact hresult _ _ hloop

/-! ### Counting what a call adds -/

/-- What is counted during one call. -/
@[ext]
structure SaveTotals where
  queuedItems : ℕ
  totalTmouts : U64
  totalCrashes : U64
  jumps : ℕ

def SaveRun.totals (m : SaveRun) : SaveTotals where
  queuedItems := m.afl.queuedItems
  totalTmouts := m.afl.totalTmouts
  totalCrashes := m.afl.totalCrashes
  jumps := m.jumps

def SaveState.totals (s : SaveState) : SaveTotals where
  queuedItems := s.queuedItems
  totalTmouts := s.totalTmouts
  totalCrashes := s.totalCrashes
  jumps := 0

namespace SaveTotals

/-- From `v` to `w` there are at most so many more entries, timeouts, crashes and jumps. -/
structure Grown (v w : SaveTotals) (entries tmouts crashes jumps : ℕ) : Prop where
  queuedItems : w.queuedItems ≤ v.queuedItems + entries
  totalTmouts : (w.totalTmouts - v.totalTmouts).toNat ≤ tmouts
  totalCrashes : (w.totalCrashes - v.totalCrashes).toNat ≤ crashes
  jumps : w.jumps ≤ v.jumps + jumps

variable {v w : SaveTotals} {entries tmouts crashes jumps : ℕ}

theorem Grown.refl (v : SaveTotals) : Grown v v 0 0 0 0 :=
  ⟨Nat.le_refl _, by simp, by simp, Nat.le_refl _⟩

/-- Larger bounds; between numerals the arguments are found. -/
theorem Grown.mono (h : Grown v w entries tmouts crashes jumps)
    {entries' tmouts' crashes' jumps' : ℕ} (he : entries ≤ entries' := by omega)
    (ht : tmouts ≤ tmouts' := by omega) (hc : crashes ≤ crashes' := by omega)
    (hj : jumps ≤ jumps' := by omega) : Grown v w entries' tmouts' crashes' jumps' :=
  ⟨by have := h.queuedItems; omega, h.totalTmouts.trans ht, h.totalCrashes.trans hc,
    by have := h.jumps; omega⟩

theorem toNat_succ_sub_le (x y : U64) : (x + 1 - y).toNat ≤ (x - y).toNat + 1 := by bv_omega

theorem Grown.entry (h : Grown v w entries tmouts crashes jumps) :
    Grown v { w with queuedItems := w.queuedItems + 1 } (entries + 1) tmouts crashes jumps :=
  ⟨Nat.succ_le_succ h.queuedItems, h.totalTmouts, h.totalCrashes, h.jumps⟩

theorem Grown.tmout (h : Grown v w entries tmouts crashes jumps) :
    Grown v { w with totalTmouts := w.totalTmouts + 1 } entries (tmouts + 1) crashes jumps :=
  ⟨h.queuedItems, (toNat_succ_sub_le _ _).trans (Nat.succ_le_succ h.totalTmouts), h.totalCrashes,
    h.jumps⟩

theorem Grown.crash (h : Grown v w entries tmouts crashes jumps) :
    Grown v { w with totalCrashes := w.totalCrashes + 1 } entries tmouts (crashes + 1) jumps :=
  ⟨h.queuedItems, h.totalTmouts, (toNat_succ_sub_le _ _).trans (Nat.succ_le_succ h.totalCrashes),
    h.jumps⟩

end SaveTotals

open SaveTotals

/-! ### The calculations that save work only once -/

/-- `m'` differs from `m` only in what the checksum and the new bits are calculated with, and its
trace simplifies to the same map. -/
structure CalcFrame (m m' : SaveRun) : Prop where
  rest : m' = { m with
    afl := { m.afl with
      traceBits := m'.afl.traceBits
      virginBits := m'.afl.virginBits
      bitmapChanged := m'.afl.bitmapChanged
      nFuzz := m'.afl.nFuzz }
    classified := m'.classified
    bitsCounted := m'.bitsCounted
    cksumed := m'.cksumed
    newBits := m'.newBits
    cksum := m'.cksum }
  simplified : simplifyTrace64 m.afl.mapSize.val m'.afl.traceBits =
    simplifyTrace64 m.afl.mapSize.val m.afl.traceBits

theorem simplifyTrace64_classifyCounts64 (mapSize : MapSize) (trace : Bytes) :
    simplifyTrace64 mapSize.val (classifyCounts64 mapSize.val trace) =
      simplifyTrace64 mapSize.val trace :=
  simplifyTraceW_classifyCountsW (by decide) (by decide) classifyWord64_classifiesBytes
    simplifiesZero_64 mapSize.eight_dvd trace

section Calculations

variable {m m' m'' : SaveRun} {inp : SaveInput}

theorem CalcFrame.refl (m : SaveRun) : CalcFrame m m := ⟨rfl, rfl⟩

theorem CalcFrame.mapSize (h : CalcFrame m m') : m'.afl.mapSize = m.afl.mapSize := by
  rw [h.rest]

theorem CalcFrame.totals (h : CalcFrame m m') : m'.totals = m.totals := by
  rw [h.rest]
  rfl

theorem CalcFrame.fault (h : CalcFrame m m') : m'.fault = m.fault := by
  rw [h.rest]

theorem CalcFrame.crashMode (h : CalcFrame m m') : m'.afl.crashMode = m.afl.crashMode := by
  rw [h.rest]

theorem CalcFrame.sanFault (h : CalcFrame m m') : m'.sanFault = m.sanFault := by
  rw [h.rest]

theorem CalcFrame.reruns (h : CalcFrame m m') : m'.reruns = m.reruns := by
  rw [h.rest]

theorem CalcFrame.trans (h : CalcFrame m m') (h' : CalcFrame m' m'') : CalcFrame m m'' := by
  refine ⟨?_, ?_⟩
  · rw [h'.rest, h.rest]
  · have hsimplified := h'.simplified
    rw [h.mapSize] at hsimplified
    exact hsimplified.trans h.simplified

theorem classifyIfNecessary_frame (m : SaveRun) : CalcFrame m m.classifyIfNecessary := by
  unfold SaveRun.classifyIfNecessary
  split
  · exact .refl m
  · exact ⟨rfl, simplifyTrace64_classifyCounts64 _ _⟩

theorem calculateCksumIfNecessary_frame (hash64 : Bytes → U64) (m : SaveRun) :
    CalcFrame m (m.calculateCksumIfNecessary hash64) := by
  unfold SaveRun.calculateCksumIfNecessary
  split
  · exact .refl m
  · exact (classifyIfNecessary_frame m).trans ⟨rfl, rfl⟩

theorem calculateNewBitsIfNecessary_frame (m : SaveRun) :
    CalcFrame m m.calculateNewBitsIfNecessary := by
  unfold SaveRun.calculateNewBitsIfNecessary
  split
  · exact .refl m
  · split
    · exact ⟨rfl, rfl⟩
    · refine ⟨rfl, ?_⟩
      unfold AflState.hasNewBitsUnclassified Build.hasNewBitsUnclassified
      split
      · rfl
      · exact simplifyTrace64_classifyCounts64 _ _

/-! None of these calculations touches the hit counters. -/

theorem classifyIfNecessary_nFuzz (m : SaveRun) :
    m.classifyIfNecessary.afl.nFuzz = m.afl.nFuzz := by
  unfold SaveRun.classifyIfNecessary
  split <;> rfl

theorem calculateCksumIfNecessary_nFuzz (hash64 : Bytes → U64) (m : SaveRun) :
    (m.calculateCksumIfNecessary hash64).afl.nFuzz = m.afl.nFuzz := by
  unfold SaveRun.calculateCksumIfNecessary
  split
  · rfl
  · exact classifyIfNecessary_nFuzz m

theorem calculateNewBitsIfNecessary_nFuzz (m : SaveRun) :
    m.calculateNewBitsIfNecessary.afl.nFuzz = m.afl.nFuzz := by
  unfold SaveRun.calculateNewBitsIfNecessary
  split
  · rfl
  · split <;> rfl

theorem updatePathFrequency_frame (inp : SaveInput) (m : SaveRun) :
    CalcFrame m (m.updatePathFrequency inp) := by
  unfold SaveRun.updatePathFrequency
  split
  · refine (calculateCksumIfNecessary_frame inp.hash64 m).trans ⟨?_, ?_⟩
    all_goals
      unfold countPath
      dsimp only
      split <;> rfl
  · exact .refl m

/-! ### One label after the other -/

/-- `m'` has counted the same as `m` and has the same result of the sanitizers. -/
structure FeedFrame (m m' : SaveRun) : Prop where
  totals : m'.totals = m.totals
  sanFault : m'.sanFault = m.sanFault
  nFuzz : m'.afl.nFuzz = m.afl.nFuzz

theorem CalcFrame.feedFrame (h : CalcFrame m m') (hcount : m'.afl.nFuzz = m.afl.nFuzz) :
    FeedFrame m m' := ⟨h.totals, h.sanFault, hcount⟩

theorem FeedFrame.trans (h : FeedFrame m m') (h' : FeedFrame m' m'') : FeedFrame m m'' :=
  ⟨h'.totals.trans h.totals, h'.sanFault.trans h.sanFault, h'.nFuzz.trans h.nFuzz⟩

theorem feedSimplified_frame (inp : SaveInput) (m : SaveRun) :
    FeedFrame m (m.feedSimplified inp) := by
  unfold SaveRun.feedSimplified
  dsimp only
  split
  · split <;> exact ⟨rfl, rfl, rfl⟩
  · exact ⟨rfl, rfl, rfl⟩

theorem feedCoverage_frame (m : SaveRun) : FeedFrame m m.feedCoverage := by
  have hbits := (calculateNewBitsIfNecessary_frame m).feedFrame
    (calculateNewBitsIfNecessary_nFuzz m)
  unfold SaveRun.feedCoverage
  dsimp only
  split
  · split
    · exact hbits.trans ⟨rfl, rfl, rfl⟩
    · exact hbits
  · exact ⟨rfl, rfl, rfl⟩

theorem feedUnique_frame (inp : SaveInput) (m : SaveRun) : FeedFrame m (m.feedUnique inp) := by
  have hclass := (classifyIfNecessary_frame m).feedFrame (classifyIfNecessary_nFuzz m)
  unfold SaveRun.feedUnique
  dsimp only
  split
  · split
    · exact hclass.trans ⟨rfl, rfl, rfl⟩
    · exact hclass
  · exact ⟨rfl, rfl, rfl⟩

theorem feed_frame (inp : SaveInput) (m : SaveRun) :
    FeedFrame m (((m.feedSimplified inp).feedCoverage).feedUnique inp) :=
  ((feedSimplified_frame inp m).trans (feedCoverage_frame _)).trans (feedUnique_frame inp _)

/-- The sanitizers report a crash or nothing, never a timeout. -/
theorem sanLoop_fault (runs : List (U32 × Fault)) (len status : U32) :
    (SaveRun.sanLoop runs len status).2.1 ≠ .tmout := by
  induction runs generalizing len status with
  | nil => exact nofun
  | cons r runs ih =>
    rw [SaveRun.sanLoop]
    split
    · exact nofun
    · exact ih _ _

theorem feedSanitizers_cases (inp : SaveInput) {m : SaveRun} (h : m.sanFault = .ok) :
    (m.feedSanitizers inp).totals = m.totals ∧ (m.feedSanitizers inp).sanFault ≠ .tmout := by
  have hfeed := feed_frame inp m
  unfold SaveRun.feedSanitizers SaveRun.runSanitizers
  split
  · exact ⟨hfeed.totals, sanLoop_fault _ _ _⟩
  · refine ⟨hfeed.totals, ?_⟩
    rw [hfeed.sanFault, h]
    exact nofun

theorem feedSanitizers_nFuzz (inp : SaveInput) (m : SaveRun) :
    (m.feedSanitizers inp).afl.nFuzz = m.afl.nFuzz := by
  rw [← (feed_frame inp m).nFuzz]
  unfold SaveRun.feedSanitizers SaveRun.runSanitizers
  split <;> rfl

/-- A new entry is added, and `fault` stays what it was. -/
theorem saveToQueue_cases (inp : SaveInput) (m : SaveRun) :
    ((m.saveToQueue inp).1 = .fatal ∨ (m.saveToQueue inp).1 = .maySaveFault) ∧
      (m.saveToQueue inp).2.fault = m.fault ∧
      (m.saveToQueue inp).2.totals =
        { m.totals with queuedItems := m.totals.queuedItems + 1 } := by
  have hcalc := (calculateCksumIfNecessary_frame inp.hash64 m).trans
    (calculateNewBitsIfNecessary_frame _)
  have hentry : ∀ (m : SaveRun) (q : ℕ) (s : AflState) (c : CalInput),
      (calibrateCase inp.hash64 (m.fillEntry q s) q c).2.queuedItems = s.queuedItems ∧
        (calibrateCase inp.hash64 (m.fillEntry q s) q c).2.totalCrashes = s.totalCrashes := by
    intro m q s c
    have hfill : (m.fillEntry q s).queuedItems = s.queuedItems ∧
        (m.fillEntry q s).totalCrashes = s.totalCrashes := by
      unfold SaveRun.fillEntry
      dsimp only
      split <;> split <;> exact ⟨rfl, rfl⟩
    have hcal := calibrateCase_frame inp.hash64 (m.fillEntry q s) q c
    constructor
    · rw [hcal.rest]
      exact hfill.1
    · rw [hcal.rest]
      exact hfill.2
  refine ⟨?_, ?_, ?_⟩
  · unfold SaveRun.saveToQueue
    dsimp only
    split
    · exact Or.inl rfl
    · exact Or.inr rfl
  · rw [← hcalc.fault]
    unfold SaveRun.saveToQueue
    dsimp only
    split <;> rfl
  · rw [← hcalc.totals]
    unfold SaveRun.saveToQueue
    dsimp only
    obtain ⟨hitems, hcrashes⟩ := hentry _ _ _ _
    split <;> exact SaveTotals.ext hitems rfl hcrashes rfl

/-- The timeout branch requeues the input: nothing keeps it from running the target again, this run
does not time out and does not crash, and timeouts are to be kept. -/
def SaveState.RequeuesTimeout (s : SaveState) (r : Rerun) : Prop :=
  s.savedHangs < keepUniqueHang ∧
    (s.nonInstrumentedMode = true ∨
      (newBitsLoopW 64 s.mapSize.real (simplifyTrace64 s.mapSize.val s.traceBits)
        s.virginTmout).1 ≠ 0) ∧
    s.execTmout < s.hangTmout ∧ s.aflKeepTimeouts = true ∧
    (r.stopSoon = true ∨ r.fault ≠ .tmout ∧ r.fault ≠ .crash)

theorem CalcFrame.requeuesTimeout (h : CalcFrame m m') (r : Rerun) :
    m'.afl.RequeuesTimeout r ↔ m.afl.RequeuesTimeout r := by
  have hmap : newBitsLoopW 64 m'.afl.mapSize.real
      (simplifyTrace64 m'.afl.mapSize.val m'.afl.traceBits) m'.afl.virginTmout =
      newBitsLoopW 64 m.afl.mapSize.real
        (simplifyTrace64 m.afl.mapSize.val m.afl.traceBits) m.afl.virginTmout := by
    rw [← h.simplified, h.rest]
  unfold SaveState.RequeuesTimeout
  rw [hmap, h.rest]

theorem hasNewTimeoutBits_cases (s : AflState) :
    (s.hasNewTimeoutBits.1 ≠ 0 ↔ s.nonInstrumentedMode = true ∨
      (newBitsLoopW 64 s.mapSize.real (simplifyTrace64 s.mapSize.val s.traceBits)
        s.virginTmout).1 ≠ 0) ∧
      s.hasNewTimeoutBits.2.queuedItems = s.queuedItems ∧
      s.hasNewTimeoutBits.2.totalCrashes = s.totalCrashes := by
  unfold AflState.hasNewTimeoutBits
  cases hmode : s.nonInstrumentedMode with
  | true => exact ⟨iff_of_true (show (1 : U8) ≠ 0 by decide) (Or.inl rfl), rfl, rfl⟩
  | false => exact ⟨⟨Or.inr, fun h => h.resolve_left Bool.false_ne_true⟩, rfl, rfl⟩

/-- What follows from the run with the hang timeout. -/
theorem rerunTimeout_cases (inp : SaveInput) (m : SaveRun) :
    (m.afl.aflKeepTimeouts = true ∧ ((inp.rerun m.reruns).stopSoon = true ∨
          (inp.rerun m.reruns).fault ≠ .tmout ∧ (inp.rerun m.reruns).fault ≠ .crash)) ∧
        (m.rerunTimeout inp).1 = .saveToQueue ∧ (m.rerunTimeout inp).2.fault = m.fault ∧
        (m.rerunTimeout inp).2.totals = { m.totals with jumps := m.totals.jumps + 1 } ∨
      ¬ (m.afl.aflKeepTimeouts = true ∧ ((inp.rerun m.reruns).stopSoon = true ∨
          (inp.rerun m.reruns).fault ≠ .tmout ∧ (inp.rerun m.reruns).fault ≠ .crash)) ∧
        ((m.rerunTimeout inp).1 = .returned ∨ (m.rerunTimeout inp).1 = .keepAsCrash) ∧
        (m.rerunTimeout inp).2.totals = m.totals := by
  unfold SaveRun.rerunTimeout
  dsimp only
  split
  · rename_i hcrash
    simp only [Bool.and_eq_true, Bool.not_eq_true', decide_eq_true_eq] at hcrash
    refine Or.inr ⟨?_, Or.inr rfl, rfl⟩
    rintro ⟨-, hstop | ⟨-, hne⟩⟩
    · rw [hcrash.1] at hstop
      cases hstop
    · exact hne hcrash.2
  · rename_i hcrash
    split
    · rename_i hagain
      split
      · rename_i hkeep
        refine Or.inl ⟨⟨hkeep, ?_⟩, rfl, rfl, rfl⟩
        simp only [Bool.and_eq_true, Bool.not_eq_true', decide_eq_true_eq] at hcrash
        simp only [Bool.or_eq_true, decide_eq_true_eq] at hagain
        by_cases hstop : (inp.rerun m.reruns).stopSoon = true
        · exact Or.inl hstop
        · exact Or.inr ⟨hagain.resolve_left hstop,
            fun h => hcrash ⟨Bool.eq_false_iff.mpr hstop, h⟩⟩
      · rename_i hkeep
        exact Or.inr ⟨fun h => hkeep h.1, Or.inl rfl, rfl⟩
    · rename_i hagain
      simp only [Bool.or_eq_true, decide_eq_true_eq, not_or, not_not] at hagain
      refine Or.inr ⟨?_, Or.inl rfl, rfl⟩
      rintro ⟨-, hstop | ⟨hne, -⟩⟩
      · exact hagain.1 hstop
      · exact hne hagain.2

/-- A timeout is counted. What follows is either the jump, or leads to the end. -/
theorem saveTimeout_cases (inp : SaveInput) (m : SaveRun) :
    m.afl.RequeuesTimeout (inp.rerun m.reruns) ∧ (m.saveTimeout inp).1 = .saveToQueue ∧
        (m.saveTimeout inp).2.fault = m.fault ∧
        (m.saveTimeout inp).2.totals = { m.totals with
          totalTmouts := m.totals.totalTmouts + 1
          jumps := m.totals.jumps + 1 } ∨
      ¬ m.afl.RequeuesTimeout (inp.rerun m.reruns) ∧
        ((m.saveTimeout inp).1 = .returned ∨ (m.saveTimeout inp).1 = .keepAsCrash) ∧
        (m.saveTimeout inp).2.totals =
          { m.totals with totalTmouts := m.totals.totalTmouts + 1 } := by
  obtain ⟨hnew, hitems, hcrashes⟩ := hasNewTimeoutBits_cases m.afl.toAflState
  unfold SaveState.RequeuesTimeout SaveRun.saveTimeout
  rw [← hnew]
  dsimp only
  split
  · rename_i hhangs
    exact Or.inr ⟨fun h => absurd h.1 (BitVec.not_lt.mpr hhangs), Or.inl rfl, rfl⟩
  · rename_i hhangs
    split
    · rename_i hzero
      exact Or.inr ⟨fun h => h.2.1 hzero, Or.inl rfl, SaveTotals.ext hitems rfl hcrashes rfl⟩
    · rename_i hzero
      split
      · rename_i htmout
        rcases rerunTimeout_cases inp { m with afl := { m.afl with
            toAflState := m.afl.toAflState.hasNewTimeoutBits.2
            totalTmouts := m.afl.totalTmouts + 1 } } with
          ⟨hback, hpoint, hfault, htotals⟩ | ⟨hback, hpoint, htotals⟩
        · refine Or.inl ⟨⟨BitVec.not_le.mp hhangs, hzero, htmout, hback⟩, hpoint, hfault, ?_⟩
          exact htotals.trans (SaveTotals.ext hitems rfl hcrashes rfl)
        · refine Or.inr ⟨fun h => hback h.2.2.2, hpoint, ?_⟩
          exact htotals.trans (SaveTotals.ext hitems rfl hcrashes rfl)
      · rename_i htmout
        exact Or.inr ⟨fun h => htmout h.2.2.1, Or.inl rfl, SaveTotals.ext hitems rfl hcrashes rfl⟩

theorem keepAsCrash_cases (m : SaveRun) :
    m.keepAsCrash.1 = .returned ∧ m.keepAsCrash.2.totals =
      { m.totals with totalCrashes := m.totals.totalCrashes + 1 } := by
  have hbits : ∀ s : AflState, s.hasNewCrashBits.2.queuedItems = s.queuedItems ∧
      s.hasNewCrashBits.2.totalCrashes = s.totalCrashes := by
    intro s
    unfold AflState.hasNewCrashBits
    split <;> exact ⟨rfl, rfl⟩
  unfold SaveRun.keepAsCrash
  dsimp only
  split
  · exact ⟨rfl, rfl⟩
  · obtain ⟨hitems, hcrashes⟩ := hbits
      { m.afl.toAflState with totalCrashes := m.afl.totalCrashes + 1 }
    split <;> exact ⟨rfl, SaveTotals.ext hitems rfl hcrashes rfl⟩

/-- `m'` differs from `m` only in what the treatment of timeouts and crashes writes. -/
structure FaultFrame (m m' : SaveRun) : Prop where
  rest : m' = { m with
    afl := { m.afl with
      traceBits := m'.afl.traceBits
      virginTmout := m'.afl.virginTmout
      virginCrash := m'.afl.virginCrash
      totalTmouts := m'.afl.totalTmouts
      savedTmouts := m'.afl.savedTmouts
      savedHangs := m'.afl.savedHangs
      totalCrashes := m'.afl.totalCrashes
      savedCrashes := m'.afl.savedCrashes }
    len := m'.len
    classified := m'.classified
    bitsCounted := m'.bitsCounted
    cksumed := m'.cksumed
    reruns := m'.reruns
    jumps := m'.jumps }

theorem FaultFrame.refl (m : SaveRun) : FaultFrame m m := ⟨rfl⟩

theorem FaultFrame.trans (h : FaultFrame m m') (h' : FaultFrame m' m'') : FaultFrame m m'' := by
  refine ⟨?_⟩
  rw [h'.rest, h.rest]

theorem FaultFrame.nFuzz (h : FaultFrame m m') : m'.afl.nFuzz = m.afl.nFuzz := by
  rw [h.rest]

theorem rerunTimeout_faultFrame (inp : SaveInput) (m : SaveRun) :
    FaultFrame m (m.rerunTimeout inp).2 := by
  unfold SaveRun.rerunTimeout
  dsimp only
  split
  · exact ⟨rfl⟩
  · split
    · split <;> exact ⟨rfl⟩
    · exact ⟨rfl⟩

theorem saveTimeout_faultFrame (inp : SaveInput) (m : SaveRun) :
    FaultFrame m (m.saveTimeout inp).2 := by
  have hbits : ∀ a : AflState, a.hasNewTimeoutBits.2 = { a with
      traceBits := a.hasNewTimeoutBits.2.traceBits
      virginTmout := a.hasNewTimeoutBits.2.virginTmout } := by
    intro a
    unfold AflState.hasNewTimeoutBits
    split <;> rfl
  unfold SaveRun.saveTimeout
  dsimp only
  split
  · exact ⟨rfl⟩
  · rw [hbits]
    split
    · exact ⟨rfl⟩
    · split
      · exact FaultFrame.trans ⟨rfl⟩ (rerunTimeout_faultFrame inp _)
      · exact ⟨rfl⟩

theorem keepAsCrash_faultFrame (m : SaveRun) : FaultFrame m m.keepAsCrash.2 := by
  have hbits : ∀ a : AflState, a.hasNewCrashBits.2 = { a with
      traceBits := a.hasNewCrashBits.2.traceBits
      virginCrash := a.hasNewCrashBits.2.virginCrash } := by
    intro a
    unfold AflState.hasNewCrashBits
    split <;> rfl
  unfold SaveRun.keepAsCrash
  dsimp only
  split
  · exact ⟨rfl⟩
  · rw [hbits]
    split <;> exact ⟨rfl⟩

theorem maySaveFault_faultFrame (inp : SaveInput) (m : SaveRun) :
    FaultFrame m (m.maySaveFault inp).2 := by
  unfold SaveRun.maySaveFault
  split
  · exact saveTimeout_faultFrame inp m
  · exact .refl m
  · exact .refl m
  · exact .refl m

/-! ### The whole call -/

/-- The call is over, or it goes on with what the sanitizers said and nothing counted yet. In crash
mode the expected crash is counted. -/
theorem checkNewBits_cases {m : SaveRun} (h : m.sanFault ≠ .tmout) :
    m.checkNewBits.1 = .returned ∧ Grown m.totals m.checkNewBits.2.totals 0 0 1 0 ∨
      (m.checkNewBits.1 = .saveToQueue ∨ m.checkNewBits.1 = .maySaveFault) ∧
        m.checkNewBits.2.totals = m.totals ∧ m.checkNewBits.2.fault ≠ .tmout := by
  have hcalc := calculateNewBitsIfNecessary_frame m
  rw [← hcalc.totals]
  rw [← hcalc.sanFault] at h
  unfold SaveRun.checkNewBits
  dsimp only
  split
  · split
    · refine Or.inl ⟨rfl, ?_⟩
      split
      · exact (Grown.refl _).crash
      · exact (Grown.refl _).mono (Nat.le_refl _) (Nat.le_refl _) (Nat.zero_le _) (Nat.le_refl _)
    · exact Or.inr ⟨Or.inr rfl, rfl, h⟩
  · exact Or.inr ⟨Or.inl rfl, rfl, h⟩

/-- The call returns before it looks at the execution. -/
def SaveInput.Ignored (inp : SaveInput) (s : SaveState) : Prop :=
  inp.len = 0 ∨ inp.fault = .tmout ∧ s.aflIgnoreTimeouts = true

theorem saveStart_frame (inp : SaveInput) (s : SaveState) :
    CalcFrame { afl := { s with sanCaseStatus := 0 }, len := inp.len, fault := inp.fault }
      (saveStart inp s) :=
  updatePathFrequency_frame inp _

/-- A call that ends before the first label. -/
theorem saveReaches_returned {s : SaveState} (h : (saveHead inp s).1 = .returned) :
    SaveReaches inp s (.returned, (saveHead inp s).2) := by
  have hpair : ∀ x : SavePoint × SaveRun, x.1 = .returned → (SavePoint.returned, x.2) = x := by
    rintro ⟨point, m⟩ rfl
    rfl
  rw [hpair _ h]
  exact Reaches.refl

/-- The three ways through the code before the first label. -/
theorem saveHead_cases (inp : SaveInput) (s : SaveState) :
    inp.Ignored s ∧ (∃ a : SaveState,
        saveHead inp s = (.returned, { afl := a, len := inp.len, fault := inp.fault }) ∧
        a = { s with traceBits := a.traceBits, nFuzz := a.nFuzz }) ∨
      ¬ inp.Ignored s ∧ inp.fault = s.crashMode ∧
        saveHead inp s = ((saveStart inp s).feedSanitizers inp).checkNewBits ∨
      ¬ inp.Ignored s ∧ inp.fault ≠ s.crashMode ∧
        saveHead inp s = (.maySaveFault, saveStart inp s) := by
  have hfault : (saveStart inp s).fault = inp.fault := (saveStart_frame inp s).fault
  have hmode : (saveStart inp s).afl.crashMode = s.crashMode := (saveStart_frame inp s).crashMode
  unfold saveHead SaveInput.Ignored
  dsimp only
  split
  · rename_i hlen
    exact Or.inl ⟨Or.inl hlen, s, rfl, rfl⟩
  · rename_i hlen
    split
    · rename_i hign
      simp only [Bool.and_eq_true, decide_eq_true_eq] at hign
      refine Or.inl ⟨Or.inr hign, _, rfl, ?_⟩
      unfold ignoreTimeout countPath
      dsimp only
      split
      · split <;> rfl
      · rfl
    · rename_i hign
      simp only [Bool.and_eq_true, decide_eq_true_eq] at hign
      rw [hfault, hmode]
      split
      · rename_i heq
        exact Or.inr (Or.inl ⟨not_or.mpr ⟨hlen, hign⟩, heq, rfl⟩)
      · rename_i hne
        exact Or.inr (Or.inr ⟨not_or.mpr ⟨hlen, hign⟩, hne, rfl⟩)

end Calculations

/-! ### An execution without new bits -/

/-- Nothing is left to discover, and no bits have been counted yet. -/
structure Uncounted (m : SaveRun) : Prop where
  bitsCounted : m.bitsCounted = false
  virginBits : m.afl.virginBits = fun _ => 0
  sanFault : m.sanFault = .ok

section Uncounted

variable {inp : SaveInput} {m : SaveRun} {s : SaveState}

theorem Uncounted.classifyIfNecessary (h : Uncounted m) : Uncounted m.classifyIfNecessary := by
  unfold SaveRun.classifyIfNecessary
  split
  · exact h
  · exact ⟨h.bitsCounted, h.virginBits, h.sanFault⟩

theorem saveStart_uncounted (inp : SaveInput) (h : s.virginBits = fun _ => 0) :
    Uncounted (saveStart inp s) := by
  have hcount : ∀ (c : U64) (a : AflState), (countPath c a).virginBits = a.virginBits := by
    intro c a
    unfold countPath
    dsimp only
    split <;> rfl
  unfold saveStart SaveRun.updatePathFrequency
  dsimp only
  split
  · exact ⟨rfl, (hcount _ _).trans h, rfl⟩
  · exact ⟨rfl, h, rfl⟩

theorem hasNewBits_of_nothing_virgin {a : AflState} (h : a.virginBits = fun _ => 0) :
    a.hasNewBits.1 = 0 := by
  have hspec := newBitsLoopW_spec (w := 64) (by decide) (by decide) a.mapSize.real a.traceBits
    a.virginBits
  unfold AflState.hasNewBits
  rw [hspec.1.zero]
  rintro ⟨j, -, hnew⟩
  rw [NewCountAt, h] at hnew
  simp at hnew

theorem hasNewBitsUnclassified_of_nothing_virgin {a : AflState} (h : a.virginBits = fun _ => 0)
    (classified : Bool) : (a.hasNewBitsUnclassified classified).1 = 0 := by
  have hskim : Build.word64.skim a.virginBits a.traceBits a.mapSize.val = false := by
    rw [Bool.eq_false_iff, ne_eq, Build.skim_iff_byte _ _ _ a.mapSize.aligned]
    rintro ⟨j, -, hfresh⟩
    rw [FreshByte, h] at hfresh
    simp at hfresh
  unfold AflState.hasNewBitsUnclassified Build.hasNewBitsUnclassified
  rw [if_pos (by simp [AflState.virginMaps, hskim])]

/-- An execution without new bits is not saved. -/
theorem Uncounted.checkNewBits (h : Uncounted m) : m.checkNewBits.1 = .returned := by
  have hsan := (calculateNewBitsIfNecessary_frame m).sanFault.trans h.sanFault
  have hbits : m.calculateNewBitsIfNecessary.newBits = 0 := by
    unfold SaveRun.calculateNewBitsIfNecessary
    rw [h.bitsCounted, if_neg Bool.false_ne_true]
    split
    · exact hasNewBits_of_nothing_virgin h.virginBits
    · exact hasNewBitsUnclassified_of_nothing_virgin h.virginBits _
  unfold SaveRun.checkNewBits
  dsimp only
  rw [if_pos hbits, if_pos hsan]

end Uncounted

end AflPlusPlus
