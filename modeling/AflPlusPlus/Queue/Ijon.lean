import AflPlusPlus.Queue.SaveSteps

/-!
# IJON rounds

`fuzz_one` sometimes fuzzes the input of an IJON maximum in the place of the current entry. It sets
`is_doing_ijon`, `fuzz_one_original` then jumps to the havoc stage, and the code behind
`abandon_entry` is meant to leave the current entry alone. That code clears the flag before it tests
it.
-/

namespace AflPlusPlus
open Lib Coverage

/-- The code behind `abandon_entry`, with `q` the current entry. -/
def abandonEntryIjon (isDoingIjon : Bool) (s : AflState) (q : ℕ) (stopSoon : Bool) :
    AflState × Bool :=
  let isDoingIjon := if isDoingIjon then false else isDoingIjon
  let e := s.queueBuf q
  let s :=
    if !isDoingIjon && !stopSoon && e.calFailed = 0 && !e.wasFuzzed && !e.disabled then
      notePendingFuzzed s q
    else s
  (if !isDoingIjon then s.modify q fun e => { e with fuzzLevel := e.fuzzLevel + 1 } else s,
    isDoingIjon)

/-- The flag makes no difference: this is the end of every other round. -/
theorem abandonEntryIjon_eq (isDoingIjon : Bool) (s : AflState) (q : ℕ) (stopSoon : Bool) :
    abandonEntryIjon isDoingIjon s q stopSoon = (abandonEntry s q stopSoon, false) := by
  cases isDoingIjon <;> rfl

/-- What the stages from `havoc_stage` on do to the state: executions, each with its trace, that are
saved if they are interesting. -/
inductive HavocStages (s : SaveState) : SaveState → Prop
  | start : HavocStages s s
  | exec {t : SaveState} (h : HavocStages s t) (trace : Bytes) (inp : SaveInput) {m : SaveRun}
      (save : SaveReaches inp { t with traceBits := trace } (.returned, m)) : HavocStages s m.afl

/-- `fuzz_one` on an IJON input, with `q` the current entry and `stop_soon` as read at the end. -/
def IjonRound (s : SaveState) (q : ℕ) (stopSoon : Bool) (t : AflState) : Prop :=
  ∃ u, HavocStages s u ∧ t = (abandonEntryIjon true u.toAflState q stopSoon).1

/-- The round did not count as one of entry `q`. -/
structure Unconsumed (q : ℕ) (s t : AflState) : Prop where
  wasFuzzed : (t.queueBuf q).wasFuzzed = (s.queueBuf q).wasFuzzed
  fuzzLevel : (t.queueBuf q).fuzzLevel = (s.queueBuf q).fuzzLevel
  pendingNotFuzzed : t.pendingNotFuzzed = s.pendingNotFuzzed
  pendingFavored : t.pendingFavored = s.pendingFavored

/-! ### The stages leave the fuzz levels alone -/

section Stages

variable {inp : SaveInput} {m m' : SaveRun} {s t : SaveState}

/-- The entries of `s` have kept their lengths and fuzz levels. -/
structure KeepsSizes (s t : AflState) : Prop where
  queuedItems : s.queuedItems ≤ t.queuedItems
  sizes : ∀ r, r < s.queuedItems → t.sizes r = s.sizes r

theorem KeepsSizes.refl (s : AflState) : KeepsSizes s s := ⟨le_refl _, fun _ _ => rfl⟩

theorem KeepsSizes.trans {s t u : AflState} (h : KeepsSizes s t) (h' : KeepsSizes t u) :
    KeepsSizes s u :=
  ⟨h.queuedItems.trans h'.queuedItems, fun r hr =>
    (h'.sizes r (hr.trans_le h.queuedItems)).trans (h.sizes r hr)⟩

theorem KeepsSizes.of_eq {s t : AflState} (hbuf : t.queueBuf = s.queueBuf)
    (hitems : t.queuedItems = s.queuedItems) : KeepsSizes s t := by
  refine ⟨hitems.ge, fun r _ => ?_⟩
  rw [AflState.sizes, hbuf]
  rfl

theorem CalcFrame.keepsSizes (h : CalcFrame m m') :
    KeepsSizes m.afl.toAflState m'.afl.toAflState := by
  rw [h.rest]
  exact .of_eq rfl rfl

theorem FaultFrame.keepsSizes (h : FaultFrame m m') :
    KeepsSizes m.afl.toAflState m'.afl.toAflState := by
  rw [h.rest]
  exact .of_eq rfl rfl

theorem feedSanitizers_keepsSizes (inp : SaveInput) (m : SaveRun) :
    KeepsSizes m.afl.toAflState (m.feedSanitizers inp).afl.toAflState := by
  have hsimplified : ∀ m : SaveRun,
      KeepsSizes m.afl.toAflState (m.feedSimplified inp).afl.toAflState := by
    intro m
    unfold SaveRun.feedSimplified
    dsimp only
    split
    · split <;> exact .of_eq rfl rfl
    · exact .refl _
  have hcoverage : ∀ m : SaveRun,
      KeepsSizes m.afl.toAflState m.feedCoverage.afl.toAflState := by
    intro m
    have hcalc := (calculateNewBitsIfNecessary_frame m).keepsSizes
    unfold SaveRun.feedCoverage
    dsimp only
    split
    · split <;> exact hcalc
    · exact .refl _
  have hunique : ∀ m : SaveRun,
      KeepsSizes m.afl.toAflState (m.feedUnique inp).afl.toAflState := by
    intro m
    have hcalc := (classifyIfNecessary_frame m).keepsSizes
    unfold SaveRun.feedUnique
    dsimp only
    split
    · split <;> exact hcalc
    · exact .refl _
  have hrun : ∀ m : SaveRun,
      KeepsSizes m.afl.toAflState (m.runSanitizers inp).afl.toAflState := by
    intro m
    unfold SaveRun.runSanitizers
    dsimp only
    split <;> exact .of_eq rfl rfl
  exact ((hsimplified m).trans (hcoverage _)).trans ((hunique _).trans (hrun _))

theorem checkNewBits_keepsSizes (m : SaveRun) :
    KeepsSizes m.afl.toAflState m.checkNewBits.2.afl.toAflState := by
  have hcalc := (calculateNewBitsIfNecessary_frame m).keepsSizes
  unfold SaveRun.checkNewBits
  dsimp only
  split
  · split
    · split <;> exact hcalc.trans (.of_eq rfl rfl)
    · exact hcalc.trans (.of_eq rfl rfl)
  · exact hcalc.trans (.of_eq rfl rfl)

/-- A new entry leaves the others alone. -/
theorem saveToQueue_keepsSizes (inp : SaveInput) (m : SaveRun) :
    KeepsSizes m.afl.toAflState (m.saveToQueue inp).2.afl.toAflState := by
  have hcalc := ((calculateCksumIfNecessary_frame inp.hash64 m).trans
    (calculateNewBitsIfNecessary_frame _)).keepsSizes
  have hadd : ∀ (s : AflState) (len : U32), KeepsSizes s (addToQueue s len false) := by
    intro s len
    refine ⟨Nat.le_succ _, fun r hr => ?_⟩
    change QueueEntry.sizes (Function.update s.queueBuf s.queuedItems _ r) = _
    rw [Function.update_of_ne hr.ne]
    rfl
  have hfill : ∀ (m : SaveRun) (q : ℕ) (s : AflState), KeepsSizes s (m.fillEntry q s) := by
    intro m q s
    have hcksum : ∀ t : AflState,
        (t.modify q fun e => { e with execCksum := m.cksum }).sizes = t.sizes :=
      fun t => t.modify_sizes q fun _ => rfl
    have hcov : ∀ t : AflState,
        (t.modify q fun e => { e with hasNewCov := true }).sizes = t.sizes :=
      fun t => t.modify_sizes q fun _ => rfl
    have hfuzz : ∀ (t : AflState) (i : U32),
        (t.modify q fun e => { e with nFuzzEntry := i }).sizes = t.sizes :=
      fun t _ => t.modify_sizes q fun _ => rfl
    have hsizes : (m.fillEntry q s).sizes = s.sizes := by
      unfold SaveRun.fillEntry
      dsimp only
      split <;> split
      · exact (hfuzz _ _).trans ((hcov _).trans (hcksum s))
      · exact (hcov _).trans (hcksum s)
      · exact (hfuzz _ _).trans (hcksum s)
      · exact hcksum s
    refine ⟨?_, fun r _ => congrFun hsizes r⟩
    unfold SaveRun.fillEntry
    dsimp only
    split <;> split <;> exact le_refl _
  have hcal : ∀ (s : AflState) (q : ℕ) (c : CalInput),
      KeepsSizes s (calibrateCase inp.hash64 s q c).2 := by
    intro s q c
    refine ⟨?_, fun r _ => congrFun (calibrateCase_sizes inp.hash64 s q c) r⟩
    rw [(calibrateCase_frame inp.hash64 s q c).rest]
  refine hcalc.trans ?_
  unfold SaveRun.saveToQueue
  dsimp only
  split <;> exact ((hadd _ _).trans (hfill _ _ _)).trans (hcal _ _ _)

theorem saveStep_keepsSizes {st st' : SavePoint × SaveRun} (h : saveStep inp st () = some st') :
    KeepsSizes st.2.afl.toAflState st'.2.afl.toAflState := by
  obtain ⟨point, m⟩ := st
  cases point with
  | saveToQueue =>
    obtain rfl : m.saveToQueue inp = st' := Option.some.inj h
    exact saveToQueue_keepsSizes inp m
  | maySaveFault =>
    obtain rfl : m.maySaveFault inp = st' := Option.some.inj h
    exact (maySaveFault_faultFrame inp m).keepsSizes
  | keepAsCrash =>
    obtain rfl : m.keepAsCrash = st' := Option.some.inj h
    exact (keepAsCrash_faultFrame m).keepsSizes
  | returned => cases h
  | fatal => cases h

theorem saveHead_keepsSizes (inp : SaveInput) (s : SaveState) :
    KeepsSizes s.toAflState (saveHead inp s).2.afl.toAflState := by
  have hstart : KeepsSizes s.toAflState (saveStart inp s).afl.toAflState :=
    (saveStart_frame inp s).keepsSizes
  rcases saveHead_cases inp s with ⟨-, a, hhead, hrest⟩ | ⟨-, -, hhead⟩ | ⟨-, -, hhead⟩
  · rw [hhead, hrest]
    exact .of_eq rfl rfl
  · rw [hhead]
    exact (hstart.trans (feedSanitizers_keepsSizes inp _)).trans (checkNewBits_keepsSizes _)
  · rw [hhead]
    exact hstart

/-- A call of `save_if_interesting`, by induction over its labels. -/
theorem SaveReaches.keepsSizes {st : SavePoint × SaveRun} (h : SaveReaches inp s st) :
    KeepsSizes s.toAflState st.2.afl.toAflState :=
  h.invariant (P := fun st => KeepsSizes s.toAflState st.2.afl.toAflState)
    (saveHead_keepsSizes inp s) fun _ _ _ hu _ hstep => hu.trans (saveStep_keepsSizes hstep)

/-- The stages, by induction over the executions. -/
theorem HavocStages.keepsSizes (h : HavocStages s t) : KeepsSizes s.toAflState t.toAflState := by
  induction h with
  | start => exact .refl _
  | @exec u _ trace inp m hsave ih =>
    have htrace : KeepsSizes u.toAflState { u with traceBits := trace }.toAflState :=
      .of_eq rfl rfl
    exact ih.trans (htrace.trans hsave.keepsSizes)

end Stages

/-! ### The round counts as one of the current entry -/

theorem abandonEntry_fuzzLevel (s : AflState) (q : ℕ) (stopSoon : Bool) :
    ((abandonEntry s q stopSoon).queueBuf q).fuzzLevel = (s.queueBuf q).fuzzLevel + 1 := by
  unfold abandonEntry
  dsimp only
  rw [AflState.modify_queueBuf_self]
  split
  · change ((s.modify q fun e => { e with wasFuzzed := true }).queueBuf q).fuzzLevel + 1 = _
    rw [AflState.modify_queueBuf_self]
  · rfl

/-- Each round on an IJON input raises the fuzz level of the current entry. -/
theorem ijonRound_not_unconsumed {s : SaveState} {q : ℕ} {stopSoon : Bool} {t : AflState}
    (hq : q < s.queuedItems) (hround : IjonRound s q stopSoon t) :
    ¬ Unconsumed q s.toAflState t := by
  obtain ⟨u, hstages, rfl⟩ := hround
  intro h
  have hsame : (u.queueBuf q).fuzzLevel = (s.queueBuf q).fuzzLevel :=
    congrArg Prod.snd (hstages.keepsSizes.sizes q hq)
  have hlevel := h.fuzzLevel
  rw [abandonEntryIjon_eq, abandonEntry_fuzzLevel, hsame] at hlevel
  bv_omega

/-- A favored entry that has not been fuzzed, and a timeout that is ignored. -/
def ijonQueue : SaveState :=
  { AflState.init .block with
    aflIgnoreTimeouts := true
    queueBuf := fun _ => { len := 5, favored := true }
    queuedItems := 1
    pendingNotFuzzed := 1
    pendingFavored := 1 }

def ijonTimeout : SaveInput where
  hash64 := fun _ => 0
  len := 3
  fault := .tmout

theorem ijonQueue_stages : HavocStages ijonQueue (saveHead ijonTimeout ijonQueue).2.afl :=
  HavocStages.start.exec (fun _ => 0) ijonTimeout (saveReaches_returned rfl)

theorem ijonRound_not_unconsumed_ijonQueue :
    ∃ t, IjonRound ijonQueue 0 false t ∧ ¬ Unconsumed 0 ijonQueue.toAflState t :=
  ⟨_, ⟨_, ijonQueue_stages, rfl⟩, ijonRound_not_unconsumed (by decide) ⟨_, ijonQueue_stages, rfl⟩⟩

/-- The entry is counted out of both counters. -/
theorem ijonRound_consumes :
    ∃ t, IjonRound ijonQueue 0 false t ∧ (ijonQueue.queueBuf 0).wasFuzzed = false ∧
      (t.queueBuf 0).wasFuzzed = true ∧ (t.queueBuf 0).fuzzLevel = 1 ∧ t.pendingNotFuzzed = 0 ∧
      t.pendingFavored = 0 ∧ ¬ Unconsumed 0 ijonQueue.toAflState t :=
  ⟨_, ⟨_, ijonQueue_stages, rfl⟩, rfl, by decide, by decide, by decide, by decide,
    fun h => absurd h.wasFuzzed (by decide)⟩

end AflPlusPlus
