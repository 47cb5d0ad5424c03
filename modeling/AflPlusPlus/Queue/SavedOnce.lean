import AflPlusPlus.Queue.SaveSteps

/-!
# How often one execution is saved

A call of `save_if_interesting` adds at most one queue entry and counts at most one timeout and one
crash, unless it takes the `goto save_to_queue` of the timeout branch: `fault` still says timeout
when the `switch` is reached again, so that the timeout is counted once more.
-/

namespace AflPlusPlus
open Lib Coverage SaveTotals

/-- Wherever the call has come to, there is at most one more entry, timeout, crash and jump. -/
def SavedOnce (inp : SaveInput) (s : SaveState) : Prop :=
  ∀ st, SaveReaches inp s st → Grown s.totals st.2.totals 1 1 1 1

variable {inp : SaveInput}

/-- The call takes the jump to `save_to_queue` when it first comes to the `switch`. -/
def SaveInput.JumpsBack (inp : SaveInput) (s : SaveState) : Prop :=
  ¬ inp.Ignored s ∧ inp.fault ≠ s.crashMode ∧ inp.fault = .tmout ∧
    s.RequeuesTimeout (inp.rerun 0)

/-- What has been counted at each label by a call that does not jump. -/
def SaveInv (inp : SaveInput) (s : SaveState) (st : SavePoint × SaveRun) : Prop :=
  match st.1 with
  | .saveToQueue => Grown s.totals st.2.totals 0 0 0 0 ∧ st.2.fault ≠ .tmout
  | .maySaveFault => Grown s.totals st.2.totals 1 0 0 0 ∧
      (st.2.fault = .tmout → ¬ st.2.afl.RequeuesTimeout (inp.rerun st.2.reruns))
  | .keepAsCrash => Grown s.totals st.2.totals 1 1 0 0
  | .returned => Grown s.totals st.2.totals 1 1 1 0
  | .fatal => Grown s.totals st.2.totals 1 1 1 0

theorem saveHead_inv {s : SaveState} (h : ¬ inp.JumpsBack s) : SaveInv inp s (saveHead inp s) := by
  have hstart := saveStart_frame inp s
  have htotals : (saveStart inp s).totals = s.totals := hstart.totals
  rcases saveHead_cases inp s with ⟨-, a, heq, hframe⟩ | ⟨-, -, heq⟩ | ⟨hign, hfault, heq⟩
  · rw [heq, hframe]
    exact (Grown.refl s.totals).mono
  · obtain ⟨hfeed, hsan⟩ := feedSanitizers_cases inp (m := saveStart inp s) hstart.sanFault
    rw [heq]
    have hcheck := checkNewBits_cases hsan
    rw [hfeed, htotals] at hcheck
    unfold SaveInv
    rcases hcheck with ⟨hpoint, hgrown⟩ | ⟨hpoint | hpoint, hsame, hfault⟩
    · rw [hpoint]
      exact hgrown.mono
    · rw [hpoint, hsame]
      exact ⟨Grown.refl s.totals, hfault⟩
    · rw [hpoint, hsame]
      exact ⟨(Grown.refl s.totals).mono,
        fun htmout => absurd htmout hfault⟩
  · rw [heq]
    refine ⟨?_, fun htmout hback => h ⟨hign, hfault, ?_, ?_⟩⟩
    · rw [htotals]
      exact (Grown.refl s.totals).mono
    · rw [← htmout]
      exact hstart.fault.symm
    · rw [hstart.requeuesTimeout, hstart.reruns] at hback
      exact hback

theorem saveStep_inv {s : SaveState} {st st' : SavePoint × SaveRun} (h : SaveInv inp s st)
    (hstep : saveStep inp st () = some st') : SaveInv inp s st' := by
  obtain ⟨point, m⟩ := st
  unfold SaveInv at h
  cases point with
  | saveToQueue =>
    -- the only label behind which an entry is added
    obtain ⟨hpoint, hfault, htotals⟩ := saveToQueue_cases inp m
    obtain rfl : m.saveToQueue inp = st' := Option.some.inj hstep
    have hgrown := h.1.entry
    rw [← htotals] at hgrown
    unfold SaveInv
    rcases hpoint with hpoint | hpoint
    · rw [hpoint]
      exact hgrown.mono
    · rw [hpoint]
      exact ⟨hgrown, fun htmout => absurd (hfault.symm.trans htmout) h.2⟩
  | maySaveFault =>
    obtain rfl : m.maySaveFault inp = st' := Option.some.inj hstep
    unfold SaveRun.maySaveFault
    cases hfault : m.fault with
    | tmout =>
      -- by the invariant this is not a timeout that jumps
      rcases saveTimeout_cases inp m with ⟨hback, -⟩ | ⟨-, hpoint, htotals⟩
      · exact absurd hback (h.2 hfault)
      · have hgrown := h.1.tmout
        rw [← htotals] at hgrown
        dsimp only
        unfold SaveInv
        rcases hpoint with hpoint | hpoint
        · rw [hpoint]
          exact hgrown.mono
        · rw [hpoint]
          exact hgrown
    | crash => exact h.1.mono
    | ok => exact h.1.mono
    | error => exact h.1.mono
    | noinst => exact h.1.mono
    | nobits => exact h.1.mono
  | keepAsCrash =>
    obtain ⟨hpoint, htotals⟩ := keepAsCrash_cases m
    obtain rfl : m.keepAsCrash = st' := Option.some.inj hstep
    have hgrown := Grown.crash h
    rw [← htotals] at hgrown
    unfold SaveInv
    rw [hpoint]
    exact hgrown
  | returned => cases hstep
  | fatal => cases hstep

theorem SaveInv.grown {s : SaveState} {st : SavePoint × SaveRun} (h : SaveInv inp s st) :
    Grown s.totals st.2.totals 1 1 1 1 := by
  obtain ⟨point, m⟩ := st
  unfold SaveInv at h
  cases point with
  | saveToQueue => exact h.1.mono
  | maySaveFault => exact h.1.mono
  | keepAsCrash => exact h.mono
  | returned => exact h.mono
  | fatal => exact h.mono

theorem savedOnce_of_not_jumpsBack {s : SaveState} (h : ¬ inp.JumpsBack s) : SavedOnce inp s := by
  intro st hst
  have hinv : SaveInv inp s st :=
    hst.invariant (saveHead_inv h) fun _ _ _ hu _ hstep => saveStep_inv hu hstep
  exact hinv.grown

/-- After the jump `fault` is still a timeout, and the `switch` counts it once more. -/
theorem not_savedOnce_of_jumpsBack {s : SaveState} (h : inp.JumpsBack s)
    (hcal : ∀ t q k, (calibrateCase inp.hash64 t q (inp.cal k)).1 ≠ .error) :
    ¬ SavedOnce inp s := by
  obtain ⟨hign, hfault, htmout, hback⟩ := h
  have hstart := saveStart_frame inp s
  have htotals : (saveStart inp s).totals = s.totals := hstart.totals
  have hhead : saveHead inp s = (.maySaveFault, saveStart inp s) := by
    rcases saveHead_cases inp s with ⟨h, -⟩ | ⟨-, h, -⟩ | ⟨-, -, h⟩
    · exact absurd h hign
    · exact absurd h hfault
    · exact h
  have hlabel : (saveStart inp s).fault = .tmout := hstart.fault.trans htmout
  -- the first time at the `switch`
  have hfirst : SaveReaches inp s ((saveStart inp s).saveTimeout inp) := by
    refine Reaches.tail .refl trivial (a := ()) ?_
    rw [hhead]
    simp only [saveStep, SaveRun.maySaveFault, hlabel]
  obtain ⟨-, hpoint, hfault₁, htotals₁⟩ | ⟨hnot, -⟩ := saveTimeout_cases inp (saveStart inp s)
  swap
  · refine absurd ?_ hnot
    rw [hstart.requeuesTimeout, hstart.reruns]
    exact hback
  generalize (saveStart inp s).saveTimeout inp = first at hfirst hpoint hfault₁ htotals₁
  obtain ⟨point, m⟩ := first
  obtain rfl : point = .saveToQueue := hpoint
  -- the entry is queued and calibrated
  have hsecond : SaveReaches inp s (m.saveToQueue inp) := Reaches.tail hfirst trivial (a := ()) rfl
  obtain ⟨-, hfault₂, htotals₂⟩ := saveToQueue_cases inp m
  have hpoint₂ : (m.saveToQueue inp).1 = .maySaveFault := by
    unfold SaveRun.saveToQueue
    dsimp only
    rw [if_neg (hcal _ _ _)]
  generalize m.saveToQueue inp = second at hsecond hfault₂ htotals₂ hpoint₂
  obtain ⟨point, m'⟩ := second
  obtain rfl : point = .maySaveFault := hpoint₂
  have hlabel' : m'.fault = .tmout := hfault₂.trans (hfault₁.trans hlabel)
  -- the second time at the `switch`
  have hthird : SaveReaches inp s (m'.saveTimeout inp) := by
    refine Reaches.tail hsecond trivial (a := ()) ?_
    simp only [saveStep, SaveRun.maySaveFault, hlabel']
  have htmouts : (m'.saveTimeout inp).2.totals.totalTmouts = s.totalTmouts + 1 + 1 := by
    have hbefore : m'.totals.totalTmouts = s.totalTmouts + 1 := by
      rw [htotals₂, htotals₁, htotals]
      rfl
    rcases saveTimeout_cases inp m' with ⟨-, -, -, h⟩ | ⟨-, -, h⟩
    · rw [h, ← hbefore]
    · rw [h, ← hbefore]
  intro honce
  have hle := (honce _ hthird).totalTmouts
  rw [htmouts, show s.totals.totalTmouts = s.totalTmouts from rfl] at hle
  bv_omega

/-- For any call, whatever the calibration of a new entry comes to: one entry, one timeout, one
crash and one jump at most, unless the timeout branch requeues the input. -/
theorem savedOnce_iff (inp : SaveInput) (s : SaveState) :
    (∀ cal, SavedOnce { inp with cal := cal } s) ↔ ¬ inp.JumpsBack s := by
  constructor
  · intro h hjump
    let quiet : CalInput := { run := fun _ => (.ok, fun _ => 0) }
    exact @not_savedOnce_of_jumpsBack { inp with cal := fun _ => quiet } s hjump
      (fun t q _ => calibrateCase_ne_error (fun _ => Fault.noConfusion) inp.hash64 t q)
      (h fun _ => quiet)
  · intro h cal
    exact savedOnce_of_not_jumpsBack h

/-- A queue that keeps timeouts, after an execution that hit the first byte of the map. -/
def slowState : SaveState where
  mapSize := .block
  traceBits := hits [0]
  aflKeepTimeouts := true
  execTmout := 100

/-- The execution timed out, and with more time it ends without fault. -/
def slowInput : SaveInput where
  hash64 := hashFirst
  len := 1
  fault := .tmout
  rerun := fun _ => ⟨1, .ok, hits [0], false⟩
  cal := fun _ => steadyInput

/-- One slow execution is counted as two timeouts. -/
theorem not_savedOnce_slow : ¬ SavedOnce slowInput slowState := by
  have hnew : (newBitsLoopW 64 64 (simplifyTrace64 64 (hits [0])) fun _ => 0xff).1 ≠ 0 := by
    have hspec := newBitsLoopW_spec (w := 64) (by decide) (by decide) 64
      (simplifyTrace64 64 (hits [0])) fun _ => 0xff
    rw [ne_eq, hspec.1.zero, not_not]
    refine ⟨0, by decide, ?_⟩
    rw [NewCountAt, simplifyTrace64,
      simplifyTraceW_apply (by decide) (by decide) simplifiesZero_64 (by decide)]
    decide
  refine not_savedOnce_of_jumpsBack ⟨?_, ?_, rfl, ?_, Or.inr hnew, ?_, rfl, Or.inr ?_⟩
    fun t q _ => calibrateCase_ne_error (fun _ => Fault.noConfusion) _ t q
  · exact not_or.mpr ⟨by decide, by decide⟩
  · decide
  · decide
  · decide
  · decide

end AflPlusPlus
