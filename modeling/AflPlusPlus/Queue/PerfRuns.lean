import AflPlusPlus.Queue.PerfScore
import AflPlusPlus.Queue.SaveSteps

/-!
# Scores in the course of a run

Every call of `save_if_interesting` raises the hit counter of the trace it sees, up to a cap that is
also the largest value of the type. `calculate_score` adds one to such a counter and divides by the
sum. A run with fewer calls than the cap never comes to the division by zero; a run with so many
calls on one trace does.
-/

namespace AflPlusPlus
open Lib Coverage

/-! ### How far one call raises the hit counters -/

section Hits

variable {inp : SaveInput} {m : SaveRun} {s : SaveState}

theorem checkNewBits_nFuzz (m : SaveRun) : m.checkNewBits.2.afl.nFuzz = m.afl.nFuzz := by
  rw [← calculateNewBitsIfNecessary_nFuzz m]
  unfold SaveRun.checkNewBits
  dsimp only
  split
  · split
    · dsimp only
      split <;> rfl
    · rfl
  · rfl

/-- At most one more hit for every counter. -/
def HitsGrown (s : SaveState) (m : SaveRun) : Prop :=
  ∀ i, (m.afl.nFuzz i).toNat ≤ (s.nFuzz i).toNat + 1

theorem countPath_nFuzz_le (cksum : U64) (a : AflState) (i : ℕ) :
    ((countPath cksum a).nFuzz i).toNat ≤ (a.nFuzz i).toNat + 1 := by
  unfold countPath
  dsimp only
  split
  · change (Function.update a.nFuzz (cksum.toNat % nFuzzSize) _ i).toNat ≤ _
    by_cases hi : i = cksum.toNat % nFuzzSize
    · rw [hi, Function.update_self]
      bv_omega
    · rw [Function.update_of_ne hi]
      exact Nat.le_succ _
  · exact Nat.le_succ _

theorem countPath_nFuzz_of_lt {cksum : U64} {a : AflState}
    (h : a.nFuzz (cksum.toNat % nFuzzSize) < 0xffffffff) :
    (countPath cksum a).nFuzz = Function.update a.nFuzz (cksum.toNat % nFuzzSize)
      (a.nFuzz (cksum.toNat % nFuzzSize) + 1) := by
  unfold countPath
  dsimp only
  rw [if_pos h]

theorem saveStart_hits (inp : SaveInput) (s : SaveState) : HitsGrown s (saveStart inp s) := by
  intro i
  unfold saveStart SaveRun.updatePathFrequency
  dsimp only
  split
  · refine (countPath_nFuzz_le _ _ i).trans ?_
    rw [calculateCksumIfNecessary_nFuzz]
  · exact Nat.le_succ _

/-- Under a schedule that counts paths the counter of the classified trace is incremented. -/
theorem saveStart_nFuzz (inp : SaveInput) (h : s.schedule.countsPaths = true) :
    (saveStart inp s).afl.nFuzz =
      (countPath (inp.hash64 (classifyCounts64 s.mapSize.val s.traceBits)) s.toAflState).nFuzz := by
  unfold saveStart SaveRun.updatePathFrequency
  dsimp only
  rw [h, if_pos rfl]
  unfold countPath
  dsimp only [SaveRun.calculateCksumIfNecessary, SaveRun.classifyIfNecessary,
    AflState.classifyCounts]
  simp only [Bool.false_eq_true, if_false]
  split <;> rfl

theorem saveHead_hits (inp : SaveInput) (s : SaveState) : HitsGrown s (saveHead inp s).2 := by
  have hstart := saveStart_hits inp s
  unfold saveHead
  dsimp only
  split
  · exact fun i => Nat.le_succ _
  · split
    · intro i
      unfold ignoreTimeout
      dsimp only
      split
      · exact countPath_nFuzz_le _ _ i
      · exact Nat.le_succ _
    · split
      · intro i
        rw [checkNewBits_nFuzz, feedSanitizers_nFuzz]
        exact hstart i
      · exact hstart

/-- The counter of a new entry's trace is set to one. -/
theorem fillEntry_nFuzz (m : SaveRun) (q : ℕ) (a : AflState) :
    (m.fillEntry q a).nFuzz = a.nFuzz ∨
      ∃ n, (m.fillEntry q a).nFuzz = Function.update a.nFuzz n 1 := by
  unfold SaveRun.fillEntry
  dsimp only
  split <;> split
  · exact Or.inr ⟨_, rfl⟩
  · exact Or.inl rfl
  · exact Or.inr ⟨_, rfl⟩
  · exact Or.inl rfl

theorem saveToQueue_hits (h : HitsGrown s m) : HitsGrown s (m.saveToQueue inp).2 := by
  have hcalc : ((m.calculateCksumIfNecessary inp.hash64).calculateNewBitsIfNecessary).afl.nFuzz =
      m.afl.nFuzz := by
    rw [calculateNewBitsIfNecessary_nFuzz, calculateCksumIfNecessary_nFuzz]
  have hentry : ∀ (m' : SaveRun) (q : ℕ) (a : AflState) (c : CalInput) (i : ℕ),
      a.nFuzz = m.afl.nFuzz →
        ((calibrateCase inp.hash64 (m'.fillEntry q a) q c).2.nFuzz i).toNat ≤
          (s.nFuzz i).toNat + 1 := by
    intro m' q a c i ha
    rw [(calibrateCase_frame inp.hash64 (m'.fillEntry q a) q c).rest]
    rcases fillEntry_nFuzz m' q a with hsame | ⟨n, hone⟩
    · rw [hsame, ha]
      exact h i
    · rw [hone, ha]
      -- one is at most one more than anything
      by_cases hi : i = n
      · rw [hi, Function.update_self]
        exact Nat.succ_le_succ (Nat.zero_le _)
      · rw [Function.update_of_ne hi]
        exact h i
  intro i
  unfold SaveRun.saveToQueue
  dsimp only
  split <;> exact hentry _ _ _ _ i hcalc

/-- One label to the next. -/
theorem saveStep_hits {st st' : SavePoint × SaveRun} (h : HitsGrown s st.2)
    (hstep : saveStep inp st () = some st') : HitsGrown s st'.2 := by
  unfold saveStep at hstep
  split at hstep
  · cases hstep
    exact saveToQueue_hits h
  · cases hstep
    intro i
    rw [(maySaveFault_faultFrame inp st.2).nFuzz]
    exact h i
  · cases hstep
    intro i
    rw [(keepAsCrash_faultFrame st.2).nFuzz]
    exact h i
  · cases hstep
  · cases hstep

theorem SaveReaches.hits {st : SavePoint × SaveRun} (h : SaveReaches inp s st) :
    HitsGrown s st.2 :=
  Reaches.invariant (P := fun st : SavePoint × SaveRun => HitsGrown s st.2) h (saveHead_hits inp s)
    fun _ _ _ hst _ hstep => saveStep_hits hst hstep

end Hits

/-! ### Runs -/

/-- The course of a run: the number of calls of `save_if_interesting`, the scores that were
calculated so far with the states they were calculated in, and the state, or `none` when the process
has ended. Nothing else writes to the hit counters. -/
inductive ScoreRuns (log2 : U32 → ℚ) (s : ScoreState) :
    ℕ → List (ScoreState × ℕ) → Option ScoreState → Prop
  | start : ScoreRuns log2 s 0 [] (some s)
  | save {n : ℕ} {scored : List (ScoreState × ℕ)} {t : ScoreState} {inp : SaveInput} {m : SaveRun} :
      ScoreRuns log2 s n scored (some t) → SaveReaches inp t.toSaveState (.returned, m) →
      ScoreRuns log2 s (n + 1) scored (some { t with toSaveState := m.afl })
  | score {n : ℕ} {scored : List (ScoreState × ℕ)} {t : ScoreState} (q : ℕ) :
      ScoreRuns log2 s n scored (some t) → q < t.queuedItems →
      ScoreRuns log2 s n ((t, q) :: scored)
        ((calculateScore log2 t q).toOption.map ScoreResult.afl)
  | rest {n : ℕ} {scored : List (ScoreState × ℕ)} {t t' : ScoreState} :
      ScoreRuns log2 s n scored (some t) → t'.nFuzz = t.nFuzz →
      ScoreRuns log2 s n scored (some t')

section Runs

variable {log2 : U32 → ℚ} {s : ScoreState} {n : ℕ} {scored : List (ScoreState × ℕ)}

theorem calculateScore_nFuzz {q : ℕ} {r : ScoreResult} (h : calculateScore log2 s q = .ok r) :
    r.afl.nFuzz = s.nFuzz := by
  obtain ⟨handicap, hafl⟩ := calculateScore_afl h
  rw [hafl]
  rfl

/-- The division by zero under `LIN`. -/
theorem calculateScore_lin_cap {q : ℕ} (hsched : s.schedule = .lin)
    (hlevel : (s.queueBuf q).fuzzLevel ≠ 0) (hcap : s.hitCount q = hitCountCap) :
    calculateScore log2 s q = .error .divByZero := by
  have hfactor : linFactor (s.queueBuf q).fuzzLevel (s.hitCount q) = .error .divByZero := by
    rw [linFactor, udiv, if_pos ((succ_eq_zero_iff _).mpr hcap)]
    rfl
  have hscore : ∀ (handicap : U64) (perfScore : U32),
      scheduleScore log2 (s.modifyEntry q fun e => { e with handicap := handicap }) q perfScore =
        .error .divByZero := by
    intro handicap perfScore
    unfold scheduleScore AflState.hitCount
    rw [ScoreState.modifyEntry_queueBuf_self,
      show (s.modifyEntry q _).schedule = .lin from hsched]
    change unfuzzedOr _ _ (linFactor (s.queueBuf q).fuzzLevel (s.hitCount q)) = _
    rw [unfuzzedOr, if_neg hlevel, hfactor]
    rfl
  obtain ⟨avg, havg⟩ := scoreAverages_ok s
  unfold calculateScore
  rw [havg]
  simp only [Except.bind]
  rw [hscore]
  rfl

/-- No counter has counted more than the calls there were, now or when a score was calculated. -/
theorem ScoreRuns.nFuzz_le {t : Option ScoreState} (h : ScoreRuns log2 s n scored t)
    (h0 : s.nFuzz = fun _ => 0) :
    (∀ u, t = some u → ∀ i, (u.nFuzz i).toNat ≤ n) ∧
      ∀ c ∈ scored, ∀ i, (c.1.nFuzz i).toNat ≤ n := by
  induction h with
  | start =>
    refine ⟨fun u hu i => ?_, fun c hc => absurd hc List.not_mem_nil⟩
    cases hu
    rw [h0]
    exact Nat.le_refl _
  | save _ hreach ih =>
    refine ⟨fun u hu i => ?_, fun c hc i => (ih.2 c hc i).trans (Nat.le_succ _)⟩
    cases hu
    -- one more call, at most one more hit
    exact (hreach.hits i).trans (Nat.succ_le_succ (ih.1 _ rfl i))
  | score q _ _ ih =>
    refine ⟨fun u hu i => ?_, fun c hc i => ?_⟩
    · rename_i t _ _
      -- a score that fails leaves no state behind
      cases hr : calculateScore log2 t q with
      | error e =>
        rw [hr] at hu
        cases hu
      | ok r =>
        rw [hr] at hu
        cases hu
        rw [calculateScore_nFuzz hr]
        exact ih.1 _ rfl i
    · rcases List.mem_cons.mp hc with rfl | hc
      · exact ih.1 _ rfl i
      · exact ih.2 c hc i
  | rest _ hsame ih =>
    refine ⟨fun u hu i => ?_, ih.2⟩
    cases hu
    rw [hsame]
    exact ih.1 _ rfl i

/-- A counter that has not counted up to its cap cannot make the divisor zero. -/
theorem factorFits_of_hits {q k : ℕ} (hhits : (s.hitCount q).toNat ≤ k) (hk : k < 2 ^ 32 - 1)
    (hlevel : (s.queueBuf q).fuzzLevel.toNat < 2 ^ 16) : FactorFits s q := by
  have hcap : s.hitCount q ≠ hitCountCap := by
    intro heq
    rw [heq, show hitCountCap.toNat = 2 ^ 32 - 1 from rfl] at hhits
    omega
  exact fun _ => ⟨fun _ => hcap, fun _ => ⟨hcap, hlevel⟩⟩

/-- In every run the scores are calculated without a division by zero and without a wrap-around as
long as the factors fit. With fewer calls of `save_if_interesting` than the cap and fuzz levels
below `2 ^ 16` they always do. -/
theorem scoresSafely_run_iff {t : Option ScoreState} (h : ScoreRuns log2 s n scored t)
    (h0 : s.nFuzz = fun _ => 0) :
    ((∀ c ∈ scored, ScoresSafely log2 c.1 c.2) ↔ ∀ c ∈ scored, FactorFits c.1 c.2) ∧
      (n < 2 ^ 32 - 1 → (∀ c ∈ scored, (c.1.queueBuf c.2).fuzzLevel.toNat < 2 ^ 16) →
        ∀ c ∈ scored, ScoresSafely log2 c.1 c.2) := by
  refine ⟨forall₂_congr fun c _ => scoresSafely_iff_fits, fun hn hlevel c hc => ?_⟩
  rw [scoresSafely_iff_fits]
  exact factorFits_of_hits ((h.nFuzz_le h0).2 c hc _) hn (hlevel c hc)

end Runs

/-! ### A run that reaches the cap -/

/-- Under `LIN`, with an entry that has been fuzzed once and everything discovered, after so many
executions that hit the first byte of the map. -/
def linState (count : U32) : ScoreState where
  schedule := .lin
  mapSize := .block
  traceBits := hits [0]
  virginBits := fun _ => 0
  nFuzz := fun i => if i = 1 then count else 0
  queueBuf := fun _ => { nFuzzEntry := 1, fuzzLevel := 1 }
  queuedItems := 1

def linInput : SaveInput where
  hash64 := hashFirst
  len := 1
  fault := .ok

/-- Without sanitizer binaries there is nothing to feed. -/
theorem feedSanitizers_eq_self {m : SaveRun} (inp : SaveInput) (hsan : m.afl.sanBinaryLength = 0)
    (hfeed : m.feedSan = false) : m.feedSanitizers inp = m := by
  have hno : ∀ p : Bool, (decide (m.afl.sanBinaryLength ≠ 0) && p) = false := by simp [hsan]
  have hsimplified : m.feedSimplified inp = m := by
    unfold SaveRun.feedSimplified
    rw [hno, if_neg Bool.false_ne_true]
  have hcoverage : m.feedCoverage = m := by
    unfold SaveRun.feedCoverage
    rw [hno, if_neg Bool.false_ne_true]
  have hunique : m.feedUnique inp = m := by
    unfold SaveRun.feedUnique
    rw [hno, if_neg Bool.false_ne_true]
  rw [SaveRun.feedSanitizers, hsimplified, hcoverage, hunique, SaveRun.runSanitizers, hfeed,
    if_neg Bool.false_ne_true]

/-- One more execution with the same trace. -/
theorem linState_call {count : U32} (h : count < 0xffffffff) :
    ∃ m, SaveReaches linInput (linState count).toSaveState (.returned, m) ∧
      m.afl.nFuzz = (linState (count + 1)).nFuzz := by
  set m := saveStart linInput (linState count).toSaveState with hm
  have hfeed : m.feedSanitizers linInput = m := by
    refine feedSanitizers_eq_self linInput ?_ ?_
    · rw [hm, (saveStart_frame _ _).rest]
      rfl
    · rw [hm, (saveStart_frame _ _).rest]
  have hhead : saveHead linInput (linState count).toSaveState = m.checkNewBits := by
    rcases saveHead_cases linInput (linState count).toSaveState with
      ⟨hign, -⟩ | ⟨-, -, heq⟩ | ⟨-, hfault, -⟩
    · rcases hign with hlen | hfault
      · exact absurd hlen (by decide)
      · exact absurd hfault.1 Fault.noConfusion
    · rw [heq, hfeed]
    · exact absurd rfl hfault
  have hreturned : m.checkNewBits.1 = .returned := (saveStart_uncounted linInput rfl).checkNewBits
  have hcount : m.afl.nFuzz = (linState (count + 1)).nFuzz := by
    have hpath : m.afl.nFuzz = (countPath 1 (linState count).toAflState).nFuzz := by
      have hstart := saveStart_nFuzz (s := (linState count).toSaveState) linInput rfl
      rw [show linInput.hash64 = hashFirst from rfl,
        show (linState count).mapSize.val = 64 from rfl,
        show (linState count).traceBits = hits [0] from rfl, hashFirst_hits] at hstart
      exact hstart
    have hindex : (1 : U64).toNat % nFuzzSize = 1 := by decide
    rw [hpath, countPath_nFuzz_of_lt, hindex]
    · funext i
      change Function.update (linState count).nFuzz 1 (count + 1) i = _
      by_cases hi : i = 1
      · rw [hi, Function.update_self]
        rfl
      · rw [Function.update_of_ne hi]
        exact (if_neg hi).trans (if_neg hi).symm
    · change (linState count).nFuzz 1 < 0xffffffff
      exact h
  refine ⟨m.checkNewBits.2, ?_, (checkNewBits_nFuzz m).trans hcount⟩
  rw [← hhead] at hreturned ⊢
  exact saveReaches_returned hreturned

theorem linState_runs (log2 : U32 → ℚ) (n : ℕ) (hn : n ≤ 2 ^ 32 - 1) :
    ScoreRuns log2 (linState 0) n [] (some (linState (BitVec.ofNat 32 n))) := by
  induction n with
  | zero => exact .start
  | succ n ih =>
    have hlt : BitVec.ofNat 32 n < 0xffffffff := by
      rw [BitVec.lt_def, BitVec.toNat_ofNat, show (0xffffffff : U32).toNat = 2 ^ 32 - 1 from rfl]
      omega
    -- the calls differ in the counter only, so each starts from a state of the same form
    obtain ⟨m, hreach, hcount⟩ := linState_call hlt
    refine .rest (.save (ih (by omega)) hreach) ?_
    rw [BitVec.ofNat_add]
    exact hcount.symm

/-- The logarithm of a power of two, and the next smaller integer otherwise. -/
def floorLog2 (n : U32) : ℚ := (Nat.log2 n.toNat : ℕ)

theorem linState_zero : (linState 0).nFuzz = fun _ => 0 := funext fun _ => ite_self 0

/-- The score after one execution. -/
theorem scoresSafely_run_iff_one : ScoresSafely floorLog2 (linState 1) 0 := by
  have hrun := (linState_runs floorLog2 1 (by decide)).score 0 Nat.zero_lt_one
  refine (scoresSafely_run_iff hrun linState_zero).2 (by decide) (fun c hc => ?_) _
    List.mem_cons_self
  rw [List.mem_singleton.mp hc]
  decide

/-- After `2 ^ 32 - 1` executions with the trace of the entry its score is a division by zero. -/
theorem not_scoresSafely_cap :
    (linState 0).nFuzz = (fun _ => 0) ∧
      (∃ t, ScoreRuns floorLog2 (linState 0) (2 ^ 32 - 1) [(linState hitCountCap, 0)] t) ∧
      calculateScore floorLog2 (linState hitCountCap) 0 = .error .divByZero ∧
      ¬ ScoresSafely floorLog2 (linState hitCountCap) 0 := by
  have hscore : calculateScore floorLog2 (linState hitCountCap) 0 = .error .divByZero :=
    calculateScore_lin_cap rfl (show (1 : U32) ≠ 0 by decide) rfl
  have hrun := linState_runs floorLog2 (2 ^ 32 - 1) (Nat.le_refl _)
  refine ⟨linState_zero, ⟨_, hrun.score 0 Nat.zero_lt_one⟩, hscore, fun hsafe => ?_⟩
  rw [ScoresSafely, hscore] at hsafe
  exact hsafe rfl

end AflPlusPlus
