import AflPlusPlus.Queue.Save
import Mathlib.Data.Rat.Floor

/-!
# The performance score

`calculate_score` turns what is known about an entry into a number that decides how long the entry
is fuzzed. Doubles are read as exact rationals and `log2` is a parameter. An integer division by
zero ends the process, and a ghost flag records a wrap-around in the factors of `LIN` and `QUAD`.
-/

namespace AflPlusPlus
open Lib

structure ScoreState extends SaveState where
  totalCalUs : U64 := 0
  totalCalCycles : U64 := 0
  /-- `fsrv.total_execs`. -/
  totalExecs : U64 := 0
  havocMaxMult : U8 := 64
  limitTimeSig : ℤ := 0
  queuedDiscovered : U32 := 0

/-- How `calculate_score` can fail to return. -/
inductive ScoreExit
  | divByZero
  | fatal
  deriving DecidableEq, Repr

/-- Unsigned division. -/
def udiv {w : ℕ} (a b : BitVec w) : Except ScoreExit (BitVec w) :=
  if b = 0 then .error .divByZero else .ok (a / b)

/-- A double that is converted to `u32`. -/
def truncate (x : ℚ) : U32 := BitVec.ofNat 32 x.floor.toNat

/-- `perf_score *= factor`. -/
def scaleScore (factor : ℚ) (perfScore : U32) : U32 := truncate (perfScore.toNat * factor)

/-- `MAX_FACTOR`. -/
def maxFactor : ℚ := 32

/-- `afl->n_fuzz[q->n_fuzz_entry]`. -/
def AflState.hitCount (s : AflState) (q : ℕ) : U32 := s.nFuzz (s.queueBuf q).nFuzzEntry.toNat

/-- `avg_exec_us` and `avg_bitmap_size`. The counters are cut to 32 bits before they are compared
with zero. -/
def scoreAverages (s : ScoreState) : Except ScoreExit (U32 × U32) :=
  let calCycles := s.totalCalCycles.setWidth 32
  let bitmapEntries := s.totalBitmapEntries.setWidth 32
  let calCycles := if calCycles = 0 then 1 else calCycles
  let bitmapEntries := if bitmapEntries = 0 then 1 else bitmapEntries
  (udiv s.totalCalUs (calCycles.setWidth 64)).bind fun avgExecUs =>
    (udiv s.totalBitmapSize (bitmapEntries.setWidth 64)).map fun avgBitmapSize =>
      (avgExecUs.setWidth 32, avgBitmapSize.setWidth 32)

/-- "Adjust score based on execution speed of this path". -/
def speedScore (avgExecUs : U32) (e : QueueEntry) : U32 :=
  let execUs : ℚ := e.execUs.toNat
  let avg : ℚ := avgExecUs.toNat
  if execUs * (1 / 10) > avg then 10
  else if execUs * (1 / 4) > avg then 25
  else if execUs * (1 / 2) > avg then 50
  else if execUs * (3 / 4) > avg then 75
  else if e.execUs * 4 < avgExecUs.setWidth 64 then 300
  else if e.execUs * 3 < avgExecUs.setWidth 64 then 200
  else if e.execUs * 2 < avgExecUs.setWidth 64 then 150
  else 100

/-- "Adjust score based on bitmap size". -/
def bitmapScore (avgBitmapSize : U32) (e : QueueEntry) (perfScore : U32) : U32 :=
  let size : ℚ := e.bitmapSize.toNat
  let avg : ℚ := avgBitmapSize.toNat
  if size * (3 / 10) > avg then perfScore * 3
  else if size * (1 / 2) > avg then perfScore * 2
  else if size * (3 / 4) > avg then scaleScore (3 / 2) perfScore
  else if e.bitmapSize * 3 < avgBitmapSize then scaleScore (1 / 4) perfScore
  else if e.bitmapSize * 2 < avgBitmapSize then scaleScore (1 / 2) perfScore
  else if size * (3 / 2) < avg then scaleScore (3 / 4) perfScore
  else perfScore

/-- "Adjust score based on handicap", with the handicap that is left. -/
def handicapScore (e : QueueEntry) (perfScore : U32) : U32 × U64 :=
  if e.handicap ≥ 4 then (perfScore * 4, e.handicap - 4)
  else if e.handicap ≠ 0 then (perfScore * 2, e.handicap - 1)
  else (perfScore, e.handicap)

/-- "Final adjustment based on input depth". -/
def depthScore (e : QueueEntry) (perfScore : U32) : U32 :=
  if e.depth ≤ 3 then perfScore
  else if e.depth ≤ 7 then perfScore * 2
  else if e.depth ≤ 13 then perfScore * 3
  else if e.depth ≤ 25 then perfScore * 4
  else perfScore * 5

/-- The factor of `FAST`, by the logarithm of the hit count. -/
def fastFactor (log2 : U32 → ℚ) (s : ScoreState) (q : ℕ) : ℚ :=
  let e := s.queueBuf q
  if e.fuzzLevel = 0 then 1
  else
    let n := (log2 (s.hitCount q)).floor.toNat
    let factor : ℚ :=
      if n ≤ 1 then 4
      else if n ≤ 3 then 3
      else if n = 4 then 2
      else if n = 5 then 1
      else if e.favored then 1
      else if n = 6 then 8 / 10
      else if n = 7 then 6 / 10
      else 4 / 10
    if e.favored then factor * (115 / 100) else factor

/-- The mean logarithm of the hit counts of the enabled entries, and the number of these. -/
def meanLog2 (log2 : U32 → ℚ) (s : ScoreState) : ℚ × ℕ :=
  let r := forLoop s.queuedItems (fun i (r : ℚ × ℕ) =>
    if !(s.queueBuf i).disabled then (r.1 + log2 (s.hitCount i), r.2 + 1) else r) (0, 0)
  (r.1 / r.2, r.2)

/-- The factor of `COE`, which falls through to that of `FAST`. -/
def coeFactor (log2 : U32 → ℚ) (s : ScoreState) (q : ℕ) : Except ScoreExit ℚ :=
  let e := s.queueBuf q
  if e.fuzzLevel = 0 then .ok 1
  else
    let mean := meanLog2 log2 s
    if mean.2 = 0 then .error .fatal
    else if log2 (s.hitCount q) > mean.1 then .ok (if !e.favored then 0 else 1)
    else .ok (fastFactor log2 s q)

/-- `q->fuzz_level / (n_fuzz + 1)`, with the ghost flag for a wrap-around. -/
def linFactor (fuzzLevel hits : U32) : Except ScoreExit (U32 × Bool) :=
  (udiv fuzzLevel (hits + 1)).map fun factor => (factor, hits.uaddOverflow 1)

/-- `q->fuzz_level * q->fuzz_level / (n_fuzz + 1)`, with the ghost flag for a wrap-around. -/
def quadFactor (fuzzLevel hits : U32) : Except ScoreExit (U32 × Bool) :=
  (udiv (fuzzLevel * fuzzLevel) (hits + 1)).map fun factor =>
    (factor, fuzzLevel.umulOverflow fuzzLevel || hits.uaddOverflow 1)

/-- What `switch (afl->schedule)` computes. -/
structure ScheduleScore where
  perfScore : U32
  factor : ℚ := 1
  /-- Ghost: the factor of `LIN` or `QUAD` wrapped around. -/
  wraps : Bool := false

/-- A factor of `LIN` or `QUAD`. "Don't modify perf_score for unfuzzed seeds". -/
def unfuzzedOr (e : QueueEntry) (perfScore : U32) (factor : Except ScoreExit (U32 × Bool)) :
    Except ScoreExit ScheduleScore :=
  if e.fuzzLevel = 0 then .ok { perfScore := perfScore }
  else
    factor.map fun r => { perfScore := perfScore, factor := (r.1.toNat : ℚ), wraps := r.2 }

def scheduleScore (log2 : U32 → ℚ) (s : ScoreState) (q : ℕ) (perfScore : U32) :
    Except ScoreExit ScheduleScore :=
  let e := s.queueBuf q
  match s.schedule with
  | .explore => .ok { perfScore := perfScore }
  | .seek => .ok { perfScore := perfScore }
  | .exploit => .ok { perfScore := perfScore, factor := maxFactor }
  | .coe => (coeFactor log2 s q).map fun f => { perfScore := perfScore, factor := f }
  | .fast => .ok { perfScore := perfScore, factor := fastFactor log2 s q }
  | .lin => unfuzzedOr e perfScore (linFactor e.fuzzLevel (s.hitCount q))
  | .quad => unfuzzedOr e perfScore (quadFactor e.fuzzLevel (s.hitCount q))
  | .mmopt =>
    .ok { perfScore := if s.maxDepth.setWidth 64 - e.depth < 5 then perfScore * 2 else perfScore }
  | .rare =>
    let share : ℚ := (s.hitCount q).toNat / s.totalExecs.toNat
    .ok { perfScore := scaleScore (1 - share) (perfScore + e.tcRef * 10) }

/-- The code behind the `switch`. -/
def boundScore (s : ScoreState) (q : ℕ) (r : ScheduleScore) : U32 :=
  let perfScore :=
    if s.schedule.toNat ≥ Schedule.exploit.toNat && s.schedule.toNat ≤ Schedule.quad.toNat then
      scaleScore (if r.factor > maxFactor then maxFactor else r.factor) r.perfScore
    else r.perfScore
  let perfScore :=
    if s.limitTimeSig ≠ 0 && s.maxDepth.setWidth 64 - (s.queueBuf q).depth < 3 then perfScore * 2
    else if s.schedule ≠ .coe && perfScore < 1 then 1
    else perfScore
  let limit := s.havocMaxMult.setWidth 32 * 100
  if perfScore > limit then limit else perfScore

/-- The score, the state with the handicap that is left, and the ghost flag. -/
structure ScoreResult where
  score : U32
  afl : ScoreState
  wraps : Bool

/-- Write through a queue entry pointer. -/
def ScoreState.modifyEntry (s : ScoreState) (q : ℕ) (f : QueueEntry → QueueEntry) : ScoreState :=
  { s with toAflState := s.toAflState.modify q f }

theorem ScoreState.modifyEntry_queueBuf_self (s : ScoreState) (q : ℕ)
    (f : QueueEntry → QueueEntry) : (s.modifyEntry q f).queueBuf q = f (s.queueBuf q) :=
  s.toAflState.modify_queueBuf_self q f

theorem ScoreState.modifyEntry_queueBuf_ne (s : ScoreState) {q p : ℕ}
    (f : QueueEntry → QueueEntry) (h : p ≠ q) : (s.modifyEntry q f).queueBuf p = s.queueBuf p :=
  s.toAflState.modify_queueBuf_ne f h

def calculateScore (log2 : U32 → ℚ) (s : ScoreState) (q : ℕ) : Except ScoreExit ScoreResult :=
  (scoreAverages s).bind fun avg =>
    let e := s.queueBuf q
    let perfScore :=
      if s.schedule.toNat < Schedule.rare.toNat && !s.fixedSeed then speedScore avg.1 e else 100
    let h := handicapScore e (bitmapScore avg.2 e perfScore)
    let s := s.modifyEntry q fun e => { e with handicap := h.2 }
    (scheduleScore log2 s q (depthScore e h.1)).map fun r =>
      { score := boundScore s q r, afl := s, wraps := r.wraps }

theorem udiv_ok {w : ℕ} (a : BitVec w) {b : BitVec w} (h : b ≠ 0) : udiv a b = .ok (a / b) :=
  if_neg h

theorem scoreAverages_ok (s : ScoreState) : ∃ avg, scoreAverages s = .ok avg := by
  have hguard : ∀ x : U32, (if x = 0 then 1 else x).setWidth 64 ≠ 0 := by
    intro x
    split
    · decide
    · -- widening keeps a number other than zero
      rename_i hx
      intro hzero
      refine hx (BitVec.eq_of_toNat_eq ?_)
      have hnat := congrArg BitVec.toNat hzero
      rw [BitVec.toNat_setWidth, Nat.mod_eq_of_lt (by omega)] at hnat
      exact hnat
  unfold scoreAverages
  dsimp only
  rw [udiv_ok _ (hguard _), udiv_ok _ (hguard _)]
  exact ⟨_, rfl⟩

/-- A score changes nothing but the handicap of its entry. -/
theorem calculateScore_afl {log2 : U32 → ℚ} {s : ScoreState} {q : ℕ} {r : ScoreResult}
    (h : calculateScore log2 s q = .ok r) :
    ∃ handicap, r.afl = s.modifyEntry q fun e => { e with handicap := handicap } := by
  obtain ⟨avg, havg⟩ := scoreAverages_ok s
  unfold calculateScore at h
  rw [havg] at h
  simp only [Except.bind] at h
  generalize scheduleScore _ _ _ _ = x at h
  cases x with
  | error e => cases h
  | ok r' =>
    cases h
    exact ⟨_, rfl⟩

/-! ### When a score is calculated safely -/

/-- No division by zero, and the ghost flag is not set. -/
def SafeResult {α : Type} (wraps : α → Bool) : Except ScoreExit α → Prop
  | .ok r => wraps r = false
  | .error e => e ≠ .divByZero

/-- No division by zero, and no wrap-around in a factor of `LIN` or `QUAD`. -/
def ScoresSafely (log2 : U32 → ℚ) (s : ScoreState) (q : ℕ) : Prop :=
  SafeResult ScoreResult.wraps (calculateScore log2 s q)

/-- The highest value of a hit counter, where the increment stops. -/
def hitCountCap : U32 := 0xffffffff

/-- Under `LIN` and `QUAD` the hit counter of an entry that has been fuzzed is below its cap, and
under `QUAD` the square of its fuzz level fits 32 bits. -/
def FactorFits (s : ScoreState) (q : ℕ) : Prop :=
  (s.queueBuf q).fuzzLevel ≠ 0 →
    (s.schedule = .lin → s.hitCount q ≠ hitCountCap) ∧
      (s.schedule = .quad → s.hitCount q ≠ hitCountCap ∧
        (s.queueBuf q).fuzzLevel.toNat < 2 ^ 16)

section Safe

variable {α β : Type} {log2 : U32 → ℚ} {s : ScoreState} {q : ℕ}

theorem safeResult_map (wraps : β → Bool) (f : α → β) (x : Except ScoreExit α) :
    SafeResult wraps (x.map f) ↔ SafeResult (fun a => wraps (f a)) x := by
  cases x <;> rfl

/-- The divisor is zero exactly when the counter is at its cap. -/
theorem succ_eq_zero_iff (hits : U32) : hits + 1 = 0 ↔ hits = hitCountCap := by
  unfold hitCountCap
  constructor <;> intro h <;> bv_omega

theorem uaddOverflow_one (hits : U32) : hits.uaddOverflow 1 = true ↔ hits = hitCountCap := by
  unfold hitCountCap BitVec.uaddOverflow
  rw [decide_eq_true_eq]
  constructor <;> intro h <;> bv_omega

theorem umulOverflow_self (level : U32) :
    level.umulOverflow level = true ↔ ¬ level.toNat < 2 ^ 16 := by
  unfold BitVec.umulOverflow
  rw [decide_eq_true_eq, not_lt]
  constructor
  · intro h
    -- 65535 squared still fits
    by_contra hlt
    have hsquare : level.toNat * level.toNat ≤ (2 ^ 16 - 1) * (2 ^ 16 - 1) :=
      Nat.mul_le_mul (by omega) (by omega)
    omega
  · intro h
    calc 2 ^ 32 = 2 ^ 16 * 2 ^ 16 := by norm_num
      _ ≤ level.toNat * level.toNat := Nat.mul_le_mul h h

theorem linFactor_safe_iff (level hits : U32) :
    SafeResult Prod.snd (linFactor level hits) ↔ hits ≠ hitCountCap := by
  unfold linFactor
  rw [safeResult_map]
  by_cases hcap : hits = hitCountCap
  · rw [udiv, if_pos ((succ_eq_zero_iff hits).mpr hcap)]
    exact iff_of_false (fun h => h rfl) (not_not.mpr hcap)
  · rw [udiv_ok _ (mt (succ_eq_zero_iff hits).mp hcap)]
    exact iff_of_true (Bool.eq_false_iff.mpr (mt (uaddOverflow_one hits).mp hcap)) hcap

theorem quadFactor_safe_iff (level hits : U32) :
    SafeResult Prod.snd (quadFactor level hits) ↔
      hits ≠ hitCountCap ∧ level.toNat < 2 ^ 16 := by
  unfold quadFactor
  rw [safeResult_map]
  by_cases hcap : hits = hitCountCap
  · rw [udiv, if_pos ((succ_eq_zero_iff hits).mpr hcap)]
    exact iff_of_false (fun h => h rfl) fun h => h.1 hcap
  · rw [udiv_ok _ (mt (succ_eq_zero_iff hits).mp hcap)]
    have hadd := Bool.eq_false_iff.mpr (mt (uaddOverflow_one hits).mp hcap)
    simp only [SafeResult, hadd, Bool.or_false]
    rw [Bool.eq_false_iff, ne_eq, umulOverflow_self, not_not]
    exact (and_iff_right hcap).symm

theorem unfuzzedOr_safe_iff (e : QueueEntry) (perfScore : U32)
    (factor : Except ScoreExit (U32 × Bool)) :
    SafeResult ScheduleScore.wraps (unfuzzedOr e perfScore factor) ↔
      (e.fuzzLevel ≠ 0 → SafeResult Prod.snd factor) := by
  unfold unfuzzedOr
  split
  · rename_i hlevel
    exact iff_of_true rfl fun h => absurd hlevel h
  · rename_i hlevel
    rw [safeResult_map]
    exact ⟨fun h _ => h, fun h => h hlevel⟩

theorem scheduleScore_safe_iff (perfScore : U32) :
    SafeResult ScheduleScore.wraps (scheduleScore log2 s q perfScore) ↔ FactorFits s q := by
  have hcoe : SafeResult ScheduleScore.wraps ((coeFactor log2 s q).map fun f =>
      { perfScore := perfScore, factor := f }) := by
    rw [safeResult_map]
    unfold coeFactor
    dsimp only
    split
    · exact rfl
    · split
      · exact ScoreExit.noConfusion
      · split <;> exact rfl
  unfold scheduleScore FactorFits
  cases hsched : s.schedule with
  | lin =>
    rw [unfuzzedOr_safe_iff, linFactor_safe_iff]
    simp
  | quad =>
    rw [unfuzzedOr_safe_iff, quadFactor_safe_iff]
    simp
  | coe => exact iff_of_true hcoe fun _ => ⟨nofun, nofun⟩
  | explore => exact iff_of_true rfl fun _ => ⟨nofun, nofun⟩
  | mmopt => exact iff_of_true rfl fun _ => ⟨nofun, nofun⟩
  | exploit => exact iff_of_true rfl fun _ => ⟨nofun, nofun⟩
  | fast => exact iff_of_true rfl fun _ => ⟨nofun, nofun⟩
  | rare => exact iff_of_true rfl fun _ => ⟨nofun, nofun⟩
  | seek => exact iff_of_true rfl fun _ => ⟨nofun, nofun⟩

/-- The handicap plays no part in it. -/
theorem factorFits_handicap (handicap : U64) :
    FactorFits (s.modifyEntry q fun e => { e with handicap := handicap }) q ↔ FactorFits s q := by
  unfold FactorFits AflState.hitCount
  rw [ScoreState.modifyEntry_queueBuf_self]
  rfl

/-- One call of `calculate_score`. -/
theorem scoresSafely_iff_fits : ScoresSafely log2 s q ↔ FactorFits s q := by
  obtain ⟨avg, havg⟩ := scoreAverages_ok s
  unfold ScoresSafely calculateScore
  rw [havg]
  simp only [Except.bind]
  rw [safeResult_map, scheduleScore_safe_iff, factorFits_handicap]

end Safe

end AflPlusPlus
