import AflPlusPlus.Lib.Contest
import AflPlusPlus.Queue.Traces

/-!
# Who wins a slot in the long run

Under the schedules that compare entries by speed and size only, the owner of a slot is the champion
of the contest between all entries that were scored with a trace that hits the slot.
-/

namespace AflPlusPlus
open Lib

/-- The schedules `FAST`, `COE`, `LIN` and `QUAD`, which skip the comparison of `fuzz_p2`. -/
def Schedule.skipsFuzzP2 : Schedule → Bool
  | .fast | .coe | .lin | .quad => true
  | _ => false

/-- `exec_us * len` as a number. -/
def QueueEntry.cost (e : QueueEntry) : ℕ := e.execUs.toNat * e.len.toNat

/-- One call of `update_bitmap_score`, with the trace that the execution left in `trace_bits`. -/
structure ScoreCall where
  entry : ℕ
  trace : Bytes

/-- What other code may not do between two calls. -/
structure Undisturbed (s t : AflState) : Prop where
  topRated : t.topRated = s.topRated
  mapSize : t.mapSize = s.mapSize
  fixedSeed : t.fixedSeed = s.fixedSeed
  execUs : ∀ r, (t.queueBuf r).execUs = (s.queueBuf r).execUs
  len : ∀ r, (t.queueBuf r).len = (s.queueBuf r).len

/-- The states reached from `s` by calls that score enabled entries under one of the four schedules;
between the calls anything that leaves the table and the measured entries alone may happen. -/
inductive ScoreRun (s : AflState) : List ScoreCall → AflState → Prop
  | start : ScoreRun s [] s
  | other {calls : List ScoreCall} {t u : AflState} : ScoreRun s calls t → Undisturbed t u →
      ScoreRun s calls u
  | score {calls : List ScoreCall} {t : AflState} (c : ScoreCall) : ScoreRun s calls t →
      t.schedule.skipsFuzzP2 = true → (t.queueBuf c.entry).disabled = false →
      t.traceBits = c.trace → ScoreRun s (calls ++ [c]) (updateBitmapScore t c.entry true)

/-- The calls whose trace hits index `i`. -/
def hitting (i : ℕ) (calls : List ScoreCall) : List ScoreCall :=
  calls.filter fun c => c.trace i ≠ 0#8

/-- Slot `i` is owned by the entry of the call that comes last among those that hit `i` with the
least `exec_us * len`. -/
def SlotOptimal (s : AflState) (calls : List ScoreCall) (t : AflState) (i : ℕ) : Prop :=
  ∃ c, t.topRated i = some c.entry ∧
    LastLeast (fun c : ScoreCall => (s.queueBuf c.entry).cost) (hitting i calls) c

/-! ### One call -/

theorem fuzzP2_eq_zero {s : AflState} (h : s.schedule.skipsFuzzP2 = true) (q : ℕ) :
    s.fuzzP2 q = 0 := by
  rw [AflState.fuzzP2]
  cases hs : s.schedule <;> rw [hs] at h <;> first | rfl | cases h

theorem favFactor_toNat {s : AflState} (h : s.schedule.skipsFuzzP2 = true)
    (hseed : s.fixedSeed = false) {q : ℕ} (hcost : (s.queueBuf q).cost < 2 ^ 64) :
    (s.favFactor q).toNat = (s.queueBuf q).cost := by
  have hrare : (decide (s.schedule.toNat ≥ Schedule.rare.toNat) || s.fixedSeed) = false := by
    rw [hseed]
    cases hs : s.schedule <;> rw [hs] at h <;> first | rfl | cases h
  have hlen : ((s.queueBuf q).len.setWidth 64).toNat = (s.queueBuf q).len.toNat := by
    rw [BitVec.toNat_setWidth, Nat.mod_eq_of_lt (by omega)]
  rw [AflState.favFactor, hrare, if_neg Bool.false_ne_true, BitVec.toNat_mul, hlen]
  exact Nat.mod_eq_of_lt hcost

theorem ScoreFrame.factors {s t : AflState} (h : ScoreFrame s t) (q : ℕ) :
    t.fuzzP2 q = s.fuzzP2 q ∧ t.favFactor q = s.favFactor q := by
  have hschedule : t.schedule = s.schedule := by rw [h.rest]
  have hfuzz : t.nFuzz = s.nFuzz := by rw [h.rest]
  have hseed : t.fixedSeed = s.fixedSeed := by rw [h.rest]
  constructor
  · rw [AflState.fuzzP2, AflState.fuzzP2, hschedule, hfuzz, h.entry q]
  · rw [AflState.favFactor, AflState.favFactor, hschedule, hseed, h.entry q]

theorem ScoreFrame.winsSlot {s t : AflState} (h : ScoreFrame s t) (q : ℕ) {i : ℕ}
    (htop : t.topRated i = s.topRated i) : t.winsSlot q i = s.winsSlot q i := by
  rw [AflState.winsSlot, AflState.winsSlot, htop, (h.factors q).1, (h.factors q).2]
  cases s.topRated i with
  | none => rfl
  | some p =>
    dsimp only
    rw [(h.factors p).1, (h.factors p).2]

/-- The slots after scoring `q` with a trace: each that the trace hits was contended for once. -/
theorem updateBitmapScore_topRated {s : AflState} {q : ℕ} (hen : (s.queueBuf q).disabled = false)
    {i : ℕ} (hi : i < s.mapSize.val) :
    (updateBitmapScore s q true).topRated i =
      if s.traceBits i ≠ 0#8 ∧ s.winsSlot q i = true then some q else s.topRated i := by
  have hloop : ScoreFrame s (updateBitmapScore s q true) ∧
      ∀ i, (updateBitmapScore s q true).topRated i =
        if i < s.mapSize.val ∧ s.traceBits i ≠ 0#8 ∧ s.winsSlot q i = true then some q
        else s.topRated i := by
    rw [updateBitmapScore, if_neg (by rw [hen]; exact Bool.false_ne_true)]
    refine forLoop_induct (fun n (t : AflState) => ScoreFrame s t ∧ ∀ i, t.topRated i =
      if i < n ∧ s.traceBits i ≠ 0#8 ∧ s.winsSlot q i = true then some q else s.topRated i) ?_ ?_
    · exact ⟨.refl s, fun i => (if_neg fun h => absurd h.1 (Nat.not_lt_zero i)).symm⟩
    · rintro n t - ⟨hframe, htop⟩
      have hn : t.topRated n = s.topRated n := by
        rw [htop n, if_neg fun h => absurd h.1 (lt_irrefl n)]
      -- what the body makes of the state, and of the slots
      have hbody : (if t.traceBits n ≠ 0#8 then
            contendSlot t q (s.fuzzP2 q) (s.favFactor q) n else t) =
          if s.traceBits n ≠ 0#8 ∧ s.winsSlot q n = true then transferSlot t q n else t := by
        rw [hframe.traceBits, ← (hframe.factors q).1, ← (hframe.factors q).2, contendSlot_eq,
          hframe.winsSlot q hn, ← ite_and]
      rw [hbody]
      by_cases hwin : s.traceBits n ≠ 0#8 ∧ s.winsSlot q n = true
      · rw [if_pos hwin]
        refine ⟨hframe.trans (transferSlot_frame t q n), fun i => ?_⟩
        rw [transferSlot_topRated]
        by_cases hin : i = n
        · subst hin
          rw [Function.update_self, if_pos ⟨Nat.lt_succ_self i, hwin⟩]
        · have hlt : i < n + 1 ↔ i < n := by omega
          rw [Function.update_of_ne hin, htop i]
          simp only [hlt]
      · rw [if_neg hwin]
        refine ⟨hframe, fun i => ?_⟩
        rw [htop i]
        by_cases hin : i = n
        · subst hin
          rw [if_neg fun h => hwin h.2, if_neg fun h => hwin h.2]
        · have hlt : i < n + 1 ↔ i < n := by omega
          simp only [hlt]
  rw [hloop.2 i]
  simp only [hi, true_and]

/-- Under the four schedules a slot is won by an entry of no larger cost. -/
theorem winsSlot_iff {s : AflState} (h : s.schedule.skipsFuzzP2 = true)
    (hseed : s.fixedSeed = false) {q i : ℕ} (hq : (s.queueBuf q).cost < 2 ^ 64)
    (hp : ∀ p, s.topRated i = some p → (s.queueBuf p).cost < 2 ^ 64) :
    s.winsSlot q i = true ↔
      ∀ p, s.topRated i = some p → (s.queueBuf q).cost ≤ (s.queueBuf p).cost := by
  rw [AflState.winsSlot]
  cases howner : s.topRated i with
  | none => simp
  | some p =>
    have hpcost := hp p howner
    have hlt : s.favFactor q > s.favFactor p ↔ (s.queueBuf p).cost < (s.queueBuf q).cost := by
      rw [gt_iff_lt, BitVec.lt_def, favFactor_toNat h hseed hq, favFactor_toNat h hseed hpcost]
    simp [fuzzP2_eq_zero h, hlt]

/-! ### Whole runs -/

theorem Undisturbed.cost {s t : AflState} (h : Undisturbed s t) (r : ℕ) :
    (t.queueBuf r).cost = (s.queueBuf r).cost := by
  rw [QueueEntry.cost, QueueEntry.cost, h.execUs r, h.len r]

/-- What a run keeps, and the slots as contests between the calls that hit them. -/
structure ContestInv (s : AflState) (calls : List ScoreCall) (t : AflState) : Prop where
  mapSize : t.mapSize = s.mapSize
  fixedSeed : t.fixedSeed = s.fixedSeed
  cost : ∀ r, (t.queueBuf r).cost = (s.queueBuf r).cost
  slot : ∀ i, i < s.mapSize.val → t.topRated i =
    (champion (fun c : ScoreCall => (s.queueBuf c.entry).cost) (hitting i calls)).map
      ScoreCall.entry

theorem hitting_concat (i : ℕ) (calls : List ScoreCall) (c : ScoreCall) :
    hitting i (calls ++ [c]) =
      if c.trace i ≠ 0#8 then hitting i calls ++ [c] else hitting i calls := by
  rw [hitting, List.filter_append]
  by_cases hc : c.trace i ≠ 0#8
  · rw [if_pos hc, List.filter_singleton, decide_eq_true hc]
    rfl
  · rw [if_neg hc, List.filter_singleton, decide_eq_false hc, hitting]
    simp

/-- Whether a call wins the slot depends on the costs at the start. -/
theorem ContestInv.winsSlot_iff {s t : AflState} {calls : List ScoreCall} {c : ScoreCall}
    (h : ContestInv s calls t) (hschedule : t.schedule.skipsFuzzP2 = true)
    (hseed : s.fixedSeed = false) (hcost : ∀ d ∈ calls ++ [c], (s.queueBuf d.entry).cost < 2 ^ 64)
    {i : ℕ} (hi : i < s.mapSize.val) :
    t.winsSlot c.entry i = true ↔
      ∀ p, t.topRated i = some p → (s.queueBuf c.entry).cost ≤ (s.queueBuf p).cost := by
  have hentry : (t.queueBuf c.entry).cost < 2 ^ 64 := by
    rw [h.cost]
    exact hcost c (by simp)
  have howner : ∀ p, t.topRated i = some p → (t.queueBuf p).cost < 2 ^ 64 := by
    intro p hp
    rw [h.slot i hi] at hp
    -- the owner of a slot is one of the earlier calls
    obtain ⟨d, hd, rfl⟩ := Option.map_eq_some_iff.mp hp
    rw [h.cost]
    exact hcost d (List.mem_append_left _ (List.mem_filter.mp (champion_mem hd)).1)
  have hiff := AflPlusPlus.winsSlot_iff hschedule (h.fixedSeed.trans hseed) hentry howner
  simpa only [h.cost] using hiff

/-- One more call is one more challenger for the slots it hits. -/
theorem ContestInv.score {s t : AflState} {calls : List ScoreCall} {c : ScoreCall}
    (h : ContestInv s calls t) (hschedule : t.schedule.skipsFuzzP2 = true)
    (hseed : s.fixedSeed = false) (hcost : ∀ d ∈ calls ++ [c], (s.queueBuf d.entry).cost < 2 ^ 64)
    (hen : (t.queueBuf c.entry).disabled = false) (htrace : t.traceBits = c.trace) :
    ContestInv s (calls ++ [c]) (updateBitmapScore t c.entry true) := by
  have hframe := updateBitmapScore_frame t c.entry true
  have hkeep : ∀ r, ((updateBitmapScore t c.entry true).queueBuf r).cost =
      (t.queueBuf r).cost := by
    intro r
    rw [QueueEntry.cost, QueueEntry.cost, hframe.entry r]
  refine ⟨hframe.mapSize.trans h.mapSize, ?_, fun r => (hkeep r).trans (h.cost r), fun i hi => ?_⟩
  · rw [hframe.rest]
    exact h.fixedSeed
  · have hslot := h.slot i hi
    have hwins := h.winsSlot_iff hschedule hseed hcost hi
    rw [updateBitmapScore_topRated hen (by rw [h.mapSize]; exact hi), htrace, hitting_concat]
    by_cases hhit : c.trace i ≠ 0#8
    · rw [if_pos hhit, champion_concat]
      cases hch : champion (fun c : ScoreCall => (s.queueBuf c.entry).cost) (hitting i calls) with
      | none =>
        -- a free slot is taken
        rw [hch] at hslot
        rw [if_pos ⟨hhit, hwins.mpr (by simp [hslot])⟩]
        rfl
      | some d =>
        rw [hch] at hslot
        rw [challenge_some]
        by_cases hle : (s.queueBuf c.entry).cost ≤ (s.queueBuf d.entry).cost
        · rw [if_neg (not_lt.mpr hle), if_pos ⟨hhit, hwins.mpr (by simpa [hslot] using hle)⟩]
          rfl
        · rw [if_pos (not_le.mp hle), if_neg fun h => hle (hwins.mp h.2 d.entry hslot)]
          exact hslot
    · rw [if_neg hhit, if_neg fun h => hhit h.1]
      exact hslot

theorem ScoreRun.contestInv {s t : AflState} {calls : List ScoreCall} (h : ScoreRun s calls t)
    (hempty : ∀ i, s.topRated i = none) (hseed : s.fixedSeed = false)
    (hcost : ∀ c ∈ calls, (s.queueBuf c.entry).cost < 2 ^ 64) : ContestInv s calls t := by
  induction h with
  | start => exact ⟨rfl, rfl, fun _ => rfl, fun i _ => hempty i⟩
  | other _ hother ih =>
    have hinv := ih hcost
    refine ⟨hother.mapSize.trans hinv.mapSize, hother.fixedSeed.trans hinv.fixedSeed,
      fun r => (hother.cost r).trans (hinv.cost r), fun i hi => ?_⟩
    rw [hother.topRated]
    exact hinv.slot i hi
  | score c _ hschedule hen htrace ih =>
    have hinv := ih fun d hd => hcost d (List.mem_append_left _ hd)
    exact hinv.score hschedule hseed hcost hen htrace

/-- Without a fixed seed and with products of less than 64 bits, every slot that was hit is owned by
the last of the cheapest entries that hit it. -/
theorem slots_optimal {s t : AflState} {calls : List ScoreCall} (h : ScoreRun s calls t)
    (hempty : ∀ i, s.topRated i = none) (hseed : s.fixedSeed = false)
    (hcost : ∀ c ∈ calls, (s.queueBuf c.entry).cost < 2 ^ 64) {i : ℕ} (hi : i < s.mapSize.val)
    (hhit : ∃ c ∈ calls, c.trace i ≠ 0#8) : SlotOptimal s calls t i := by
  obtain ⟨c, hc, hci⟩ := hhit
  have hne : hitting i calls ≠ [] :=
    List.ne_nil_of_mem (List.mem_filter.mpr ⟨hc, by simpa using hci⟩)
  obtain ⟨d, hd, hleast⟩ := exists_champion
    (fun c : ScoreCall => (s.queueBuf c.entry).cost) hne
  refine ⟨d, ?_, hleast⟩
  rw [(h.contestInv hempty hseed hcost).slot i hi, hd]
  rfl

/-- Two entries with the given times and sizes and an empty table. The last execution hit index
3. -/
def twoEntries (fixedSeed : Bool) (execUs : ℕ → U64) (len : ℕ → U32) : AflState :=
  { AflState.init .block with
    schedule := .fast
    fixedSeed := fixedSeed
    queuedItems := 2
    traceBits := hits [3]
    queueBuf := fun r => { execUs := execUs r, len := len r } }

/-- Entry 0 is scored, then entry 1. -/
def twoCalls : List ScoreCall := [⟨0, hits [3]⟩, ⟨1, hits [3]⟩]

def afterTwoCalls (s : AflState) : AflState :=
  updateBitmapScore (updateBitmapScore s 0 true) 1 true

theorem scoreRun_twoCalls (fixedSeed : Bool) (execUs : ℕ → U64) (len : ℕ → U32) :
    ScoreRun (twoEntries fixedSeed execUs len) twoCalls
      (afterTwoCalls (twoEntries fixedSeed execUs len)) := by
  have hframe := updateBitmapScore_frame (twoEntries fixedSeed execUs len) 0 true
  have hfirst : ScoreRun (twoEntries fixedSeed execUs len) [⟨0, hits [3]⟩]
      (updateBitmapScore (twoEntries fixedSeed execUs len) 0 true) :=
    ScoreRun.score ⟨0, hits [3]⟩ .start rfl rfl rfl
  refine ScoreRun.score ⟨1, hits [3]⟩ hfirst ?_ ?_ ?_
  · rw [hframe.rest]
    rfl
  · rw [hframe.entry 1]
    rfl
  · rw [hframe.traceBits]
    rfl

/-- Both products are 10. -/
def tiedPair : AflState :=
  twoEntries false (fun r => if r = 0 then 5 else 2) fun r => if r = 0 then 2 else 5

theorem slots_optimal_tie : SlotOptimal tiedPair twoCalls (afterTwoCalls tiedPair) 3 :=
  slots_optimal (scoreRun_twoCalls _ _ _) (fun _ => rfl) rfl
    (fun c hc => by
      rcases List.mem_cons.mp hc with rfl | hc
      · decide
      · rw [List.mem_singleton.mp hc]
        decide)
    (by decide) ⟨⟨0, hits [3]⟩, List.mem_cons_self, by decide⟩

/-- The products are 2 and 9, and the seed is fixed. -/
def seededPair : AflState :=
  twoEntries true (fun r => if r = 0 then 1 else 9) fun r => if r = 0 then 2 else 1

/-- The products are 2 and 2 to the power 64. -/
def wrappingPair : AflState :=
  twoEntries false (fun r => if r = 0 then 1 else 0x8000000000000000) fun _ => 2

/-- An entry that is not the cheapest of those that hit the slot cannot own it. -/
theorem not_slotOptimal_of_cheaper {s t : AflState} {calls : List ScoreCall} {i q : ℕ}
    (howner : t.topRated i = some q) {c : ScoreCall} (hc : c ∈ hitting i calls)
    (hless : (s.queueBuf c.entry).cost < (s.queueBuf q).cost) : ¬ SlotOptimal s calls t i := by
  rintro ⟨d, hd, hleast⟩
  obtain rfl : q = d.entry := Option.some.inj (howner.symm.trans hd)
  exact absurd (hleast.least hc) (not_le.mpr hless)

/-- With a fixed seed the shorter entry wins although its product is larger, and a product that
wraps around to zero wins. -/
theorem not_slotOptimal_pairs :
    (ScoreRun seededPair twoCalls (afterTwoCalls seededPair) ∧
      ¬ SlotOptimal seededPair twoCalls (afterTwoCalls seededPair) 3) ∧
    ScoreRun wrappingPair twoCalls (afterTwoCalls wrappingPair) ∧
      ¬ SlotOptimal wrappingPair twoCalls (afterTwoCalls wrappingPair) 3 := by
  have hfirst : (⟨0, hits [3]⟩ : ScoreCall) ∈ hitting 3 twoCalls :=
    List.mem_filter.mpr ⟨List.mem_cons_self, by decide⟩
  refine ⟨⟨scoreRun_twoCalls _ _ _, ?_⟩, scoreRun_twoCalls _ _ _, ?_⟩
  · exact not_slotOptimal_of_cheaper (q := 1) (by decide +kernel) hfirst (by decide)
  · exact not_slotOptimal_of_cheaper (q := 1) (by decide +kernel) hfirst (by decide)

end AflPlusPlus
