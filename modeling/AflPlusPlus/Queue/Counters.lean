import AflPlusPlus.Lib.Reach
import AflPlusPlus.Queue.Cull
import AflPlusPlus.Queue.DryRun

/-!
# The queue counters

`active_items`, `pending_not_fuzzed` and `queued_variable` against the flags of the entries they
count. What a function does to them is said once, on `CounterView`: the counters and the three flags
per entry, without the rest of the state.
-/

namespace AflPlusPlus
open Lib Coverage

structure EntryFlags where
  disabled : Bool
  wasFuzzed : Bool
  varBehavior : Bool

def QueueEntry.flags (e : QueueEntry) : EntryFlags := ⟨e.disabled, e.wasFuzzed, e.varBehavior⟩

structure CounterView where
  queuedItems : ℕ
  activeItems : U32
  pendingNotFuzzed : U32
  queuedVariable : U32
  flags : ℕ → EntryFlags

def AflState.counters (s : AflState) : CounterView where
  queuedItems := s.queuedItems
  activeItems := s.activeItems
  pendingNotFuzzed := s.pendingNotFuzzed
  queuedVariable := s.queuedVariable
  flags := fun q => (s.queueBuf q).flags

abbrev EntryFlags.Active (f : EntryFlags) : Prop := f.disabled = false
abbrev EntryFlags.Pending (f : EntryFlags) : Prop := f.disabled = false ∧ f.wasFuzzed = false
abbrev EntryFlags.Variable (f : EntryFlags) : Prop := f.varBehavior = true

/-- Every counter is the number of entries it stands for. -/
structure CounterView.Exact (v : CounterView) : Prop where
  active : v.activeItems = BitVec.ofNat 32 (tally v.queuedItems EntryFlags.Active v.flags)
  pending : v.pendingNotFuzzed = BitVec.ofNat 32 (tally v.queuedItems EntryFlags.Pending v.flags)
  «variable» : v.queuedVariable = BitVec.ofNat 32 (tally v.queuedItems EntryFlags.Variable v.flags)

namespace CounterView

/-- The flags of entry `q` become `f`, and every counter follows. -/
def setFlags (v : CounterView) (q : ℕ) (f : EntryFlags) : CounterView where
  queuedItems := v.queuedItems
  activeItems := v.activeItems - BitVec.ofNat 32 (if (v.flags q).Active then 1 else 0) +
    BitVec.ofNat 32 (if f.Active then 1 else 0)
  pendingNotFuzzed := v.pendingNotFuzzed - BitVec.ofNat 32 (if (v.flags q).Pending then 1 else 0) +
    BitVec.ofNat 32 (if f.Pending then 1 else 0)
  queuedVariable := v.queuedVariable - BitVec.ofNat 32 (if (v.flags q).Variable then 1 else 0) +
    BitVec.ofNat 32 (if f.Variable then 1 else 0)
  flags := Function.update v.flags q f

theorem Exact.setFlags {v : CounterView} (h : v.Exact) {q : ℕ} (hq : q < v.queuedItems)
    (f : EntryFlags) : (v.setFlags q f).Exact := by
  refine ⟨?_, ?_, ?_⟩
  · rw [CounterView.setFlags, h.active]
    exact (ofNat_recount (tally_update v.flags f hq)).symm
  · rw [CounterView.setFlags, h.pending]
    exact (ofNat_recount (tally_update v.flags f hq)).symm
  · rw [CounterView.setFlags, h.variable]
    exact (ofNat_recount (tally_update v.flags f hq)).symm

/-- A new entry: enabled, not fuzzed, not variable. -/
def append (v : CounterView) : CounterView where
  queuedItems := v.queuedItems + 1
  activeItems := v.activeItems + 1
  pendingNotFuzzed := v.pendingNotFuzzed + 1
  queuedVariable := v.queuedVariable
  flags := Function.update v.flags v.queuedItems ⟨false, false, false⟩

theorem tally_append (v : CounterView) (p : EntryFlags → Prop) [DecidablePred p] :
    tally v.append.queuedItems p v.append.flags =
      tally v.queuedItems p v.flags + (if p ⟨false, false, false⟩ then 1 else 0) := by
  simp only [append]
  rw [tally_succ, tally_update_of_le _ _ (Nat.le_refl _), Function.update_self]

theorem Exact.append {v : CounterView} (h : v.Exact) : v.append.Exact := by
  refine ⟨?_, ?_, ?_⟩
  · rw [tally_append, if_pos rfl, BitVec.ofNat_add, ← h.active]
    rfl
  · rw [tally_append, if_pos ⟨rfl, rfl⟩, BitVec.ofNat_add, ← h.pending]
    rfl
  · rw [tally_append, if_neg Bool.false_ne_true, Nat.add_zero, ← h.variable]
    rfl

end CounterView

/-! ### Steps that the counters do not see -/

theorem counters_eq {s t : AflState} (hitems : t.queuedItems = s.queuedItems)
    (hactive : t.activeItems = s.activeItems) (hpending : t.pendingNotFuzzed = s.pendingNotFuzzed)
    (hvariable : t.queuedVariable = s.queuedVariable)
    (hflags : ∀ p, (t.queueBuf p).flags = (s.queueBuf p).flags) : t.counters = s.counters := by
  simp only [AflState.counters, hitems, hactive, hpending, hvariable, hflags]

theorem AflState.modify_counters (s : AflState) (q : ℕ) {f : QueueEntry → QueueEntry}
    (h : ∀ e, (f e).flags = e.flags) : (s.modify q f).counters = s.counters := by
  refine counters_eq rfl rfl rfl rfl fun p => ?_
  exact s.modify_queueBuf_frame q p f QueueEntry.flags h

theorem ScoreFrame.counters {s t : AflState} (h : ScoreFrame s t) : t.counters = s.counters := by
  refine counters_eq ?_ ?_ ?_ ?_ fun p => ?_
  · rw [h.rest]
  · rw [h.rest]
  · rw [h.rest]
  · rw [h.rest]
  · rw [h.entry p]
    rfl

theorem markVarBytes_counters (s : AflState) : (markVarBytes s).counters = s.counters := by
  refine forLoop_frame AflState.counters fun i t _ => ?_
  split <;> rfl

theorem calibrateStart_counters (s : AflState) (q : ℕ) :
    (calibrateStart s q).afl.counters = s.counters := by
  have hentry : ∀ t : AflState, (t.modify q fun e => { e with execCksum := 0 }).counters =
      t.counters := fun t => t.modify_counters q fun _ => rfl
  have hcal : ∀ t : AflState,
      (t.modify q fun e => { e with calFailed := e.calFailed + 1 }).counters =
      t.counters := fun t => t.modify_counters q fun _ => rfl
  unfold calibrateStart
  dsimp only
  split <;> split
  · exact (hcal _).trans (hentry s)
  · exact (hcal _).trans (hentry s)
  · exact hcal s
  · exact hcal s

theorem calibrateCompare_counters (hash64 : Bytes → U64) (q : ℕ) (fault : Fault) (s : AflState)
    (c : CalLoop) : (calibrateCompare hash64 q fault s c).afl.counters = s.counters := by
  have hset : ∀ (t : AflState) (x : U64) (p : ℕ),
      ((t.modify q fun e => { e with execCksum := x }).queueBuf p).flags = (t.queueBuf p).flags :=
    fun t x p => t.modify_queueBuf_frame q p _ QueueEntry.flags fun _ => rfl
  unfold calibrateCompare
  dsimp only
  split
  · split
    · exact markVarBytes_counters _
    · exact counters_eq rfl rfl rfl rfl fun p => hset _ _ p
  · rfl

theorem calibrateRun_counters (hash64 : Bytes → U64) (q : ℕ) (inp : CalInput) (k : ℕ)
    (c : CalLoop) : (calibrateRun hash64 q inp k c).afl.counters = c.afl.counters := by
  unfold calibrateRun
  split
  · rfl
  · dsimp only
    split
    · rfl
    · split
      · rfl
      · exact calibrateCompare_counters hash64 q _ _ c

theorem calibrateLoop_counters (hash64 : Bytes → U64) (s : AflState) (q : ℕ) (inp : CalInput) :
    (calibrateLoop hash64 s q inp).afl.counters = s.counters :=
  (forLoop_frame (fun c : CalLoop => c.afl.counters)
    fun k c _ => calibrateRun_counters hash64 q inp k c).trans (calibrateStart_counters s q)

theorem calibrateFinish_counters (firstRun : Bool) (q : ℕ) (inp : CalInput) (c : CalLoop) :
    (calibrateFinish firstRun q inp c).2.counters = c.afl.counters := by
  unfold calibrateFinish
  split
  · rfl
  · refine (updateBitmapScore_frame _ q true).counters.trans ?_
    refine counters_eq rfl rfl rfl rfl fun p => ?_
    by_cases hp : p = q
    · subst hp
      simp [QueueEntry.flags]
    · simp [AflState.modify_queueBuf_ne _ _ hp]

/-! ### Calibration -/

/-- The calibration of `q` counts no variable entry that is not marked as one. -/
def CalSound (hash64 : Bytes → U64) (s : AflState) (q : ℕ) (inp : CalInput) : Prop :=
  (s.queueBuf q).varBehavior = true ∨ inp.Stable hash64 s q

/-- What a calibration does to the counters. -/
theorem calibrateCase_counters_eq (hash64 : Bytes → U64) (s : AflState) (q : ℕ) (inp : CalInput) :
    (calibrateCase hash64 s q inp).2.counters =
      if (calibrateLoop hash64 s q inp).varDetected && !(s.queueBuf q).varBehavior then
        { s.counters with queuedVariable := s.queuedVariable + 1 }
      else s.counters := by
  have hfinish : (calibrateFinish ((s.queueBuf q).execCksum = 0) q inp
      (calibrateLoop hash64 s q inp)).2.counters = s.counters :=
    (calibrateFinish_counters _ q inp _).trans (calibrateLoop_counters hash64 s q inp)
  have hcov : ∀ t : AflState, (t.modify q fun e => { e with hasNewCov := true }).counters =
      t.counters := fun t => t.modify_counters q fun _ => rfl
  have hflag : ∀ t : AflState, t.counters = s.counters →
      (t.queueBuf q).varBehavior = (s.queueBuf q).varBehavior := fun t ht =>
    congrArg EntryFlags.varBehavior (congrFun (congrArg CounterView.flags ht) q)
  -- both branches before the last `if` leave the counters alone
  have hlast : ∀ t : AflState, t.counters = s.counters →
      (if (calibrateLoop hash64 s q inp).varDetected && !(t.queueBuf q).varBehavior then
        { t with queuedVariable := t.queuedVariable + 1 } else t).counters =
      if (calibrateLoop hash64 s q inp).varDetected && !(s.queueBuf q).varBehavior then
        { s.counters with queuedVariable := s.queuedVariable + 1 }
      else s.counters := by
    intro t ht
    rw [hflag t ht]
    split
    · have hcount : t.queuedVariable = s.queuedVariable := congrArg CounterView.queuedVariable ht
      rw [← hcount, ← ht]
      rfl
    · exact ht
  unfold calibrateCase
  dsimp only
  split
  · exact hlast _ ((hcov _).trans hfinish)
  · exact hlast _ hfinish

theorem calibrateCase_counters {hash64 : Bytes → U64} {s : AflState} {q : ℕ} {inp : CalInput}
    (h : CalSound hash64 s q inp) : (calibrateCase hash64 s q inp).2.counters = s.counters := by
  rw [calibrateCase_counters_eq, if_neg]
  rw [Bool.and_eq_true, calibrateLoop_varDetected, Bool.not_eq_true']
  rintro ⟨hvaried, hvar⟩
  rcases h with hv | hst
  · rw [hvar] at hv
    cases hv
  · exact hvaried hst

/-- A variation in an entry that is not marked as variable is counted without marking it. -/
theorem calibrateCase_counters_of_varied {hash64 : Bytes → U64} {s : AflState} {q : ℕ}
    {inp : CalInput} (h : ¬ CalSound hash64 s q inp) :
    (calibrateCase hash64 s q inp).2.counters =
      { s.counters with queuedVariable := s.queuedVariable + 1 } := by
  obtain ⟨hvar, hvaried⟩ := not_or.mp h
  rw [calibrateCase_counters_eq, if_pos]
  rw [Bool.and_eq_true, calibrateLoop_varDetected, Bool.not_eq_true']
  exact ⟨hvaried, by simpa using hvar⟩

/-! ### Disabling an entry -/

/-- A step that changes the flags of one entry and lets every counter follow. -/
theorem counters_setFlags {s t : AflState} {q : ℕ} {f : EntryFlags}
    (hitems : t.queuedItems = s.queuedItems) (hflags : (t.queueBuf q).flags = f)
    (hother : ∀ p, p ≠ q → (t.queueBuf p).flags = (s.queueBuf p).flags)
    (hactive : t.activeItems = (s.counters.setFlags q f).activeItems)
    (hpending : t.pendingNotFuzzed = (s.counters.setFlags q f).pendingNotFuzzed)
    (hvariable : t.queuedVariable = (s.counters.setFlags q f).queuedVariable) :
    t.counters = s.counters.setFlags q f := by
  have hall : (fun p => (t.queueBuf p).flags) = Function.update s.counters.flags q f := by
    funext p
    by_cases hp : p = q
    · subst hp
      rw [hflags, Function.update_self]
    · rw [hother p hp, Function.update_of_ne hp]
      rfl
  rw [AflState.counters, hitems, hactive, hpending, hvariable, hall]
  rfl

/-- What an entry that was enabled and not fuzzed becomes when it is dropped. -/
def AflState.dropped (s : AflState) (q : ℕ) : CounterView :=
  s.counters.setFlags q ⟨true, true, (s.queueBuf q).varBehavior⟩

theorem dropped_counters {s : AflState} {q : ℕ} (hen : (s.queueBuf q).disabled = false)
    (hnf : (s.queueBuf q).wasFuzzed = false) :
    (s.dropped q).activeItems = s.activeItems - 1 ∧
      (s.dropped q).pendingNotFuzzed = s.pendingNotFuzzed - 1 ∧
      (s.dropped q).queuedVariable = s.queuedVariable := by
  refine ⟨?_, ?_, BitVec.sub_add_cancel _ _⟩
  · simp [AflState.dropped, CounterView.setFlags, AflState.counters, QueueEntry.flags,
      EntryFlags.Active, hen]
  · simp [AflState.dropped, CounterView.setFlags, AflState.counters, QueueEntry.flags,
      EntryFlags.Pending, hen, hnf]

theorem disable_dropPending_counters {s : AflState} {q : ℕ}
    (hen : (s.queueBuf q).disabled = false) (hnf : (s.queueBuf q).wasFuzzed = false) :
    (disableEntry (dropPending s q) q).counters = s.dropped q := by
  obtain ⟨hactive, hpending, hvariable⟩ := dropped_counters hen hnf
  unfold disableEntry dropPending
  rw [if_pos (by rw [hnf]; rfl)]
  refine counters_setFlags rfl ?_ (fun p hp => ?_) hactive.symm hpending.symm hvariable.symm
  · simp [QueueEntry.flags]
  · simp [AflState.modify_queueBuf_ne _ _ hp]

/-- The first timeout branch disables before it counts. -/
theorem dropPending_disable_counters {s : AflState} {q : ℕ}
    (hen : (s.queueBuf q).disabled = false) (hnf : (s.queueBuf q).wasFuzzed = false) :
    (dropPending (disableEntry s q) q).counters = s.dropped q := by
  obtain ⟨hactive, hpending, hvariable⟩ := dropped_counters hen hnf
  unfold dropPending disableEntry
  rw [if_pos (by simp [hnf])]
  refine counters_setFlags rfl ?_ (fun p hp => ?_) hactive.symm hpending.symm hvariable.symm
  · simp [QueueEntry.flags]
  · simp [AflState.modify_queueBuf_ne _ _ hp]

theorem CounterView.Exact.dropped {s : AflState} (h : s.counters.Exact) {q : ℕ}
    (hq : q < s.queuedItems) : (s.dropped q).Exact := h.setFlags hq _

/-! ### The dry run -/

/-- The crash is not new, so that the `switch` is left with the seed still enabled. -/
def crashKept (s : AflState) : Bool :=
  s.aflCrashingSeedsAsNewCrash && !s.nonInstrumentedMode && decide ((crashHasNewBits s).1 = 0)

/-- A seed is disabled exactly when its counts are given up, that is when it was not fuzzed. -/
def SwitchSound (s : AflState) (q : ℕ) : Fault → Prop
  | .tmout => (s.queueBuf q).wasFuzzed = false
  | .crash => s.crashMode = .ok → (s.queueBuf q).wasFuzzed = crashKept s
  | _ => True

/-- What the crash branch does to the counters: the seed stays enabled if its crash is not new, and
is disabled otherwise. -/
theorem dryRunCrash_cases {s t : AflState} {q : ℕ} {fname : Name}
    (hrun : dryRunCrash s q fname = .ok t) :
    crashKept s = true ∧ t.counters = (dropPending s q).counters ∨
      crashKept s = false ∧ t.counters = (disableEntry (dropPending s q) q).counters := by
  have hdrop : (dropPending s q).aflCrashingSeedsAsNewCrash = s.aflCrashingSeedsAsNewCrash ∧
      (dropPending s q).nonInstrumentedMode = s.nonInstrumentedMode ∧
      (crashHasNewBits (dropPending s q)).1 = (crashHasNewBits s).1 := by
    rw [(dropPending_frame s q).rest]
    exact ⟨rfl, rfl, rfl⟩
  obtain ⟨hseeds, hinst, hbits⟩ := hdrop
  unfold dryRunCrash at hrun
  split at hrun
  · cases hrun
  · dsimp only at hrun
    rw [hseeds, hinst] at hrun
    cases hset : s.aflCrashingSeedsAsNewCrash with
    | false =>
      rw [hset] at hrun
      cases hrun
      exact .inr ⟨by simp [crashKept, hset], rfl⟩
    | true =>
      rw [hset, if_pos rfl] at hrun
      cases hnon : s.nonInstrumentedMode with
      | true =>
        rw [hnon] at hrun
        obtain rfl := saveSeedCrash_map_ok hrun
        exact .inr ⟨by simp [crashKept, hnon], rfl⟩
      | false =>
        rw [hnon, if_pos (by rfl)] at hrun
        split at hrun
        · -- The `switch` is left early, before the entry is disabled.
          rename_i hzero
          have hz : (crashHasNewBits s).1 = 0 := hbits.symm.trans hzero
          cases hrun
          exact .inl ⟨by simp [crashKept, hset, hnon, hz], rfl⟩
        · rename_i hnew
          have hz : (crashHasNewBits s).1 ≠ 0 := fun hz => hnew (hbits.trans hz)
          obtain rfl := saveSeedCrash_map_ok hrun
          exact .inr ⟨by rw [crashKept, decide_eq_false hz, Bool.and_false], rfl⟩

/-- Everything the `switch` can do to the counters. -/
theorem dryRunSwitch_cases {s t : AflState} {q : ℕ} {fname : Name} {res : Fault} {skipped : Bool}
    (hrun : dryRunSwitch s q fname res = .ok (t, skipped)) :
    t.counters = s.counters ∨
      res = .tmout ∧ (t = dropPending (disableEntry
          (s.modify q fun e => { e with calFailed := calChances }) q) q ∨
        t = disableEntry (dropPending s q) q) ∨
      res = .crash ∧ s.crashMode = .ok ∧ dryRunCrash s q fname = .ok t := by
  cases res with
  | ok =>
    simp only [dryRunSwitch] at hrun
    split at hrun <;> cases hrun
    exact .inl rfl
  | tmout =>
    refine .inr (.inl ⟨rfl, ?_⟩)
    simp only [dryRunSwitch] at hrun
    split at hrun
    · cases hrun
      exact .inl rfl
    · split at hrun <;> cases hrun
      exact .inr rfl
  | crash =>
    simp only [dryRunSwitch] at hrun
    split at hrun
    · cases hrun
      exact .inl rfl
    · rename_i hmode
      rw [ne_eq, not_not] at hmode
      refine .inr (.inr ⟨rfl, hmode, ?_⟩)
      cases hcrash : dryRunCrash s q fname with
      | error x =>
        rw [hcrash] at hrun
        cases hrun
      | ok u =>
        rw [hcrash] at hrun
        cases hrun
        rfl
  | error => cases hrun
  | noinst => cases hrun
  | nobits =>
    cases hrun
    exact .inl rfl

theorem dryRunSwitch_exact {s t : AflState} {q : ℕ} {fname : Name} {res : Fault} {skipped : Bool}
    (h : s.counters.Exact) (hq : q < s.queuedItems) (hen : (s.queueBuf q).disabled = false)
    (hsound : SwitchSound s q res) (hrun : dryRunSwitch s q fname res = .ok (t, skipped)) :
    t.counters.Exact := by
  obtain heq | ⟨rfl, rfl | rfl⟩ | ⟨rfl, hmode, hcrash⟩ := dryRunSwitch_cases hrun
  · rw [heq]
    exact h
  · have hnf : (s.queueBuf q).wasFuzzed = false := hsound
    have hcal : (s.modify q fun e => { e with calFailed := calChances }).counters = s.counters :=
      s.modify_counters q fun _ => rfl
    rw [dropPending_disable_counters (by simpa using hen) (by simpa using hnf)]
    exact CounterView.Exact.dropped (hcal ▸ h) hq
  · rw [disable_dropPending_counters hen hsound]
    exact h.dropped hq
  · have hfuzzed : (s.queueBuf q).wasFuzzed = crashKept s := hsound hmode
    obtain ⟨hkept, heq⟩ | ⟨hkept, heq⟩ := dryRunCrash_cases hcrash
    · -- The kept seed was fuzzed before, so `dropPending` did not touch it.
      rw [heq, dropPending, if_neg (by rw [hfuzzed, hkept]; exact Bool.false_ne_true)]
      exact h
    · rw [heq, disable_dropPending_counters hen (hfuzzed.trans hkept)]
      exact h.dropped hq

/-- No entry that the de-duplication drops was fuzzed. -/
def DedupSound (s : AflState) : Prop := ∀ p q, s.Duplicate p q → (s.queueBuf q).wasFuzzed = false

/-- Every calibration and every `switch` of the dry run is sound in the state it is reached in, and
so is the de-duplication at the end. -/
def DryRunSound (inp : DryInput) : List ℕ → AflState → Prop
  | [], s => DedupSound s
  | idx :: rest, s =>
    if (s.queueBuf idx).disabled || (s.queueBuf idx).len = 0 then DryRunSound inp rest s
    else
      CalSound inp.hash64 (colorizeSeed s idx) idx (inp.cal idx) ∧
        (inp.stopSoon idx = false →
          SwitchSound (dryRunCalibrate inp s idx).2 idx (dryRunCalibrate inp s idx).1 ∧
            ∀ r, dryRunSeed inp s idx = .ok r → DryRunSound inp rest r.1)

theorem dryRunSwitch_queuedItems {s t : AflState} {q : ℕ} {fname : Name} {res : Fault}
    {skipped : Bool} (hrun : dryRunSwitch s q fname res = .ok (t, skipped)) :
    t.queuedItems = s.queuedItems := by
  have hdrop : ∀ u : AflState, (dropPending u q).queuedItems = u.queuedItems := fun u => by
    rw [(dropPending_frame u q).rest]
  obtain heq | ⟨-, rfl | rfl⟩ | ⟨-, -, hcrash⟩ := dryRunSwitch_cases hrun
  · exact congrArg CounterView.queuedItems heq
  · exact hdrop _
  · exact hdrop s
  · obtain ⟨-, heq⟩ | ⟨-, heq⟩ := dryRunCrash_cases hcrash <;>
      exact (congrArg CounterView.queuedItems heq).trans (hdrop s)

theorem dryRunCalibrate_counters {inp : DryInput} {s : AflState} {idx : ℕ}
    (h : CalSound inp.hash64 (colorizeSeed s idx) idx (inp.cal idx)) :
    (dryRunCalibrate inp s idx).2.counters = s.counters := by
  have hcolor : (colorizeSeed s idx).counters = s.counters := by
    unfold colorizeSeed
    split
    · exact s.modify_counters idx fun _ => rfl
    · rfl
  have hcal := (calibrateCase_counters h).trans hcolor
  have hfuzz : ∀ t : AflState, (t.modify idx fun e =>
      { e with nFuzzEntry := BitVec.ofNat 32 (e.execCksum.toNat % nFuzzSize) }).counters =
      t.counters := fun t => t.modify_counters idx fun _ => rfl
  unfold dryRunCalibrate
  dsimp only
  split
  · exact (hfuzz _).trans hcal
  · exact hcal

/-- The loop of the dry run, by induction on the seeds still to visit. -/
theorem dryRunLoop_exact {inp : DryInput} {order : List ℕ} {failures failures' : ℕ}
    {s t : AflState} {stopped : Bool} (h : s.counters.Exact)
    (horder : ∀ i ∈ order, i < s.queuedItems) (hsound : DryRunSound inp order s)
    (hrun : dryRunLoop inp order failures s = .ok (t, failures', stopped)) :
    t.counters.Exact ∧ (stopped = false → DedupSound t) := by
  induction order generalizing s failures with
  | nil =>
    rw [dryRunLoop, Except.ok.injEq, Prod.mk.injEq] at hrun
    rw [DryRunSound] at hsound
    obtain ⟨rfl, _⟩ := hrun
    exact ⟨h, fun _ => hsound⟩
  | cons idx rest ih =>
    have hidx := horder idx List.mem_cons_self
    have hrest : ∀ i ∈ rest, i < s.queuedItems := fun i hi => horder i (List.mem_cons_of_mem _ hi)
    rw [dryRunLoop] at hrun
    rw [DryRunSound] at hsound
    split at hrun
    · -- a disabled or empty seed is passed over, and only in an in-place resume
      rename_i hskip
      rw [if_pos hskip] at hsound
      split at hrun
      · split at hrun
        · cases hrun
        · exact ih h hrest hsound hrun
      · cases hrun
    · rename_i hskip
      rw [if_neg hskip] at hsound
      obtain ⟨hcal, hrestSound⟩ := hsound
      have hcounters := dryRunCalibrate_counters hcal
      have hitems : (dryRunCalibrate inp s idx).2.queuedItems = s.queuedItems :=
        congrArg CounterView.queuedItems hcounters
      have hen : ((dryRunCalibrate inp s idx).2.queueBuf idx).disabled = false := by
        have hflag : ((dryRunCalibrate inp s idx).2.queueBuf idx).disabled =
            (s.queueBuf idx).disabled :=
          congrArg EntryFlags.disabled (congrFun (congrArg CounterView.flags hcounters) idx)
        rw [hflag]
        simp only [Bool.or_eq_true, not_or, Bool.not_eq_true] at hskip
        exact hskip.1
      have hexact : (dryRunCalibrate inp s idx).2.counters.Exact := hcounters ▸ h
      split at hrun
      · -- `stop_soon` returns from the dry run before the de-duplication
        rw [Except.ok.injEq, Prod.mk.injEq, Prod.mk.injEq] at hrun
        obtain ⟨rfl, _, rfl⟩ := hrun
        exact ⟨hexact, nofun⟩
      · rename_i hstop
        obtain ⟨hswitch, hnext⟩ := hrestSound (by simpa using hstop)
        obtain ⟨r, hseed, hrun⟩ := bind_ok hrun
        have hr := dryRunSwitch_queuedItems hseed
        refine ih (dryRunSwitch_exact hexact (hitems.symm ▸ hidx) hen hswitch hseed)
          (fun i hi => ?_) (hnext r hseed) hrun
        rw [hr, hitems]
        exact hrest i hi

/-- The de-duplication changes an entry only when it disables it. -/
theorem dedupQueue_exact {s : AflState} (h : s.counters.Exact) (hsound : DedupSound s) :
    (dedupQueue s).counters.Exact := by
  have hinv : (dedupQueue s).counters.Exact ∧ (dedupQueue s).queuedItems = s.queuedItems ∧
      ∀ r, ((dedupQueue s).queueBuf r).disabled = false →
        (dedupQueue s).queueBuf r = s.queueBuf r := by
    refine dedupQueue_induct (P := fun t => t.counters.Exact ∧ t.queuedItems = s.queuedItems ∧
      ∀ r, (t.queueBuf r).disabled = false → t.queueBuf r = s.queueBuf r)
      (fun t p q hdup ht => ?_) ⟨h, rfl, fun _ _ => rfl⟩ fun t ht => ht
    obtain ⟨hexact, hitems, hsame⟩ := ht
    have hqen := dedupSkips_disabled hdup.drop
    have hp := hsame p (dedupSkips_disabled hdup.keep)
    have hq := hsame q hqen
    have hdup' : s.Duplicate p q := by
      obtain ⟨h1, h2, h3, h4, h5, h6⟩ := hdup
      rw [hitems] at h1 h2
      rw [hp] at h3 h5 h6
      rw [hq] at h4 h5 h6
      exact ⟨h1, h2, h3, h4, h5, h6⟩
    have hnf : (t.queueBuf q).wasFuzzed = false := by
      rw [hq]
      exact hsound p q hdup'
    refine ⟨?_, ?_, fun r hr => ?_⟩
    · rw [disable_dropPending_counters hqen hnf]
      exact hexact.dropped hdup.drop_lt
    · rw [(disableDuplicate_frame t q).rest]
      exact hitems
    · have hne : r ≠ q := by
        rintro rfl
        simp [disableEntry] at hr
      rw [disableDuplicate_ne t hne] at hr ⊢
      exact hsame r hr
  exact hinv.1

theorem performDryRun_exact {inp : DryInput} {s t : AflState} (h : s.counters.Exact)
    (hsound : DryRunSound inp s.dryRunOrder s) (hrun : performDryRun inp s = .ok t) :
    t.counters.Exact := by
  have horder : ∀ i ∈ s.dryRunOrder, i < s.queuedItems := by
    intro i hi
    unfold AflState.dryRunOrder at hi
    split at hi <;> simpa using hi
  unfold performDryRun at hrun
  split at hrun
  · cases hrun
  · obtain ⟨⟨u, failures, stopped⟩, hloop, hrun⟩ := bind_ok hrun
    obtain ⟨hexact, hdedup⟩ := dryRunLoop_exact h horder hsound hloop
    dsimp only at hrun
    split at hrun
    · rw [Except.ok.injEq] at hrun
      exact hrun ▸ hexact
    · rename_i hstop
      split at hrun
      · cases hrun
      · rw [Except.ok.injEq] at hrun
        exact hrun ▸ dedupQueue_exact hexact (hdedup (by simpa using hstop))

/-! ### Culling -/

/-- With `AFL_DISABLE_REDUNDANT`, this `cull_queue` marks no enabled entry as redundant that is not
marked yet: all of them own a slot that the greedy cover picks. -/
def CullSound (s : AflState) : Prop :=
  s.cullActive = true → s.aflDisableRedundant = true → ∀ q, q < s.queuedItems →
    (s.queueBuf q).disabled = false → (s.queueBuf q).fsRedundant = false →
    ∃ k, k < s.mapSize.val ∧ Picked s.candidate k ∧ s.topRated k = some q

/-- Marking disables an entry only when it is enabled, newly redundant and the setting is on. -/
theorem QueueEntry.marked_disabled {disableRedundant : Bool} {e : QueueEntry}
    (h : disableRedundant = true → e.disabled = false → e.fsRedundant = false → e.favored = true) :
    (e.marked disableRedundant).disabled = e.disabled := by
  unfold QueueEntry.marked
  split
  · rfl
  · rename_i hgo
    obtain ⟨hen, hred⟩ := not_or.mp hgo
    dsimp only
    split
    · rename_i hset
      rw [Bool.and_eq_true, Bool.not_eq_true'] at hset
      have hnot : e.fsRedundant = false := by simpa [hset.1] using hred
      have hfav := h hset.2 (by simpa using hen) hnot
      rw [hset.1] at hfav
      cases hfav
    · rfl

theorem cullQueue_counters {s : AflState} (h : CullSound s) :
    (cullQueue s).counters = s.counters := by
  have hf := cullQueue_frame s
  have hdis : ∀ r, ((cullQueue s).queueBuf r).disabled = (s.queueBuf r).disabled := by
    intro r
    cases hact : s.cullActive with
    | false => rw [cullQueue_of_inactive hact]
    | true =>
      have hsel := (cullSelect_frame s).entry r
      have hsame : ((cullSelect s).queueBuf r).disabled = (s.queueBuf r).disabled := by rw [hsel]
      rw [cullQueue_queueBuf hact, ← hsame]
      split
      · rename_i hr
        refine QueueEntry.marked_disabled fun hdr hen hred => ?_
        rw [hsel] at hen hred
        exact (cullSelect_favored s hr).mpr ⟨hen, h hact hdr r hr hen hred⟩
      · rfl
  refine counters_eq ?_ ?_ ?_ ?_ fun r => ?_
  · rw [hf.rest]
  · rw [hf.rest]
  · rw [hf.rest]
  · rw [hf.rest]
  · have hdr := hdis r
    rw [hf.entry r] at hdr ⊢
    simp only [QueueEntry.flags] at hdr ⊢
    rw [hdr]

/-! ### Runs -/

/-- The first fuzzing of `q` has ended. -/
def notePendingFuzzed (s : AflState) (q : ℕ) : AflState :=
  { s.modify q fun e => { e with wasFuzzed := true } with
    pendingNotFuzzed := s.pendingNotFuzzed - 1
    reinitTable := true
    pendingFavored := if (s.queueBuf q).favored then s.pendingFavored - 1 else s.pendingFavored
    smallestFavored := if (s.queueBuf q).favored then -1 else s.smallestFavored }

/-- The end of `fuzz_one_original`, with `q` the current entry. -/
def abandonEntry (s : AflState) (q : ℕ) (stopSoon : Bool) : AflState :=
  let e := s.queueBuf q
  let s :=
    if !stopSoon && e.calFailed = 0 && !e.wasFuzzed && !e.disabled then notePendingFuzzed s q
    else s
  s.modify q fun e => { e with fuzzLevel := e.fuzzLevel + 1 }

theorem addToQueue_counters (s : AflState) (len : U32) (passedDet : Bool) :
    (addToQueue s len passedDet).counters = s.counters.append := by
  have hflags : (fun p => ((addToQueue s len passedDet).queueBuf p).flags) =
      Function.update s.counters.flags s.queuedItems ⟨false, false, false⟩ := by
    funext p
    simp only [addToQueue]
    by_cases hp : p = s.queuedItems
    · subst hp
      rw [Function.update_self, Function.update_self]
      rfl
    · rw [Function.update_of_ne hp, Function.update_of_ne hp]
      rfl
  rw [AflState.counters, hflags]
  rfl

theorem notePendingFuzzed_counters {s : AflState} {q : ℕ} (hen : (s.queueBuf q).disabled = false)
    (hnf : (s.queueBuf q).wasFuzzed = false) :
    (notePendingFuzzed s q).counters =
      s.counters.setFlags q ⟨false, true, (s.queueBuf q).varBehavior⟩ := by
  refine counters_setFlags rfl ?_ (fun p hp => ?_) ?_ ?_ ?_
  · simp [notePendingFuzzed, QueueEntry.flags, hen]
  · simp [notePendingFuzzed, AflState.modify_queueBuf_ne _ _ hp]
  · rw [← hen]
    exact (BitVec.sub_add_cancel _ _).symm
  · simp [notePendingFuzzed, CounterView.setFlags, AflState.counters, AflState.modify,
      QueueEntry.flags, EntryFlags.Pending, hen, hnf]
  · exact (BitVec.sub_add_cancel _ _).symm

theorem abandonEntry_queuedItems (s : AflState) (q : ℕ) (stopSoon : Bool) :
    (abandonEntry s q stopSoon).queuedItems = s.queuedItems := by
  unfold abandonEntry
  dsimp only
  split <;> rfl

theorem abandonEntry_exact {s : AflState} (h : s.counters.Exact) {q : ℕ} (hq : q < s.queuedItems)
    (stopSoon : Bool) : (abandonEntry s q stopSoon).counters.Exact := by
  have hlevel : ∀ t : AflState,
      (t.modify q fun e => { e with fuzzLevel := e.fuzzLevel + 1 }).counters = t.counters :=
    fun t => t.modify_counters q fun _ => rfl
  unfold abandonEntry
  dsimp only
  rw [hlevel]
  split
  · rename_i hgo
    simp only [Bool.and_eq_true, Bool.not_eq_true'] at hgo
    obtain ⟨⟨_, hnf⟩, hen⟩ := hgo
    rw [notePendingFuzzed_counters hen hnf]
    exact h.setFlags hq _
  · exact h

inductive CounterOp
  | addToQueue (len : U32) (passedDet : Bool)
  | calibrateCase (hash64 : Bytes → U64) (q : ℕ) (inp : CalInput)
  | performDryRun (inp : DryInput)
  | cullQueue
  | abandonEntry (q : ℕ) (stopSoon : Bool)

/-- One call. A dry run that ends the process leaves no state behind. -/
def counterStep (s : AflState) : CounterOp → Option AflState
  | .addToQueue len passedDet => some (addToQueue s len passedDet)
  | .calibrateCase hash64 q inp =>
    if q < s.queuedItems then some (calibrateCase hash64 s q inp).2 else none
  | .performDryRun inp => (performDryRun inp s).toOption
  | .cullQueue => some (cullQueue s)
  | .abandonEntry q stopSoon =>
    if q < s.queuedItems then some (abandonEntry s q stopSoon) else none

theorem counterStep_calibrateCase {s : AflState} (hash64 : Bytes → U64) {q : ℕ} (inp : CalInput)
    (hq : q < s.queuedItems) :
    counterStep s (.calibrateCase hash64 q inp) = some (calibrateCase hash64 s q inp).2 := by
  rw [counterStep, if_pos hq]

/-- The calls that do not go through one of the branches that forget a counter or a flag. -/
def CounterSound (s : AflState) : CounterOp → Prop
  | .calibrateCase hash64 q inp => CalSound hash64 s q inp
  | .performDryRun inp => DryRunSound inp s.dryRunOrder s
  | .cullQueue => CullSound s
  | _ => True

theorem counterStep_exact {s t : AflState} {op : CounterOp} (h : s.counters.Exact)
    (hsound : CounterSound s op) (hstep : counterStep s op = some t) : t.counters.Exact := by
  cases op with
  | addToQueue len passedDet =>
    simp only [counterStep, Option.some.injEq] at hstep
    rw [← hstep, addToQueue_counters]
    exact h.append
  | calibrateCase hash64 q inp =>
    simp only [counterStep, Option.ite_none_right_eq_some, Option.some.injEq] at hstep
    rw [← hstep.2, calibrateCase_counters hsound]
    exact h
  | performDryRun inp =>
    cases hrun : performDryRun inp s with
    | error x =>
      rw [counterStep, hrun] at hstep
      cases hstep
    | ok u =>
      rw [counterStep, hrun] at hstep
      obtain rfl : u = t := Option.some.inj hstep
      exact performDryRun_exact h hsound hrun
  | cullQueue =>
    simp only [counterStep, Option.some.injEq] at hstep
    rw [← hstep, cullQueue_counters hsound]
    exact h
  | abandonEntry q stopSoon =>
    simp only [counterStep, Option.ite_none_right_eq_some, Option.some.injEq] at hstep
    rw [← hstep.2]
    exact abandonEntry_exact h hstep.1 stopSoon

/-- A queue without entries, under any settings. -/
structure AflState.NoEntries (s : AflState) : Prop where
  queuedItems : s.queuedItems = 0
  activeItems : s.activeItems = 0
  pendingNotFuzzed : s.pendingNotFuzzed = 0
  queuedVariable : s.queuedVariable = 0

theorem AflState.NoEntries.exact {s : AflState} (h : s.NoEntries) : s.counters.Exact := by
  refine ⟨?_, ?_, ?_⟩
  · simp only [AflState.counters, h.queuedItems, h.activeItems]
    rfl
  · simp only [AflState.counters, h.queuedItems, h.pendingNotFuzzed]
    rfl
  · simp only [AflState.counters, h.queuedItems, h.queuedVariable]
    rfl

/-- In a run that avoids the branches that forget a counter or a flag, the counters are exact in
every state. -/
theorem counters_eq_tally {s t : AflState} (h0 : s.NoEntries)
    (hrun : Reaches counterStep CounterSound s t) :
    t.activeItems = BitVec.ofNat 32 (tally t.queuedItems (fun e => e.disabled = false) t.queueBuf) ∧
      t.pendingNotFuzzed = BitVec.ofNat 32 (tally t.queuedItems
        (fun e => e.disabled = false ∧ e.wasFuzzed = false) t.queueBuf) ∧
      t.queuedVariable = BitVec.ofNat 32 (tally t.queuedItems
        (fun e => e.varBehavior = true) t.queueBuf) := by
  have hinv : t.counters.Exact := hrun.invariant h0.exact fun u op v hu hok hstep =>
    counterStep_exact hu hok hstep
  exact ⟨hinv.active, hinv.pending, hinv.variable⟩

/-- A checksum that tells whether index 0 is hit. -/
def hashFirst (m : Bytes) : U64 := if m 0 = 0#8 then 2 else 1

theorem hashFirst_hits : hashFirst (classifyCounts64 64 (hits [0])) = 1 := by
  have hbyte : classifyCounts64 64 (hits [0]) 0 = 1 :=
    (classifyCounts64_apply (by decide) (by decide) _).trans (by decide)
  exact if_neg (hbyte.symm ▸ show ¬ (1 : Byte) = 0#8 by decide)

theorem stable_of_const {hash64 : Bytes → U64} {s : AflState} {q : ℕ} {r : Fault × Bytes}
    (h : s.startCksum q = 0) : CalInput.Stable hash64 { run := fun _ => r } s q := by
  rintro k _ _ c hc (hstart | ⟨j, _, hj⟩)
  · exact absurd (hstart.trans h) hc
  · exact hj

def steadyInput : CalInput := { run := fun _ => (.ok, hits [0]) }

/-- Two entries; the first one is calibrated, then fuzzed. -/
theorem counters_eq_tally_first_round :
    ∃ t, Reaches counterStep CounterSound (AflState.init .block) t ∧ t.queuedItems = 2 ∧
      t.pendingNotFuzzed = BitVec.ofNat 32 (tally t.queuedItems
        (fun e => e.disabled = false ∧ e.wasFuzzed = false) t.queueBuf) := by
  have hadd : Reaches counterStep CounterSound (AflState.init .block)
      (addToQueue (addToQueue (.init .block) 1 false) 9 false) :=
    (Reaches.refl.tail (a := .addToQueue 1 false) trivial rfl).tail (a := .addToQueue 9 false)
      trivial rfl
  have hstable : CalSound hashFirst (addToQueue (addToQueue (.init .block) 1 false) 9 false) 0
      steadyInput := Or.inr (stable_of_const rfl)
  have hcal : Reaches counterStep CounterSound (AflState.init .block) (calibrateCase hashFirst
      (addToQueue (addToQueue (.init .block) 1 false) 9 false) 0 steadyInput).2 :=
    hadd.tail (a := CounterOp.calibrateCase hashFirst 0 steadyInput) hstable
      (counterStep_calibrateCase _ _ (by decide))
  have hread : ∀ t : AflState, t.counters =
      (addToQueue (addToQueue (.init .block) 1 false) 9 false).counters → t.queuedItems = 2 :=
    fun t ht => congrArg CounterView.queuedItems ht
  have hitems := hread _ (calibrateCase_counters hstable)
  have hrun : Reaches counterStep CounterSound (AflState.init .block) (abandonEntry
      (calibrateCase hashFirst (addToQueue (addToQueue (.init .block) 1 false) 9 false) 0
        steadyInput).2 0 false) := by
    refine hcal.tail (a := CounterOp.abandonEntry 0 false) trivial ?_
    rw [counterStep, if_pos (by rw [hitems]; decide)]
  refine ⟨_, hrun, ?_, (counters_eq_tally ⟨rfl, rfl, rfl, rfl⟩ hrun).2.1⟩
  rw [abandonEntry_queuedItems, hitems]

/-- The `k`-th execution hits index `k`. -/
def varyingInput : CalInput := { run := fun k => (.ok, hits [k]) }

theorem varyingInput_varied :
    ¬ CalSound hashFirst (addToQueue (.init .block) 1 false) 0 varyingInput := by
  rintro (hvar | hst)
  · cases hvar
  · have hcounts : ∀ j, j ≤ 1 → varyingInput.counts (addToQueue (.init .block) 1 false) j := by
      intro j hj
      refine ⟨rfl, rfl, Or.inr ?_⟩
      interval_cases j <;> decide +kernel
    have hcksum : ∀ k, varyingInput.cksum hashFirst (addToQueue (.init .block) 1 false) k =
        if countClassLookup8 (hits [k] 0) = 0#8 then 2 else 1 := by
      intro k
      have hbyte : classifyCounts64 (addToQueue (.init .block) 1 false).mapSize.val (hits [k]) 0 =
          countClassLookup8 (hits [k] 0) :=
        classifyCounts64_apply (show 8 ∣ 64 by decide) (by decide) _
      exact congrArg (fun b : Byte => if b = 0#8 then (2 : U64) else 1) hbyte
    have hfirst := hcksum 0
    have hsecond := hcksum 1
    have heq := hst 1 (by decide) hcounts 1 (by decide) (Or.inr ⟨0, by decide, hfirst⟩)
    rw [hsecond] at heq
    cases heq

/-- The trace of the entry changes between its first two executions: it is counted as variable but
not marked. -/
theorem calibrateCase_counts_unmarked :
    ∃ t, exec counterStep (fun _ _ => True) (AflState.init .block)
        [.addToQueue 1 false, .calibrateCase hashFirst 0 varyingInput] = some t ∧
      t.queuedVariable ≠ BitVec.ofNat 32 (tally t.queuedItems
        (fun e => e.varBehavior = true) t.queueBuf) := by
  have hcounters := calibrateCase_counters_of_varied varyingInput_varied
  refine ⟨(calibrateCase hashFirst (addToQueue (.init .block) 1 false) 0 varyingInput).2, ?_, ?_⟩
  · rw [exec, if_pos trivial, counterStep, Option.bind_some, exec, if_pos trivial,
      counterStep_calibrateCase _ _ (by decide)]
    rfl
  · have hread : ∀ t : AflState, t.counters = { (addToQueue (.init .block) 1 false).counters with
        queuedVariable := (addToQueue (.init .block) 1 false).queuedVariable + 1 } →
        t.queuedVariable = 1 ∧
          tally t.queuedItems (fun e => e.varBehavior = true) t.queueBuf = 0 := fun t ht =>
      ⟨congrArg CounterView.queuedVariable ht,
        congrArg (fun v : CounterView => tally v.queuedItems EntryFlags.Variable v.flags) ht⟩
    obtain ⟨hcount, htally⟩ := hread _ hcounters
    rw [hcount, htally]
    decide

end AflPlusPlus
