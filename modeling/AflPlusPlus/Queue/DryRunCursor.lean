import AflPlusPlus.Queue.Counters
import AflPlusPlus.Queue.Dedup
import AflPlusPlus.Queue.SaveSteps

/-!
# The cursor of the dry run

`perform_dry_run` walks through the queue in a `do … while (!done)` loop, forwards or, in an
in-place resume, backwards. A `continue` skips the code at the end of the body that advances the
cursor or ends the loop. `dryRunStep` is the body with the cursor; `visitAll` is what the walk
amounts to for the list of entries ahead.
-/

namespace AflPlusPlus
open Lib Coverage

/-- How far the loop has come: the state, the number of timeouts, the entries that were calibrated,
those that got through the `switch`, with the results, and how the loop was left: with `true` for
`stop_soon`, with `false` for `done`. -/
structure DryRun where
  afl : AflState
  failures : ℕ := 0
  calibrated : List ℕ := []
  settled : List (ℕ × Fault) := []
  left : Option (Except Exit Bool) := none

structure DryCursor extends DryRun where
  idx : U32

/-- The body for an enabled entry that is not empty, without the cursor. -/
def DryRun.visit (inp : DryInput) (idx : ℕ) (d : DryRun) : DryRun :=
  let r := dryRunCalibrate inp d.afl idx
  let d := { d with afl := r.2, calibrated := d.calibrated ++ [idx] }
  if inp.stopSoon idx then { d with left := some (.ok true) }
  else
    match dryRunSwitch r.2 idx (inp.fname idx) r.1 with
    | .error e => { d with left := some (.error e) }
    | .ok (s, skipped) =>
      { d with
        afl := s
        failures := if skipped then d.failures + 1 else d.failures
        settled := d.settled ++ [(idx, r.1)] }

/-- `if (afl->in_place_resume) { --idx; }`. -/
def DryCursor.enter (c : DryCursor) : DryCursor :=
  if c.afl.inPlaceResume then { c with idx := c.idx - 1 } else c

/-- The end of the body. -/
def DryCursor.advance (c : DryCursor) : DryCursor :=
  if !c.afl.inPlaceResume then
    let c := { c with idx := c.idx + 1 }
    if c.idx.toNat ≥ c.afl.queuedItems then { c with left := some (.ok false) } else c
  else if c.idx = 0 then { c with left := some (.ok false) }
  else c

/-- `q->disabled`, or `!q->len`. -/
def QueueEntry.skipped (e : QueueEntry) : Bool := e.disabled || e.len = 0

/-- One iteration of the loop. -/
def dryRunStep (inp : DryInput) (c : DryCursor) : DryCursor :=
  let c := c.enter
  if c.afl.queuedItems ≤ c.idx.toNat then { c with left := some (.error .outOfBounds) }
  -- `continue` goes to the test of `done`
  else if (c.afl.queueBuf c.idx.toNat).skipped then c
  else
    let c := { c with toDryRun := c.toDryRun.visit inp c.idx.toNat }
    if c.left.isSome then c else c.advance

def dryRunStart (s : AflState) : DryCursor where
  afl := s
  idx := if s.inPlaceResume then BitVec.ofNat 32 s.queuedItems else 0

/-- `do … while (!done);`. -/
def dryRunWhile (inp : DryInput) (fuel : ℕ) (c : DryCursor) : Option DryCursor :=
  whileLoop (fun c => c.left.isNone) (fun c => some (dryRunStep inp c)) fuel c

def dryRunCursor (inp : DryInput) (fuel : ℕ) (s : AflState) : Option DryCursor :=
  dryRunWhile inp fuel (dryRunStart s)

/-! ### The walk as a recursion over the entries ahead -/

/-- The walk through the entries ahead; `none` when it does not end. -/
def DryRun.visitAll (inp : DryInput) : List ℕ → DryRun → Option DryRun
  | [], d => some { d with left := some (.ok false) }
  | idx :: rest, d =>
    if (d.afl.queueBuf idx).skipped then
      if d.afl.inPlaceResume then
        if rest.isEmpty then some { d with left := some (.error .outOfBounds) }
        else visitAll inp rest d
      else none
    else if (d.visit inp idx).left.isSome then some (d.visit inp idx)
    else visitAll inp rest (d.visit inp idx)

/-- The result in terms of the recursion over the indices. -/
def DryRun.result (d : DryRun) : Except Exit (AflState × ℕ × Bool) :=
  match d.left with
  | none => .error .hang
  | some (.error e) => .error e
  | some (.ok stopped) => .ok (d.afl, d.failures, stopped)

/-- How a visit can end: the run was stopped, the result of the seed ends the process, or the seed
got through the `switch`. -/
theorem DryRun.visit_cases (inp : DryInput) (q : ℕ) (d : DryRun) :
    (inp.stopSoon q = true ∧ d.visit inp q = { d with
      afl := (dryRunCalibrate inp d.afl q).2
      calibrated := d.calibrated ++ [q]
      left := some (.ok true) }) ∨
    inp.stopSoon q = false ∧
      ((∃ x, dryRunSeed inp d.afl q = .error x ∧ d.visit inp q = { d with
          afl := (dryRunCalibrate inp d.afl q).2
          calibrated := d.calibrated ++ [q]
          left := some (.error x) }) ∨
        ∃ t skipped, dryRunSeed inp d.afl q = .ok (t, skipped) ∧ d.visit inp q = { d with
          afl := t
          failures := if skipped then d.failures + 1 else d.failures
          calibrated := d.calibrated ++ [q]
          settled := d.settled ++ [(q, (dryRunCalibrate inp d.afl q).1)] }) := by
  by_cases hstop : inp.stopSoon q = true
  · refine Or.inl ⟨hstop, ?_⟩
    unfold DryRun.visit
    rw [if_pos hstop]
  · refine Or.inr ⟨by simpa using hstop, ?_⟩
    unfold DryRun.visit dryRunSeed
    rw [if_neg hstop]
    rcases dryRunSwitch (dryRunCalibrate inp d.afl q).2 q (inp.fname q)
      (dryRunCalibrate inp d.afl q).1 with x | ⟨t, skipped⟩
    · exact Or.inl ⟨x, rfl, rfl⟩
    · exact Or.inr ⟨t, skipped, rfl, rfl⟩

/-- The recursion over the indices is this walk. -/
theorem dryRunLoop_eq_visitAll (inp : DryInput) (order : List ℕ) (d : DryRun)
    (hleft : d.left = none) :
    dryRunLoop inp order d.failures d.afl =
      match d.visitAll inp order with
      | none => .error .hang
      | some e => e.result := by
  induction order generalizing d with
  | nil => rfl
  | cons idx rest ih =>
    rw [dryRunLoop, DryRun.visitAll]
    change (if (d.afl.queueBuf idx).skipped = true then _ else _) = _
    by_cases hskip : (d.afl.queueBuf idx).skipped = true
    · rw [if_pos hskip, if_pos hskip]
      split
      · split
        · rfl
        · exact ih d hleft
      · rfl
    · rw [if_neg hskip, if_neg hskip]
      obtain ⟨hstop, hvisit⟩ | ⟨hstop, ⟨x, hseed, hvisit⟩ | ⟨t, skipped, hseed, hvisit⟩⟩ :=
        d.visit_cases inp idx
      · rw [if_pos hstop, hvisit]
        rfl
      · rw [if_neg (by simp [hstop]), hseed, hvisit]
        rfl
      · have hnone : (d.visit inp idx).left = none := by
          rw [hvisit]
          exact hleft
        rw [if_neg (by simp [hstop]), hseed, if_neg (by simp [hnone]), ← ih _ hnone, hvisit]
        rfl

/-! ### What a visit leaves alone -/

/-- From `s` to `t` entry `q` may be disabled, and is counted out once when it becomes fuzzed. -/
structure VisitFrame (q : ℕ) (s t : AflState) : Prop where
  queuedItems : t.queuedItems = s.queuedItems
  inPlaceResume : t.inPlaceResume = s.inPlaceResume
  crashMode : t.crashMode = s.crashMode
  len : ∀ r, (t.queueBuf r).len = (s.queueBuf r).len
  disabled : ∀ r, r ≠ q → (t.queueBuf r).disabled = (s.queueBuf r).disabled
  wasFuzzed : ∀ r, r ≠ q → (t.queueBuf r).wasFuzzed = (s.queueBuf r).wasFuzzed
  counted : (t.queueBuf q).wasFuzzed = (s.queueBuf q).wasFuzzed ∧
      t.activeItems = s.activeItems ∧ t.pendingNotFuzzed = s.pendingNotFuzzed ∨
    (s.queueBuf q).wasFuzzed = false ∧ (t.queueBuf q).wasFuzzed = true ∧
      t.activeItems = s.activeItems - 1 ∧ t.pendingNotFuzzed = s.pendingNotFuzzed - 1

namespace VisitFrame

variable {q : ℕ} {s t u : AflState}

theorem refl (q : ℕ) (s : AflState) : VisitFrame q s s :=
  ⟨rfl, rfl, rfl, fun _ => rfl, fun _ _ => rfl, fun _ _ => rfl, Or.inl ⟨rfl, rfl, rfl⟩⟩

theorem trans (h : VisitFrame q s t) (h' : VisitFrame q t u) : VisitFrame q s u := by
  refine ⟨h'.queuedItems.trans h.queuedItems, h'.inPlaceResume.trans h.inPlaceResume,
    h'.crashMode.trans h.crashMode, fun r => (h'.len r).trans (h.len r),
    fun r hr => (h'.disabled r hr).trans (h.disabled r hr),
    fun r hr => (h'.wasFuzzed r hr).trans (h.wasFuzzed r hr), ?_⟩
  rcases h.counted with ⟨hsame, hactive, hpending⟩ | ⟨hno, hyes, hactive, hpending⟩
  · rw [← hsame, ← hactive, ← hpending]
    exact h'.counted
  · rcases h'.counted with ⟨hsame', hactive', hpending'⟩ | ⟨hno', -⟩
    · exact Or.inr ⟨hno, hsame'.trans hyes, hactive'.trans hactive, hpending'.trans hpending⟩
    · rw [hyes] at hno'
      cases hno'

theorem modify {f : QueueEntry → QueueEntry} (s : AflState) (hlen : ∀ e, (f e).len = e.len)
    (hfuzzed : ∀ e, (f e).wasFuzzed = e.wasFuzzed) : VisitFrame q s (s.modify q f) :=
  ⟨rfl, rfl, rfl, fun r => s.modify_queueBuf_frame q r f (fun e => e.len) hlen,
    fun r hr => by rw [s.modify_queueBuf_ne f hr], fun r hr => by rw [s.modify_queueBuf_ne f hr],
    Or.inl ⟨s.modify_queueBuf_frame q q f (fun e => e.wasFuzzed) hfuzzed, rfl, rfl⟩⟩

theorem disableEntry (s : AflState) (q : ℕ) : VisitFrame q s (AflPlusPlus.disableEntry s q) :=
  modify s (fun _ => rfl) fun _ => rfl

theorem dropPending (s : AflState) (q : ℕ) : VisitFrame q s (AflPlusPlus.dropPending s q) := by
  unfold AflPlusPlus.dropPending
  cases hq : (s.queueBuf q).wasFuzzed with
  | true => exact refl q s
  | false =>
    rw [if_pos (by rfl)]
    have hbuf : ∀ r, r ≠ q → (s.modify q fun e => { e with wasFuzzed := true }).queueBuf r =
        s.queueBuf r := fun r hr => s.modify_queueBuf_ne _ hr
    refine ⟨rfl, rfl, rfl, fun r => ?_, fun r hr => congrArg (fun e => e.disabled) (hbuf r hr),
      fun r hr => congrArg (fun e => e.wasFuzzed) (hbuf r hr), Or.inr ⟨hq, ?_, rfl, rfl⟩⟩
    · exact s.modify_queueBuf_frame q r (fun e => { e with wasFuzzed := true }) (fun e => e.len)
        fun _ => rfl
    · exact congrArg (fun e => e.wasFuzzed)
        (s.modify_queueBuf_self q fun e => { e with wasFuzzed := true })

/-- Nothing that the frame speaks of has changed. -/
theorem of_eq (hbuf : t.queueBuf = s.queueBuf) (hitems : t.queuedItems = s.queuedItems)
    (hplace : t.inPlaceResume = s.inPlaceResume) (hmode : t.crashMode = s.crashMode)
    (hactive : t.activeItems = s.activeItems) (hpending : t.pendingNotFuzzed = s.pendingNotFuzzed) :
    VisitFrame q s t := by
  refine ⟨hitems, hplace, hmode, fun r => ?_, fun r _ => ?_, fun r _ => ?_,
    Or.inl ⟨?_, hactive, hpending⟩⟩ <;> rw [hbuf]

end VisitFrame

theorem dropPending_wasFuzzed (s : AflState) (q : ℕ) :
    ((dropPending s q).queueBuf q).wasFuzzed = true := by
  rcases (VisitFrame.dropPending s q).counted with ⟨hsame, -⟩ | ⟨-, hyes, -⟩
  · by_cases hq : (s.queueBuf q).wasFuzzed = true
    · exact hsame.trans hq
    · unfold dropPending
      rw [if_pos (by simpa using hq)]
      exact congrArg (fun e => e.wasFuzzed)
        (s.modify_queueBuf_self q fun e => { e with wasFuzzed := true })
  · exact hyes

theorem dropPending_disabled (s : AflState) (q r : ℕ) :
    ((dropPending s q).queueBuf r).disabled = (s.queueBuf r).disabled := by
  unfold dropPending
  split
  · exact s.modify_queueBuf_frame q r (fun e => { e with wasFuzzed := true })
      (fun e => e.disabled) fun _ => rfl
  · rfl

theorem disableEntry_self (s : AflState) (q : ℕ) :
    ((disableEntry s q).queueBuf q).wasFuzzed = (s.queueBuf q).wasFuzzed ∧
      ((disableEntry s q).queueBuf q).disabled = true := by
  rw [disableEntry, AflState.modify_queueBuf_self]
  exact ⟨rfl, rfl⟩

/-- The crash branch counts the entry out, and disables it unless the crash is kept. -/
theorem dryRunCrash_visit {s t : AflState} {q : ℕ} {fname : Name}
    (h : dryRunCrash s q fname = .ok t) :
    VisitFrame q s t ∧ (t.queueBuf q).wasFuzzed = true ∧
      (t.queueBuf q).disabled = (!crashKept s || (s.queueBuf q).disabled) := by
  have hdrop := VisitFrame.dropPending s q
  -- all paths but one end like this, in a state with the entries of `dropPending`
  have hend : ∀ u : AflState, VisitFrame q (dropPending s q) u →
      u.queueBuf = (dropPending s q).queueBuf →
      VisitFrame q s (disableEntry u q) ∧ ((disableEntry u q).queueBuf q).wasFuzzed = true ∧
        ((disableEntry u q).queueBuf q).disabled = true := by
    intro u hu hbuf
    obtain ⟨hfuzzed, hdisabled⟩ := disableEntry_self u q
    rw [hbuf, dropPending_wasFuzzed] at hfuzzed
    exact ⟨(hdrop.trans hu).trans (.disableEntry u q), hfuzzed, hdisabled⟩
  have hsettings : (dropPending s q).aflCrashingSeedsAsNewCrash = s.aflCrashingSeedsAsNewCrash ∧
      (dropPending s q).nonInstrumentedMode = s.nonInstrumentedMode ∧
      (crashHasNewBits (dropPending s q)).1 = (crashHasNewBits s).1 := by
    rw [(dropPending_frame s q).rest]
    exact ⟨rfl, rfl, rfl⟩
  obtain ⟨hseeds, hinst, hbits⟩ := hsettings
  unfold dryRunCrash at h
  split at h
  · cases h
  · dsimp only at h
    rw [hseeds, hinst] at h
    rw [crashKept]
    cases hset : s.aflCrashingSeedsAsNewCrash with
    | false =>
      rw [hset] at h
      cases h
      exact hend _ (.of_eq rfl rfl rfl rfl rfl rfl) rfl
    | true =>
      rw [hset, if_pos rfl] at h
      cases hnon : s.nonInstrumentedMode with
      | true =>
        rw [hnon] at h
        obtain rfl := saveSeedCrash_map_ok h
        exact hend _ (.of_eq rfl rfl rfl rfl rfl rfl) rfl
      | false =>
        rw [hnon, if_pos (by rfl)] at h
        split at h
        · -- the early `break`
          rename_i hzero
          have hz : (crashHasNewBits s).1 = 0 := hbits.symm.trans hzero
          cases h
          rw [decide_eq_true hz]
          exact ⟨hdrop.trans (.of_eq rfl rfl rfl rfl rfl rfl), dropPending_wasFuzzed s q,
            dropPending_disabled s q q⟩
        · rename_i hnew
          have hz : (crashHasNewBits s).1 ≠ 0 := fun hz => hnew (hbits.trans hz)
          obtain rfl := saveSeedCrash_map_ok h
          rw [decide_eq_false hz]
          exact hend _ (.of_eq rfl rfl rfl rfl rfl rfl) rfl

/-- What calibration and the `switch` do to a seed that is not the end of the process. -/
theorem dryRunSwitch_visit {s t : AflState} {q : ℕ} {fname : Name} {res : Fault} {skipped : Bool}
    (h : dryRunSwitch s q fname res = .ok (t, skipped)) :
    VisitFrame q s t ∧ (res = .crash → s.crashMode = .ok →
      (t.queueBuf q).wasFuzzed = true ∧
        (t.queueBuf q).disabled = (!crashKept s || (s.queueBuf q).disabled)) := by
  cases res with
  | ok =>
    simp only [dryRunSwitch] at h
    split at h
    · cases h
    · cases h
      exact ⟨.refl q s, fun hres => by cases hres⟩
  | tmout =>
    refine ⟨?_, fun hres => by cases hres⟩
    simp only [dryRunSwitch] at h
    split at h
    · cases h
      have hcal : VisitFrame q s (s.modify q fun e => { e with calFailed := calChances }) :=
        .modify s (fun _ => rfl) fun _ => rfl
      exact (hcal.trans (.disableEntry _ q)).trans (.dropPending _ q)
    · split at h
      · cases h
      · cases h
        exact (VisitFrame.dropPending s q).trans (.disableEntry _ q)
  | crash =>
    simp only [dryRunSwitch] at h
    split at h
    · rename_i hmode
      cases h
      exact ⟨.refl q s, fun _ hok => absurd hok hmode⟩
    · cases hcrash : dryRunCrash s q fname with
      | error x =>
        rw [hcrash] at h
        cases h
      | ok u =>
        rw [hcrash] at h
        cases h
        obtain ⟨hframe, hresult⟩ := dryRunCrash_visit hcrash
        exact ⟨hframe, fun _ _ => hresult⟩
  | error => cases h
  | noinst => cases h
  | nobits =>
    cases h
    exact ⟨.of_eq rfl rfl rfl rfl rfl rfl, fun hres => by cases hres⟩

/-! ### Calibration of a seed -/

theorem calibrateCase_flags (hash64 : Bytes → U64) (s : AflState) (q : ℕ) (inp : CalInput) (r : ℕ) :
    ((calibrateCase hash64 s q inp).2.queueBuf r).flags = (s.queueBuf r).flags := by
  have hview := congrArg CounterView.flags (calibrateCase_counters_eq hash64 s q inp)
  split at hview
  · exact congrFun hview r
  · exact congrFun hview r

theorem calibrateCase_visit (hash64 : Bytes → U64) (s : AflState) (q : ℕ) (inp : CalInput) :
    VisitFrame q s (calibrateCase hash64 s q inp).2 := by
  have hframe := calibrateCase_frame hash64 s q inp
  have hflags := calibrateCase_flags hash64 s q inp
  refine ⟨?_, ?_, ?_, fun r => congrArg Prod.fst (congrFun (calibrateCase_sizes hash64 s q inp) r),
    fun r _ => congrArg EntryFlags.disabled (hflags r),
    fun r _ => congrArg EntryFlags.wasFuzzed (hflags r),
    Or.inl ⟨congrArg EntryFlags.wasFuzzed (hflags q), ?_, ?_⟩⟩ <;> rw [hframe.rest]

theorem dryRunCalibrate_visit (inp : DryInput) (s : AflState) (q : ℕ) :
    VisitFrame q s (dryRunCalibrate inp s q).2 ∧
      ((dryRunCalibrate inp s q).2.queueBuf q).disabled = (s.queueBuf q).disabled := by
  have hcolor : VisitFrame q s (colorizeSeed s q) ∧
      ((colorizeSeed s q).queueBuf q).disabled = (s.queueBuf q).disabled := by
    unfold colorizeSeed
    split
    · exact ⟨.modify s (fun _ => rfl) fun _ => rfl,
        s.modify_queueBuf_frame q q (fun e => { e with colorized := cmplogLvlMax })
          (fun e => e.disabled) fun _ => rfl⟩
    · exact ⟨.refl q s, rfl⟩
  have hcal := calibrateCase_visit inp.hash64 (colorizeSeed s q) q (inp.cal q)
  have hflag : ((calibrateCase inp.hash64 (colorizeSeed s q) q (inp.cal q)).2.queueBuf q).disabled =
      (s.queueBuf q).disabled :=
    (congrArg EntryFlags.disabled (calibrateCase_flags inp.hash64 _ q _ q)).trans hcolor.2
  have hfuzz : ∀ t : AflState, ((t.modify q fun e =>
      { e with nFuzzEntry := BitVec.ofNat 32 (e.execCksum.toNat % nFuzzSize) }).queueBuf q).disabled
        = (t.queueBuf q).disabled := by
    intro t
    rw [AflState.modify_queueBuf_self]
  unfold dryRunCalibrate
  dsimp only
  split
  · exact ⟨(hcolor.1.trans hcal).trans (.modify _ (fun _ => rfl) fun _ => rfl),
      (hfuzz _).trans hflag⟩
  · exact ⟨hcolor.1.trans hcal, hflag⟩

theorem DryRun.visit_frame (inp : DryInput) (q : ℕ) (d : DryRun) :
    VisitFrame q d.afl (d.visit inp q).afl := by
  obtain ⟨hcal, -⟩ := dryRunCalibrate_visit inp d.afl q
  obtain ⟨-, hvisit⟩ | ⟨-, ⟨x, -, hvisit⟩ | ⟨t, skipped, hseed, hvisit⟩⟩ := d.visit_cases inp q
  · rw [hvisit]
    exact hcal
  · rw [hvisit]
    exact hcal
  · rw [hvisit]
    exact hcal.trans (dryRunSwitch_visit hseed).1

/-! ### The cursor makes the walk -/

/-- The entries in front of the cursor. -/
def DryCursor.ahead (c : DryCursor) : List ℕ :=
  if c.afl.inPlaceResume then (List.range c.idx.toNat).reverse
  else List.range' c.idx.toNat (c.afl.queuedItems - c.idx.toNat)

/-- The entries in front of the cursor at `q` when `q` has been dealt with. -/
def AflState.after (s : AflState) (q : ℕ) : List ℕ :=
  if s.inPlaceResume then (List.range q).reverse else List.range' (q + 1) (s.queuedItems - (q + 1))

theorem DryCursor.enter_toDryRun (c : DryCursor) : c.enter.toDryRun = c.toDryRun := by
  unfold DryCursor.enter
  split <;> rfl

theorem DryCursor.enter_ahead {c : DryCursor} {q : ℕ} {rest : List ℕ} (h : c.ahead = q :: rest)
    (hidx : c.idx.toNat ≤ c.afl.queuedItems) :
    c.enter.idx.toNat = q ∧ q < c.afl.queuedItems ∧ c.afl.after q = rest := by
  unfold DryCursor.ahead at h
  unfold DryCursor.enter AflState.after
  split at h
  · rename_i hplace
    rw [if_pos hplace, if_pos hplace]
    -- backwards, the cursor is one behind the entry
    obtain ⟨k, hk⟩ : ∃ k, c.idx.toNat = k + 1 := by
      refine Nat.exists_eq_succ_of_ne_zero fun hzero => ?_
      rw [hzero] at h
      cases h
    rw [hk, List.range_succ, List.reverse_append] at h
    obtain ⟨rfl, rfl⟩ := List.cons.inj h
    refine ⟨?_, by omega, rfl⟩
    change (c.idx - 1).toNat = k
    bv_omega
  · rename_i hplace
    rw [if_neg hplace, if_neg hplace]
    obtain ⟨k, hk⟩ : ∃ k, c.afl.queuedItems - c.idx.toNat = k + 1 := by
      refine Nat.exists_eq_succ_of_ne_zero fun hzero => ?_
      rw [hzero] at h
      cases h
    rw [hk, List.range'_succ] at h
    obtain ⟨rfl, rfl⟩ := List.cons.inj h
    refine ⟨rfl, by omega, ?_⟩
    rw [show c.afl.queuedItems - (c.idx.toNat + 1) = k by omega]

/-- The end of the body leaves the loop when nothing is ahead, and goes on to the next entry
otherwise. -/
theorem DryCursor.advance_ahead {c : DryCursor} (hidx : c.idx.toNat < c.afl.queuedItems)
    (hitems : c.afl.queuedItems < 2 ^ 32) :
    c.afl.after c.idx.toNat = [] ∧
        c.advance.toDryRun = { c.toDryRun with left := some (.ok false) } ∨
      c.afl.after c.idx.toNat ≠ [] ∧ c.advance.toDryRun = c.toDryRun ∧
        c.advance.ahead = c.afl.after c.idx.toNat ∧
        c.advance.idx.toNat ≤ c.afl.queuedItems := by
  unfold AflState.after DryCursor.advance
  cases hplace : c.afl.inPlaceResume with
  | false =>
    have hnext : (c.idx + 1).toNat = c.idx.toNat + 1 := by bv_omega
    simp only [Bool.not_false, if_true, Bool.false_eq_true, if_false, hnext]
    split
    · refine Or.inl ⟨?_, rfl⟩
      rw [show c.afl.queuedItems - (c.idx.toNat + 1) = 0 by omega]
      rfl
    · refine Or.inr ⟨fun h => ?_, rfl, ?_, ?_⟩
      · have hlen := congrArg List.length h
        simp only [List.length_range', List.length_nil] at hlen
        omega
      · rw [DryCursor.ahead, if_neg (by simp [hplace])]
        change List.range' (c.idx + 1).toNat (_ - (c.idx + 1).toNat) = _
        rw [hnext]
      · change (c.idx + 1).toNat ≤ _
        omega
  | true =>
    simp only [Bool.not_true, Bool.false_eq_true, if_false, if_true]
    split
    · rename_i hzero
      refine Or.inl ⟨?_, rfl⟩
      rw [hzero]
      rfl
    · rename_i hzero
      refine Or.inr ⟨fun h => hzero ?_, rfl, ?_, hidx.le⟩
      · have hlen := congrArg List.length h
        simp only [List.length_reverse, List.length_range, List.length_nil] at hlen
        exact BitVec.eq_of_toNat_eq hlen
      · simp [DryCursor.ahead, hplace]

theorem VisitFrame.after {q : ℕ} {s t : AflState} (h : VisitFrame q s t) (r : ℕ) :
    t.after r = s.after r := by
  rw [AflState.after, AflState.after, h.inPlaceResume, h.queuedItems]

theorem dryRunWhile_left (inp : DryInput) {c : DryCursor} (hleft : c.left.isSome = true) :
    dryRunWhile inp 1 c = some c :=
  whileLoop_done (by simpa using hleft)

theorem dryRunWhile_step (inp : DryInput) (fuel : ℕ) {c : DryCursor} (hleft : c.left = none) :
    dryRunWhile inp (fuel + 1) c = dryRunWhile inp fuel (dryRunStep inp c) :=
  whileLoop_step (by rw [hleft]; rfl) rfl

theorem dryRunStep_eq (inp : DryInput) {c : DryCursor} {q : ℕ} (hq : c.enter.idx.toNat = q)
    (hlt : q < c.afl.queuedItems) :
    dryRunStep inp c =
      if (c.afl.queueBuf q).skipped then c.enter
      else if (c.visit inp q).left.isSome then { c.enter with toDryRun := c.visit inp q }
      else DryCursor.advance { c.enter with toDryRun := c.visit inp q } := by
  have hsame := c.enter_toDryRun
  have hafl : c.enter.afl = c.afl := congrArg DryRun.afl hsame
  unfold dryRunStep
  dsimp only
  rw [hq, hafl, hsame, if_neg (Nat.not_le.mpr hlt)]

/-- In an in-place resume `--idx` wraps around at zero. -/
theorem dryRunStep_wrap (inp : DryInput) {c : DryCursor} (hplace : c.afl.inPlaceResume = true)
    (hidx : c.idx = 0) (hitems : c.afl.queuedItems < 2 ^ 32) :
    (dryRunStep inp c).toDryRun = { c.toDryRun with left := some (.error .outOfBounds) } := by
  have hback : c.enter = { c with idx := 0 - 1 } := by
    rw [DryCursor.enter, if_pos hplace, hidx]
  have hwrap : (0 - 1 : U32).toNat = 2 ^ 32 - 1 := by decide
  unfold dryRunStep
  dsimp only
  rw [hback]
  dsimp only
  rw [if_pos (by rw [hwrap]; omega)]

/-- What the loop does from `c` on is what the walk through `order` does. -/
structure WalksAs (inp : DryInput) (c : DryCursor) (walk : Option DryRun) : Prop where
  hangs : walk = none → ∀ fuel, dryRunWhile inp fuel c = none
  ends : ∀ d, walk = some d → ∃ fuel c', dryRunWhile inp fuel c = some c' ∧ c'.toDryRun = d

theorem WalksAs.step {inp : DryInput} {c : DryCursor} {walk : Option DryRun}
    (hleft : c.left = none) (h : WalksAs inp (dryRunStep inp c) walk) : WalksAs inp c walk := by
  refine ⟨fun hnone fuel => ?_, fun d hd => ?_⟩
  · cases fuel with
    | zero => rfl
    | succ fuel => rw [dryRunWhile_step inp fuel hleft, h.hangs hnone]
  · obtain ⟨fuel, c', hrun, hd'⟩ := h.ends d hd
    exact ⟨fuel + 1, c', by rw [dryRunWhile_step inp fuel hleft, hrun], hd'⟩

theorem WalksAs.stuck {inp : DryInput} {c : DryCursor} (hleft : c.left = none)
    (hstep : dryRunStep inp c = c) : WalksAs inp c none := by
  refine ⟨fun _ fuel => ?_, fun d hd => nomatch hd⟩
  have hbody : (fun c => some (dryRunStep inp c)) c = some c := congrArg some hstep
  refine whileLoop_stuck ?_ hbody fuel
  rw [hleft, Option.isNone_none]

theorem WalksAs.left {inp : DryInput} {c : DryCursor} (hleft : c.left.isSome = true) :
    WalksAs inp c (some c.toDryRun) :=
  ⟨nofun, fun _ hd => ⟨1, c, dryRunWhile_left inp hleft, Option.some.inj hd⟩⟩

/-- The loop ends as the walk through the entries ahead does, and not at all when this does not. -/
theorem walksAs_visitAll (inp : DryInput) {c : DryCursor} {order : List ℕ}
    (hahead : c.ahead = order) (hne : order ≠ []) (hleft : c.left = none)
    (hidx : c.idx.toNat ≤ c.afl.queuedItems) (hitems : c.afl.queuedItems < 2 ^ 32) :
    WalksAs inp c (c.visitAll inp order) := by
  induction order generalizing c with
  | nil => exact absurd rfl hne
  | cons q rest ih =>
    obtain ⟨hq, hlt, hrest⟩ := c.enter_ahead hahead hidx
    have hsame := c.enter_toDryRun
    have hafl : c.enter.afl = c.afl := congrArg DryRun.afl hsame
    have hstep := dryRunStep_eq inp hq hlt
    rw [DryRun.visitAll]
    by_cases hskip : (c.afl.queueBuf q).skipped = true
    · rw [if_pos hskip] at hstep ⊢
      cases hplace : c.afl.inPlaceResume with
      | false =>
        -- the cursor stays where it is
        rw [if_neg Bool.false_ne_true]
        have hstay : c.enter = c := by
          unfold DryCursor.enter
          rw [hplace, if_neg Bool.false_ne_true]
        exact .stuck hleft (hstep.trans hstay)
      | true =>
        rw [if_pos rfl]
        refine .step hleft ?_
        rw [hstep, ← hsame]
        have hleft' : c.enter.left = none := (congrArg DryRun.left hsame).trans hleft
        have hahead' : c.enter.ahead = rest := by
          rw [← hrest, DryCursor.ahead, AflState.after, hafl, hq, if_pos hplace, if_pos hplace]
        cases rest with
        | nil =>
          have hzero : c.enter.idx = 0 := by
            have hlen := congrArg List.length hahead'
            rw [DryCursor.ahead, hafl, if_pos hplace, List.length_reverse,
              List.length_range] at hlen
            exact BitVec.eq_of_toNat_eq hlen
          have hwrap := dryRunStep_wrap inp (c := c.enter) (by rw [hafl]; exact hplace) hzero
            (by rw [hafl]; exact hitems)
          refine .step hleft' ?_
          rw [List.isEmpty_nil, if_pos rfl, ← hwrap]
          exact .left (by rw [hwrap]; rfl)
        | cons r rest =>
          exact ih hahead' (List.cons_ne_nil r rest) hleft' (by rw [hafl, hq]; omega)
            (by rw [hafl]; exact hitems)
    · rw [if_neg hskip] at hstep ⊢
      have hframe := c.visit_frame inp q
      refine .step hleft ?_
      rw [hstep]
      by_cases hend : (c.visit inp q).left.isSome = true
      · rw [if_pos hend, if_pos hend]
        exact .left hend
      · rw [if_neg hend, if_neg hend]
        have hnone : (c.visit inp q).left = none := by simpa using hend
        have hafter : (c.visit inp q).afl.after q = rest := (hframe.after q).trans hrest
        have hnone' : { c.enter with toDryRun := c.visit inp q : DryCursor }.left = none := hnone
        obtain ⟨hrest', hdone⟩ | ⟨hrest', hsame', hahead', hidx'⟩ := DryCursor.advance_ahead
          (c := { c.enter with toDryRun := c.visit inp q })
          (by rw [hframe.queuedItems]; exact hq.trans_lt hlt)
          (by rw [hframe.queuedItems]; exact hitems)
        · have hnil : rest = [] := by
            rw [← hafter]
            exact hq ▸ hrest'
          rw [hnil, DryRun.visitAll, ← hdone]
          exact .left (by rw [hdone]; rfl)
        · have hcons : rest ≠ [] := by
            rw [← hafter]
            exact hq ▸ hrest'
          have hwalk := ih (hahead'.trans ((congrArg _ hq).trans hafter)) hcons
            ((congrArg DryRun.left hsame').trans hnone)
            (by rw [congrArg DryRun.afl hsame']; exact hidx')
            (by rw [congrArg DryRun.afl hsame', hframe.queuedItems]; exact hitems)
          rw [hsame'] at hwalk
          exact hwalk

end AflPlusPlus
