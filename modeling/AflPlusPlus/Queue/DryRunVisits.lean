import AflPlusPlus.Queue.DryRunCursor

/-!
# Every entry is visited once

The invariant of the walk of the dry run, and the condition under which the walk ends with every
enabled entry calibrated and every crash disabled. It fails at a disabled or empty entry, where a
`continue` leaves the cursor in place or below zero, at a crash that the early `break` of the
`switch` keeps enabled, and at one that is to be saved when the name of the seed has no `,orig:`.
-/

namespace AflPlusPlus
open Lib

/-- The state after visits that began in `s`. -/
structure AfterVisits (s : AflState) (d : DryRun) : Prop where
  queuedItems : d.afl.queuedItems = s.queuedItems
  inPlaceResume : d.afl.inPlaceResume = s.inPlaceResume
  crashMode : d.afl.crashMode = s.crashMode
  len : ∀ r, (d.afl.queueBuf r).len = (s.queueBuf r).len
  disabled : ∀ r, r ∉ d.calibrated → (d.afl.queueBuf r).disabled = (s.queueBuf r).disabled
  wasFuzzed : ∀ r, r ∉ d.calibrated → (d.afl.queueBuf r).wasFuzzed = (s.queueBuf r).wasFuzzed
  nodup : d.calibrated.Nodup
  enabled : ∀ r ∈ d.calibrated, r < s.queuedItems ∧ (s.queueBuf r).skipped = false
  settled : ∀ x ∈ d.settled, x.1 ∈ d.calibrated
  activeItems :
    d.afl.activeItems = s.activeItems - BitVec.ofNat 32 (newly (fun e => e.wasFuzzed) s d.afl)
  pendingNotFuzzed : d.afl.pendingNotFuzzed =
    s.pendingNotFuzzed - BitVec.ofNat 32 (newly (fun e => e.wasFuzzed) s d.afl)

/-- The entries whose crash was seen are disabled and counted out. -/
def CrashesDisabled (d : DryRun) : Prop :=
  d.afl.crashMode = .ok → ∀ q, (q, Fault.crash) ∈ d.settled →
    (d.afl.queueBuf q).disabled = true ∧ (d.afl.queueBuf q).wasFuzzed = true

/-- The entry crashes, and the early `break` skips the code that disables it. -/
def CrashStays (inp : DryInput) (s : AflState) (q : ℕ) : Prop :=
  (dryRunCalibrate inp s q).1 = .crash ∧ s.crashMode = .ok ∧
    crashKept (dryRunCalibrate inp s q).2 = true

/-- A crash is to be saved, and the name of the seed has no part to be captured. -/
def crashUnnamed (s : AflState) (fname : Name) : Bool :=
  !s.aflExitOnSeedIssues && s.aflCrashingSeedsAsNewCrash &&
    (s.nonInstrumentedMode || decide ((crashHasNewBits s).1 ≠ 0)) && lacksOrig s fname

/-- The entry crashes, and saving the crash is a segmentation fault. -/
def CrashFaults (inp : DryInput) (s : AflState) (q : ℕ) : Prop :=
  (dryRunCalibrate inp s q).1 = .crash ∧ s.crashMode = .ok ∧
    crashUnnamed (dryRunCalibrate inp s q).2 (inp.fname q) = true

namespace AfterVisits

variable {s : AflState} {d : DryRun}

theorem start (s : AflState) : AfterVisits s { afl := s } := by
  refine ⟨rfl, rfl, rfl, fun _ => rfl, fun _ _ => rfl, fun _ _ => rfl, List.nodup_nil, nofun, nofun,
    ?_, ?_⟩
  · rw [newly_self]
    exact (BitVec.sub_zero _).symm
  · rw [newly_self]
    exact (BitVec.sub_zero _).symm

theorem leave (h : AfterVisits s d) (left : Option (Except Exit Bool)) :
    AfterVisits s { d with left := left } :=
  ⟨h.queuedItems, h.inPlaceResume, h.crashMode, h.len, h.disabled, h.wasFuzzed, h.nodup, h.enabled,
    h.settled, h.activeItems, h.pendingNotFuzzed⟩

theorem skipped (h : AfterVisits s d) {r : ℕ} (hr : r ∉ d.calibrated) :
    (d.afl.queueBuf r).skipped = (s.queueBuf r).skipped := by
  rw [QueueEntry.skipped, QueueEntry.skipped, h.disabled r hr, h.len]

/-- One more entry has been counted out, or none. -/
theorem counted (h : AfterVisits s d) {q : ℕ} (hq : q ∉ d.calibrated) (hlt : q < s.queuedItems)
    {t : AflState} (hframe : VisitFrame q d.afl t) :
    t.activeItems = s.activeItems - BitVec.ofNat 32 (newly (fun e => e.wasFuzzed) s t) ∧
      t.pendingNotFuzzed =
        s.pendingNotFuzzed - BitVec.ofNat 32 (newly (fun e => e.wasFuzzed) s t) := by
  rcases hframe.counted with ⟨hsame, hactive, hpending⟩ | ⟨hno, hyes, hactive, hpending⟩
  · have hnewly : newly (fun e => e.wasFuzzed) s t = newly (fun e => e.wasFuzzed) s d.afl := by
      unfold newly
      refine congrArg _ (funext fun i => congrArg _ ?_)
      by_cases hi : i = q
      · rw [hi]
        exact hsame
      · exact hframe.wasFuzzed i hi
    rw [hactive, hpending, hnewly]
    exact ⟨h.activeItems, h.pendingNotFuzzed⟩
  · have hnewly : newly (fun e => e.wasFuzzed) s t = newly (fun e => e.wasFuzzed) s d.afl + 1 := by
      refine newly_set hlt ((h.wasFuzzed q hq).symm.trans hno) hno fun r => ?_
      split
      · rename_i hr
        rw [hr]
        exact hyes
      · exact hframe.wasFuzzed r ‹_›
    rw [hactive, hpending, h.activeItems, h.pendingNotFuzzed, hnewly]
    exact ⟨(sub_ofNat_succ _ _).symm, (sub_ofNat_succ _ _).symm⟩

theorem visit (h : AfterVisits s d) (inp : DryInput) {q : ℕ} (hq : q ∉ d.calibrated)
    (hlt : q < s.queuedItems) (hskip : (s.queueBuf q).skipped = false) :
    AfterVisits s (d.visit inp q) := by
  have hframe := d.visit_frame inp q
  obtain ⟨hactive, hpending⟩ := h.counted hq hlt hframe
  have hlists : (d.visit inp q).calibrated = d.calibrated ++ [q] ∧
      ∀ x ∈ (d.visit inp q).settled, x ∈ d.settled ∨ x.1 = q := by
    obtain ⟨-, hvisit⟩ | ⟨-, ⟨x, -, hvisit⟩ | ⟨t, skipped, -, hvisit⟩⟩ := d.visit_cases inp q
    · rw [hvisit]
      exact ⟨rfl, fun _ hx => Or.inl hx⟩
    · rw [hvisit]
      exact ⟨rfl, fun _ hx => Or.inl hx⟩
    · rw [hvisit]
      refine ⟨rfl, fun x hx => ?_⟩
      rcases List.mem_append.mp hx with hx | hx
      · exact Or.inl hx
      · exact Or.inr (congrArg Prod.fst (List.mem_singleton.mp hx))
  obtain ⟨hcal, hsettled⟩ := hlists
  have hnew : ∀ r, r ∉ (d.visit inp q).calibrated → r ∉ d.calibrated ∧ r ≠ q := by
    intro r hr
    rw [hcal, List.mem_append, List.mem_singleton, not_or] at hr
    exact hr
  refine ⟨hframe.queuedItems.trans h.queuedItems, hframe.inPlaceResume.trans h.inPlaceResume,
    hframe.crashMode.trans h.crashMode, fun r => (hframe.len r).trans (h.len r), fun r hr => ?_,
    fun r hr => ?_, ?_, fun r hr => ?_, fun x hx => ?_, hactive, hpending⟩
  · exact (hframe.disabled r (hnew r hr).2).trans (h.disabled r (hnew r hr).1)
  · exact (hframe.wasFuzzed r (hnew r hr).2).trans (h.wasFuzzed r (hnew r hr).1)
  · rw [hcal]
    exact h.nodup.append (List.nodup_singleton q) (List.disjoint_singleton.mpr hq)
  · rw [hcal] at hr
    rcases List.mem_append.mp hr with hr | hr
    · exact h.enabled r hr
    · rw [List.mem_singleton.mp hr]
      exact ⟨hlt, hskip⟩
  · rw [hcal]
    rcases hsettled x hx with hx | hx
    · exact List.mem_append_left _ (h.settled x hx)
    · rw [hx]
      exact List.mem_append_right _ (List.mem_singleton_self q)

/-- A visit disables the entry if it crashes, and otherwise leaves the crashes as they were. -/
theorem crashesDisabled_visit (h : AfterVisits s d) (inp : DryInput) {q : ℕ} (hq : q ∉ d.calibrated)
    (hskip : (s.queueBuf q).skipped = false) :
    CrashesDisabled (d.visit inp q) ↔
      CrashesDisabled d ∧ (inp.stopSoon q = false → ∀ t skipped,
        dryRunSeed inp d.afl q = .ok (t, skipped) → ¬ CrashStays inp d.afl q) := by
  have hframe := d.visit_frame inp q
  have hold : ∀ r, (r, Fault.crash) ∈ d.settled →
      ((d.visit inp q).afl.queueBuf r).disabled = (d.afl.queueBuf r).disabled ∧
        ((d.visit inp q).afl.queueBuf r).wasFuzzed = (d.afl.queueBuf r).wasFuzzed := by
    intro r hr
    have hne : r ≠ q := fun heq => hq (heq ▸ h.settled _ hr)
    exact ⟨hframe.disabled r hne, hframe.wasFuzzed r hne⟩
  have hsame : (d.visit inp q).settled = d.settled →
      (CrashesDisabled (d.visit inp q) ↔ CrashesDisabled d) := by
    intro heq
    unfold CrashesDisabled
    rw [heq, hframe.crashMode]
    refine forall_congr' fun _ => forall_congr' fun r => forall_congr' fun hr => ?_
    rw [(hold r hr).1, (hold r hr).2]
  obtain ⟨hstop, hvisit⟩ | ⟨hstop, ⟨x, hseed, hvisit⟩ | ⟨t, skipped, hseed, hvisit⟩⟩ :=
    d.visit_cases inp q
  · rw [hsame (by rw [hvisit]), and_iff_left]
    intro hno
    rw [hstop] at hno
    cases hno
  · rw [hsame (by rw [hvisit]), and_iff_left]
    intro _ t skipped hok
    rw [hseed] at hok
    cases hok
  · obtain ⟨hcal, hflag⟩ := dryRunCalibrate_visit inp d.afl q
    have henabled : (d.afl.queueBuf q).disabled = false := by
      rw [h.disabled q hq]
      exact (Bool.or_eq_false_iff.mp hskip).1
    -- what the `switch` leaves of a crash
    have hcrash : (dryRunCalibrate inp d.afl q).1 = .crash → d.afl.crashMode = .ok →
        ((d.visit inp q).afl.queueBuf q).wasFuzzed = true ∧
          ((d.visit inp q).afl.queueBuf q).disabled =
            !crashKept (dryRunCalibrate inp d.afl q).2 := by
      intro hres hmode
      obtain ⟨hfuzzed, hdisabled⟩ :=
        (dryRunSwitch_visit hseed).2 hres (hcal.crashMode.trans hmode)
      rw [hflag, henabled, Bool.or_false] at hdisabled
      rw [hvisit]
      exact ⟨hfuzzed, hdisabled⟩
    have hsettled : (d.visit inp q).settled =
        d.settled ++ [(q, (dryRunCalibrate inp d.afl q).1)] := by rw [hvisit]
    constructor
    · refine fun hdone => ⟨fun hmode r hr => ?_, fun _ _ _ _ hstays => ?_⟩
      · rw [← (hold r hr).1, ← (hold r hr).2]
        refine hdone (hframe.crashMode.trans hmode) r ?_
        rw [hsettled]
        exact List.mem_append_left _ hr
      · obtain ⟨hres, hmode, hkept⟩ := hstays
        have hgone := (hdone (hframe.crashMode.trans hmode) q (by
          rw [hsettled, hres]
          exact List.mem_append_right _ (List.mem_singleton_self _))).1
        rw [(hcrash hres hmode).2, hkept] at hgone
        cases hgone
    · rintro ⟨hdone, hstays⟩ hmode r hr
      rw [hframe.crashMode] at hmode
      rw [hsettled] at hr
      rcases List.mem_append.mp hr with hr | hr
      · rw [(hold r hr).1, (hold r hr).2]
        exact hdone hmode r hr
      · obtain ⟨rfl, hres⟩ := Prod.mk.inj (List.mem_singleton.mp hr)
        obtain ⟨hfuzzed, hdisabled⟩ := hcrash hres.symm hmode
        refine ⟨?_, hfuzzed⟩
        rw [hdisabled, Bool.not_eq_true']
        exact Bool.eq_false_iff.mpr fun hkept =>
          hstays hstop t skipped hseed ⟨hres.symm, hmode, hkept⟩

end AfterVisits

theorem saveSeedCrash_map_error {α : Type} {s : AflState} {fname : Name} {f : AflState → α}
    {x : Exit} :
    (saveSeedCrash s fname).map f = .error x ↔ x = .segfault ∧ lacksOrig s fname = true := by
  unfold saveSeedCrash
  split
  · rename_i hlacks
    constructor
    · exact fun h => ⟨(Except.error.inj h).symm, hlacks⟩
    · exact fun h => h.1 ▸ rfl
  · rename_i hlacks
    constructor
    · exact fun h => nomatch h
    · exact fun h => absurd h.2 hlacks

/-- The crash branch ends the process with a `FATAL`, or where there is no name to be captured. -/
theorem dryRunCrash_error_iff {s : AflState} {q : ℕ} {fname : Name} {x : Exit} :
    dryRunCrash s q fname = .error x ↔ x = .fatal ∧ s.aflExitOnSeedIssues = true ∨
      x = .segfault ∧ crashUnnamed s fname = true := by
  have hsettings : (dropPending s q).aflCrashingSeedsAsNewCrash = s.aflCrashingSeedsAsNewCrash ∧
      (dropPending s q).nonInstrumentedMode = s.nonInstrumentedMode ∧
      lacksOrig (dropPending s q) fname = lacksOrig s fname ∧
      (crashHasNewBits (dropPending s q)).1 = (crashHasNewBits s).1 := by
    rw [(dropPending_frame s q).rest]
    exact ⟨rfl, rfl, rfl, rfl⟩
  obtain ⟨hseeds, hinst, hlacks, hbits⟩ := hsettings
  rw [dryRunCrash, crashUnnamed, ← hseeds, ← hinst, ← hlacks, ← hbits]
  cases s.aflExitOnSeedIssues with
  | true =>
    rw [if_pos rfl, Except.error.injEq]
    simp only [Bool.not_true, Bool.false_and, Bool.false_eq_true, and_false, or_false, and_true]
    exact eq_comm
  | false =>
    rw [if_neg Bool.false_ne_true]
    simp only [Bool.not_false, Bool.true_and, Bool.false_eq_true, and_false, false_or]
    generalize dropPending s q = t
    by_cases hset : t.aflCrashingSeedsAsNewCrash = true
    · rw [if_pos hset]
      by_cases hnon : t.nonInstrumentedMode = true
      · rw [if_neg (by simp [hnon])]
        refine saveSeedCrash_map_error.trans ?_
        change _ ∧ lacksOrig t fname = true ↔ _
        simp [hset, hnon]
      · rw [if_pos (by simp [hnon])]
        by_cases hzero : (crashHasNewBits t).1 = 0
        · rw [if_pos (by exact hzero)]
          simp [hnon, hzero]
        · rw [if_neg (by exact hzero)]
          refine saveSeedCrash_map_error.trans ?_
          change _ ∧ lacksOrig t fname = true ↔ _
          have hzero' : (crashHasNewBits t).1 ≠ 0 := hzero
          rw [decide_eq_true hzero']
          simp [hset]
    · rw [if_neg hset]
      simp [hset]

/-- Only a `FATAL`, and a crash that is saved without a name, end the process inside the
`switch`. -/
theorem dryRunSwitch_error {s : AflState} {q : ℕ} {fname : Name} {res : Fault} {x : Exit}
    (h : dryRunSwitch s q fname res = .error x) : x = .fatal ∨
      x = .segfault ∧ res = .crash ∧ s.crashMode = .ok ∧ crashUnnamed s fname = true := by
  cases res with
  | ok =>
    simp only [dryRunSwitch] at h
    split at h
    · exact .inl (Except.error.inj h).symm
    · cases h
  | tmout =>
    simp only [dryRunSwitch] at h
    split at h
    · cases h
    · split at h
      · exact .inl (Except.error.inj h).symm
      · cases h
  | crash =>
    simp only [dryRunSwitch] at h
    split at h
    · cases h
    · rename_i hmode
      rw [ne_eq, not_not] at hmode
      cases hcrash : dryRunCrash s q fname with
      | error y =>
        rw [hcrash] at h
        rw [← Except.error.inj h]
        exact (dryRunCrash_error_iff.mp hcrash).imp And.left fun h => ⟨h.1, rfl, hmode, h.2⟩
      | ok t =>
        rw [hcrash] at h
        cases h
  | error => exact .inl (Except.error.inj h).symm
  | noinst => exact .inl (Except.error.inj h).symm
  | nobits => cases h

/-- A visit ends in a segmentation fault just at a crash that is saved without a name. -/
theorem dryRunSeed_segfault_iff {inp : DryInput} {s : AflState} {q : ℕ} :
    dryRunSeed inp s q = .error .segfault ↔ CrashFaults inp s q := by
  have hmode := (dryRunCalibrate_visit inp s q).1.crashMode
  constructor
  · intro h
    obtain hfatal | ⟨-, hres, hok, hunnamed⟩ := dryRunSwitch_error h
    · cases hfatal
    · exact ⟨hres, hmode ▸ hok, hunnamed⟩
  · rintro ⟨hres, hok, hunnamed⟩
    rw [dryRunSeed, hres, dryRunSwitch, if_neg (by rw [hmode, hok]; exact not_not.mpr rfl),
      dryRunCrash_error_iff.mpr (.inr ⟨rfl, hunnamed⟩)]
    rfl

theorem DryRun.visit_calibrated (inp : DryInput) (q : ℕ) (d : DryRun) :
    (d.visit inp q).calibrated = d.calibrated ++ [q] := by
  obtain ⟨-, heq⟩ | ⟨-, ⟨x, -, heq⟩ | ⟨t, skipped, -, heq⟩⟩ := d.visit_cases inp q <;> rw [heq]

/-- How a visit leaves the loop, if it does: with `stop_soon` or with `FATAL`, or with a
segmentation fault. -/
theorem DryRun.visit_left (inp : DryInput) (q : ℕ) {d : DryRun} (hleft : d.left = none) :
    (d.visit inp q).left = none ∧ inp.stopSoon q = false ∧
        (∃ t skipped, dryRunSeed inp d.afl q = .ok (t, skipped) ∧ (d.visit inp q).afl = t) ∨
      ((d.visit inp q).left = some (.ok true) ∨ (d.visit inp q).left = some (.error .fatal)) ∧
        (inp.stopSoon q = false → dryRunSeed inp d.afl q = .error .fatal) ∨
      (d.visit inp q).left = some (.error .segfault) ∧ inp.stopSoon q = false ∧
        dryRunSeed inp d.afl q = .error .segfault := by
  obtain ⟨hstop, heq⟩ | ⟨hstop, ⟨x, hseed, heq⟩ | ⟨t, skipped, hseed, heq⟩⟩ := d.visit_cases inp q
  · refine .inr (.inl ⟨.inl (by rw [heq]), fun hno => ?_⟩)
    rw [hstop] at hno
    cases hno
  · obtain rfl | ⟨rfl, -⟩ := dryRunSwitch_error hseed
    · exact .inr (.inl ⟨.inr (by rw [heq]), fun _ => hseed⟩)
    · exact .inr (.inr ⟨by rw [heq], hstop, hseed⟩)
  · exact .inl ⟨by rw [heq]; exact hleft, hstop, t, skipped, hseed, by rw [heq]⟩

/-- The condition for a walk through the entries ahead: a disabled or empty entry is met in an
in-place resume only, and not as the last one, no crash is saved without a name, and no crash
stays. -/
def DryRunClear (inp : DryInput) : List ℕ → AflState → Prop
  | [], _ => True
  | q :: rest, s =>
    if (s.queueBuf q).skipped then s.inPlaceResume = true ∧ rest ≠ [] ∧ DryRunClear inp rest s
    else inp.stopSoon q = false → ¬ CrashFaults inp s q ∧
      ∀ t skipped, dryRunSeed inp s q = .ok (t, skipped) →
        ¬ CrashStays inp s q ∧ DryRunClear inp rest t

/-- Each entry was visited once, and the crashes are dealt with. -/
structure VisitsOnce (s : AflState) (d : DryRun) : Prop where
  /-- Only a `FATAL` may end the process. -/
  fatal : ∀ x, d.left = some (.error x) → x = .fatal
  visited : AfterVisits s d
  all : d.left = some (.ok false) →
    ∀ r, r < s.queuedItems → (s.queueBuf r).skipped = false → r ∈ d.calibrated
  crashes : CrashesDisabled d

/-- What the rest of a walk from `d` to `e` adds. -/
structure WalkFrame (s : AflState) (order : List ℕ) (d e : DryRun) : Prop where
  visited : AfterVisits s e
  crashes : CrashesDisabled e → CrashesDisabled d
  calibrated : ∀ r ∈ d.calibrated, r ∈ e.calibrated
  all : e.left = some (.ok false) →
    ∀ r ∈ order, (s.queueBuf r).skipped = false → r ∈ e.calibrated

/-- The entries ahead are in the queue, and have not been calibrated. -/
structure Unvisited (s : AflState) (order : List ℕ) (d : DryRun) : Prop where
  nodup : order.Nodup
  fresh : ∀ r ∈ order, r ∉ d.calibrated
  lt : ∀ r ∈ order, r < s.queuedItems

theorem Unvisited.tail {s : AflState} {q : ℕ} {rest : List ℕ} {d : DryRun}
    (h : Unvisited s (q :: rest) d) : Unvisited s rest d :=
  ⟨(List.nodup_cons.mp h.nodup).2, fun r hr => h.fresh r (List.mem_cons_of_mem q hr),
    fun r hr => h.lt r (List.mem_cons_of_mem q hr)⟩

theorem Unvisited.visit {s : AflState} {q : ℕ} {rest : List ℕ} {d : DryRun}
    (h : Unvisited s (q :: rest) d) (inp : DryInput) : Unvisited s rest (d.visit inp q) := by
  refine ⟨h.tail.nodup, fun r hr hin => ?_, h.tail.lt⟩
  rw [d.visit_calibrated inp q] at hin
  rcases List.mem_append.mp hin with hin | hin
  · exact h.tail.fresh r hr hin
  · exact (List.nodup_cons.mp h.nodup).1 (List.mem_singleton.mp hin ▸ hr)

/-- The walk through the entries ahead keeps the invariant and reaches all of them. -/
theorem visitAll_frame {inp : DryInput} {order : List ℕ} {s : AflState} {d e : DryRun}
    (h : AfterVisits s d) (hleft : d.left = none) (hahead : Unvisited s order d)
    (hwalk : d.visitAll inp order = some e) : WalkFrame s order d e := by
  induction order generalizing d with
  | nil =>
    obtain rfl := Option.some.inj hwalk
    exact ⟨h.leave _, fun hc => hc, fun _ hr => hr, fun _ _ hr => absurd hr List.not_mem_nil⟩
  | cons q rest ih =>
    have hq := hahead.fresh q (List.mem_cons_self ..)
    have hskipped := h.skipped hq
    rw [DryRun.visitAll] at hwalk
    by_cases hskip : (d.afl.queueBuf q).skipped = true
    · rw [if_pos hskip] at hwalk
      rw [hskipped] at hskip
      split at hwalk
      · split at hwalk
        · obtain rfl := Option.some.inj hwalk
          exact ⟨h.leave _, fun hc => hc, fun _ hr => hr, fun hdone => by cases hdone⟩
        · have hrest := ih h hleft hahead.tail hwalk
          refine ⟨hrest.visited, hrest.crashes, hrest.calibrated, fun hdone r hr henabled => ?_⟩
          rcases List.mem_cons.mp hr with rfl | hr
          · rw [hskip] at henabled
            cases henabled
          · exact hrest.all hdone r hr henabled
      · cases hwalk
    · rw [if_neg hskip] at hwalk
      rw [hskipped, Bool.not_eq_true] at hskip
      have hvisit := h.visit inp hq (hahead.lt q (List.mem_cons_self ..)) hskip
      have hcrash := fun hc => ((h.crashesDisabled_visit inp hq hskip).mp hc).1
      have hcal := d.visit_calibrated inp q
      have hmem : ∀ r ∈ d.calibrated, r ∈ (d.visit inp q).calibrated := fun r hr => by
        rw [hcal]
        exact List.mem_append_left _ hr
      obtain hnone | hend : (d.visit inp q).left = none ∨
          ((d.visit inp q).left.isSome = true ∧ (d.visit inp q).left ≠ some (.ok false)) := by
        obtain ⟨hnone, -⟩ | ⟨hend | hend, -⟩ | ⟨hend, -⟩ := d.visit_left inp q hleft
        · exact .inl hnone
        all_goals
          rw [hend]
          exact .inr ⟨rfl, fun hdone => by cases hdone⟩
      · rw [if_neg (by simp [hnone])] at hwalk
        have hrest := ih hvisit hnone (hahead.visit inp) hwalk
        refine ⟨hrest.visited, fun hc => hcrash (hrest.crashes hc),
          fun r hr => hrest.calibrated r (hmem r hr), fun hdone r hr henabled => ?_⟩
        rcases List.mem_cons.mp hr with rfl | hr
        · refine hrest.calibrated _ ?_
          rw [hcal]
          exact List.mem_append_right _ (List.mem_singleton_self _)
        · exact hrest.all hdone r hr henabled
      · rw [if_pos hend.1] at hwalk
        obtain rfl := Option.some.inj hwalk
        exact ⟨hvisit, hcrash, hmem, fun hdone => absurd hdone hend.2⟩

/-- The walk ends well just when the condition holds. -/
theorem visitAll_clear {inp : DryInput} {order : List ℕ} {s : AflState} {d : DryRun}
    (h : AfterVisits s d) (hleft : d.left = none) (hahead : Unvisited s order d)
    (hcrashes : CrashesDisabled d) :
    (∃ e, d.visitAll inp order = some e ∧ (∀ x, e.left = some (.error x) → x = .fatal) ∧
      CrashesDisabled e) ↔ DryRunClear inp order d.afl := by
  induction order generalizing d with
  | nil =>
    exact ⟨fun _ => trivial, fun _ => ⟨_, rfl, fun _ hx => (by cases hx), hcrashes⟩⟩
  | cons q rest ih =>
    have hq := hahead.fresh q (List.mem_cons_self ..)
    rw [DryRun.visitAll, DryRunClear]
    by_cases hskip : (d.afl.queueBuf q).skipped = true
    · rw [if_pos hskip, if_pos hskip]
      cases hplace : d.afl.inPlaceResume with
      | false =>
        rw [if_neg Bool.false_ne_true]
        constructor
        · rintro ⟨e, hnone, -⟩
          cases hnone
        · rintro ⟨hno, -⟩
          cases hno
      | true =>
        rw [if_pos rfl]
        cases rest with
        | nil =>
          constructor
          · rintro ⟨e, he, hfatal, -⟩
            obtain rfl := Option.some.inj he
            cases hfatal _ rfl
          · rintro ⟨-, hne, -⟩
            exact absurd rfl hne
        | cons r rest =>
          rw [if_neg (by simp), ih h hleft hahead.tail hcrashes]
          exact ⟨fun hclear => ⟨rfl, List.cons_ne_nil r rest, hclear⟩, fun hclear => hclear.2.2⟩
    · rw [if_neg hskip, if_neg hskip]
      have hskip' : (s.queueBuf q).skipped = false := by
        rw [← h.skipped hq]
        exact Bool.eq_false_iff.mpr hskip
      have hvisit := h.visit inp hq (hahead.lt q (List.mem_cons_self ..)) hskip'
      have hcrash := h.crashesDisabled_visit inp hq hskip'
      rw [← dryRunSeed_segfault_iff]
      obtain ⟨hnone, hstop, t, skipped, hseed, hafl⟩ | ⟨hend, hfatal⟩ | ⟨hend, hstop, hseed⟩ :=
        d.visit_left inp q hleft
      · have hone : (inp.stopSoon q = false → ¬ dryRunSeed inp d.afl q = .error .segfault ∧
            ∀ t skipped, dryRunSeed inp d.afl q = .ok (t, skipped) →
              ¬ CrashStays inp d.afl q ∧ DryRunClear inp rest t) ↔
            ¬ CrashStays inp d.afl q ∧ DryRunClear inp rest t := by
          refine ⟨fun hall => (hall hstop).2 t skipped hseed, fun hthis _ => ⟨?_, ?_⟩⟩
          · rw [hseed]
            exact fun hseg => by cases hseg
          · intro t' skipped' hseed'
            rw [hseed] at hseed'
            cases hseed'
            exact hthis
        rw [if_neg (by simp [hnone]), hone, ← hafl]
        by_cases hstays : CrashStays inp d.afl q
        · refine iff_of_false ?_ fun hclear => hclear.1 hstays
          rintro ⟨e, he, -, hdone⟩
          have hframe := visitAll_frame hvisit hnone (hahead.visit inp) he
          exact absurd hstays ((hcrash.mp (hframe.crashes hdone)).2 hstop t skipped hseed)
        · rw [ih hvisit hnone (hahead.visit inp)
            (hcrash.mpr ⟨hcrashes, fun _ _ _ _ => hstays⟩)]
          exact ⟨fun hclear => ⟨hstays, hclear⟩, fun hclear => hclear.2⟩
      · rw [if_pos (by rcases hend with hend | hend <;> rw [hend] <;> rfl)]
        refine iff_of_true ⟨_, rfl, fun x hx => ?_, hcrash.mpr ⟨hcrashes, ?_⟩⟩ ?_
        · rcases hend with hend | hend <;> rw [hend] at hx <;> cases hx
          rfl
        · intro hstop t skipped hseed
          rw [hfatal hstop] at hseed
          cases hseed
        · intro hstop
          rw [hfatal hstop]
          refine ⟨fun hseg => ?_, fun t skipped hseed => ?_⟩
          · cases hseg
          · cases hseed
      · rw [if_pos (by rw [hend]; rfl)]
        refine iff_of_false ?_ fun hclear => (hclear hstop).1 hseed
        rintro ⟨e, he, hfatal, -⟩
        obtain rfl := Option.some.inj he
        cases hfatal _ hend

theorem mem_dryRunOrder {s : AflState} {r : ℕ} : r ∈ s.dryRunOrder ↔ r < s.queuedItems := by
  unfold AflState.dryRunOrder
  split <;> simp

theorem unvisited_dryRunOrder (s : AflState) : Unvisited s s.dryRunOrder { afl := s } := by
  refine ⟨?_, fun _ _ => List.not_mem_nil, fun r hr => mem_dryRunOrder.mp hr⟩
  unfold AflState.dryRunOrder
  split
  · exact List.nodup_reverse.mpr List.nodup_range
  · exact List.nodup_range

theorem dryRunStart_ahead {s : AflState} (hitems : s.queuedItems < 2 ^ 32) :
    (dryRunStart s).ahead = s.dryRunOrder ∧ (dryRunStart s).idx.toNat ≤ s.queuedItems := by
  unfold DryCursor.ahead AflState.dryRunOrder dryRunStart
  dsimp only
  split
  · rw [BitVec.toNat_ofNat, Nat.mod_eq_of_lt hitems]
    exact ⟨rfl, le_refl _⟩
  · exact ⟨(List.range_eq_range' ..).symm, Nat.zero_le _⟩

/-- With an empty queue the first access is out of bounds. -/
theorem dryRunStep_empty (inp : DryInput) {s : AflState} (hzero : s.queuedItems = 0) :
    (dryRunStep inp (dryRunStart s)).left = some (.error .outOfBounds) := by
  cases hplace : s.inPlaceResume with
  | true =>
    refine congrArg DryRun.left (dryRunStep_wrap inp (c := dryRunStart s) hplace ?_ ?_)
    · unfold dryRunStart
      rw [if_pos hplace, hzero]
      rfl
    · exact hzero.trans_lt (by decide)
  | false =>
    have hstay : (dryRunStart s).enter = dryRunStart s := by
      unfold DryCursor.enter
      exact if_neg (Bool.eq_false_iff.mp hplace)
    unfold dryRunStep
    dsimp only
    rw [hstay, if_pos]
    exact hzero.trans_le (Nat.zero_le _)

/-- The loop ends with every entry visited once and every crash disabled just when the condition
holds. -/
theorem dryRunCursor_visitsOnce_iff (inp : DryInput) {s : AflState}
    (hitems : s.queuedItems < 2 ^ 32) :
    (∃ fuel c, dryRunCursor inp fuel s = some c ∧ VisitsOnce s c.toDryRun) ↔
      0 < s.queuedItems ∧ DryRunClear inp s.dryRunOrder s := by
  obtain ⟨hahead, hidx⟩ := dryRunStart_ahead hitems
  have hcrashes : CrashesDisabled { afl := s } := fun _ _ hr => nomatch hr
  have hclear : (∃ e, ({ afl := s } : DryRun).visitAll inp s.dryRunOrder = some e ∧
      (∀ x, e.left = some (.error x) → x = .fatal) ∧ CrashesDisabled e) ↔
      DryRunClear inp s.dryRunOrder s :=
    visitAll_clear (.start s) rfl (unvisited_dryRunOrder s) hcrashes
  by_cases hn : 0 < s.queuedItems
  · have hne : s.dryRunOrder ≠ [] := List.ne_nil_of_mem (mem_dryRunOrder.mpr hn)
    have hwalks := walksAs_visitAll inp hahead hne rfl hidx hitems
    rw [← hclear]
    constructor
    · rintro ⟨fuel, c, hrun, honce⟩
      refine ⟨hn, c.toDryRun, ?_, honce.fatal, honce.crashes⟩
      cases hwalk : (dryRunStart s).visitAll inp s.dryRunOrder with
      | none =>
        rw [dryRunCursor, hwalks.hangs hwalk] at hrun
        cases hrun
      | some e =>
        obtain ⟨fuel', c', hrun', rfl⟩ := hwalks.ends e hwalk
        rw [whileLoop_unique hrun hrun']
        exact hwalk
    · rintro ⟨-, e, he, hfatal, hdone⟩
      obtain ⟨fuel, c, hrun, rfl⟩ := hwalks.ends e he
      have hframe := visitAll_frame (.start s) rfl (unvisited_dryRunOrder s) he
      exact ⟨fuel, c, hrun, hfatal, hframe.visited, fun hleft r hr hskip =>
        hframe.all hleft r (mem_dryRunOrder.mpr hr) hskip, hdone⟩
  · refine iff_of_false ?_ fun h => hn h.1
    rintro ⟨fuel, c, hrun, honce⟩
    have hout := dryRunStep_empty inp (Nat.eq_zero_of_not_pos hn)
    have hrun' : dryRunCursor inp 2 s = some (dryRunStep inp (dryRunStart s)) := by
      rw [dryRunCursor, dryRunWhile_step inp 1 rfl]
      exact dryRunWhile_left inp (by rw [hout]; rfl)
    cases honce.fatal .outOfBounds (by rw [whileLoop_unique hrun hrun', hout])

/-- A target that runs without a hit. -/
def quietTarget : DryInput where
  hash64 := fun _ => 0
  cal := fun _ => { run := fun _ => (.ok, fun _ => 0) }

/-- Two entries in an in-place resume of a crash exploration, the second one disabled. -/
def resumedQueue : AflState :=
  { AflState.init .block with
    crashMode := .crash
    inPlaceResume := true
    queueBuf := fun i => { len := 5, disabled := i = 1 }
    queuedItems := 2 }

theorem dryRunCursor_visitsOnce_resumedQueue :
    ∃ fuel c, dryRunCursor quietTarget fuel resumedQueue = some c ∧
      VisitsOnce resumedQueue c.toDryRun := by
  refine (dryRunCursor_visitsOnce_iff quietTarget (by decide)).mpr ⟨by decide, ?_⟩
  rw [show resumedQueue.dryRunOrder = [1, 0] by decide, DryRunClear, if_pos (by decide)]
  refine ⟨rfl, by decide, ?_⟩
  rw [DryRunClear, if_neg (by decide)]
  exact fun _ => ⟨fun hfaults => absurd hfaults.2.1 (by decide), fun _ _ _ =>
    ⟨fun hstays => absurd hstays.2.1 (by decide), trivial⟩⟩

/-- Two entries, the first one disabled. -/
def disabledSeed : AflState :=
  { AflState.init .block with
    queueBuf := fun i => { len := 5, disabled := i = 0 }
    queuedItems := 2 }

/-- The loop tests the disabled entry again and again. -/
theorem dryRunCursor_disabledSeed :
    ¬ ∃ fuel c, dryRunCursor quietTarget fuel disabledSeed = some c ∧
      VisitsOnce disabledSeed c.toDryRun := by
  rintro ⟨fuel, c, hrun, -⟩
  have hstay : dryRunStep quietTarget (dryRunStart disabledSeed) = dryRunStart disabledSeed := by
    rw [dryRunStep_eq quietTarget (q := 0) rfl (by decide)]
    exact if_pos rfl
  have hstuck : WalksAs quietTarget (dryRunStart disabledSeed) none := .stuck rfl hstay
  rw [dryRunCursor, hstuck.hangs rfl fuel] at hrun
  cases hrun

end AflPlusPlus
