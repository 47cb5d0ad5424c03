import AflPlusPlus.Lib.NameOrder
import AflPlusPlus.Queue.Calibrate

/-!
# The dry run over the seeds

`perform_dry_run` calibrates every seed, disables those that time out or crash, and then disables
the longer one of any two entries with the same checksum. A `FATAL` ends the process, and the two
`continue` statements in its `do … while (!done)` loop skip the code that advances the index.
-/

namespace AflPlusPlus
open Lib Coverage

/-- How `perform_dry_run` can fail to return. -/
inductive Exit
  | fatal
  | hang
  | outOfBounds
  | segfault
  deriving DecidableEq, Repr

def calChances : U8 := 3
def cmplogLvlMax : U8 := 3
def nFuzzSize : ℕ := 2 ^ 21

/-- `if (!q->was_fuzzed) { q->was_fuzzed = 1; … --pending_not_fuzzed; --active_items; }`. -/
def dropPending (s : AflState) (q : ℕ) : AflState :=
  if !(s.queueBuf q).wasFuzzed then
    { s.modify q fun e => { e with wasFuzzed := true } with
      reinitTable := true
      pendingNotFuzzed := s.pendingNotFuzzed - 1
      activeItems := s.activeItems - 1 }
  else s

/-- `q->disabled = 1; q->perf_score = 0;`. -/
def disableEntry (s : AflState) (q : ℕ) : AflState :=
  s.modify q fun e => { e with disabled := true, perfScore := 0 }

/-- The maximum depth of the enabled entries, recomputed. -/
def recomputeMaxDepth (s : AflState) : AflState :=
  { s with maxDepth := forLoop s.queuedItems (fun i d =>
      if !(s.queueBuf i).disabled && (s.queueBuf i).depth > d.setWidth 64 then
        (s.queueBuf i).depth.setWidth 32
      else d) 0 }

/-- `classify_counts`, `simplify_trace` and `has_new_bits(afl, afl->virgin_crash)`. -/
def crashHasNewBits (s : AflState) : U8 × AflState :=
  let trace := simplifyTrace64 s.mapSize.val (classifyCounts64 s.mapSize.val s.traceBits)
  let r := newBitsLoopW 64 s.mapSize.real trace s.virginCrash
  (r.1, { s with traceBits := trace, virginCrash := r.2 })

/-- The name of a crash is to capture that of the seed from `,orig:` on, which `fname` does not
have. -/
def lacksOrig (s : AflState) (fname : Name) : Bool :=
  !s.simpleFiles && !s.aflSha1Filenames && (strstr (ascii ",orig:") fname).isNone

/-- A crash is saved to a file, which can be created. The length of the part of `fname` that its
name captures is taken without a test for `NULL`. -/
def saveSeedCrash (s : AflState) (fname : Name) : Except Exit AflState :=
  if lacksOrig s fname then .error .segfault
  else .ok { s with savedCrashes := s.savedCrashes + 1 }

theorem saveSeedCrash_map_ok {α : Type} {s : AflState} {fname : Name} {f : AflState → α} {a : α}
    (h : (saveSeedCrash s fname).map f = .ok a) :
    a = f { s with savedCrashes := s.savedCrashes + 1 } := by
  unfold saveSeedCrash at h
  split at h
  · cases h
  · exact (Except.ok.inj h).symm

/-- `case FSRV_RUN_CRASH` outside crash mode, for the entry with the file `fname`. With
`AFL_CRASHING_SEEDS_AS_NEW_CRASH` a crash that is not new leaves the `switch` before the entry is
disabled. -/
def dryRunCrash (s : AflState) (q : ℕ) (fname : Name) : Except Exit AflState :=
  if s.aflExitOnSeedIssues then .error .fatal
  else
    let s := dropPending s q
    if s.aflCrashingSeedsAsNewCrash then
      let s := { s with totalCrashes := s.totalCrashes + 1 }
      if !s.nonInstrumentedMode then
        let r := crashHasNewBits s
        if r.1 = 0 then .ok r.2
        else (saveSeedCrash r.2 fname).map fun s => disableEntry s q
      else (saveSeedCrash s fname).map fun s => disableEntry s q
    else .ok (disableEntry (recomputeMaxDepth s) q)

/-- The `switch (res)` of the dry run; the flag says that a timed-out seed was skipped. -/
def dryRunSwitch (s : AflState) (q : ℕ) (fname : Name) (res : Fault) :
    Except Exit (AflState × Bool) :=
  match res with
  | .ok => if s.crashMode ≠ .ok then .error .fatal else .ok (s, false)
  | .tmout =>
    if s.timeoutGiven && !s.aflExitOnSeedIssues then
      -- no further calibration is tried
      let s := s.modify q fun e => { e with calFailed := calChances }
      .ok (dropPending (disableEntry s q) q, true)
    else if !s.aflIgnoreSeedProblems then .error .fatal
    else .ok (disableEntry (dropPending s q) q, false)
  | .crash =>
    if s.crashMode ≠ .ok then .ok (s, false)
    else (dryRunCrash s q fname).map fun s => (s, false)
  | .error => .error .fatal
  | .noinst => .error .fatal
  | .nobits => .ok ({ s with uselessAtStart := s.uselessAtStart + 1 }, false)

/-- The outside world during a dry run. -/
structure DryInput where
  hash64 : Bytes → U64
  cal : ℕ → CalInput
  /-- `stop_soon` as read after the calibration of an entry. -/
  stopSoon : ℕ → Bool := fun _ => false
  /-- The path of the queue file of an entry. -/
  fname : ℕ → Name := fun _ => []

/-- `if (afl->afl_env.afl_cmplog_only_new) { q->colorized = CMPLOG_LVL_MAX; }`. -/
def colorizeSeed (s : AflState) (idx : ℕ) : AflState :=
  if s.aflCmplogOnlyNew then s.modify idx fun e => { e with colorized := cmplogLvlMax } else s

/-- Calibration of one seed, up to the `switch`. -/
def dryRunCalibrate (inp : DryInput) (s : AflState) (idx : ℕ) : Fault × AflState :=
  let r := calibrateCase inp.hash64 (colorizeSeed s idx) idx (inp.cal idx)
  let s := r.2
  let e := s.queueBuf idx
  (r.1,
    if s.schedule.toNat ≥ Schedule.fast.toNat && s.schedule.toNat ≤ Schedule.rare.toNat &&
        e.execCksum ≠ 0 then
      s.modify idx fun e =>
        { e with nFuzzEntry := BitVec.ofNat 32 (e.execCksum.toNat % nFuzzSize) }
    else s)

/-- Calibration and `switch` of one seed. -/
def dryRunSeed (inp : DryInput) (s : AflState) (idx : ℕ) : Except Exit (AflState × Bool) :=
  dryRunSwitch (dryRunCalibrate inp s idx).2 idx (inp.fname idx) (dryRunCalibrate inp s idx).1

/-- The loop of the dry run over the indices still to visit, with the number of skipped seeds so
far. The result says whether `stop_soon` ended the function. -/
def dryRunLoop (inp : DryInput) : List ℕ → ℕ → AflState → Except Exit (AflState × ℕ × Bool)
  | [], failures, s => .ok (s, failures, false)
  | idx :: rest, failures, s =>
    if (s.queueBuf idx).disabled || (s.queueBuf idx).len = 0 then
      -- `continue`: only an in-place resume moves the index, and below zero at its last entry
      if s.inPlaceResume then
        if rest.isEmpty then .error .outOfBounds else dryRunLoop inp rest failures s
      else .error .hang
    else if inp.stopSoon idx then .ok ((dryRunCalibrate inp s idx).2, failures, true)
    else
      (dryRunSeed inp s idx).bind fun r =>
        dryRunLoop inp rest (if r.2 then failures + 1 else failures) r.1

/-- `!q || q->disabled || q->cal_failed || !q->exec_cksum`. -/
def dedupSkips (e : QueueEntry) : Bool := e.disabled || e.calFailed ≠ 0 || e.execCksum = 0

/-- The inner loop of the de-duplication for the outer entry `idx`. -/
def dedupInner (idx : ℕ) : List ℕ → AflState × Bool → AflState × Bool
  | [], st => st
  | i :: rest, (s, duplicates) =>
    let q := s.queueBuf idx
    let p := s.queueBuf i
    if dedupSkips p then dedupInner idx rest (s, duplicates)
    else if p.execCksum ≠ q.execCksum then dedupInner idx rest (s, duplicates)
    -- of two entries with one checksum the longer goes, and the later of two equally long ones
    else if p.len ≥ q.len then dedupInner idx rest (disableEntry (dropPending s i) i, true)
    else (disableEntry (dropPending s idx) idx, true)

/-- The loops that disable entries with a duplicate trace map. -/
def dedupLoop (s : AflState) : AflState × Bool :=
  forLoop (s.queuedItems - 1) (fun idx st =>
    if dedupSkips (st.1.queueBuf idx) then st
    else dedupInner idx (List.range' (idx + 1) (st.1.queuedItems - (idx + 1))) st) (s, false)

def dedupQueue (s : AflState) : AflState :=
  let r := dedupLoop s
  if r.2 then recomputeMaxDepth r.1 else r.1

/-- The order in which the dry run visits the queue. -/
def AflState.dryRunOrder (s : AflState) : List ℕ :=
  if s.inPlaceResume then (List.range s.queuedItems).reverse else List.range s.queuedItems

def performDryRun (inp : DryInput) (s : AflState) : Except Exit AflState :=
  if s.dryRunOrder.isEmpty then .error (if s.inPlaceResume then .outOfBounds else .hang)
  else
    (dryRunLoop inp s.dryRunOrder 0 s).bind fun r =>
      if r.2.2 then .ok r.1
      else if r.2.1 ≠ 0 && r.2.1 = r.1.queuedItems then .error .fatal
      else .ok (dedupQueue r.1)

/-- A computation that returns went through every part of it. -/
theorem bind_ok {ε α β : Type} {x : Except ε α} {f : α → Except ε β} {b : β}
    (h : x.bind f = .ok b) : ∃ a, x = .ok a ∧ f a = .ok b := by
  cases x with
  | error e => cases h
  | ok a => exact ⟨a, rfl, h⟩

/-! ### What the de-duplication changes -/

/-- `s'` differs from `s` only in what disabling an entry writes. -/
structure DisableFrame (s s' : AflState) : Prop where
  rest : s' = { s with
    queueBuf := s'.queueBuf
    reinitTable := s'.reinitTable
    pendingNotFuzzed := s'.pendingNotFuzzed
    activeItems := s'.activeItems
    maxDepth := s'.maxDepth }
  entry : ∀ r, s'.queueBuf r = { s.queueBuf r with
    wasFuzzed := (s'.queueBuf r).wasFuzzed
    disabled := (s'.queueBuf r).disabled
    perfScore := (s'.queueBuf r).perfScore }

theorem DisableFrame.refl (s : AflState) : DisableFrame s s := ⟨rfl, fun _ => rfl⟩

theorem DisableFrame.trans {s t u : AflState} (h : DisableFrame s t) (h' : DisableFrame t u) :
    DisableFrame s u := by
  refine ⟨?_, fun r => ?_⟩
  · rw [h'.rest, h.rest]
  · rw [h'.entry r, h.entry r]

theorem dropPending_frame (s : AflState) (q : ℕ) : DisableFrame s (dropPending s q) := by
  unfold dropPending
  split
  · refine ⟨rfl, fun r => ?_⟩
    by_cases hr : r = q
    · subst hr
      simp
    · simp [AflState.modify_queueBuf_ne _ _ hr]
  · exact .refl s

theorem disableEntry_frame (s : AflState) (q : ℕ) : DisableFrame s (disableEntry s q) := by
  refine ⟨rfl, fun r => ?_⟩
  by_cases hr : r = q
  · subst hr
    simp [disableEntry]
  · simp [disableEntry, AflState.modify_queueBuf_ne _ _ hr]

theorem disableDuplicate_frame (s : AflState) (q : ℕ) :
    DisableFrame s (disableEntry (dropPending s q) q) :=
  (dropPending_frame s q).trans (disableEntry_frame _ q)

theorem disableDuplicate_ne (s : AflState) {q r : ℕ} (h : r ≠ q) :
    (disableEntry (dropPending s q) q).queueBuf r = s.queueBuf r := by
  unfold disableEntry dropPending
  split <;> simp [AflState.modify_queueBuf_ne _ _ h]

/-- The de-duplication drops `q` in favor of `p`: both take part, their checksums agree, and `q` is
the longer one, or the later one of equal length. -/
structure AflState.Duplicate (s : AflState) (p q : ℕ) : Prop where
  keep_lt : p < s.queuedItems
  drop_lt : q < s.queuedItems
  keep : dedupSkips (s.queueBuf p) = false
  drop : dedupSkips (s.queueBuf q) = false
  cksum : (s.queueBuf q).execCksum = (s.queueBuf p).execCksum
  longer : p < q ∧ (s.queueBuf p).len ≤ (s.queueBuf q).len ∨
    q < p ∧ (s.queueBuf p).len < (s.queueBuf q).len

theorem dedupSkips_disabled {e : QueueEntry} (h : dedupSkips e = false) : e.disabled = false := by
  simp only [dedupSkips, Bool.or_eq_false_iff] at h
  exact h.1.1

section Dedup

variable {P : AflState → Prop} (hdis : ∀ t p q, t.Duplicate p q → P t →
  P (disableEntry (dropPending t q) q))
include hdis

/-- The inner loop disables entries one by one, the outer entry last and at most once. -/
theorem dedupInner_induct {idx : ℕ} {is : List ℕ} {s : AflState} {duplicates : Bool}
    (hidx : idx < s.queuedItems) (his : ∀ i ∈ is, idx < i ∧ i < s.queuedItems)
    (hskip : dedupSkips (s.queueBuf idx) = false) (hp : P s) :
    P (dedupInner idx is (s, duplicates)).1 ∧
      (dedupInner idx is (s, duplicates)).1.queuedItems = s.queuedItems := by
  induction is generalizing s duplicates with
  | nil => exact ⟨hp, rfl⟩
  | cons i rest ih =>
    obtain ⟨hlt, hi⟩ := his i List.mem_cons_self
    have hrest : ∀ j ∈ rest, idx < j ∧ j < s.queuedItems := fun j hj =>
      his j (List.mem_cons_of_mem _ hj)
    have hitems : ∀ q, (disableEntry (dropPending s q) q).queuedItems = s.queuedItems := fun q => by
      rw [(disableDuplicate_frame s q).rest]
    rw [dedupInner]
    split
    · exact ih hidx hrest hskip hp
    · rename_i hskipi
      rw [Bool.not_eq_true] at hskipi
      split
      · exact ih hidx hrest hskip hp
      · rename_i hck
        rw [ne_eq, not_not] at hck
        split
        · -- `idx` is the shorter one: `i` is dropped and the loop goes on
          rename_i hlen
          have hdup : s.Duplicate idx i :=
            ⟨hidx, hi, hskip, hskipi, hck, Or.inl ⟨hlt, hlen⟩⟩
          have hkeep := hitems i
          obtain ⟨h1, h2⟩ := ih (hkeep.symm ▸ hidx) (fun j hj => hkeep.symm ▸ hrest j hj)
            (by rw [disableDuplicate_ne s hlt.ne]; exact hskip) (hdis s idx i hdup hp)
          exact ⟨h1, h2.trans hkeep⟩
        · -- `idx` itself is dropped, and the `break` leaves the inner loop
          rename_i hlen
          have hdup : s.Duplicate i idx :=
            ⟨hi, hidx, hskipi, hskip, hck.symm, Or.inr ⟨hlt, BitVec.not_le.mp hlen⟩⟩
          exact ⟨hdis s i idx hdup hp, hitems idx⟩

/-- What holds before the de-duplication and survives disabling a duplicate holds after it. -/
theorem dedupQueue_induct {s : AflState} (h0 : P s)
    (hdepth : ∀ t, P t → P (recomputeMaxDepth t)) : P (dedupQueue s) := by
  have hloop : P (dedupLoop s).1 := by
    unfold dedupLoop
    refine (forLoop_invariant (fun st : AflState × Bool =>
      P st.1 ∧ st.1.queuedItems = s.queuedItems) ⟨h0, rfl⟩ ?_).1
    rintro idx ⟨t, dup⟩ hidx ⟨hp, hq⟩
    dsimp only at hp hq ⊢
    split
    · exact ⟨hp, hq⟩
    · rename_i hskip
      have hrange : ∀ i ∈ List.range' (idx + 1) (t.queuedItems - (idx + 1)),
          idx < i ∧ i < t.queuedItems := by
        intro i hi
        have := List.mem_range'_1.mp hi
        omega
      obtain ⟨h1, h2⟩ := dedupInner_induct hdis (by omega) hrange (by simpa using hskip) hp
      exact ⟨h1, h2.trans hq⟩
  unfold dedupQueue
  dsimp only
  split
  · exact hdepth _ hloop
  · exact hloop

end Dedup

end AflPlusPlus
