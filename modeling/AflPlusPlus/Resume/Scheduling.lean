import AflPlusPlus.Queue.Ownership
import AflPlusPlus.Resume.File

/-!
# Scheduling after a fast resume

The loader restores `tc_ref` from the file but leaves `top_rated` empty: it calls
`update_bitmap_score` without a trace, which does nothing. The reference counts are therefore right
in the new session exactly when no slot was owned in the old one, and in that case the next scoring
and culling favor the same entries.
-/

namespace AflPlusPlus
open Lib

variable {target : Target} {s t u : AflState}

/-! ### States in which no slot is owned -/

/-- A mini trace is kept only with a reference, and a score change is noted only with an owner. -/
structure OwnerInv (s : AflState) : Prop where
  mini : ∀ q, q < s.queuedItems → ∀ m, (s.queueBuf q).traceMini = some m → (s.queueBuf q).tcRef ≠ 0
  changed : s.scoreChanged = true → ∃ i q, s.topRated i = some q

theorem AflState.Fresh.ownerInv (h : s.Fresh) : OwnerInv s := by
  refine ⟨fun q hq => ?_, fun hc => ?_⟩
  · rw [h.queuedItems] at hq
    exact absurd hq (Nat.not_lt_zero q)
  · rw [h.scoreChanged] at hc
    cases hc

/-- Giving up a slot drops the mini trace with the last reference. -/
theorem released_tcRef {i r : ℕ} {m : Bytes} (h : ∀ m, (s.queueBuf r).traceMini = some m →
    (s.queueBuf r).tcRef ≠ 0) (hm : ((s.released i).queueBuf r).traceMini = some m) :
    ((s.released i).queueBuf r).tcRef ≠ 0 := by
  unfold AflState.released at hm ⊢
  cases hown : s.topRated i with
  | none =>
    rw [hown] at hm
    exact h m hm
  | some p =>
    rw [hown] at hm
    by_cases hr : r = p
    · subst hr
      simp only [releaseSlot, AflState.modify_queueBuf_self] at hm ⊢
      intro hzero
      rw [if_pos hzero] at hm
      cases hm
    · simp only [releaseSlot, AflState.modify_queueBuf_ne _ _ hr] at hm ⊢
      exact h m hm

theorem OwnerInv.transferSlot (h : OwnerInv s) (hcount : CountInv s) (hqueue : QueueInv s) {q i : ℕ}
    (hi : i < s.mapSize.val) (hq : q < s.queuedItems) : OwnerInv (transferSlot s q i) := by
  have hown : (AflPlusPlus.transferSlot s q i).topRated i = some q := by
    rw [transferSlot_topRated, Function.update_self]
  refine ⟨fun r hr m hm => ?_, fun _ => ⟨i, q, hown⟩⟩
  by_cases hrq : r = q
  · subst hrq
    exact (hcount.transferSlot hqueue hi).owner_tcRef (hqueue.transferSlot hi hq) hown
  · rw [(transferSlot_frame s q i).queuedItems] at hr
    rw [transferSlot_eq] at hm ⊢
    simp only [winSlot, AflState.modify_queueBuf_ne _ _ hrq] at hm ⊢
    exact released_tcRef (h.mini r hr) hm

theorem OwnerInv.quiet (h : OwnerInv s) (hquiet : Quiet s t) : OwnerInv t := by
  refine ⟨fun q hq m hm => ?_, fun hc => ?_⟩
  · rw [hquiet.tcRef]
    exact h.mini q (hquiet.queuedItems ▸ hq) m (hquiet.mini q m hm)
  · rw [hquiet.topRated]
    exact h.changed (hquiet.scoreChanged hc)

theorem OwnerInv.addToQueue (h : OwnerInv s) (len : U32) (passedDet : Bool) :
    OwnerInv (addToQueue s len passedDet) := by
  refine ⟨fun q hq m hm => ?_, h.changed⟩
  change (Function.update s.queueBuf s.queuedItems _ q).traceMini = some m at hm
  change (Function.update s.queueBuf s.queuedItems _ q).tcRef ≠ 0
  by_cases hqn : q = s.queuedItems
  · subst hqn
    rw [Function.update_self] at hm
    cases hm
  · rw [Function.update_of_ne hqn] at hm ⊢
    have hlt : q < s.queuedItems + 1 := hq
    exact h.mini q (by omega) m hm

theorem AflState.Fresh.reaches_ownerInv {ok : AflState → Op → Prop} (h0 : s.Fresh)
    (hrun : Reaches (queueStep target) ok s t) : QueueInv t ∧ CountInv t ∧ OwnerInv t := by
  refine hrun.invariant (P := fun v => QueueInv v ∧ CountInv v ∧ OwnerInv v)
    ⟨h0.queueInv, h0.countInv, h0.ownerInv⟩ ?_
  rintro v op w ⟨hqueue, hcount, hown⟩ _ hstep
  refine ⟨hqueue.step hstep, queueStep_induct (P := fun v => CountInv v ∧ OwnerInv v)
    (fun a b h hquiet => ⟨h.1.quiet hquiet, h.2.quiet hquiet⟩)
    (fun a len passedDet hq h => ⟨h.1.addToQueue hq len passedDet, h.2.addToQueue len passedDet⟩)
    (fun a q i hq h hi hlt => ⟨h.1.transferSlot hq hi, h.2.transferSlot h.1 hq hi hlt⟩)
    hqueue ⟨hcount, hown⟩ hstep⟩

/-- No slot owned, no mini trace, no score change pending. -/
structure Unowned (s : AflState) : Prop where
  topRated : ∀ i, s.topRated i = none
  traceMini : ∀ q, q < s.queuedItems → (s.queueBuf q).traceMini = none
  scoreChanged : s.scoreChanged = false

theorem OwnerInv.unowned (h : OwnerInv s) (hcount : CountInv s) (hnone : ∀ i, s.topRated i = none) :
    Unowned s ∧ ∀ q, q < s.queuedItems → (s.queueBuf q).tcRef = 0 := by
  have href : ∀ q, q < s.queuedItems → (s.queueBuf q).tcRef = 0 := by
    intro q hq
    have hzero : s.slotsOwned q = 0 := tally_eq_zero.mpr fun i _ => by rw [hnone i]; nofun
    rw [hcount.tcRef q hq, hzero]
    rfl
  refine ⟨⟨hnone, fun q hq => ?_, ?_⟩, href⟩
  · cases hm : (s.queueBuf q).traceMini with
    | none => rfl
    | some m => exact absurd (href q hq) (h.mini q hq m hm)
  · rw [Bool.eq_false_iff]
    intro hc
    obtain ⟨i, q, hq⟩ := h.changed hc
    rw [hnone i] at hq
    cases hq

/-! ### The next scoring and culling -/

/-- Some index below `n` is hit. -/
def HitBelow (n : ℕ) (trace : Bytes) : Prop := ∃ j, j < n ∧ trace j ≠ 0#8

/-- The scoring loop over the first `n` indices when nobody owned a slot before. -/
structure FirstScore (s : AflState) (q n : ℕ) (u : AflState) : Prop where
  frame : ScoreFrame s u
  topRated : ∀ j, u.topRated j = if j < n ∧ s.traceBits j ≠ 0#8 then some q else none
  mini : HitBelow n s.traceBits → (u.queueBuf q).traceMini = some s.miniTrace
  noMini : ¬ HitBelow n s.traceBits → (u.queueBuf q).traceMini = none
  changed : u.scoreChanged = true ↔ HitBelow n s.traceBits

theorem hitBelow_succ_of_zero {n : ℕ} {trace : Bytes} (h : trace n = 0#8) :
    HitBelow (n + 1) trace ↔ HitBelow n trace := by
  constructor
  · rintro ⟨j, hj, hne⟩
    rcases Nat.lt_succ_iff_lt_or_eq.mp hj with hlt | rfl
    · exact ⟨j, hlt, hne⟩
    · exact absurd h hne
  · rintro ⟨j, hj, hne⟩
    exact ⟨j, Nat.lt_succ_of_lt hj, hne⟩

theorem Unowned.firstScore_zero (h : Unowned s) {q : ℕ} (hq : q < s.queuedItems) :
    FirstScore s q 0 s := by
  have hnone : ¬ HitBelow 0 s.traceBits := by
    rintro ⟨j, hj, _⟩
    exact absurd hj (Nat.not_lt_zero j)
  refine ⟨.refl s, fun j => ?_, fun hhit => absurd hhit hnone, fun _ => h.traceMini q hq, ?_⟩
  · rw [h.topRated j, if_neg (fun hj => Nat.not_lt_zero j hj.1)]
  · rw [h.scoreChanged]
    exact iff_of_false Bool.false_ne_true hnone

/-- The entry takes the slot of an index it hits. -/
theorem FirstScore.winSlot {q n : ℕ} (h : FirstScore s q n u) (htr : s.traceBits n ≠ 0#8) :
    FirstScore s q (n + 1) (winSlot u q n) := by
  have hhit : HitBelow (n + 1) s.traceBits := ⟨n, Nat.lt_succ_self n, htr⟩
  refine ⟨h.frame.trans (winSlot_frame u q n), fun j => ?_, fun _ => ?_,
    fun hno => absurd hhit hno, iff_of_true rfl hhit⟩
  · simp only [AflPlusPlus.winSlot]
    by_cases hj : j = n
    · subst hj
      rw [Function.update_self, if_pos ⟨Nat.lt_succ_self j, htr⟩]
    · have hlt : j < n + 1 ↔ j < n := by omega
      rw [Function.update_of_ne hj, h.topRated j]
      simp only [hlt]
  · -- the mini trace is made at the first slot that is won, and kept from then on
    simp only [AflPlusPlus.winSlot, AflState.modify_queueBuf_self, h.frame.miniTrace]
    by_cases hbefore : HitBelow n s.traceBits
    · rw [h.mini hbefore, Option.getD_some]
    · rw [h.noMini hbefore, Option.getD_none]

/-- An index that is not hit leaves everything as it was. -/
theorem FirstScore.miss {q n : ℕ} (h : FirstScore s q n u) (htr : s.traceBits n = 0#8) :
    FirstScore s q (n + 1) u := by
  have hsame := hitBelow_succ_of_zero htr
  refine ⟨h.frame, fun j => ?_, ?_, ?_, ?_⟩
  · rw [h.topRated j]
    by_cases hj : j = n
    · subst hj
      rw [if_neg (fun hlt => hlt.2 htr), if_neg (fun hlt => hlt.2 htr)]
    · have hlt : j < n + 1 ↔ j < n := by omega
      simp only [hlt]
  · rw [hsame]
    exact h.mini
  · rw [hsame]
    exact h.noMini
  · rw [hsame]
    exact h.changed

theorem Unowned.firstScore (h : Unowned s) {q : ℕ} (hq : q < s.queuedItems)
    (hen : (s.queueBuf q).disabled = false) :
    FirstScore s q s.mapSize.val (updateBitmapScore s q true) := by
  rw [updateBitmapScore, if_neg (by rw [hen]; exact Bool.false_ne_true)]
  refine forLoop_induct (FirstScore s q) (h.firstScore_zero hq) fun n v _ hv => ?_
  rw [hv.frame.traceBits]
  split
  · rename_i htr
    -- index `n` is looked at for the first time, so it has no owner yet
    have hfree : v.topRated n = none := by
      rw [hv.topRated n, if_neg (fun hlt => lt_irrefl n hlt.1)]
    have hwin : contendSlot v q (s.fuzzP2 q) (s.favFactor q) n = winSlot v q n := by
      rw [contendSlot, hfree]
      dsimp only
      rw [transferSlot, hfree]
    rw [hwin]
    exact hv.winSlot htr
  · rename_i htr
    exact hv.miss (not_not.mp htr)

/-- The candidate sets when one entry owns all the slots it hits and nobody owns another. -/
def firstCandidate (mapSize : ℕ) (trace : Bytes) (i : ℕ) : Option (Set ℕ) :=
  if i < mapSize ∧ trace i ≠ 0#8 then
    some { j | bitAt (minimizeBits mapSize (fun _ => 0) trace) j = true }
  else none

theorem FirstScore.candidate {q : ℕ} (h : FirstScore s q s.mapSize.val u) :
    u.candidate = firstCandidate s.mapSize.val s.traceBits := by
  funext i
  simp only [AflState.candidate, firstCandidate, h.topRated i]
  by_cases hi : i < s.mapSize.val ∧ s.traceBits i ≠ 0#8
  · rw [if_pos hi, if_pos hi, Option.bind_some, h.mini ⟨i, hi⟩]
    rfl
  · rw [if_neg hi, if_neg hi]
    rfl

/-- The entry that is scored hits something: culling favors what the greedy cover picks. -/
theorem Unowned.favored_of_hit (h : Unowned s) {q r : ℕ} (hq : q < s.queuedItems)
    (hr : r < s.queuedItems) (hinst : s.nonInstrumentedMode = false)
    (hen : (s.queueBuf q).disabled = false) (hhit : HitBelow s.mapSize.val s.traceBits) :
    ((cullQueue (updateBitmapScore s q true)).queueBuf r).favored = true ↔
      (s.queueBuf r).disabled = false ∧ r = q ∧
        ∃ k, k < s.mapSize.val ∧ s.traceBits k ≠ 0#8 ∧
          Picked (firstCandidate s.mapSize.val s.traceBits) k := by
  have hfirst := h.firstScore hq hen
  have hf := hfirst.frame
  have hact : (updateBitmapScore s q true).cullActive = true := by
    rw [AflState.cullActive, hfirst.changed.mpr hhit, hf.rest, hinst]
    rfl
  have hdis : ((updateBitmapScore s q true).queueBuf r).disabled = (s.queueBuf r).disabled := by
    rw [hf.entry r]
  have hr' : r < (updateBitmapScore s q true).queuedItems := hf.queuedItems.symm ▸ hr
  rw [cullQueue_entry hact hr', QueueEntry.marked_frame, cullSelect_favored _ hr', hdis,
    hf.mapSize, hfirst.candidate]
  refine and_congr_right fun _ => ⟨?_, ?_⟩
  · rintro ⟨k, hk, hpick, hown⟩
    rw [hfirst.topRated k] at hown
    split at hown
    · rename_i hkt
      exact ⟨(Option.some.inj hown).symm, k, hk, hkt.2, hpick⟩
    · cases hown
  · rintro ⟨rfl, k, hk, htr, hpick⟩
    exact ⟨k, hk, hpick, by rw [hfirst.topRated k, if_pos ⟨hk, htr⟩]⟩

/-- Otherwise the score does not change and culling does nothing. -/
theorem Unowned.favored_of_not_hit (h : Unowned s) {q : ℕ} (hq : q < s.queuedItems) (r : ℕ)
    (hno : ¬ (s.nonInstrumentedMode = false ∧ (s.queueBuf q).disabled = false ∧
      HitBelow s.mapSize.val s.traceBits)) :
    ((cullQueue (updateBitmapScore s q true)).queueBuf r).favored = (s.queueBuf r).favored := by
  have hf := updateBitmapScore_frame s q true
  have hact : (updateBitmapScore s q true).cullActive = false := by
    rw [AflState.cullActive, Bool.and_eq_false_iff]
    cases hinst : s.nonInstrumentedMode with
    | true =>
      right
      rw [hf.rest, hinst]
      rfl
    | false =>
      left
      cases hen : (s.queueBuf q).disabled with
      | true =>
        rw [updateBitmapScore, if_pos hen]
        exact h.scoreChanged
      | false =>
        rw [Bool.eq_false_iff, ne_eq, (h.firstScore hq hen).changed]
        exact fun hhit => hno ⟨hinst, hen, hhit⟩
  rw [cullQueue_of_inactive hact, hf.entry r]

/-- Two such states with the same flags favor the same entries. -/
theorem Unowned.favored_congr (hs : Unowned s) (ht : Unowned t) (hsize : t.mapSize = s.mapSize)
    (hitems : t.queuedItems = s.queuedItems) (htrace : t.traceBits = s.traceBits)
    (hinst : t.nonInstrumentedMode = s.nonInstrumentedMode)
    (hdis : ∀ r, r < s.queuedItems → (t.queueBuf r).disabled = (s.queueBuf r).disabled)
    (hfav : ∀ r, r < s.queuedItems → (t.queueBuf r).favored = (s.queueBuf r).favored)
    {q r : ℕ} (hq : q < s.queuedItems) (hr : r < s.queuedItems) :
    ((cullQueue (updateBitmapScore t q true)).queueBuf r).favored =
      ((cullQueue (updateBitmapScore s q true)).queueBuf r).favored := by
  have hq' := hitems.symm ▸ hq
  have hr' := hitems.symm ▸ hr
  by_cases hgo : s.nonInstrumentedMode = false ∧ (s.queueBuf q).disabled = false ∧
      HitBelow s.mapSize.val s.traceBits
  · obtain ⟨hi, hen, hhit⟩ := hgo
    have hleft := ht.favored_of_hit hq' hr' (hinst.trans hi) ((hdis q hq).trans hen)
      (by rw [hsize, htrace]; exact hhit)
    rw [hdis r hr, hsize, htrace, ← hs.favored_of_hit hq hr hi hen hhit] at hleft
    exact Bool.eq_iff_iff.mpr hleft
  · rw [hs.favored_of_not_hit hq r hgo, ht.favored_of_not_hit hq' r, hfav r hr]
    rwa [hinst, hdis q hq, hsize, htrace]

/-! ### The resumed session -/

/-- The session `t` schedules as `s` would have gone on to: same maps and metadata, reference counts
that are the numbers of owned slots, and the same favored entries after the next scoring and
culling. -/
structure PreservesScheduling (s t : AflState) : Prop where
  maps : SameMaps s t
  data : ∀ q, q < s.queuedItems → (t.queueBuf q).toQueueMeta = (s.queueBuf q).toQueueMeta
  tcRef : ∀ q, q < s.queuedItems → (t.queueBuf q).tcRef.toNat = t.slotsOwned q
  favored : ∀ q, q < s.queuedItems → ∀ trace execUs len execCksum, ∀ r, r < s.queuedItems →
    ((cullQueue (updateBitmapScore (t.measured q trace execUs len execCksum) q true)).queueBuf
        r).favored =
      ((cullQueue (updateBitmapScore (s.measured q trace execUs len execCksum) q true)).queueBuf
        r).favored

theorem Loaded.topRated (h : Loaded s u t) (hu : Restarted s u) (i : ℕ) : t.topRated i = none := by
  rw [h.frame.rest]
  exact hu.topRated i

/-- The reference counts are read from the file while no slot is owned. -/
theorem Loaded.not_preserves (h : Loaded s u t) (hu : Restarted s u) (hcount : CountInv s)
    (hqueue : QueueInv s) {i q : ℕ} (hq : s.topRated i = some q) : ¬ PreservesScheduling s t := by
  intro hp
  obtain ⟨_, hlt⟩ := hqueue.slot i q hq
  have hzero : t.slotsOwned q = 0 := tally_eq_zero.mpr fun j _ => by rw [h.topRated hu j]; nofun
  have href : (t.queueBuf q).tcRef = (s.queueBuf q).tcRef :=
    congrArg QueueMeta.tcRef (hp.data q hlt)
  have hnat := hp.tcRef q hlt
  rw [hzero, href] at hnat
  exact hcount.owner_tcRef hqueue hq (BitVec.eq_of_toNat_eq hnat)

theorem Unowned.measured (h : Unowned s) (q : ℕ) (trace : Bytes) (execUs : U64) (len : U32)
    (execCksum : U64) : Unowned (s.measured q trace execUs len execCksum) := by
  refine ⟨h.topRated, fun r hr => ?_, h.scoreChanged⟩
  rw [s.measured_frame q r (·.traceMini) fun _ _ _ _ => rfl]
  exact h.traceMini r hr

theorem Loaded.preserves (h : Loaded s u t) (hu : Restarted s u) (hs : Unowned s)
    (href : ∀ q, q < s.queuedItems → (s.queueBuf q).tcRef = 0) : PreservesScheduling s t := by
  have hsize : t.mapSize = s.mapSize := by rw [h.frame.rest]; exact hu.mapSize
  have hitems : t.queuedItems = s.queuedItems := by rw [h.frame.rest]; exact hu.queuedItems
  have hinst : t.nonInstrumentedMode = s.nonInstrumentedMode := by
    rw [h.frame.rest]
    exact hu.nonInstrumentedMode
  have hdata : ∀ q, q < s.queuedItems → (t.queueBuf q).toQueueMeta = (s.queueBuf q).toQueueMeta :=
    fun q hq => by rw [h.entry q hq]; rfl
  have ht : Unowned t := by
    refine ⟨h.topRated hu, fun q hq => ?_, ?_⟩
    · rw [hitems] at hq
      rw [h.entry q hq]
      simp only [QueueEntry.resumed, hs.traceMini q hq, hu.traceMini q]
      rfl
    · rw [h.frame.rest]
      exact hu.scoreChanged
  refine ⟨h.maps, hdata, fun q hq => ?_, fun q hq trace execUs len execCksum r hr => ?_⟩
  · have hzero : t.slotsOwned q = 0 := tally_eq_zero.mpr fun j _ => by rw [ht.topRated j]; nofun
    have hq0 : (t.queueBuf q).tcRef = 0 := (congrArg QueueMeta.tcRef (hdata q hq)).trans (href q hq)
    rw [hzero, hq0]
    rfl
  · refine (hs.measured q trace execUs len execCksum).favored_congr
      (ht.measured q trace execUs len execCksum) hsize hitems rfl hinst (fun p hp => ?_)
      (fun p hp => ?_) hq hr
    · rw [t.measured_frame q p (·.disabled) fun _ _ _ _ => rfl,
        s.measured_frame q p (·.disabled) fun _ _ _ _ => rfl]
      exact congrArg QueueMeta.disabled (hdata p hp)
    · rw [t.measured_frame q p (·.favored) fun _ _ _ _ => rfl,
        s.measured_frame q p (·.favored) fun _ _ _ _ => rfl]
      exact congrArg QueueMeta.favored (hdata p hp)

/-- The next session over the queue of `s`, with the same settings. -/
def AflState.restart (s : AflState) : AflState :=
  { AflState.init s.mapSize with
    schedule := s.schedule
    fixedSeed := s.fixedSeed
    nonInstrumentedMode := s.nonInstrumentedMode
    crashMode := s.crashMode
    cmplogMode := s.cmplogMode
    inPlaceResume := true
    aflDisableRedundant := s.aflDisableRedundant
    queuedItems := s.queuedItems
    queueBuf := fun q =>
      { len := (s.queueBuf q).len, id := (s.queueBuf q).id, weight := 1, perfScore := 100 }
    activeItems := BitVec.ofNat 32 s.queuedItems
    pendingNotFuzzed := BitVec.ofNat 32 s.queuedItems }

theorem AflState.restart_restarted (s : AflState) : Restarted s s.restart :=
  ⟨rfl, rfl, rfl, rfl, rfl, fun _ => rfl, rfl, fun _ => rfl, fun _ _ => ⟨rfl, rfl⟩⟩

/-- One entry that hits index 0, scored once. -/
theorem exec_score_one_entry :
    ∃ s, exec (queueStep fun _ _ => hits [0]) (fun _ _ => True) (AflState.init .block)
        [.addToQueue 1 false, .score 0 0 1 1 1] = some s ∧ s.topRated 0 = some 0 := by
  have hview : (exec (queueStep fun _ _ => hits [0]) (fun _ _ => True) (AflState.init .block)
      [.addToQueue 1 false, .score 0 0 1 1 1]).map (fun s => s.topRated 0) = some (some 0) := by
    decide +kernel
  exact Option.map_eq_some_iff.mp hview

end AflPlusPlus
