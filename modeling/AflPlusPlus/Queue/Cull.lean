import AflPlusPlus.Queue.Score
import AflPlusPlus.Lib.GreedyCover
import Mathlib.Tactic.IntervalCases

/-!
# Culling: the favored entries

`cull_queue` goes through the slots in order and takes the owner of every slot that no mini trace
taken before contains. The selection loop is shown to compute the greedy cover of
`AflPlusPlus.Lib.GreedyCover` over the mini traces of the slot owners; marking the rest as redundant
drops their mini traces, also where they still own slots.
-/

namespace AflPlusPlus
open Lib

def markAsRedundant (s : AflState) (q : ℕ) (state : Bool) : AflState :=
  if state = (s.queueBuf q).fsRedundant then s
  else s.modify q fun e =>
    { e with
      fsRedundant := state
      traceMini := if state then none else e.traceMini
      disabled := if state && s.aflDisableRedundant then true else e.disabled }

/-- `temp_v[j] &= ~trace_mini[j]` for the first `len` bytes, from the last one down. -/
def removeBits (len : ℕ) (mini tempV : Bytes) : Bytes :=
  downLoop len (fun j v =>
    if mini j ≠ 0#8 then Function.update v j (v j &&& ~~~ mini j) else v) tempV

/-- Mark `q` as favored unless it is already or is disabled. -/
def favorEntry (s : AflState) (q : ℕ) : AflState :=
  let e := s.queueBuf q
  if !e.favored && !e.disabled then
    { s.modify q fun e => { e with favored := true } with
      queuedFavored := s.queuedFavored + 1
      pendingFavored := if !e.wasFuzzed then s.pendingFavored + 1 else s.pendingFavored
      smallestFavored :=
        if !e.wasFuzzed && (s.smallestFavored < 0 || s.smallestFavored > e.id) then e.id
        else s.smallestFavored }
  else s

/-- One iteration of the selection loop. `map_tmp_buf` is the source's `temp_v`. -/
def selectSlot (mapSize i : ℕ) (s : AflState) : AflState :=
  match s.topRated i with
  | none => s
  | some q =>
    if s.mapTmpBuf (i >>> 3) &&& (1#8 <<< (i &&& 7)) = 0#8 then s
    else
      match (s.queueBuf q).traceMini with
      | none => s
      | some mini =>
        favorEntry
          { s with mapTmpBuf := removeBits (mapSize >>> 3) mini s.mapTmpBuf } q

/-- The part of `cull_queue` before the selection loop. -/
def cullReset (mapSize : ℕ) (s : AflState) : AflState :=
  let len := mapSize >>> 3
  { forLoop s.queuedItems (fun i s => s.modify i fun e => { e with favored := false }) s with
    scoreChanged := false
    mapTmpBuf := fun j => if j < len then 255#8 else s.mapTmpBuf j
    queuedFavored := 0
    pendingFavored := 0
    smallestFavored := -1 }

/-- `cull_queue` up to and including the selection loop. -/
def selectFavored (mapSize : ℕ) (s : AflState) : AflState :=
  forLoop mapSize (selectSlot mapSize) (cullReset mapSize s)

def cullSelect (s : AflState) : AflState := selectFavored s.mapSize.val s

/-- One iteration of the loop that marks entries as redundant. -/
def markEntry (i : ℕ) (s : AflState) : AflState :=
  if !(s.queueBuf i).disabled then markAsRedundant s i (!(s.queueBuf i).favored) else s

/-- `cull_queue` with `map_size` as a number of its own. -/
def cullMap (mapSize : ℕ) (s : AflState) : AflState :=
  if !s.scoreChanged || s.nonInstrumentedMode then s
  else { forLoop s.queuedItems markEntry (selectFavored mapSize s) with reinitTable := true }

def cullQueue (s : AflState) : AflState := cullMap s.mapSize.val s

/-! ### What the selection loop changes -/

/-- `s'` differs from `s` only in what the selection writes. -/
structure SelectFrame (s s' : AflState) : Prop where
  rest : s' = { s with
    queueBuf := s'.queueBuf
    mapTmpBuf := s'.mapTmpBuf
    scoreChanged := s'.scoreChanged
    queuedFavored := s'.queuedFavored
    pendingFavored := s'.pendingFavored
    smallestFavored := s'.smallestFavored }
  entry : ∀ r, s'.queueBuf r = { s.queueBuf r with favored := (s'.queueBuf r).favored }

theorem SelectFrame.refl (s : AflState) : SelectFrame s s := ⟨rfl, fun _ => rfl⟩

theorem SelectFrame.trans {s t u : AflState} (h : SelectFrame s t) (h' : SelectFrame t u) :
    SelectFrame s u := by
  refine ⟨?_, fun r => ?_⟩
  · rw [h'.rest, h.rest]
  · rw [h'.entry r, h.entry r]

theorem favorEntry_frame (s : AflState) (q : ℕ) : SelectFrame s (favorEntry s q) := by
  unfold favorEntry
  dsimp only
  split
  · refine ⟨rfl, fun r => ?_⟩
    by_cases hr : r = q
    · subst hr
      simp
    · simp [AflState.modify_queueBuf_ne _ _ hr]
  · exact .refl s

theorem selectSlot_frame (mapSize i : ℕ) (s : AflState) :
    SelectFrame s (selectSlot mapSize i s) := by
  unfold selectSlot
  split
  · exact .refl s
  · split
    · exact .refl s
    · split
      · exact .refl s
      · rename_i mini _
        have h : SelectFrame s
            { s with mapTmpBuf := removeBits (mapSize >>> 3) mini s.mapTmpBuf } :=
          ⟨rfl, fun _ => rfl⟩
        exact h.trans (favorEntry_frame _ _)

theorem resetFavored_spec (n : ℕ) (s : AflState) :
    let t := forLoop n (fun i s => s.modify i fun e => { e with favored := false }) s
    t = { s with queueBuf := t.queueBuf } ∧ ∀ r, t.queueBuf r =
      { s.queueBuf r with favored := if r < n then false else (s.queueBuf r).favored } := by
  refine forLoop_induct (fun n (t : AflState) =>
    t = { s with queueBuf := t.queueBuf } ∧ ∀ r, t.queueBuf r =
      { s.queueBuf r with favored := if r < n then false else (s.queueBuf r).favored }) ?_ ?_
  · exact ⟨rfl, fun r => by simp⟩
  · rintro i t - ⟨hrest, hentry⟩
    refine ⟨by rw [hrest]; rfl, fun r => ?_⟩
    by_cases hr : r = i
    · subst hr
      simp [hentry]
    · rw [AflState.modify_queueBuf_ne _ _ hr, hentry]
      have hlt : r < i + 1 ↔ r < i := by omega
      simp only [hlt]

theorem cullReset_frame (mapSize : ℕ) (s : AflState) : SelectFrame s (cullReset mapSize s) := by
  obtain ⟨hrest, hentry⟩ := resetFavored_spec s.queuedItems s
  refine ⟨?_, fun r => ?_⟩
  · simp only [cullReset]
    rw [hrest]
  · simp only [cullReset]
    rw [hentry]

theorem selectFavored_frame (mapSize : ℕ) (s : AflState) :
    SelectFrame s (selectFavored mapSize s) :=
  forLoop_invariant (SelectFrame s) (cullReset_frame mapSize s) fun i t _ h =>
    h.trans (selectSlot_frame mapSize i t)

theorem cullSelect_frame (s : AflState) : SelectFrame s (cullSelect s) :=
  selectFavored_frame s.mapSize.val s

/-! ### The selection loop computes the greedy cover -/

/-- The set of map indices a slot's owner would remove: the bits of its mini trace. -/
def AflState.candidate (s : AflState) (i : ℕ) : Option (Set ℕ) :=
  (s.topRated i).bind fun q => (s.queueBuf q).traceMini.map fun m => { j | bitAt m j = true }

theorem removeBits_apply (len : ℕ) (mini tempV : Bytes) (j : ℕ) :
    removeBits len mini tempV j = if j < len then tempV j &&& ~~~ mini j else tempV j := by
  have h : ∀ j, removeBits len mini tempV j =
      if 0 ≤ j ∧ j < len then tempV j &&& ~~~ mini j else tempV j := by
    refine downLoop_induct (fun n (v : Bytes) => ∀ j, v j =
      if n ≤ j ∧ j < len then tempV j &&& ~~~ mini j else tempV j) ?_ ?_
    · intro j
      rw [if_neg (by omega)]
    · intro i v hi ih j
      by_cases hj : j = i
      · subst hj
        have hold : v j = tempV j := by rw [ih, if_neg (by omega)]
        have hnew : j ≤ j ∧ j < len := ⟨Nat.le_refl j, hi⟩
        rw [if_pos hnew]
        by_cases hm : mini j = 0#8
        · rw [if_neg (not_not.mpr hm), hold, hm, BitVec.not_zero, BitVec.and_allOnes]
        · rw [if_pos hm, Function.update_self, hold]
      · have hiff : i ≤ j ∧ j < len ↔ i + 1 ≤ j ∧ j < len := by omega
        simp only [hiff]
        split
        · rw [Function.update_of_ne hj, ih]
        · exact ih j
  rw [h j]
  simp

/-- On the bits below `8 * len`, `removeBits` is set difference. -/
theorem bitAt_removeBits {len i : ℕ} (mini tempV : Bytes) (hi : i < 8 * len) :
    bitAt (removeBits len mini tempV) i = (bitAt tempV i && !bitAt mini i) := by
  have hbyte : i >>> 3 < len := by rw [Nat.shiftRight_eq_div_pow]; omega
  have hbit : i &&& 7 < 8 := by rw [Nat.and_two_pow_sub_one_eq_mod i 3]; omega
  simp only [bitAt, removeBits_apply, if_pos hbyte]
  rw [BitVec.getLsbD_and, BitVec.getLsbD_not]
  simp [hbit]

/-- The test `temp_v[i >> 3] & (1 << (i & 7))`. -/
theorem tempV_test (v : Bytes) (i : ℕ) :
    v (i >>> 3) &&& (1#8 <<< (i &&& 7)) = 0#8 ↔ bitAt v i = false := by
  have hbit : i &&& 7 < 8 := by rw [Nat.and_two_pow_sub_one_eq_mod i 3]; omega
  exact and_one_shiftLeft_eq_zero _ hbit

/-- The state of the selection loop before slot `n`: `temp_v` holds what the picks below `n` leave
uncovered, and the favored entries are the enabled owners of these picks. -/
structure SelectInv (mapSize : ℕ) (s : AflState) (n : ℕ) (t : AflState) : Prop where
  frame : SelectFrame s t
  uncovered : ∀ j, j < mapSize → (bitAt t.mapTmpBuf j = true ↔ Uncovered s.candidate n j)
  favored : ∀ r, r < s.queuedItems → ((t.queueBuf r).favored = true ↔
    (s.queueBuf r).disabled = false ∧ ∃ k, k < n ∧ Picked s.candidate k ∧ s.topRated k = some r)

theorem cullReset_selectInv {mapSize : ℕ} (h8 : 8 ∣ mapSize) (s : AflState) :
    SelectInv mapSize s 0 (cullReset mapSize s) := by
  refine ⟨cullReset_frame mapSize s, fun j hj => ?_, fun r hr => ?_⟩
  · refine iff_of_true ?_ (uncovered_zero j)
    have hbit : j &&& 7 < 8 := by rw [Nat.and_two_pow_sub_one_eq_mod j 3]; omega
    have hbyte : j >>> 3 < mapSize >>> 3 := by
      rw [Nat.shiftRight_eq_div_pow, Nat.shiftRight_eq_div_pow]
      omega
    simp only [cullReset, bitAt, if_pos hbyte]
    generalize j &&& 7 = b at hbit
    interval_cases b <;> rfl
  · refine iff_of_false ?_ ?_
    · obtain ⟨_, hentry⟩ := resetFavored_spec s.queuedItems s
      simp [cullReset, hentry, hr]
    · rintro ⟨_, k, hk, _⟩
      exact absurd hk (Nat.not_lt_zero k)

theorem favorEntry_favored (s : AflState) (q r : ℕ) :
    ((favorEntry s q).queueBuf r).favored = true ↔
      (s.queueBuf r).favored = true ∨ r = q ∧ (s.queueBuf r).disabled = false := by
  unfold favorEntry
  dsimp only
  by_cases hr : r = q
  · subst hr
    cases hf : (s.queueBuf r).favored <;> cases hd : (s.queueBuf r).disabled <;> simp [hf]
  · split
    · simp [AflState.modify_queueBuf_ne _ _ hr, hr]
    · simp [hr]

section SelectSlot

variable {mapSize : ℕ} {s t : AflState} {n : ℕ}

/-- A slot that is not picked leaves the invariant as it is. -/
theorem SelectInv.skip (h : SelectInv mapSize s n t) (hp : ¬ Picked s.candidate n) :
    SelectInv mapSize s (n + 1) t := by
  refine ⟨h.frame, fun j hj => ?_, fun r hr => ?_⟩
  · rw [h.uncovered j hj, uncovered_succ_of_not_picked hp]
  · rw [h.favored r hr]
    refine and_congr_right fun _ => ⟨?_, ?_⟩
    · rintro ⟨k, hk, hpk⟩
      exact ⟨k, Nat.lt_succ_of_lt hk, hpk⟩
    · rintro ⟨k, hk, hpk, hown⟩
      rcases Nat.lt_succ_iff_lt_or_eq.mp hk with hlt | rfl
      · exact ⟨k, hlt, hpk, hown⟩
      · exact absurd hpk hp

/-- The body of the loop for a picked slot: the bits of the owner's mini trace leave `temp_v`, and
the owner is favored. -/
theorem SelectInv.pick (h8 : 8 ∣ mapSize) (h : SelectInv mapSize s n t) {q : ℕ} {mini : Bytes}
    (howner : s.topRated n = some q)
    (hcand : s.candidate n = some { j | bitAt mini j = true }) (hpick : Picked s.candidate n)
    (hsel : AflPlusPlus.selectSlot mapSize n t = favorEntry
      { t with mapTmpBuf := removeBits (mapSize >>> 3) mini t.mapTmpBuf } q) :
    SelectInv mapSize s (n + 1) (selectSlot mapSize n t) := by
  refine ⟨h.frame.trans (selectSlot_frame mapSize n t), fun j hj => ?_, fun r hr => ?_⟩
  · have hbuf : (AflPlusPlus.selectSlot mapSize n t).mapTmpBuf =
        removeBits (mapSize >>> 3) mini t.mapTmpBuf := by
      rw [hsel]
      unfold favorEntry
      dsimp only
      split <;> rfl
    have hlen : j < 8 * (mapSize >>> 3) := by
      rw [Nat.shiftRight_eq_div_pow]
      omega
    rw [hbuf, bitAt_removeBits mini _ hlen, uncovered_succ_of_picked hpick hcand,
      Bool.and_eq_true, h.uncovered j hj]
    simp
  · have hdis : (t.queueBuf r).disabled = (s.queueBuf r).disabled := by rw [h.frame.entry r]
    rw [hsel, favorEntry_favored]
    dsimp only
    rw [h.favored r hr, hdis]
    constructor
    · rintro (⟨hd, k, hk, hpk⟩ | ⟨rfl, hd⟩)
      · exact ⟨hd, k, Nat.lt_succ_of_lt hk, hpk⟩
      · exact ⟨hd, n, Nat.lt_succ_self n, hpick, howner⟩
    · rintro ⟨hd, k, hk, hpk, hown⟩
      rcases Nat.lt_succ_iff_lt_or_eq.mp hk with hlt | rfl
      · exact Or.inl ⟨hd, k, hlt, hpk, hown⟩
      · have hrq : r = q := Option.some.inj (hown.symm.trans howner)
        exact Or.inr ⟨hrq, hd⟩

/-- Slot `n` is picked exactly when the loop body runs for it. -/
theorem SelectInv.selectSlot (h8 : 8 ∣ mapSize) (h : SelectInv mapSize s n t) (hn : n < mapSize) :
    SelectInv mapSize s (n + 1) (selectSlot mapSize n t) := by
  have htop : t.topRated = s.topRated := by rw [h.frame.rest]
  have hmini : ∀ r, (t.queueBuf r).traceMini = (s.queueBuf r).traceMini := fun r => by
    rw [h.frame.entry r]
  have hskip : ¬ Picked s.candidate n → AflPlusPlus.selectSlot mapSize n t = t →
      SelectInv mapSize s (n + 1) (AflPlusPlus.selectSlot mapSize n t) := by
    intro hp heq
    rw [heq]
    exact h.skip hp
  cases howner : s.topRated n with
  | none =>
    refine hskip ?_ ?_
    · rw [picked_iff_uncovered]
      simp [AflState.candidate, howner]
    · simp [AflPlusPlus.selectSlot, htop, howner]
  | some q =>
    by_cases hbit : bitAt t.mapTmpBuf n = true
    · cases hm : (s.queueBuf q).traceMini with
      | none =>
        -- the owner lost its mini trace to `mark_as_redundant`: the slot stays uncovered
        refine hskip ?_ ?_
        · rw [picked_iff_uncovered]
          simp [AflState.candidate, howner, hm]
        · simp [AflPlusPlus.selectSlot, htop, howner, hmini, hm]
      | some mini =>
        have hcand : s.candidate n = some { j | bitAt mini j = true } := by
          simp [AflState.candidate, howner, hm]
        have hpick : Picked s.candidate n :=
          (picked_iff_uncovered n).mpr ⟨by simp [hcand], (h.uncovered n hn).mp hbit⟩
        refine h.pick h8 howner hcand hpick ?_
        have htest := (tempV_test t.mapTmpBuf n).not.mpr (by simp [hbit])
        simp only [AflPlusPlus.selectSlot, htop, howner, if_neg htest, hmini, hm]
    · -- an earlier pick already covers `n`
      have htest := (tempV_test t.mapTmpBuf n).mpr (by simpa using hbit)
      refine hskip ?_ ?_
      · rw [picked_iff_uncovered, ← h.uncovered n hn]
        simp [hbit]
      · simp only [AflPlusPlus.selectSlot, htop, howner, if_pos htest]

end SelectSlot

/-- After the selection loop the favored entries are the enabled owners of the picked slots. -/
theorem selectFavored_favored {mapSize : ℕ} (h8 : 8 ∣ mapSize) (s : AflState) {r : ℕ}
    (hr : r < s.queuedItems) :
    ((selectFavored mapSize s).queueBuf r).favored = true ↔ (s.queueBuf r).disabled = false ∧
      ∃ k, k < mapSize ∧ Picked s.candidate k ∧ s.topRated k = some r := by
  have h : SelectInv mapSize s mapSize (selectFavored mapSize s) :=
    forLoop_induct (SelectInv mapSize s) (cullReset_selectInv h8 s)
      fun i t hi ht => ht.selectSlot h8 hi
  exact h.favored r hr

theorem MapSize.eight_dvd (m : MapSize) : 8 ∣ m.val := Dvd.dvd.trans (by decide) m.aligned

theorem cullSelect_favored (s : AflState) {r : ℕ} (hr : r < s.queuedItems) :
    ((cullSelect s).queueBuf r).favored = true ↔ (s.queueBuf r).disabled = false ∧
      ∃ k, k < s.mapSize.val ∧ Picked s.candidate k ∧ s.topRated k = some r :=
  selectFavored_favored s.mapSize.eight_dvd s hr

/-! ### The marking loop -/

/-- What the marking loop makes of an entry. -/
def QueueEntry.marked (disableRedundant : Bool) (e : QueueEntry) : QueueEntry :=
  if e.disabled = true ∨ (!e.favored) = e.fsRedundant then e
  else
    { e with
      fsRedundant := !e.favored
      traceMini := if !e.favored then none else e.traceMini
      disabled := if !e.favored && disableRedundant then true else e.disabled }

theorem markEntry_eq (i : ℕ) (s : AflState) :
    markEntry i s = s.modify i (QueueEntry.marked s.aflDisableRedundant) := by
  unfold markEntry
  by_cases hskip : (s.queueBuf i).disabled = true ∨
      (!(s.queueBuf i).favored) = (s.queueBuf i).fsRedundant
  · have hself : (s.queueBuf i).marked s.aflDisableRedundant = s.queueBuf i := if_pos hskip
    rw [s.modify_eq_self i hself]
    split
    · rename_i hd
      have hf : (!(s.queueBuf i).favored) = (s.queueBuf i).fsRedundant := by
        refine hskip.resolve_left fun h => ?_
        rw [h] at hd
        exact Bool.false_ne_true hd
      rw [markAsRedundant, if_pos hf]
    · rfl
  · obtain ⟨hd, hf⟩ := not_or.mp hskip
    rw [if_pos (by simpa using hd), markAsRedundant, if_neg hf]
    exact s.modify_congr i (if_neg hskip).symm

theorem markLoop_spec (n : ℕ) (s : AflState) :
    let t := forLoop n markEntry s
    t = { s with queueBuf := t.queueBuf } ∧ ∀ r, t.queueBuf r =
      if r < n then (s.queueBuf r).marked s.aflDisableRedundant else s.queueBuf r := by
  refine forLoop_induct (fun n (t : AflState) => t = { s with queueBuf := t.queueBuf } ∧
    ∀ r, t.queueBuf r =
      if r < n then (s.queueBuf r).marked s.aflDisableRedundant else s.queueBuf r) ?_ ?_
  · exact ⟨rfl, fun r => by simp⟩
  · rintro i t - ⟨hrest, hentry⟩
    have hdr : t.aflDisableRedundant = s.aflDisableRedundant := by rw [hrest]
    rw [markEntry_eq, hdr]
    refine ⟨by rw [hrest]; rfl, fun r => ?_⟩
    by_cases hr : r = i
    · subst hr
      simp [hentry]
    · rw [AflState.modify_queueBuf_ne _ _ hr, hentry]
      have hlt : r < i + 1 ↔ r < i := by omega
      simp only [hlt]

/-- Whether this call of `cull_queue` does anything. -/
def AflState.cullActive (s : AflState) : Bool := s.scoreChanged && !s.nonInstrumentedMode

theorem cullMap_of_inactive {s : AflState} (h : s.cullActive = false) (mapSize : ℕ) :
    cullMap mapSize s = s := by
  have hoff : (!s.scoreChanged || s.nonInstrumentedMode) = true := by
    cases hc : s.scoreChanged <;> cases hn : s.nonInstrumentedMode <;>
      simp_all [AflState.cullActive]
  rw [cullMap, if_pos hoff]

theorem cullMap_of_active {s : AflState} (h : s.cullActive = true) (mapSize : ℕ) :
    cullMap mapSize s =
      { forLoop s.queuedItems markEntry (selectFavored mapSize s) with reinitTable := true } := by
  have hon : ¬ (!s.scoreChanged || s.nonInstrumentedMode) = true := by
    simpa [AflState.cullActive] using h
  rw [cullMap, if_neg hon]

theorem cullQueue_of_inactive {s : AflState} (h : s.cullActive = false) : cullQueue s = s :=
  cullMap_of_inactive h s.mapSize.val

/-- The entries after a `cull_queue` that does something. -/
theorem cullMap_queueBuf {s : AflState} (h : s.cullActive = true) (mapSize r : ℕ) :
    (cullMap mapSize s).queueBuf r =
      if r < s.queuedItems then
        ((selectFavored mapSize s).queueBuf r).marked s.aflDisableRedundant
      else (selectFavored mapSize s).queueBuf r := by
  obtain ⟨_, hentry⟩ := markLoop_spec s.queuedItems (selectFavored mapSize s)
  have hdr : (selectFavored mapSize s).aflDisableRedundant = s.aflDisableRedundant := by
    rw [(selectFavored_frame mapSize s).rest]
  rw [cullMap_of_active h]
  dsimp only
  rw [hentry, hdr]

theorem cullQueue_queueBuf {s : AflState} (h : s.cullActive = true) (r : ℕ) :
    (cullQueue s).queueBuf r =
      if r < s.queuedItems then ((cullSelect s).queueBuf r).marked s.aflDisableRedundant
      else (cullSelect s).queueBuf r :=
  cullMap_queueBuf h s.mapSize.val r

theorem cullQueue_entry {s : AflState} (h : s.cullActive = true) {r : ℕ} (hr : r < s.queuedItems) :
    (cullQueue s).queueBuf r =
      ((cullSelect s).queueBuf r).marked s.aflDisableRedundant := by
  rw [cullQueue_queueBuf h, if_pos hr]

/-- What `cull_queue` leaves alone. -/
structure CullFrame (s s' : AflState) : Prop where
  rest : s' = { s with
    queueBuf := s'.queueBuf
    mapTmpBuf := s'.mapTmpBuf
    scoreChanged := s'.scoreChanged
    reinitTable := s'.reinitTable
    queuedFavored := s'.queuedFavored
    pendingFavored := s'.pendingFavored
    smallestFavored := s'.smallestFavored }
  entry : ∀ r, s'.queueBuf r = { s.queueBuf r with
    favored := (s'.queueBuf r).favored
    fsRedundant := (s'.queueBuf r).fsRedundant
    traceMini := (s'.queueBuf r).traceMini
    disabled := (s'.queueBuf r).disabled }

theorem QueueEntry.marked_frame (disableRedundant : Bool) (e : QueueEntry) :
    e.marked disableRedundant = { e with
      fsRedundant := (e.marked disableRedundant).fsRedundant
      traceMini := (e.marked disableRedundant).traceMini
      disabled := (e.marked disableRedundant).disabled } := by
  unfold QueueEntry.marked
  split <;> rfl

theorem cullQueue_frame (s : AflState) : CullFrame s (cullQueue s) := by
  cases hact : s.cullActive with
  | false =>
    rw [cullQueue_of_inactive hact]
    exact ⟨rfl, fun _ => rfl⟩
  | true =>
    have hsel := selectFavored_frame s.mapSize.val s
    obtain ⟨hrest, hentry⟩ := markLoop_spec s.queuedItems (selectFavored s.mapSize.val s)
    rw [cullQueue, cullMap_of_active hact]
    refine ⟨?_, fun r => ?_⟩
    · rw [hrest, hsel.rest]
    · simp only [hentry r]
      split
      · rw [QueueEntry.marked_frame, hsel.entry r]
      · rw [hsel.entry r]

theorem markAsRedundant_frame (s : AflState) (q : ℕ) (state : Bool) :
    CullFrame s (markAsRedundant s q state) := by
  unfold markAsRedundant
  split
  · exact ⟨rfl, fun _ => rfl⟩
  · refine ⟨rfl, fun r => ?_⟩
    by_cases hr : r = q
    · subst hr
      simp
    · simp [AflState.modify_queueBuf_ne _ _ hr]

/-- Marking an entry makes no mini trace. -/
theorem markAsRedundant_traceMini {s : AflState} {q r : ℕ} {state : Bool} {m : Bytes}
    (h : ((markAsRedundant s q state).queueBuf r).traceMini = some m) :
    (s.queueBuf r).traceMini = some m := by
  unfold markAsRedundant at h
  split at h
  · exact h
  · by_cases hr : r = q
    · subst hr
      rw [AflState.modify_queueBuf_self] at h
      dsimp only at h
      split at h
      · cases h
      · exact h
    · rwa [AflState.modify_queueBuf_ne _ _ hr] at h

/-- A mini trace that is still there after culling was there before. -/
theorem cullQueue_traceMini {s : AflState} {r : ℕ} {m : Bytes}
    (h : ((cullQueue s).queueBuf r).traceMini = some m) :
    (s.queueBuf r).traceMini = some m := by
  cases hact : s.cullActive with
  | false => rwa [cullQueue_of_inactive hact] at h
  | true =>
    have hsel : ((cullSelect s).queueBuf r).traceMini = (s.queueBuf r).traceMini := by
      rw [(cullSelect_frame s).entry r]
    rw [cullQueue_queueBuf hact] at h
    rw [← hsel]
    split at h
    · unfold QueueEntry.marked at h
      split at h
      · exact h
      · dsimp only at h
        split at h
        · cases h
        · exact h
    · exact h

/-- An entry that is enabled and favored after the selection stays so. -/
theorem QueueEntry.marked_of_favored (disableRedundant : Bool) {e : QueueEntry}
    (hf : e.favored = true) (hd : e.disabled = false) :
    (e.marked disableRedundant).favored = true ∧ (e.marked disableRedundant).disabled = false := by
  unfold QueueEntry.marked
  split
  · exact ⟨hf, hd⟩
  · simp [hf, hd]

end AflPlusPlus
