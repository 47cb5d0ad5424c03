import AflPlusPlus.Lib.Tally
import AflPlusPlus.Queue.Cull

/-!
# The favored entries and their counters after a cull

`cull_queue` in closed form: which entries are favored, and that the counters and flags it leaves
behind agree with them, for every map of whole bytes.
-/

namespace AflPlusPlus
open Lib

/-- Favored and not fuzzed yet. -/
abbrev QueueEntry.Awaited (e : QueueEntry) : Prop := e.favored = true ∧ e.wasFuzzed = false

/-- `smallest_favored` is the least id of an awaited entry, or -1. -/
def AflState.SmallestOk (s : AflState) : Prop :=
  (s.smallestFavored = -1 ∧ ∀ r, r < s.queuedItems → ¬ (s.queueBuf r).Awaited) ∨
    ∃ r, r < s.queuedItems ∧ (s.queueBuf r).Awaited ∧ s.smallestFavored = (s.queueBuf r).id ∧
      ∀ r', r' < s.queuedItems → (s.queueBuf r').Awaited → (s.queueBuf r).id ≤ (s.queueBuf r').id

/-- The counters of favored entries agree with the flags. -/
structure FavoredCounts (s : AflState) : Prop where
  queued : s.queuedFavored =
    BitVec.ofNat 32 (tally s.queuedItems (fun e => e.favored = true) s.queueBuf)
  pending : s.pendingFavored = BitVec.ofNat 32 (tally s.queuedItems QueueEntry.Awaited s.queueBuf)
  smallest : s.SmallestOk

/-! ### The counters follow the flags -/

/-- Only the flags, the ids and the counters matter. -/
structure SameFavored (s t : AflState) : Prop where
  items : t.queuedItems = s.queuedItems
  queued : t.queuedFavored = s.queuedFavored
  pending : t.pendingFavored = s.pendingFavored
  smallest : t.smallestFavored = s.smallestFavored
  favored : ∀ r, (t.queueBuf r).favored = (s.queueBuf r).favored
  wasFuzzed : ∀ r, (t.queueBuf r).wasFuzzed = (s.queueBuf r).wasFuzzed
  id : ∀ r, (t.queueBuf r).id = (s.queueBuf r).id

theorem AflState.SmallestOk.congr {s t : AflState} (h : s.SmallestOk)
    (hitems : t.queuedItems = s.queuedItems) (hsmall : t.smallestFavored = s.smallestFavored)
    (hawait : ∀ r, (t.queueBuf r).Awaited ↔ (s.queueBuf r).Awaited)
    (hid : ∀ r, (t.queueBuf r).id = (s.queueBuf r).id) : t.SmallestOk := by
  rw [SmallestOk, hsmall, hitems]
  simp only [hawait, hid]
  exact h

theorem FavoredCounts.congr {s t : AflState} (h : FavoredCounts s) (hst : SameFavored s t) :
    FavoredCounts t := by
  have hawait : ∀ r, (t.queueBuf r).Awaited ↔ (s.queueBuf r).Awaited := by
    intro r
    rw [QueueEntry.Awaited, hst.favored r, hst.wasFuzzed r]
  refine ⟨?_, ?_, h.smallest.congr hst.items hst.smallest hawait hst.id⟩
  · rw [hst.queued, h.queued, hst.items]
    exact congrArg _ (tally_congr fun r _ => by rw [hst.favored r])
  · rw [hst.pending, h.pending, hst.items]
    exact congrArg _ (tally_congr fun r _ => (hawait r).symm)

theorem cullReset_favoredCounts (mapSize : ℕ) (s : AflState) :
    FavoredCounts (cullReset mapSize s) := by
  obtain ⟨hrest, hentry⟩ := resetFavored_spec s.queuedItems s
  have hitems : (cullReset mapSize s).queuedItems = s.queuedItems := by
    rw [(cullReset_frame mapSize s).rest]
  have hoff : ∀ r, r < (cullReset mapSize s).queuedItems →
      ¬ ((cullReset mapSize s).queueBuf r).favored = true := by
    intro r hr
    rw [hitems] at hr
    simp [cullReset, hentry, hr]
  refine ⟨?_, ?_, Or.inl ⟨rfl, fun r hr haw => hoff r hr haw.1⟩⟩
  · rw [tally_eq_zero.mpr hoff]
    rfl
  · rw [tally_eq_zero.mpr fun r hr haw => hoff r hr haw.1]
    rfl

/-- What favoring an entry for the first time does. -/
structure Favors (q : ℕ) (s t : AflState) : Prop where
  isNew : (s.queueBuf q).favored = false
  items : t.queuedItems = s.queuedItems
  entries : t.queueBuf = Function.update s.queueBuf q { s.queueBuf q with favored := true }
  queued : t.queuedFavored = s.queuedFavored + 1
  pending : t.pendingFavored =
    if (s.queueBuf q).wasFuzzed = false then s.pendingFavored + 1 else s.pendingFavored
  smallest : t.smallestFavored =
    if (s.queueBuf q).wasFuzzed = false ∧
        (s.smallestFavored < 0 ∨ s.smallestFavored > (s.queueBuf q).id)
    then ((s.queueBuf q).id : ℤ) else s.smallestFavored

theorem favorEntry_cases (s : AflState) (q : ℕ) :
    favorEntry s q = s ∨ Favors q s (favorEntry s q) := by
  cases hf : (s.queueBuf q).favored with
  | true =>
    left
    simp [favorEntry, hf]
  | false =>
    cases hd : (s.queueBuf q).disabled with
    | true =>
      left
      simp [favorEntry, hd]
    | false =>
      right
      have heq : favorEntry s q = { s.modify q fun e => { e with favored := true } with
          queuedFavored := s.queuedFavored + 1
          pendingFavored :=
            if !(s.queueBuf q).wasFuzzed then s.pendingFavored + 1 else s.pendingFavored
          smallestFavored :=
            if !(s.queueBuf q).wasFuzzed &&
                (s.smallestFavored < 0 || s.smallestFavored > (s.queueBuf q).id)
            then (s.queueBuf q).id else s.smallestFavored } := by
        rw [favorEntry]
        simp only [hf, hd]
        rfl
      rw [heq]
      exact ⟨hf, rfl, rfl, rfl, by simp, by simp⟩

section Favors

variable {s t : AflState} {q : ℕ}

theorem Favors.id (h : Favors q s t) (r : ℕ) : (t.queueBuf r).id = (s.queueBuf r).id := by
  rw [h.entries]
  by_cases hr : r = q
  · subst hr
    rw [Function.update_self]
  · rw [Function.update_of_ne hr]

theorem Favors.awaited (h : Favors q s t) (r : ℕ) :
    (t.queueBuf r).Awaited ↔
      (s.queueBuf r).Awaited ∨ r = q ∧ (s.queueBuf q).wasFuzzed = false := by
  rw [h.entries]
  by_cases hr : r = q
  · subst hr
    rw [Function.update_self]
    simp [QueueEntry.Awaited, h.isNew]
  · rw [Function.update_of_ne hr]
    simp [hr]

/-- The least id stays, or it is that of the entry that is favored now. -/
theorem AflState.SmallestOk.favors (hs : s.SmallestOk) (h : Favors q s t)
    (hq : q < s.queuedItems) : t.SmallestOk := by
  cases hw : (s.queueBuf q).wasFuzzed with
  | true =>
    refine hs.congr h.items ?_ (fun r => ?_) h.id
    · simp [h.smallest, hw]
    · simp [h.awaited r, hw]
  | false =>
    have hsmall := h.smallest
    simp only [hw, true_and] at hsmall
    have hself : (t.queueBuf q).Awaited := (h.awaited q).mpr (Or.inr ⟨rfl, hw⟩)
    rw [AflState.SmallestOk, h.items]
    right
    rcases hs with ⟨hnone, hno⟩ | ⟨r, hr, haw, hsr, hleast⟩
    · refine ⟨q, hq, hself, ?_, fun r' hr' haw' => ?_⟩
      · rw [hsmall, if_pos (Or.inl (by omega)), h.id]
      · obtain haw' | ⟨rfl, -⟩ := (h.awaited r').mp haw'
        · exact absurd haw' (hno r' hr')
        · exact Nat.le_refl _
    · by_cases hless : (s.queueBuf q).id < (s.queueBuf r).id
      · refine ⟨q, hq, hself, ?_, fun r' hr' haw' => ?_⟩
        · rw [hsmall, if_pos (Or.inr (by omega)), h.id]
        · rw [h.id, h.id]
          obtain haw' | ⟨rfl, -⟩ := (h.awaited r').mp haw'
          · exact hless.le.trans (hleast r' hr' haw')
          · exact Nat.le_refl _
      · refine ⟨r, hr, (h.awaited r).mpr (Or.inl haw), ?_, fun r' hr' haw' => ?_⟩
        · rw [hsmall, if_neg (by omega), hsr, h.id]
        · rw [h.id, h.id]
          obtain haw' | ⟨rfl, -⟩ := (h.awaited r').mp haw'
          · exact hleast r' hr' haw'
          · omega

theorem FavoredCounts.favors (hs : FavoredCounts s) (h : Favors q s t) (hq : q < s.queuedItems) :
    FavoredCounts t := by
  refine ⟨?_, ?_, hs.smallest.favors h hq⟩
  · have hup := tally_update (p := fun e : QueueEntry => e.favored = true) s.queueBuf
      { s.queueBuf q with favored := true } hq
    rw [← h.entries, if_neg (by simp [h.isNew]), if_pos rfl] at hup
    rw [h.queued, h.items, hs.queued, ← Nat.add_zero (tally _ _ t.queueBuf), hup,
      BitVec.ofNat_add]
    rfl
  · have hup := tally_update (p := QueueEntry.Awaited) s.queueBuf
      { s.queueBuf q with favored := true } hq
    rw [← h.entries, if_neg (by simp [h.isNew]), Nat.add_zero] at hup
    rw [h.pending, h.items, hs.pending, hup, BitVec.ofNat_add]
    by_cases hw : (s.queueBuf q).wasFuzzed = false <;> simp [QueueEntry.Awaited, hw]

end Favors

theorem FavoredCounts.favorEntry {s : AflState} (h : FavoredCounts s) {q : ℕ}
    (hq : q < s.queuedItems) : FavoredCounts (favorEntry s q) := by
  obtain heq | hfav := favorEntry_cases s q
  · rw [heq]
    exact h
  · exact h.favors hfav hq

/-- Every slot is owned by an entry of the queue. -/
def AflState.OwnersQueued (mapSize : ℕ) (s : AflState) : Prop :=
  ∀ i, i < mapSize → ∀ q, s.topRated i = some q → q < s.queuedItems

theorem FavoredCounts.selectSlot {mapSize i : ℕ} {s : AflState} (h : FavoredCounts s)
    (howners : s.OwnersQueued mapSize) (hi : i < mapSize) :
    FavoredCounts (selectSlot mapSize i s) := by
  unfold AflPlusPlus.selectSlot
  split
  · exact h
  · rename_i q howner
    split
    · exact h
    · split
      · exact h
      · refine FavoredCounts.favorEntry (h.congr ?_) (howners i hi q howner)
        exact ⟨rfl, rfl, rfl, rfl, fun _ => rfl, fun _ => rfl, fun _ => rfl⟩

theorem selectFavored_favoredCounts {mapSize : ℕ} {s : AflState}
    (howners : s.OwnersQueued mapSize) : FavoredCounts (selectFavored mapSize s) := by
  have h : SelectFrame s (selectFavored mapSize s) ∧ FavoredCounts (selectFavored mapSize s) := by
    refine forLoop_invariant (fun t => SelectFrame s t ∧ FavoredCounts t)
      ⟨cullReset_frame mapSize s, cullReset_favoredCounts mapSize s⟩ ?_
    rintro i t hi ⟨hframe, ht⟩
    have howners' : t.OwnersQueued mapSize := by
      rw [AflState.OwnersQueued, hframe.rest]
      exact howners
    exact ⟨hframe.trans (selectSlot_frame mapSize i t), ht.selectSlot howners' hi⟩
  exact h.2

/-! ### The whole cull -/

theorem QueueEntry.marked_fsRedundant {disableRedundant : Bool} {e : QueueEntry}
    (h : e.disabled = false) : (e.marked disableRedundant).fsRedundant = !e.favored := by
  unfold QueueEntry.marked
  split
  · rename_i hskip
    rcases hskip with hd | hf
    · rw [h] at hd
      cases hd
    · exact hf.symm
  · rfl

theorem QueueEntry.marked_favored (disableRedundant : Bool) (e : QueueEntry) :
    (e.marked disableRedundant).favored = e.favored := by
  rw [QueueEntry.marked_frame]

/-- What a cull of `s` has to leave behind: the favored entries are the enabled ones that own, and
have the mini trace for, a slot that no slot selected before contains; the rest follows them. -/
structure GreedyCull (mapSize : ℕ) (s t : AflState) : Prop where
  favored : ∀ r, r < s.queuedItems → ((t.queueBuf r).favored = true ↔
    (s.queueBuf r).disabled = false ∧ ∃ mini, (s.queueBuf r).traceMini = some mini ∧
      ∃ i, i < mapSize ∧ s.topRated i = some r ∧
        ∀ j, j < i → Picked s.candidate j → ∀ p m, s.topRated j = some p →
          (s.queueBuf p).traceMini = some m → bitAt m i = false)
  queued : t.queuedFavored =
    BitVec.ofNat 32 (tally s.queuedItems (fun e => e.favored = true) t.queueBuf)
  pending : t.pendingFavored = BitVec.ofNat 32 (tally s.queuedItems QueueEntry.Awaited t.queueBuf)
  smallest : t.SmallestOk
  redundant : ∀ r, r < s.queuedItems → (s.queueBuf r).disabled = false →
    (t.queueBuf r).fsRedundant = !(t.queueBuf r).favored

theorem candidate_eq_some_iff {s : AflState} {j : ℕ} {C : Set ℕ} :
    s.candidate j = some C ↔ ∃ p m, s.topRated j = some p ∧ (s.queueBuf p).traceMini = some m ∧
      { k | bitAt m k = true } = C := by
  simp only [AflState.candidate, Option.bind_eq_some_iff, Option.map_eq_some_iff]
  constructor
  · rintro ⟨p, hp, m, hm, hC⟩
    exact ⟨p, m, hp, hm, hC⟩
  · rintro ⟨p, m, hp, hm, hC⟩
    exact ⟨p, hp, m, hm, hC⟩

/-- The owner of a picked slot, in terms of the slots and mini traces. -/
theorem picked_owner_iff {s : AflState} {i r : ℕ} (howner : s.topRated i = some r) :
    Picked s.candidate i ↔ ∃ mini, (s.queueBuf r).traceMini = some mini ∧
      ∀ j, j < i → Picked s.candidate j → ∀ p m, s.topRated j = some p →
        (s.queueBuf p).traceMini = some m → bitAt m i = false := by
  rw [picked_iff]
  have hsome : (s.candidate i).isSome ↔ ∃ mini, (s.queueBuf r).traceMini = some mini := by
    simp [AflState.candidate, howner, Option.isSome_iff_exists]
  rw [hsome]
  constructor
  · rintro ⟨⟨mini, hmini⟩, hfree⟩
    refine ⟨mini, hmini, fun j hj hp p m hpj hm => ?_⟩
    have hout := hfree j hj hp _ (candidate_eq_some_iff.mpr ⟨p, m, hpj, hm, rfl⟩)
    simpa using hout
  · rintro ⟨mini, hmini, hfree⟩
    refine ⟨⟨mini, hmini⟩, fun j hj hp C hC => ?_⟩
    obtain ⟨p, m, hpj, hm, rfl⟩ := candidate_eq_some_iff.mp hC
    simp [hfree j hj hp p m hpj hm]

theorem cullMap_entry {mapSize : ℕ} {s : AflState} (hact : s.cullActive = true) {r : ℕ}
    (hr : r < s.queuedItems) : (cullMap mapSize s).queueBuf r =
      ((selectFavored mapSize s).queueBuf r).marked s.aflDisableRedundant := by
  rw [cullMap_queueBuf hact, if_pos hr]

theorem cullMap_favored {mapSize : ℕ} {s : AflState} (hact : s.cullActive = true) {r : ℕ}
    (hr : r < s.queuedItems) : ((cullMap mapSize s).queueBuf r).favored =
      ((selectFavored mapSize s).queueBuf r).favored := by
  rw [cullMap_entry hact hr, QueueEntry.marked_favored]

/-- Marking the redundant entries leaves the selection alone. -/
theorem cullMap_sameFavored {mapSize : ℕ} {s : AflState} (hact : s.cullActive = true) :
    SameFavored (selectFavored mapSize s) (cullMap mapSize s) := by
  have hfield : ∀ r, (cullMap mapSize s).queueBuf r =
      { (selectFavored mapSize s).queueBuf r with
        fsRedundant := ((cullMap mapSize s).queueBuf r).fsRedundant
        traceMini := ((cullMap mapSize s).queueBuf r).traceMini
        disabled := ((cullMap mapSize s).queueBuf r).disabled } := by
    intro r
    rw [cullMap_queueBuf hact]
    split
    · exact QueueEntry.marked_frame _ _
    · rfl
  obtain ⟨hrest, _⟩ := markLoop_spec s.queuedItems (selectFavored mapSize s)
  have hcull := cullMap_of_active hact mapSize
  refine ⟨?_, ?_, ?_, ?_, fun r => ?_, fun r => ?_, fun r => ?_⟩
  · rw [hcull, hrest]
  · rw [hcull, hrest]
  · rw [hcull, hrest]
  · rw [hcull, hrest]
  · rw [hfield r]
  · rw [hfield r]
  · rw [hfield r]

/-- `cull_queue` computes the greedy cover and the numbers that describe it. -/
theorem cullMap_greedy {mapSize : ℕ} (h8 : 8 ∣ mapSize) {s : AflState}
    (howners : s.OwnersQueued mapSize) (hchanged : s.scoreChanged = true)
    (hinst : s.nonInstrumentedMode = false) : GreedyCull mapSize s (cullMap mapSize s) := by
  have hact : s.cullActive = true := by simp [AflState.cullActive, hchanged, hinst]
  have hsel := selectFavored_frame mapSize s
  have hitems : (selectFavored mapSize s).queuedItems = s.queuedItems := by rw [hsel.rest]
  have hsame : SameFavored (selectFavored mapSize s) (cullMap mapSize s) := cullMap_sameFavored hact
  have hcounts := (selectFavored_favoredCounts howners).congr hsame
  have hitems' : (cullMap mapSize s).queuedItems = s.queuedItems := hsame.items.trans hitems
  refine ⟨fun r hr => ?_, ?_, ?_, hcounts.smallest, fun r hr hen => ?_⟩
  · rw [cullMap_favored hact hr, selectFavored_favored h8 s hr]
    refine and_congr_right fun _ => ?_
    constructor
    · rintro ⟨i, hi, hpick, howner⟩
      obtain ⟨mini, hmini, hfree⟩ := (picked_owner_iff howner).mp hpick
      exact ⟨mini, hmini, i, hi, howner, hfree⟩
    · rintro ⟨mini, hmini, i, hi, howner, hfree⟩
      exact ⟨i, hi, (picked_owner_iff howner).mpr ⟨mini, hmini, hfree⟩, howner⟩
  · rw [hcounts.queued, hitems']
  · rw [hcounts.pending, hitems']
  · rw [cullMap_favored hact hr, cullMap_entry hact hr, QueueEntry.marked_fsRedundant]
    rw [hsel.entry r]
    exact hen

/-- Two entries, of which the first owns slot 3. -/
def ownedSlot : AflState :=
  { AflState.init .block with
    scoreChanged := true
    queuedItems := 2
    topRated := fun i => if i = 3 then some 0 else none
    queueBuf := fun r => if r = 0 then { traceMini := some fun _ => 8 } else {} }

theorem cullMap_greedy_ownedSlot : GreedyCull 8 ownedSlot (cullMap 8 ownedSlot) := by
  refine cullMap_greedy (by decide) (fun i _ q hq => ?_) rfl rfl
  by_cases hi : i = 3
  · subst hi
    obtain rfl := Option.some.inj hq
    decide
  · simp [ownedSlot, hi] at hq

/-- In non-instrumented mode `cull_queue` returns at once: the entry is neither favored nor marked
as redundant. -/
theorem not_greedyCull_nonInstrumented :
    ¬ GreedyCull 64
      { AflState.init .block with
        scoreChanged := true, nonInstrumentedMode := true, queuedItems := 1 }
      (cullMap 64 { AflState.init .block with
        scoreChanged := true, nonInstrumentedMode := true, queuedItems := 1 }) := by
  intro h
  exact absurd (h.redundant 0 (by decide) rfl) (by decide)

end AflPlusPlus
