import AflPlusPlus.Queue.Runs

/-!
# Reference counts

`tc_ref` of an entry is the number of slots of `top_rated` it owns. Every transfer of a slot takes
one reference from the old owner and gives one to the new owner, also when both are the same entry,
so the count is kept by every scheduling operation and the decrement never meets zero.
-/

namespace AflPlusPlus
open Lib

/-- The number of slots that entry `q` owns. -/
def AflState.slotsOwned (s : AflState) (q : ℕ) : ℕ := tally s.mapSize.val (· = some q) s.topRated

theorem AflState.slotsOwned_lt (s : AflState) (q : ℕ) : s.slotsOwned q < 2 ^ 32 :=
  lt_of_le_of_lt (tally_le _ _) s.mapSize.lt

theorem transferSlot_tcRef (s : AflState) (q i r : ℕ) :
    ((transferSlot s q i).queueBuf r).tcRef =
      (s.queueBuf r).tcRef - BitVec.ofNat 32 (if s.topRated i = some r then 1 else 0) +
        BitVec.ofNat 32 (if some q = some r then 1 else 0) := by
  have hwin : ∀ t : AflState, ((winSlot t q i).queueBuf r).tcRef =
      (t.queueBuf r).tcRef + BitVec.ofNat 32 (if some q = some r then 1 else 0) := by
    intro t
    by_cases hr : r = q
    · subst hr
      simp [winSlot]
    · simp [winSlot, AflState.modify_queueBuf_ne _ _ hr, Ne.symm hr]
  unfold transferSlot
  split
  · rename_i p hp
    rw [hwin, hp]
    congr 1
    by_cases hr : r = p
    · subst hr
      simp [releaseSlot]
    · simp [releaseSlot, AflState.modify_queueBuf_ne _ _ hr, Ne.symm hr]
  · rename_i hp
    rw [hwin, hp]
    simp

theorem transferSlot_tcUnderflow (s : AflState) (q i : ℕ) :
    (transferSlot s q i).tcUnderflow = true ↔
      s.tcUnderflow = true ∨ ∃ p, s.topRated i = some p ∧ (s.queueBuf p).tcRef = 0 := by
  unfold transferSlot
  split
  · rename_i p hp
    simp [winSlot, releaseSlot, AflState.modify, hp]
  · rename_i hp
    simp [winSlot, AflState.modify, hp]

theorem transferSlot_slotsOwned {s : AflState} {i : ℕ} (q r : ℕ) (hi : i < s.mapSize.val) :
    (transferSlot s q i).slotsOwned r + (if s.topRated i = some r then 1 else 0) =
      s.slotsOwned r + (if some q = some r then 1 else 0) := by
  unfold AflState.slotsOwned
  rw [(transferSlot_frame s q i).mapSize, transferSlot_topRated]
  exact tally_update s.topRated (some q) hi

/-- Reference counts are exact and no decrement has wrapped. -/
structure CountInv (s : AflState) : Prop where
  tcRef : ∀ q, q < s.queuedItems → (s.queueBuf q).tcRef = BitVec.ofNat 32 (s.slotsOwned q)
  noUnderflow : s.tcUnderflow = false

theorem AflState.Fresh.countInv {s : AflState} (h : s.Fresh) : CountInv s := by
  refine ⟨fun q hq => ?_, h.tcUnderflow⟩
  rw [h.queuedItems] at hq
  exact absurd hq (Nat.not_lt_zero q)

theorem CountInv.toNat_tcRef {s : AflState} (h : CountInv s) {q : ℕ} (hq : q < s.queuedItems) :
    (s.queueBuf q).tcRef.toNat = s.slotsOwned q := by
  rw [h.tcRef q hq, BitVec.toNat_ofNat, Nat.mod_eq_of_lt (s.slotsOwned_lt q)]

/-- The owner of a slot has a reference to give up. -/
theorem CountInv.owner_tcRef {s : AflState} (h : CountInv s) (hqueue : QueueInv s) {i p : ℕ}
    (hp : s.topRated i = some p) : (s.queueBuf p).tcRef ≠ 0 := by
  obtain ⟨hi, hlt⟩ := hqueue.slot i p hp
  have hpos : 0 < s.slotsOwned p := tally_pos hi hp
  intro hzero
  have href := h.toNat_tcRef hlt
  rw [hzero] at href
  exact absurd href.symm hpos.ne'

theorem CountInv.transferSlot {s : AflState} (h : CountInv s) (hqueue : QueueInv s) {q i : ℕ}
    (hi : i < s.mapSize.val) : CountInv (transferSlot s q i) := by
  refine ⟨fun r hr => ?_, ?_⟩
  · rw [(transferSlot_frame s q i).queuedItems] at hr
    rw [transferSlot_tcRef, h.tcRef r hr]
    exact (ofNat_recount (transferSlot_slotsOwned q r hi)).symm
  · rw [Bool.eq_false_iff, ne_eq, transferSlot_tcUnderflow]
    rintro (hu | ⟨p, hp, hzero⟩)
    · rw [h.noUnderflow] at hu
      cases hu
    · exact h.owner_tcRef hqueue hp hzero

theorem CountInv.quiet {s t : AflState} (h : CountInv s) (hquiet : Quiet s t) : CountInv t := by
  refine ⟨fun q hlt => ?_, hquiet.tcUnderflow.trans h.noUnderflow⟩
  rw [hquiet.tcRef, AflState.slotsOwned, hquiet.mapSize, hquiet.topRated]
  exact h.tcRef q (hquiet.queuedItems ▸ hlt)

/-- The new entry owns nothing, and nobody owned what is now its position. -/
theorem CountInv.addToQueue {s : AflState} (h : CountInv s) (hqueue : QueueInv s) (len : U32)
    (passedDet : Bool) : CountInv (addToQueue s len passedDet) := by
  refine ⟨fun q hq => ?_, h.noUnderflow⟩
  change (Function.update s.queueBuf s.queuedItems _ q).tcRef = BitVec.ofNat 32 (s.slotsOwned q)
  by_cases hqn : q = s.queuedItems
  · subst hqn
    have hzero : s.slotsOwned s.queuedItems = 0 := by
      refine tally_eq_zero.mpr fun i _ hown => ?_
      exact absurd (hqueue.slot i _ hown).2 (lt_irrefl _)
    rw [Function.update_self, hzero]
    rfl
  · rw [Function.update_of_ne hqn]
    have hlt : q < s.queuedItems + 1 := hq
    exact h.tcRef q (by omega)

theorem CountInv.step {target : Target} {s s' : AflState} {op : Op} (h : CountInv s)
    (hqueue : QueueInv s) (hstep : queueStep target s op = some s') : CountInv s' :=
  queueStep_induct (fun _ _ hu hquiet => hu.quiet hquiet)
    (fun _ len passedDet hq hu => hu.addToQueue hq len passedDet)
    (fun _ _ _ hq hu hi _ => hu.transferSlot hq hi) hqueue h hstep

theorem AflState.Fresh.reaches_countInv {target : Target} {ok : AflState → Op → Prop}
    {s t : AflState} (h0 : s.Fresh) (hrun : Reaches (queueStep target) ok s t) :
    QueueInv t ∧ CountInv t :=
  hrun.invariant (P := fun u => QueueInv u ∧ CountInv u) ⟨h0.queueInv, h0.countInv⟩
    fun _ _ _ hu _ hstep => ⟨hu.1.step hstep, hu.2.step hu.1 hstep⟩

/-- In every reachable state each reference count is the number of slots owned, and no reference
count has ever been decremented below zero. -/
theorem tcRef_eq_slotsOwned {target : Target} {s t : AflState} (h0 : s.Fresh)
    (hrun : Reaches (queueStep target) (fun _ _ => True) s t) :
    (∀ q, q < t.queuedItems → (t.queueBuf q).tcRef.toNat = t.slotsOwned q) ∧
      t.tcUnderflow = false := by
  obtain ⟨_, hinv⟩ := h0.reaches_countInv hrun
  exact ⟨fun q hq => hinv.toNat_tcRef hq, hinv.noUnderflow⟩

/-- Entry 1 takes index 1 from entry 0. -/
theorem tcRef_eq_slotsOwned_shared_index :
    ∃ t, Reaches (queueStep fun q _ => hits [q, 1]) (fun _ _ => True) (AflState.init .block) t ∧
      t.topRated 0 = some 0 ∧ t.topRated 1 = some 1 ∧
      (t.queueBuf 0).tcRef.toNat = t.slotsOwned 0 ∧ t.tcUnderflow = false := by
  have hrun : Reaches (queueStep fun q _ => hits [q, 1]) (fun _ _ => True) (AflState.init .block)
      ((exec (queueStep fun q _ => hits [q, 1]) (fun _ _ => True) (AflState.init .block)
        [.addToQueue 5 false, .addToQueue 4 false, .score 0 0 9 5 7, .score 1 0 9 4 8]).getD
        (AflState.init .block)) := reaches_exec (by decide +kernel)
  obtain ⟨href, hunder⟩ := tcRef_eq_slotsOwned (AflState.init_fresh .block) hrun
  exact ⟨_, hrun, by decide +kernel, by decide +kernel, href 0 (by decide +kernel), hunder⟩

end AflPlusPlus
