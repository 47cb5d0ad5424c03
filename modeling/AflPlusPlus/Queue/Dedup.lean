import AflPlusPlus.Lib.Tally
import AflPlusPlus.Queue.DryRun

/-!
# What the de-duplication leaves

The two loops at the end of the dry run disable one entry of each pair with the same checksum, and
leave the inner loop as soon as the outer entry has lost. In the end one entry of each checksum is
left, the shortest one.
-/

namespace AflPlusPlus
open Lib

/-- How many entries do not have the flag in `s` and have it in `t`. -/
def newly (flag : QueueEntry → Bool) (s t : AflState) : ℕ :=
  tally s.queuedItems (fun e : Bool × Bool => e.1 = false ∧ e.2 = true) fun i =>
    (flag (s.queueBuf i), flag (t.queueBuf i))

def newlyDisabled (s t : AflState) : ℕ := newly (fun e => e.disabled) s t

theorem newly_self (flag : QueueEntry → Bool) (s : AflState) : newly flag s s = 0 :=
  tally_eq_zero.mpr fun _ _ h => Bool.false_ne_true (h.1.symm.trans h.2)

/-- One more entry gets the flag. -/
theorem newly_set {flag : QueueEntry → Bool} {s t t' : AflState} {q : ℕ} (hq : q < s.queuedItems)
    (hs : flag (s.queueBuf q) = false) (ht : flag (t.queueBuf q) = false)
    (ht' : ∀ r, flag (t'.queueBuf r) = if r = q then true else flag (t.queueBuf r)) :
    newly flag s t' = newly flag s t + 1 := by
  have hupdate : (fun i => (flag (s.queueBuf i), flag (t'.queueBuf i))) =
      Function.update (fun i => (flag (s.queueBuf i), flag (t.queueBuf i))) q (false, true) := by
    funext i
    rw [ht']
    by_cases hi : i = q
    · rw [hi, Function.update_self, if_pos rfl, hs]
    · rw [Function.update_of_ne hi, if_neg hi]
  have hcount := tally_update (p := fun e : Bool × Bool => e.1 = false ∧ e.2 = true)
    (fun i => (flag (s.queueBuf i), flag (t.queueBuf i))) (false, true) hq
  rw [← hupdate, ht, if_neg (by simp), if_pos ⟨rfl, rfl⟩] at hcount
  exact hcount

/-- `t` is the queue `s` without duplicates. -/
structure Deduplicated (s t : AflState) : Prop where
  distinct : ∀ p q, p < s.queuedItems → q < s.queuedItems → dedupSkips (t.queueBuf p) = false →
    dedupSkips (t.queueBuf q) = false →
      (t.queueBuf p).execCksum = (t.queueBuf q).execCksum → p = q
  shortest : ∀ q, q < s.queuedItems → dedupSkips (s.queueBuf q) = false →
    ∃ p, p < s.queuedItems ∧ dedupSkips (t.queueBuf p) = false ∧
      (s.queueBuf p).execCksum = (s.queueBuf q).execCksum ∧
      ∀ r, r < s.queuedItems → dedupSkips (s.queueBuf r) = false →
        (s.queueBuf r).execCksum = (s.queueBuf q).execCksum →
          (s.queueBuf p).len ≤ (s.queueBuf r).len
  activeItems : t.activeItems = s.activeItems - BitVec.ofNat 32 (newlyDisabled s t)
  pendingNotFuzzed :
    t.pendingNotFuzzed = s.pendingNotFuzzed - BitVec.ofNat 32 (newlyDisabled s t)

/-! ### Disabling one entry -/

theorem DisableFrame.queuedItems {s t : AflState} (h : DisableFrame s t) :
    t.queuedItems = s.queuedItems := by rw [h.rest]

theorem DisableFrame.len {s t : AflState} (h : DisableFrame s t) (r : ℕ) :
    (t.queueBuf r).len = (s.queueBuf r).len := by rw [h.entry r]

theorem DisableFrame.execCksum {s t : AflState} (h : DisableFrame s t) (r : ℕ) :
    (t.queueBuf r).execCksum = (s.queueBuf r).execCksum := by rw [h.entry r]

/-- Who takes part depends on nothing else that disabling changes. -/
theorem DisableFrame.dedupSkips {s t : AflState} (h : DisableFrame s t) {r : ℕ}
    (hr : (t.queueBuf r).disabled = (s.queueBuf r).disabled) :
    dedupSkips (t.queueBuf r) = dedupSkips (s.queueBuf r) := by
  have hcal : (t.queueBuf r).calFailed = (s.queueBuf r).calFailed := by rw [h.entry r]
  rw [AflPlusPlus.dedupSkips, AflPlusPlus.dedupSkips, hr, hcal, h.execCksum]

theorem disableDuplicate_disabled (s : AflState) (q r : ℕ) :
    ((disableEntry (dropPending s q) q).queueBuf r).disabled =
      if r = q then true else (s.queueBuf r).disabled := by
  by_cases hr : r = q
  · subst hr
    rw [if_pos rfl, disableEntry, AflState.modify_queueBuf_self]
  · rw [if_neg hr, disableDuplicate_ne s hr]

/-- Disabling an entry that was not fuzzed counts it out once. -/
theorem disableDuplicate_counts {s : AflState} {q : ℕ} (hq : (s.queueBuf q).wasFuzzed = false) :
    (disableEntry (dropPending s q) q).activeItems = s.activeItems - 1 ∧
      (disableEntry (dropPending s q) q).pendingNotFuzzed = s.pendingNotFuzzed - 1 := by
  rw [dropPending, hq]
  exact ⟨rfl, rfl⟩

/-! ### The shortest entries survive -/

/-- What each disabled duplicate preserves: every entry that took part has a representative that is
not longer. -/
structure DedupInv (s t : AflState) : Prop where
  frame : DisableFrame s t
  monotone : ∀ r, (s.queueBuf r).disabled = true → (t.queueBuf r).disabled = true
  notFuzzed : ∀ r, r < s.queuedItems → (t.queueBuf r).disabled = false →
    (t.queueBuf r).wasFuzzed = false
  kept : ∀ r, r < s.queuedItems → dedupSkips (s.queueBuf r) = false →
    ∃ p, p < s.queuedItems ∧ dedupSkips (t.queueBuf p) = false ∧
      (s.queueBuf p).execCksum = (s.queueBuf r).execCksum ∧
      (s.queueBuf p).len ≤ (s.queueBuf r).len
  activeItems : t.activeItems = s.activeItems - BitVec.ofNat 32 (newlyDisabled s t)
  pendingNotFuzzed :
    t.pendingNotFuzzed = s.pendingNotFuzzed - BitVec.ofNat 32 (newlyDisabled s t)

theorem DedupInv.start {s : AflState} (hfuzzed : ∀ r, r < s.queuedItems →
    (s.queueBuf r).disabled = false → (s.queueBuf r).wasFuzzed = false) : DedupInv s s where
  frame := .refl s
  monotone _ h := h
  notFuzzed := hfuzzed
  kept r hr hskip := ⟨r, hr, hskip, rfl, BitVec.le_refl _⟩
  activeItems := by
    rw [newlyDisabled, newly_self]
    exact (BitVec.sub_zero _).symm
  pendingNotFuzzed := by
    rw [newlyDisabled, newly_self]
    exact (BitVec.sub_zero _).symm

theorem sub_ofNat_succ (x : U32) (n : ℕ) :
    x - BitVec.ofNat 32 (n + 1) = x - BitVec.ofNat 32 n - 1 := by
  rw [BitVec.ofNat_add]
  bv_omega

theorem DedupInv.disable {s t : AflState} {p q : ℕ} (h : DedupInv s t) (hdup : t.Duplicate p q) :
    DedupInv s (disableEntry (dropPending t q) q) := by
  have hframe := disableDuplicate_frame t q
  have hq : q < s.queuedItems := h.frame.queuedItems ▸ hdup.drop_lt
  have hp : p < s.queuedItems := h.frame.queuedItems ▸ hdup.keep_lt
  have hpq : p ≠ q := by
    rcases hdup.longer with ⟨hlt, -⟩ | ⟨hlt, -⟩ <;> omega
  have hqt := dedupSkips_disabled hdup.drop
  have hqs : (s.queueBuf q).disabled = false := by
    by_contra hne
    rw [h.monotone q (eq_true_of_ne_false hne)] at hqt
    cases hqt
  have hnew : newlyDisabled s (disableEntry (dropPending t q) q) = newlyDisabled s t + 1 :=
    newly_set hq hqs hqt (disableDuplicate_disabled t q)
  obtain ⟨hactive, hpending⟩ := disableDuplicate_counts (h.notFuzzed q hq hqt)
  refine ⟨h.frame.trans hframe, fun r hr => ?_, fun r hr hen => ?_, fun r hr hskip => ?_, ?_, ?_⟩
  · rw [disableDuplicate_disabled, h.monotone r hr, ite_self]
  · have hne : r ≠ q := by
      rintro rfl
      rw [disableDuplicate_disabled, if_pos rfl] at hen
      cases hen
    rw [disableDuplicate_ne t hne] at hen ⊢
    exact h.notFuzzed r hr hen
  · -- a representative that is disabled itself passes the entry on to the one that beat it
    obtain ⟨k, hk, hkskip, hkck, hklen⟩ := h.kept r hr hskip
    by_cases hkq : k = q
    · subst hkq
      refine ⟨p, hp, ?_, ?_, ?_⟩
      · rw [disableDuplicate_ne t hpq]
        exact hdup.keep
      · rw [← hkck, ← h.frame.execCksum p, ← h.frame.execCksum k, hdup.cksum]
      · have hle : (t.queueBuf p).len ≤ (t.queueBuf k).len := by
          rcases hdup.longer with ⟨-, hle⟩ | ⟨-, hlt⟩
          · exact hle
          · exact BitVec.le_of_lt hlt
        rw [h.frame.len p, h.frame.len k] at hle
        exact BitVec.le_trans hle hklen
    · refine ⟨k, hk, ?_, hkck, hklen⟩
      rw [disableDuplicate_ne t hkq]
      exact hkskip
  · rw [hactive, h.activeItems, hnew, sub_ofNat_succ]
  · rw [hpending, h.pendingNotFuzzed, hnew, sub_ofNat_succ]

theorem dedupQueue_inv {s : AflState} (hfuzzed : ∀ r, r < s.queuedItems →
    (s.queueBuf r).disabled = false → (s.queueBuf r).wasFuzzed = false) :
    DedupInv s (dedupQueue s) := by
  refine dedupQueue_induct (P := DedupInv s) (fun t p q hdup ht => ht.disable hdup)
    (DedupInv.start hfuzzed) fun t ht => ?_
  refine ⟨?_, ht.monotone, ht.notFuzzed, ht.kept, ht.activeItems, ht.pendingNotFuzzed⟩
  exact ht.frame.trans ⟨rfl, fun _ => rfl⟩

/-! ### No two of them agree -/

/-- Entries have been disabled, and nothing else has happened to them. -/
structure Shrinks (s t : AflState) : Prop where
  frame : DisableFrame s t
  monotone : ∀ r, (s.queueBuf r).disabled = true → (t.queueBuf r).disabled = true

theorem Shrinks.refl (s : AflState) : Shrinks s s := ⟨.refl s, fun _ h => h⟩

theorem Shrinks.trans {s t u : AflState} (h : Shrinks s t) (h' : Shrinks t u) : Shrinks s u :=
  ⟨h.frame.trans h'.frame, fun r hr => h'.monotone r (h.monotone r hr)⟩

theorem shrinks_disableDuplicate (s : AflState) (q : ℕ) :
    Shrinks s (disableEntry (dropPending s q) q) := by
  refine ⟨disableDuplicate_frame s q, fun r hr => ?_⟩
  rw [disableDuplicate_disabled, hr, ite_self]

theorem Shrinks.dedupSkips {s t : AflState} (h : Shrinks s t) {r : ℕ}
    (hr : dedupSkips (t.queueBuf r) = false) : AflPlusPlus.dedupSkips (s.queueBuf r) = false := by
  have ht := dedupSkips_disabled hr
  have hs : (s.queueBuf r).disabled = false := by
    by_contra hne
    rw [h.monotone r (eq_true_of_ne_false hne)] at ht
    cases ht
  rw [← h.frame.dedupSkips (ht.trans hs.symm)]
  exact hr

/-- One of the two is out, or their checksums differ. -/
def Apart (t : AflState) (a b : ℕ) : Prop :=
  dedupSkips (t.queueBuf a) = false → dedupSkips (t.queueBuf b) = false →
    (t.queueBuf a).execCksum ≠ (t.queueBuf b).execCksum

theorem Shrinks.apart {s t : AflState} (h : Shrinks s t) {a b : ℕ} (hab : Apart s a b) :
    Apart t a b := by
  intro ha hb
  rw [h.frame.execCksum, h.frame.execCksum]
  exact hab (h.dedupSkips ha) (h.dedupSkips hb)

theorem apart_of_disabled {t : AflState} {a b : ℕ}
    (h : (t.queueBuf a).disabled = true ∨ (t.queueBuf b).disabled = true) : Apart t a b := by
  intro ha hb
  rcases h with h | h
  · rw [dedupSkips_disabled ha] at h
    cases h
  · rw [dedupSkips_disabled hb] at h
    cases h

/-- The inner loop settles the outer entry against all later ones. -/
theorem dedupInner_apart (idx : ℕ) (is : List ℕ) (s : AflState) (duplicates : Bool) :
    Shrinks s (dedupInner idx is (s, duplicates)).1 ∧
      ∀ i ∈ is, Apart (dedupInner idx is (s, duplicates)).1 idx i := by
  induction is generalizing s duplicates with
  | nil => exact ⟨.refl s, fun i hi => absurd hi List.not_mem_nil⟩
  | cons i rest ih =>
    have hnext : ∀ (t : AflState) (d : Bool), Shrinks s t → Apart t idx i →
        Shrinks s (dedupInner idx rest (t, d)).1 ∧
          ∀ j ∈ i :: rest, Apart (dedupInner idx rest (t, d)).1 idx j := by
      intro t d ht hi
      obtain ⟨hrest, hall⟩ := ih t d
      refine ⟨ht.trans hrest, fun j hj => ?_⟩
      rcases List.mem_cons.mp hj with rfl | hj
      · exact hrest.apart hi
      · exact hall j hj
    rw [dedupInner]
    split
    · rename_i hskip
      refine hnext s duplicates (.refl s) fun _ hi => ?_
      rw [hskip] at hi
      cases hi
    · split
      · rename_i hck
        exact hnext s duplicates (.refl s) fun _ _ => Ne.symm hck
      · split
        · refine hnext _ true (shrinks_disableDuplicate s i) (apart_of_disabled (Or.inr ?_))
          rw [disableDuplicate_disabled, if_pos rfl]
        · -- the outer entry is out, so that the rest of its class is left to later rounds
          refine ⟨shrinks_disableDuplicate s idx, fun j _ => apart_of_disabled (Or.inl ?_)⟩
          rw [disableDuplicate_disabled, if_pos rfl]

theorem dedupLoop_apart (s : AflState) :
    Shrinks s (dedupLoop s).1 ∧
      ∀ a, a < s.queuedItems - 1 → ∀ b, a < b → b < s.queuedItems → Apart (dedupLoop s).1 a b := by
  unfold dedupLoop
  refine forLoop_induct (fun k (st : AflState × Bool) => Shrinks s st.1 ∧
    ∀ a, a < k → ∀ b, a < b → b < s.queuedItems → Apart st.1 a b)
    ⟨.refl s, fun a ha => absurd ha (Nat.not_lt_zero a)⟩ ?_
  rintro k ⟨t, d⟩ hk ⟨ht, hsettled⟩
  dsimp only at ht hsettled ⊢
  have hitems := ht.frame.queuedItems
  split
  · rename_i hskip
    refine ⟨ht, fun a ha b hab hb => ?_⟩
    rcases Nat.lt_succ_iff_lt_or_eq.mp ha with ha | rfl
    · exact hsettled a ha b hab hb
    · intro hin
      rw [hskip] at hin
      cases hin
  · obtain ⟨hshrinks, hapart⟩ :=
      dedupInner_apart k (List.range' (k + 1) (t.queuedItems - (k + 1))) t d
    refine ⟨ht.trans hshrinks, fun a ha b hab hb => ?_⟩
    rcases Nat.lt_succ_iff_lt_or_eq.mp ha with ha | rfl
    · exact hshrinks.apart (hsettled a ha b hab hb)
    · refine hapart b (List.mem_range'_1.mpr ⟨hab, ?_⟩)
      omega

theorem dedupQueue_queueBuf (s : AflState) :
    (dedupQueue s).queueBuf = (dedupLoop s).1.queueBuf := by
  unfold dedupQueue
  dsimp only
  split
  · rfl
  · rfl

theorem dedupQueue_apart {s : AflState} {a b : ℕ} (hab : a < b) (hb : b < s.queuedItems) :
    Apart (dedupQueue s) a b := by
  rw [Apart, dedupQueue_queueBuf]
  exact (dedupLoop_apart s).2 a (by omega) b hab hb

/-- When the entries that are enabled have not been fuzzed, the de-duplication leaves one entry of
each checksum, the shortest, and counts out those that it disables. -/
theorem dedupQueue_deduplicated {s : AflState} (hfuzzed : ∀ r, r < s.queuedItems →
    (s.queueBuf r).disabled = false → (s.queueBuf r).wasFuzzed = false) :
    Deduplicated s (dedupQueue s) := by
  have hinv := dedupQueue_inv hfuzzed
  have hdistinct : ∀ p q, p < s.queuedItems → q < s.queuedItems →
      dedupSkips ((dedupQueue s).queueBuf p) = false →
      dedupSkips ((dedupQueue s).queueBuf q) = false →
        ((dedupQueue s).queueBuf p).execCksum = ((dedupQueue s).queueBuf q).execCksum → p = q := by
    intro p q hp hq hpin hqin hck
    rcases Nat.lt_trichotomy p q with hlt | heq | hlt
    · exact absurd hck (dedupQueue_apart hlt hq hpin hqin)
    · exact heq
    · exact absurd hck.symm (dedupQueue_apart hlt hp hqin hpin)
  refine ⟨hdistinct, fun q hq hqin => ?_, hinv.activeItems, hinv.pendingNotFuzzed⟩
  obtain ⟨p, hp, hpin, hpck, -⟩ := hinv.kept q hq hqin
  refine ⟨p, hp, hpin, hpck, fun r hr hrin hrck => ?_⟩
  -- the representative of any other member of the class is the same entry
  obtain ⟨k, hk, hkin, hkck, hklen⟩ := hinv.kept r hr hrin
  have hkp : k = p := by
    refine hdistinct k p hk hp hkin hpin ?_
    rw [hinv.frame.execCksum, hinv.frame.execCksum, hkck, hrck, hpck]
  rw [← hkp]
  exact hklen

/-- Three entries with one checksum; the second is the first of the shortest. -/
def triplets : AflState :=
  { AflState.init .block with
    queueBuf := fun i => { len := if i = 0 then 5 else 3, execCksum := 7 }
    queuedItems := 3
    activeItems := 3
    pendingNotFuzzed := 3 }

theorem dedupQueue_deduplicated_triplets :
    Deduplicated triplets (dedupQueue triplets) ∧
      ((dedupQueue triplets).queueBuf 1).disabled = false ∧
      (dedupQueue triplets).activeItems = 1 :=
  ⟨dedupQueue_deduplicated fun _ _ _ => rfl, by decide, by decide⟩

end AflPlusPlus
