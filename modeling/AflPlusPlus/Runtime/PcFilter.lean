import AflPlusPlus.Lib.Loop
import Mathlib.Algebra.Group.Nat.Defs
import Mathlib.Data.List.Basic

/-!
# The search in the PC filter

`locate_in_pcs` of `afl-compiler-rt.o.c`: the binary search for a program counter in the ranges of
the filter file. Addresses and bounds are words of 64 bits, and a read outside the table is a run
without a result.
-/

namespace AflPlusPlus.Runtime
open Lib

structure FilterPcEntry where
  start : BitVec 64
  len : BitVec 32

/-- `__afl_filter_pcs`; its size is a number of 32 bits. -/
structure FilterPcs where
  entries : List FilterPcEntry
  size : BitVec 32
  size_eq : entries.length = size.toNat

/-- The locals of the search. `stopped` says that the loop has been left, `index` that this was a
hit. -/
structure Locate where
  lowerBound : BitVec 64
  upperBound : BitVec 64
  index : Option (BitVec 32)
  stopped : Bool

section Search

variable (pcs : FilterPcs) (needle : BitVec 64)

def Locate.start : Locate where
  lowerBound := 0#64
  upperBound := (pcs.size - 1#32).setWidth 64
  index := none
  stopped := false

def Locate.goesOn (s : Locate) : Bool :=
  !s.stopped && decide (s.lowerBound < pcs.size.setWidth 64 ∧ s.lowerBound ≤ s.upperBound)

def Locate.step (s : Locate) : Option Locate :=
  let currentIndex := s.lowerBound + (s.upperBound - s.lowerBound) / 2#64
  pcs.entries[currentIndex.toNat]?.map fun e =>
    if e.start ≤ needle then
      if e.start + e.len.setWidth 64 > needle then
        { s with index := some (currentIndex.setWidth 32), stopped := true }
      else { s with lowerBound := currentIndex + 1#64 }
    else if currentIndex = 0#64 then { s with stopped := true }
    else { s with upperBound := currentIndex - 1#64 }

/-- The index of the hit, if `locate_in_pcs` returns 1. Two more tests than there are entries are
enough for the loop. -/
def locateInPcs : Option (Option (BitVec 32)) :=
  (whileLoop (Locate.goesOn pcs) (Locate.step pcs needle) (pcs.entries.length + 2)
    (Locate.start pcs)).map Locate.index

end Search

/-! ### What is searched -/

def FilterPcEntry.Contains (e : FilterPcEntry) (pc : BitVec 64) : Prop :=
  e.start.toNat ≤ pc.toNat ∧ pc.toNat < e.start.toNat + e.len.toNat

def FilterPcs.ContainsAt (pcs : FilterPcs) (i : ℕ) (pc : BitVec 64) : Prop :=
  ∃ e, pcs.entries[i]? = some e ∧ e.Contains pc

/-- The search ends, and it finds a range with the PC when there is one. -/
def LocatesRight (pcs : FilterPcs) (needle : BitVec 64) : Prop :=
  ∃ r, locateInPcs pcs needle = some r ∧
    (r.isSome = true ↔ ∃ i, pcs.ContainsAt i needle) ∧
      ∀ i, r = some i → pcs.ContainsAt i.toNat needle

/-- Sorted by start, disjoint, and no end wraps around. -/
structure FilterPcs.Sorted (pcs : FilterPcs) : Prop where
  sorted : pcs.entries.Pairwise fun e f => e.start.toNat ≤ f.start.toNat
  disjoint : pcs.entries.Pairwise fun e f => ∀ pc, ¬ (e.Contains pc ∧ f.Contains pc)
  noOverflow : ∀ e ∈ pcs.entries, e.start.toNat + e.len.toNat < 2 ^ 64

/-- No empty range starts before the end of an earlier one. -/
def FilterPcs.EmptyApart (pcs : FilterPcs) : Prop :=
  pcs.entries.Pairwise fun e f => f.len = 0 → e.start.toNat + e.len.toNat ≤ f.start.toNat

theorem FilterPcEntry.disjoint_of_le {e f : FilterPcEntry}
    (h : e.start.toNat + e.len.toNat ≤ f.start.toNat) (pc : BitVec 64) :
    ¬ (e.Contains pc ∧ f.Contains pc) := by
  rintro ⟨⟨-, hend⟩, ⟨hstart, -⟩⟩
  omega

/-- Every range ends before the later ones start. -/
theorem FilterPcs.Sorted.apart {pcs : FilterPcs} (h : pcs.Sorted) (hempty : pcs.EmptyApart) :
    pcs.entries.Pairwise fun e f => e.start.toNat + e.len.toNat ≤ f.start.toNat := by
  refine (h.sorted.and (h.disjoint.and hempty)).imp ?_
  rintro e f ⟨hle, hdisjoint, hzero⟩
  by_cases hf : f.len = 0
  · exact hzero hf
  · have hpos : 0 < f.len.toNat := by
      rw [Nat.pos_iff_ne_zero]
      exact fun h0 => hf (BitVec.eq_of_toNat_eq h0)
    -- otherwise the later range starts inside the earlier one
    by_contra hover
    exact hdisjoint f.start ⟨⟨hle, by omega⟩, ⟨Nat.le_refl _, by omega⟩⟩

/-! ### One step -/

section Step

variable {pcs : FilterPcs} {needle : BitVec 64} {s t : Locate}

theorem toNat_mid {lo hi : BitVec 64} (h : lo ≤ hi) :
    (lo + (hi - lo) / 2#64).toNat = lo.toNat + (hi.toNat - lo.toNat) / 2 := by
  have hle : lo.toNat ≤ hi.toNat := h
  have hlt := hi.isLt
  rw [BitVec.toNat_add, BitVec.toNat_udiv, BitVec.toNat_sub_of_le h, BitVec.toNat_ofNat,
    Nat.mod_eq_of_lt (show 2 < 2 ^ 64 by decide)]
  exact Nat.mod_eq_of_lt (by omega)

theorem toNat_succ {x : BitVec 64} {n : ℕ} (h : x.toNat < n) (hn : n < 2 ^ 32) :
    (x + 1#64).toNat = x.toNat + 1 := by
  rw [BitVec.toNat_add, BitVec.toNat_ofNat]
  exact Nat.mod_eq_of_lt (by omega)

theorem toNat_pred {x : BitVec 64} (h : x ≠ 0#64) :
    (x - 1#64).toNat = x.toNat - 1 ∧ 0 < x.toNat := by
  have hpos : 0 < x.toNat := by
    rw [Nat.pos_iff_ne_zero]
    exact fun h0 => h (BitVec.eq_of_toNat_eq h0)
  have hle : 1#64 ≤ x := hpos
  exact ⟨BitVec.toNat_sub_of_le hle, hpos⟩

theorem FilterPcs.length_lt (pcs : FilterPcs) : pcs.entries.length < 2 ^ 32 := by
  rw [pcs.size_eq]
  exact pcs.size.isLt

/-- The bounds of the search stay inside the table. -/
structure Locate.InBounds (pcs : FilterPcs) (s : Locate) : Prop where
  lower : s.lowerBound.toNat ≤ pcs.entries.length
  upper : s.upperBound.toNat < pcs.entries.length ∨ pcs.entries = []

theorem Locate.toNat_start_upperBound (h : 0 < pcs.entries.length) :
    (Locate.start pcs).upperBound.toNat = pcs.entries.length - 1 := by
  have hsize := pcs.size_eq
  have hone : 1#32 ≤ pcs.size := show 1 ≤ pcs.size.toNat by omega
  rw [Locate.start, BitVec.toNat_setWidth_of_le (by decide), BitVec.toNat_sub_of_le hone, hsize]
  rfl

theorem Locate.InBounds.start : (Locate.start pcs).InBounds pcs := by
  refine ⟨Nat.zero_le _, ?_⟩
  obtain hnil | hlen := Nat.eq_zero_or_pos pcs.entries.length
  · exact Or.inr (List.eq_nil_of_length_eq_zero hnil)
  · rw [Locate.toNat_start_upperBound hlen]
    omega

theorem Locate.goesOn_iff : s.goesOn pcs = true ↔
    s.stopped = false ∧ s.lowerBound.toNat < pcs.entries.length ∧
      s.lowerBound.toNat ≤ s.upperBound.toNat := by
  have hsize : (pcs.size.setWidth 64).toNat = pcs.entries.length := by
    rw [BitVec.toNat_setWidth_of_le (by decide), pcs.size_eq]
  rw [Locate.goesOn, Bool.and_eq_true, Bool.not_eq_true', decide_eq_true_iff, BitVec.lt_def, hsize,
    BitVec.le_def]

/-- What a step that looks at entry `e`, at index `i`, can do. -/
inductive Locate.Looks (needle : BitVec 64) (s : Locate) (i : BitVec 64) (e : FilterPcEntry) :
    Locate → Prop
  | hit : e.start ≤ needle → needle < e.start + e.len.setWidth 64 →
      Looks needle s i e { s with index := some (i.setWidth 32), stopped := true }
  | below : e.start ≤ needle → e.start + e.len.setWidth 64 ≤ needle →
      Looks needle s i e { s with lowerBound := i + 1#64 }
  | first : needle < e.start → i = 0#64 → Looks needle s i e { s with stopped := true }
  | above : needle < e.start → i ≠ 0#64 → Looks needle s i e { s with upperBound := i - 1#64 }

/-- The entry is one of the table, between the bounds. -/
theorem Locate.step_looks (needle : BitVec 64) (hb : s.InBounds pcs) (h : s.goesOn pcs = true) :
    ∃ t i e, s.step pcs needle = some t ∧ pcs.entries[i.toNat]? = some e ∧
      s.lowerBound.toNat ≤ i.toNat ∧ i.toNat ≤ s.upperBound.toNat ∧
        Locate.Looks needle s i e t := by
  obtain ⟨-, hlt, hle⟩ := Locate.goesOn_iff.mp h
  have hmid : (s.lowerBound + (s.upperBound - s.lowerBound) / 2#64).toNat = _ := toNat_mid hle
  have hupper := hb.upper.resolve_right fun hnil => by simp [hnil] at hlt
  rw [Locate.step]
  generalize s.lowerBound + (s.upperBound - s.lowerBound) / 2#64 = i at hmid
  have hi : i.toNat < pcs.entries.length := by omega
  have hentry := List.getElem?_eq_getElem hi
  generalize pcs.entries[i.toNat] = e at hentry
  simp only [hentry, Option.map_some]
  refine ⟨_, i, e, rfl, hentry, by omega, by omega, ?_⟩
  split
  · next hstart =>
    split
    · next hstop => exact .hit hstart hstop
    · next hstop => exact .below hstart (BitVec.not_lt.mp hstop)
  · next hstart =>
    split
    · next hzero => exact .first (BitVec.not_le.mp hstart) hzero
    · next hzero => exact .above (BitVec.not_le.mp hstart) hzero

/-- The loop ends after fewer steps than this. -/
def Locate.remaining (pcs : FilterPcs) (s : Locate) : ℕ :=
  if s.goesOn pcs then s.upperBound.toNat + 2 - s.lowerBound.toNat else 0

theorem Locate.remaining_le (s : Locate) :
    s.remaining pcs ≤ s.upperBound.toNat + 2 - s.lowerBound.toNat := by
  rw [Locate.remaining]
  split
  · exact Nat.le_refl _
  · exact Nat.zero_le _

theorem Locate.Looks.remaining_lt {i : BitVec 64} {e : FilterPcEntry}
    (h : Locate.Looks needle s i e t) (hgo : s.goesOn pcs = true)
    (hlower : s.lowerBound.toNat ≤ i.toNat) (hupper : i.toNat ≤ s.upperBound.toNat)
    (hi : i.toNat < pcs.entries.length) : t.remaining pcs < s.remaining pcs := by
  have hlen := pcs.length_lt
  have hle : t.remaining pcs ≤ _ := t.remaining_le
  have hs : s.remaining pcs = s.upperBound.toNat + 2 - s.lowerBound.toNat := if_pos hgo
  rw [hs]
  cases h with
  | hit =>
    refine lt_of_eq_of_lt (if_neg ?_) (by omega)
    simp [Locate.goesOn]
  | below =>
    refine Nat.lt_of_le_of_lt hle ?_
    simp only [toNat_succ hi hlen]
    omega
  | first =>
    refine lt_of_eq_of_lt (if_neg ?_) (by omega)
    simp [Locate.goesOn]
  | above _ hzero =>
    obtain ⟨hpred, hpos⟩ := toNat_pred hzero
    refine Nat.lt_of_le_of_lt hle ?_
    simp only [hpred]
    omega

theorem Locate.Looks.inBounds {i : BitVec 64} {e : FilterPcEntry}
    (h : Locate.Looks needle s i e t) (hb : s.InBounds pcs) (hi : i.toNat < pcs.entries.length) :
    t.InBounds pcs := by
  have hlen := pcs.length_lt
  cases h with
  | hit => exact ⟨hb.lower, hb.upper⟩
  | below => exact ⟨show (i + 1#64).toNat ≤ _ by rw [toNat_succ hi hlen]; omega, hb.upper⟩
  | first => exact ⟨hb.lower, hb.upper⟩
  | above _ hzero =>
    exact ⟨hb.lower, Or.inl (show (i - 1#64).toNat < _ by rw [(toNat_pred hzero).1]; omega)⟩

end Step

/-! ### The whole search -/

section Run

variable {pcs : FilterPcs} {needle : BitVec 64}

/-- A range with the PC is still between the bounds, or the search has ended right. -/
structure Locate.Narrowed (pcs : FilterPcs) (needle : BitVec 64) (s : Locate) : Prop where
  going : s.stopped = false → s.index = none ∧ ∀ i, pcs.ContainsAt i needle →
    s.lowerBound.toNat ≤ i ∧ i ≤ s.upperBound.toNat
  hit : ∀ i, s.index = some i → pcs.ContainsAt i.toNat needle
  miss : s.stopped = true → s.index = none → ∀ i, ¬ pcs.ContainsAt i needle

theorem FilterPcs.ContainsAt.lt {i : ℕ} (h : pcs.ContainsAt i needle) :
    i < pcs.entries.length := by
  obtain ⟨e, he, -⟩ := h
  exact (List.getElem?_eq_some_iff.mp he).1

theorem Locate.Narrowed.start : (Locate.start pcs).Narrowed pcs needle := by
  constructor
  · intro _
    refine ⟨rfl, fun i hi => ⟨Nat.zero_le i, ?_⟩⟩
    have hlt := hi.lt
    rw [Locate.toNat_start_upperBound (by omega)]
    omega
  · intro i hi
    cases hi
  · intro h
    cases h

/-- The two facts that a look at entry `i` uses. -/
structure FilterPcs.Apart (pcs : FilterPcs) : Prop where
  sorted : pcs.entries.Pairwise fun e f => e.start.toNat ≤ f.start.toNat
  apart : pcs.entries.Pairwise fun e f => e.start.toNat + e.len.toNat ≤ f.start.toNat
  noOverflow : ∀ e ∈ pcs.entries, e.start.toNat + e.len.toNat < 2 ^ 64

section Entry

variable {i : ℕ} {e : FilterPcEntry} (ha : pcs.Apart) (he : pcs.entries[i]? = some e)

include ha he

theorem FilterPcs.Apart.toNat_stop :
    (e.start + e.len.setWidth 64).toNat = e.start.toNat + e.len.toNat := by
  have hlt := ha.noOverflow e (List.mem_of_getElem? he)
  rw [BitVec.toNat_add, BitVec.toNat_setWidth_of_le (by decide), Nat.mod_eq_of_lt hlt]

/-- What ends before the PC is not reached by going down. -/
theorem FilterPcs.Apart.none_up_to (hstop : e.start.toNat + e.len.toNat ≤ needle.toNat) {j : ℕ}
    (hj : j ≤ i) : ¬ pcs.ContainsAt j needle := by
  rintro ⟨f, hf, hstart, hend⟩
  obtain ⟨hjlt, rfl⟩ := List.getElem?_eq_some_iff.mp hf
  obtain ⟨hilt, rfl⟩ := List.getElem?_eq_some_iff.mp he
  obtain rfl | hlt := Nat.eq_or_lt_of_le hj
  · omega
  · have hapart := List.pairwise_iff_getElem.mp ha.apart j i hjlt hilt hlt
    omega

/-- What starts after the PC is not reached by going up. -/
theorem FilterPcs.Apart.none_from (hstart : needle.toNat < e.start.toNat) {j : ℕ} (hj : i ≤ j) :
    ¬ pcs.ContainsAt j needle := by
  rintro ⟨f, hf, hle, -⟩
  obtain ⟨hjlt, rfl⟩ := List.getElem?_eq_some_iff.mp hf
  obtain ⟨hilt, rfl⟩ := List.getElem?_eq_some_iff.mp he
  obtain rfl | hlt := Nat.eq_or_lt_of_le hj
  · omega
  · have hsorted := List.pairwise_iff_getElem.mp ha.sorted i j hilt hjlt hlt
    omega

end Entry

theorem Locate.Looks.narrowed {s t : Locate} {i : BitVec 64} {e : FilterPcEntry} (ha : pcs.Apart)
    (h : Locate.Looks needle s i e t) (he : pcs.entries[i.toNat]? = some e)
    (hs : s.Narrowed pcs needle) (hon : s.stopped = false) : t.Narrowed pcs needle := by
  obtain ⟨hindex, hbetween⟩ := hs.going hon
  have hilt := (List.getElem?_eq_some_iff.mp he).1
  have hlen := pcs.length_lt
  have hstop := ha.toNat_stop he
  cases h with
  | hit hle hlt =>
    have hindex32 : (i.setWidth 32).toNat = i.toNat := by
      rw [BitVec.toNat_setWidth]
      exact Nat.mod_eq_of_lt (by omega)
    rw [BitVec.lt_def, hstop] at hlt
    constructor
    · intro h
      cases h
    · rintro _ ⟨⟩
      rw [hindex32]
      exact ⟨e, he, hle, hlt⟩
    · intro _ h
      cases h
  | below hle hge =>
    rw [BitVec.le_def, hstop] at hge
    refine ⟨fun _ => ⟨hindex, fun j hj => ⟨?_, (hbetween j hj).2⟩⟩, hs.hit, fun h => ?_⟩
    · have hnot := mt (ha.none_up_to he hge (j := j)) (not_not_intro hj)
      show (i + 1#64).toNat ≤ j
      rw [toNat_succ hilt hlen]
      omega
    · exact absurd (hon.symm.trans h) Bool.false_ne_true
  | first hlt hzero =>
    refine ⟨fun h => (Bool.noConfusion h), hs.hit, fun _ _ j => ?_⟩
    refine ha.none_from he hlt ?_
    rw [hzero]
    exact Nat.zero_le j
  | above hlt hzero =>
    refine ⟨fun _ => ⟨hindex, fun j hj => ⟨(hbetween j hj).1, ?_⟩⟩, hs.hit, fun h => ?_⟩
    · have hnot := mt (ha.none_from he hlt (j := j)) (not_not_intro hj)
      show j ≤ (i - 1#64).toNat
      rw [(toNat_pred hzero).1]
      omega
    · exact absurd (hon.symm.trans h) Bool.false_ne_true

theorem Locate.remaining_start : (Locate.start pcs).remaining pcs < pcs.entries.length + 2 := by
  rw [Locate.remaining]
  split
  · next hgo =>
    have hlt := (Locate.goesOn_iff.mp hgo).2.1
    rw [Locate.toNat_start_upperBound (by omega)]
    omega
  · omega

/-- The search ends and reads only entries of the table, whatever the table is. -/
theorem locate_total (pcs : FilterPcs) (needle : BitVec 64) (P : Locate → Prop)
    (hstart : P (Locate.start pcs))
    (hstep : ∀ s i e t, P s → s.stopped = false → pcs.entries[i.toNat]? = some e →
      Locate.Looks needle s i e t → P t) :
    ∃ s, locateInPcs pcs needle = some s.index ∧ P s ∧ s.goesOn pcs = false := by
  obtain ⟨s, hs, ⟨hP, -⟩, hend⟩ := whileLoop_total (Locate.goesOn pcs) (Locate.step pcs needle)
    (fun s => P s ∧ s.InBounds pcs) (Locate.remaining pcs) ⟨hstart, .start⟩
    Locate.remaining_start (by
      rintro s ⟨hP, hb⟩ hgo
      obtain ⟨t, i, e, hstep', he, hlower, hupper, hlooks⟩ := Locate.step_looks needle hb hgo
      have hon := (Locate.goesOn_iff.mp hgo).1
      have hilt := (List.getElem?_eq_some_iff.mp he).1
      exact ⟨t, hstep', ⟨hstep s i e t hP hon he hlooks, hlooks.inBounds hb hilt⟩,
        hlooks.remaining_lt hgo hlower hupper hilt⟩)
  exact ⟨s, by rw [locateInPcs, hs, Option.map_some], hP, hend⟩

theorem FilterPcs.Apart.locates (ha : pcs.Apart) (needle : BitVec 64) :
    LocatesRight pcs needle := by
  obtain ⟨s, hs, hnarrow, hend⟩ := locate_total pcs needle (Locate.Narrowed pcs needle) .start
    fun s i e t hP hon he hlooks => hlooks.narrowed ha he hP hon
  have hmiss : s.index = none → ∀ i, ¬ pcs.ContainsAt i needle := by
    intro hnone i hi
    cases hstop : s.stopped with
    | true => exact hnarrow.miss hstop hnone i hi
    | false =>
      -- the bounds have crossed
      have hbetween := (hnarrow.going hstop).2 i hi
      have hlt := hi.lt
      have hgo : s.goesOn pcs = true := Locate.goesOn_iff.mpr ⟨hstop, by omega, by omega⟩
      rw [hend] at hgo
      cases hgo
  refine ⟨s.index, hs, ⟨fun hsome => ?_, fun ⟨i, hi⟩ => ?_⟩, hnarrow.hit⟩
  · obtain ⟨i, hi⟩ := Option.isSome_iff_exists.mp hsome
    exact ⟨i.toNat, hnarrow.hit i hi⟩
  · rw [← Option.ne_none_iff_isSome]
    intro hnone
    exact hmiss hnone i hi

theorem locatesRight (hsorted : pcs.Sorted) (hempty : pcs.EmptyApart) (needle : BitVec 64) :
    LocatesRight pcs needle :=
  FilterPcs.Apart.locates ⟨hsorted.sorted, hsorted.apart hempty, hsorted.noOverflow⟩ needle

theorem locatesRight_three : LocatesRight
    ⟨[⟨0x1000, 16⟩, ⟨0x1010, 0⟩, ⟨0x1020, 8⟩], 3, rfl⟩ 0x1024 := by
  refine locatesRight ⟨?_, ?_, ?_⟩ ?_ _
  · decide
  · have happart : [(⟨0x1000, 16⟩ : FilterPcEntry), ⟨0x1010, 0⟩, ⟨0x1020, 8⟩].Pairwise
        fun e f => e.start.toNat + e.len.toNat ≤ f.start.toNat := by
      decide
    exact happart.imp FilterPcEntry.disjoint_of_le
  · decide
  · rw [FilterPcs.EmptyApart]
    decide

/-- Two empty ranges inside another one hide it. -/
theorem not_locatesRight_empty : ∃ pcs : FilterPcs, pcs.Sorted ∧ ¬ LocatesRight pcs 0x1007 := by
  refine ⟨⟨[⟨0x1000, 16⟩, ⟨0x1004, 0⟩, ⟨0x1004, 0⟩], 3, rfl⟩, ⟨by decide, ?_, by decide⟩, ?_⟩
  · simp [FilterPcEntry.Contains]
  · rintro ⟨r, hr, hfound, -⟩
    have hrun : locateInPcs ⟨[⟨0x1000, 16⟩, ⟨0x1004, 0⟩, ⟨0x1004, 0⟩], 3, rfl⟩ 0x1007 =
        some none := by
      decide
    obtain rfl := Option.some.inj (hrun.symm.trans hr)
    have hcontains := hfound.mpr ⟨0, ⟨0x1000, 16⟩, rfl, by decide, by decide⟩
    cases hcontains

end Run

end AflPlusPlus.Runtime
