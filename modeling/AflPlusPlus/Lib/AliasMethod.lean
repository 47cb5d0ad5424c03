import Mathlib.Algebra.BigOperators.Field
import Mathlib.Algebra.Order.BigOperators.Group.Finset
import Mathlib.Data.Finset.Basic
import Mathlib.Order.Lattice
import Mathlib.Tactic.Ring
import Mathlib.Tactic.Linarith

/-!
# The alias method

Every slot starts with a share, and all shares together are as many as there are slots. A slot with
less than one is filled up from a slot with at least one, which becomes its alias and keeps the
rest. What a slot keeps, together with what it gives to the slots whose alias it is, is what it
started with; and in the end no share is open that differs from one.
-/

namespace Lib
open Finset

/-- The open slots with a share below one, the other open slots, what every slot has left of its
share, and the aliases. -/
structure Deal (ι K : Type*) where
  small : List ι
  large : List ι
  share : ι → K
  aliasOf : ι → ι

namespace Deal

section Tops

variable {ι K : Type*} {d : Deal ι K} {s l : ι} {small large : List ι}

/-- The slots that have not been filled. -/
def slots (d : Deal ι K) : List ι := d.small ++ d.large

/-- The slots at the top of the stacks. -/
structure Tops (d : Deal ι K) (s l : ι) (small large : List ι) : Prop where
  small : d.small = s :: small
  large : d.large = l :: large

theorem Tops.slots (h : d.Tops s l small large) : d.slots = s :: (small ++ l :: large) := by
  rw [Deal.slots, h.small, h.large]
  rfl

theorem Tops.mem_small (h : d.Tops s l small large) : s ∈ d.slots := by
  rw [h.slots]
  exact List.mem_cons_self

theorem Tops.mem_large (h : d.Tops s l small large) : l ∈ d.slots := by
  rw [h.slots]
  simp

end Tops

variable {ι K : Type*} [Field K] [LinearOrder K]

/-- An open slot goes to one of the stacks. -/
def put (d : Deal ι K) (i : ι) : Deal ι K :=
  if d.share i < 1 then { d with small := i :: d.small } else { d with large := i :: d.large }

section Put

variable {d : Deal ι K} {i : ι}

theorem put_slots (d : Deal ι K) (i : ι) : (d.put i).slots.Perm (i :: d.slots) := by
  unfold put slots
  split
  · exact List.Perm.refl _
  · exact List.perm_middle

@[simp]
theorem put_share (d : Deal ι K) (i : ι) : (d.put i).share = d.share := by
  unfold put
  split <;> rfl

@[simp]
theorem put_aliasOf (d : Deal ι K) (i : ι) : (d.put i).aliasOf = d.aliasOf := by
  unfold put
  split <;> rfl

theorem put_small (h : ∀ j ∈ d.small, d.share j < 1) :
    ∀ j ∈ (d.put i).small, (d.put i).share j < 1 := by
  rw [put_share]
  unfold put
  split
  · rename_i hi
    exact List.forall_mem_cons.mpr ⟨hi, h⟩
  · exact h

theorem put_large (h : ∀ j ∈ d.large, 1 ≤ d.share j) :
    ∀ j ∈ (d.put i).large, 1 ≤ (d.put i).share j := by
  rw [put_share]
  unfold put
  split
  · exact h
  · rename_i hi
    exact List.forall_mem_cons.mpr ⟨not_lt.mp hi, h⟩

end Put

variable [DecidableEq ι]

/-- The slot `s` is filled up from the slot `l`, and `l` is looked at again. -/
def fill (d : Deal ι K) (s l : ι) (small large : List ι) : Deal ι K :=
  put ⟨small, large, Function.update d.share l (d.share l - (1 - d.share s)),
    Function.update d.aliasOf s l⟩ l

/-- What `i` gives to the slot `j`. -/
def gift (d : Deal ι K) (i j : ι) : K :=
  if j ∉ d.slots ∧ d.aliasOf j = i then 1 - d.share j else 0

/-- What an open slot has too much. -/
def excess (d : Deal ι K) (j : ι) : K := if j ∈ d.slots then d.share j - 1 else 0

/-- The invariant, for the slots `all` and the shares `weight` at the start. -/
structure Fair (all : Finset ι) (weight : ι → K) (d : Deal ι K) : Prop where
  nodup : d.slots.Nodup
  mem : ∀ i ∈ d.slots, i ∈ all
  small : ∀ i ∈ d.small, d.share i < 1
  large : ∀ i ∈ d.large, 1 ≤ d.share i
  nonneg : ∀ i ∈ all, 0 ≤ d.share i
  closed : ∀ i ∈ all, i ∉ d.slots → d.share i < 1
  aliased : ∀ i ∈ all, d.aliasOf i ∈ all
  balanced : ∑ j ∈ all, d.excess j = 0
  conserved : ∀ i ∈ all, d.share i + ∑ j ∈ all, d.gift i j = weight i

section Fill

variable {all : Finset ι} {weight : ι → K} {d : Deal ι K} {s l : ι} {small large : List ι}

@[simp]
theorem fill_share (d : Deal ι K) (s l : ι) (small large : List ι) :
    (d.fill s l small large).share =
      Function.update d.share l (d.share l - (1 - d.share s)) := put_share _ l

@[simp]
theorem fill_aliasOf (d : Deal ι K) (s l : ι) (small large : List ι) :
    (d.fill s l small large).aliasOf = Function.update d.aliasOf s l := put_aliasOf _ l

theorem fill_slots (d : Deal ι K) (s l : ι) (small large : List ι) :
    (d.fill s l small large).slots.Perm (small ++ l :: large) :=
  (put_slots _ l).trans List.perm_middle.symm

theorem Tops.mem_fill (h : d.Tops s l small large) (hnodup : d.slots.Nodup) (j : ι) :
    j ∈ (d.fill s l small large).slots ↔ j ∈ d.slots ∧ j ≠ s := by
  rw [h.slots, List.nodup_cons] at hnodup
  rw [(fill_slots d s l small large).mem_iff, h.slots, List.mem_cons]
  constructor
  · intro hj
    refine ⟨Or.inr hj, ?_⟩
    rintro rfl
    exact hnodup.1 hj
  · rintro ⟨rfl | hj, hne⟩
    · exact absurd rfl hne
    · exact hj

theorem Fair.length_le (h : Fair all weight d) : d.slots.length ≤ all.card := by
  rw [← List.toFinset_card_of_nodup h.nodup]
  exact card_le_card fun i hi => h.mem i (List.mem_toFinset.mp hi)

/-- The slot that is filled up and the slot it is filled up from. -/
theorem Fair.tops (h : Fair all weight d) (ht : d.Tops s l small large) :
    d.share s < 1 ∧ 1 ≤ d.share l ∧ s ≠ l ∧ l ∉ large := by
  have hs : d.share s < 1 := h.small s (by rw [ht.small]; exact List.mem_cons_self)
  have hl : 1 ≤ d.share l := h.large l (by rw [ht.large]; exact List.mem_cons_self)
  refine ⟨hs, hl, ?_, ?_⟩
  · rintro rfl
    exact absurd hl (not_le.mpr hs)
  · have hnodup := (List.nodup_append.mp h.nodup).2.1
    rw [ht.large] at hnodup
    exact (List.nodup_cons.mp hnodup).1

theorem Fair.fill_excess (h : Fair all weight d) (ht : d.Tops s l small large) (j : ι) :
    (d.fill s l small large).excess j =
      d.excess j + ((if j = s then 1 - d.share s else 0) - if j = l then 1 - d.share s else 0) := by
  have hmem := ht.mem_fill h.nodup j
  obtain ⟨-, -, hne, -⟩ := h.tops ht
  unfold excess
  rw [fill_share]
  by_cases hs : j = s
  · subst hs
    rw [if_neg (fun hj => (hmem.mp hj).2 rfl), if_pos ht.mem_small, if_pos rfl, if_neg hne]
    ring
  · by_cases hl : j = l
    · subst hl
      rw [if_pos (hmem.mpr ⟨ht.mem_large, hs⟩), if_pos ht.mem_large, if_neg hs, if_pos rfl,
        Function.update_self]
      ring
    · rw [if_neg hs, if_neg hl, Function.update_of_ne hl]
      simp only [hmem, hs, ne_eq, not_false_eq_true, and_true, sub_zero, add_zero]

theorem Fair.fill_gift (h : Fair all weight d) (ht : d.Tops s l small large) (i j : ι) :
    (d.fill s l small large).gift i j =
      d.gift i j + if j = s then (if l = i then 1 - d.share s else 0) else 0 := by
  have hmem := ht.mem_fill h.nodup j
  obtain ⟨-, -, hne, -⟩ := h.tops ht
  unfold gift
  simp only [fill_share, fill_aliasOf, hmem]
  by_cases hs : j = s
  · subst hs
    rw [if_pos rfl, Function.update_self, Function.update_of_ne hne]
    simp only [ne_eq, not_true_eq_false, and_false, not_false_eq_true, true_and, ht.mem_small,
      false_and, if_false, zero_add]
  · rw [if_neg hs, Function.update_of_ne hs, add_zero]
    simp only [hs, ne_eq, not_false_eq_true, and_true]
    by_cases hj : j ∈ d.slots
    · simp only [hj, not_true_eq_false, false_and, if_false]
    · have hl : j ≠ l := by
        rintro rfl
        exact hj ht.mem_large
      rw [Function.update_of_ne hl]

theorem Tops.length_fill (h : d.Tops s l small large) :
    (d.fill s l small large).slots.length < d.slots.length := by
  rw [(fill_slots d s l small large).length_eq, h.slots]
  exact Nat.lt_succ_self _

variable [IsStrictOrderedRing K]

/-- Filling one slot keeps the invariant. -/
theorem Fair.fill (h : Fair all weight d) (ht : d.Tops s l small large) :
    Fair all weight (d.fill s l small large) := by
  obtain ⟨hs, hl, hne, hfresh⟩ := h.tops ht
  have hsall := h.mem s ht.mem_small
  have hlall := h.mem l ht.mem_large
  have hmem := ht.mem_fill h.nodup
  refine ⟨?_, ?_, ?_, ?_, ?_, ?_, ?_, ?_, ?_⟩
  · have hnodup := h.nodup
    rw [ht.slots, List.nodup_cons] at hnodup
    exact (fill_slots d s l small large).nodup_iff.mpr hnodup.2
  · exact fun j hj => h.mem j ((hmem j).mp hj).1
  · refine put_small fun j hj => ?_
    have hlt := h.small j (by rw [ht.small]; exact List.mem_cons_of_mem _ hj)
    -- a small slot is not the one that gave
    have hjl : j ≠ l := by
      rintro rfl
      exact absurd hl (not_le.mpr hlt)
    change Function.update d.share l _ j < 1
    rw [Function.update_of_ne hjl]
    exact hlt
  · refine put_large fun j hj => ?_
    have hjl : j ≠ l := by
      rintro rfl
      exact hfresh hj
    change 1 ≤ Function.update d.share l _ j
    rw [Function.update_of_ne hjl]
    exact h.large j (by rw [ht.large]; exact List.mem_cons_of_mem _ hj)
  · intro i hi
    rw [fill_share]
    by_cases hil : i = l
    · -- `l` had at least one and gives at most one
      rw [hil, Function.update_self]
      linarith [h.nonneg s hsall]
    · rw [Function.update_of_ne hil]
      exact h.nonneg i hi
  · intro i hi hclosed
    rw [fill_share]
    -- filled is `s`, or what was filled before
    by_cases his : i = s
    · rw [his, Function.update_of_ne hne]
      exact hs
    · have hold : i ∉ d.slots := fun hin => hclosed ((hmem i).mpr ⟨hin, his⟩)
      have hil : i ≠ l := by
        rintro rfl
        exact hold ht.mem_large
      rw [Function.update_of_ne hil]
      exact h.closed i hi hold
  · intro i hi
    rw [fill_aliasOf]
    by_cases his : i = s
    · rw [his, Function.update_self]
      exact hlall
    · rw [Function.update_of_ne his]
      exact h.aliased i hi
  · -- one slot has more, and another one has less by the same
    have hsum := h.balanced
    simp only [h.fill_excess ht, sum_add_distrib, sum_sub_distrib, sum_ite_eq', hsall, hlall,
      if_true]
    linarith
  · intro i hi
    have hsum := h.conserved i hi
    simp only [h.fill_gift ht, fill_share, sum_add_distrib, sum_ite_eq', hsall, if_true]
    -- what `l` has lost is what it gives to `s`
    by_cases hil : l = i
    · subst hil
      rw [Function.update_self, if_pos rfl]
      linarith
    · rw [Function.update_of_ne (Ne.symm hil), if_neg hil, add_zero]
      exact hsum

end Fill

/-! ### The start and the end -/

variable {all : Finset ι} {weight : ι → K} {d : Deal ι K}

/-- At the start every slot is open, and the shares are as many as the slots. -/
theorem fair_start (hnodup : d.slots.Nodup) (hmem : ∀ i, i ∈ d.slots ↔ i ∈ all)
    (hsmall : ∀ i ∈ d.small, d.share i < 1) (hlarge : ∀ i ∈ d.large, 1 ≤ d.share i)
    (hnonneg : ∀ i ∈ all, 0 ≤ d.share i) (haliased : ∀ i ∈ all, d.aliasOf i ∈ all)
    (hsum : ∑ i ∈ all, d.share i = all.card) : Fair all d.share d := by
  have hexcess : ∀ i ∈ all, d.excess i = d.share i - 1 := fun i hi => if_pos ((hmem i).mpr hi)
  have hgift : ∀ i, ∀ j ∈ all, d.gift i j = 0 := fun i j hj =>
    if_neg fun h => h.1 ((hmem j).mpr hj)
  refine ⟨hnodup, fun i hi => (hmem i).mp hi, hsmall, hlarge, hnonneg, ?_, haliased, ?_, ?_⟩
  · exact fun i hi hclosed => absurd ((hmem i).mpr hi) hclosed
  · rw [sum_congr rfl hexcess, sum_sub_distrib, hsum, sum_const, nsmul_one, sub_self]
  · intro i _
    rw [sum_eq_zero (hgift i), add_zero]

variable [IsStrictOrderedRing K]

/-- When one of the stacks is empty, only shares of exactly one are left. -/
theorem Fair.rest (h : Fair all weight d) (hend : d.small = [] ∨ d.large = []) :
    d.small = [] ∧ ∀ i ∈ d.slots, d.share i = 1 := by
  have hsmall : d.small = [] := by
    by_contra hne
    have hlarge : d.large = [] := hend.resolve_left hne
    -- with nothing but small slots the excesses could not add up to zero
    obtain ⟨s, hs⟩ := List.exists_mem_of_ne_nil _ hne
    have hmem : ∀ i, i ∈ d.slots ↔ i ∈ d.small := by
      intro i
      rw [slots, hlarge, List.append_nil]
    have hneg : ∑ j ∈ all, d.excess j < ∑ j ∈ all, (0 : K) := by
      refine sum_lt_sum (fun j _ => ?_) ⟨s, h.mem s ((hmem s).mpr hs), ?_⟩
      · unfold excess
        split
        · rename_i hj
          linarith [h.small j ((hmem j).mp hj)]
        · exact le_refl _
      · rw [excess, if_pos ((hmem s).mpr hs)]
        linarith [h.small s hs]
    rw [h.balanced, sum_const_zero] at hneg
    exact lt_irrefl _ hneg
  have hlarge : ∀ i ∈ d.slots, 1 ≤ d.share i := by
    intro i hi
    rw [slots, hsmall, List.nil_append] at hi
    exact h.large i hi
  refine ⟨hsmall, fun i hi => ?_⟩
  -- with nothing but large slots no excess is negative, so all are zero
  have hzero : d.excess i = 0 := by
    refine (sum_eq_zero_iff_of_nonneg fun j _ => ?_).mp h.balanced i (h.mem i hi)
    unfold excess
    split
    · rename_i hj
      exact sub_nonneg.mpr (hlarge j hj)
    · exact le_refl _
  rw [excess, if_pos hi] at hzero
  exact sub_eq_zero.mp hzero

/-- In the end every slot has been dealt what it started with. -/
theorem Fair.dealt (h : Fair all weight d) (hend : d.small = [] ∨ d.large = []) {i : ι}
    (hi : i ∈ all) :
    d.share i + ∑ j ∈ all, (if d.aliasOf j = i then 1 - d.share j else 0) = weight i := by
  rw [← h.conserved i hi]
  congr 1
  refine sum_congr rfl fun j _ => ?_
  unfold gift
  by_cases hj : j ∈ d.slots
  · rw [(h.rest hend).2 j hj, sub_self, ite_self, ite_self]
  · simp only [hj, not_false_eq_true, true_and]

theorem Fair.share_le_one (h : Fair all weight d) (hend : d.small = [] ∨ d.large = []) {i : ι}
    (hi : i ∈ all) : d.share i ≤ 1 := by
  by_cases hopen : i ∈ d.slots
  · exact ((h.rest hend).2 i hopen).le
  · exact (h.closed i hi hopen).le

end Deal

end Lib
