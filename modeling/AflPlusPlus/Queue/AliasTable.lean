import AflPlusPlus.Lib.AliasMethod
import AflPlusPlus.Lib.Loop
import AflPlusPlus.Queue.State
import Mathlib.MeasureTheory.Measure.Lebesgue.Basic
import Mathlib.MeasureTheory.Measure.Real

/-!
# The alias table

The last part of `create_alias_table` turns the vector `P` into a table of probabilities and
aliases, from which `select_next_queue_entry` draws an entry in constant time. The entries wait on
two stacks that grow towards each other. Doubles are read as exact rationals, and an access to one
of the arrays outside of its `n` elements makes the function fail.
-/

namespace AflPlusPlus
open Lib Finset

/-- The arrays of `create_alias_table` and the two stack counters. -/
structure AliasTables where
  P : ℕ → ℚ
  small : ℕ → U32 := fun _ => 0
  large : ℕ → U32 := fun _ => 0
  nSmall : U32 := 0
  nLarge : U32
  aliasProbability : ℕ → ℚ := fun _ => 0
  aliasTable : ℕ → U32 := fun _ => 0
  /-- Ghost: `alias_probability` has been written. -/
  filled : ℕ → Bool := fun _ => false

/-- `a[i]` for an array of `n` elements. -/
def readAt {α : Type} (n : U32) (a : ℕ → α) (i : U32) : Option α :=
  if i < n then some (a i.toNat) else none

/-- `a[i] = x` for an array of `n` elements. -/
def writeAt {α : Type} (n : U32) (a : ℕ → α) (i : U32) (x : α) : Option (ℕ → α) :=
  if i < n then some (Function.update a i.toNat x) else none

namespace AliasTables

/-- The slot `i` is pushed to `Small` or to `Large`. -/
def push (n i : U32) (t : AliasTables) : Option AliasTables := do
  let p ← readAt n t.P i
  if p < 1 then
    let small ← writeAt n t.small t.nSmall i
    return { t with small := small, nSmall := t.nSmall + 1 }
  else
    let large ← writeAt n t.large t.nLarge i
    return { t with large := large, nLarge := t.nLarge - 1 }

/-- `for (s32 j = (s32)(n - 1); j >= 0; j--)`. -/
def fillStacks (n : U32) (t : AliasTables) : Option AliasTables :=
  downLoop ((n - 1).toInt + 1).toNat (fun j t => t.bind (push n (BitVec.ofNat 32 j))) (some t)

/-- The body of `while (nSmall && nLarge != n - 1)`. -/
def mix (n : U32) (t : AliasTables) : Option AliasTables := do
  let small ← readAt n t.small (t.nSmall - 1)
  let large ← readAt n t.large (t.nLarge + 1)
  let pSmall ← readAt n t.P small
  let aliasProbability ← writeAt n t.aliasProbability small pSmall
  let aliasTable ← writeAt n t.aliasTable small large
  let pLarge ← readAt n t.P large
  let P ← writeAt n t.P large (pLarge - (1 - pSmall))
  push n large { t with
    P := P
    nSmall := t.nSmall - 1
    nLarge := t.nLarge + 1
    aliasProbability := aliasProbability
    aliasTable := aliasTable
    filled := Function.update t.filled small.toNat true }

/-- The body of `while (nSmall)`. -/
def drainSmall (n : U32) (t : AliasTables) : Option AliasTables := do
  let small ← readAt n t.small (t.nSmall - 1)
  let aliasProbability ← writeAt n t.aliasProbability small 1
  return { t with
    nSmall := t.nSmall - 1
    aliasProbability := aliasProbability
    filled := Function.update t.filled small.toNat true }

/-- The body of `while (nLarge != n - 1)`. -/
def drainLarge (n : U32) (t : AliasTables) : Option AliasTables := do
  let large ← readAt n t.large (t.nLarge + 1)
  let aliasProbability ← writeAt n t.aliasProbability large 1
  return { t with
    nLarge := t.nLarge + 1
    aliasProbability := aliasProbability
    filled := Function.update t.filled large.toNat true }

end AliasTables

/-- "Done collecting weightings in P, now create the arrays." The loops get one test more than there
are slots. -/
def createAliasTable (n : U32) (P : ℕ → ℚ) : Option AliasTables := do
  let t ← AliasTables.fillStacks n { P := P, nLarge := n - 1 }
  let t ← whileLoop (fun t => t.nSmall ≠ 0 && t.nLarge ≠ n - 1) (AliasTables.mix n) (n.toNat + 1) t
  let t ← whileLoop (fun t => t.nSmall ≠ 0) (AliasTables.drainSmall n) (n.toNat + 1) t
  whileLoop (fun t => t.nLarge ≠ n - 1) (AliasTables.drainLarge n) (n.toNat + 1) t

/-- `select_next_queue_entry` for the slot `s` and the random number `p`. -/
def AliasTables.selectNextQueueEntry {K : Type*} [Field K] [LinearOrder K] (t : AliasTables) (s : ℕ)
    (p : K) : ℕ :=
  if p < (t.aliasProbability s : K) then s else (t.aliasTable s).toNat

open MeasureTheory in
/-- The probability that entry `e` is selected, for a slot and a number in the unit interval that
are chosen uniformly. A single number, such as the 1 that `rand_next_percent` can return, has no
weight. -/
noncomputable def AliasTables.selectionProbability (n : U32) (t : AliasTables) (e : ℕ) : ℝ :=
  (∑ s ∈ range n.toNat,
    volume.real {p : ℝ | p ∈ Set.Ico 0 1 ∧ t.selectNextQueueEntry s p = e}) / n.toNat

/-! ### The two stacks -/

/-- The slots on the stack that grows upwards, topmost first. -/
structure SmallStack (a : ℕ → U32) (top : U32) (l : List ℕ) : Prop where
  top : top.toNat = l.length
  slots : l = ((List.range l.length).map fun k => (a k).toNat).reverse

/-- The slots on the stack that grows downwards from the end of an array of `n` elements. -/
structure LargeStack (n : U32) (a : ℕ → U32) (top : U32) (l : List ℕ) : Prop where
  length_le : l.length ≤ n.toNat
  top : top = n - 1 - BitVec.ofNat 32 l.length
  slots : l = (List.range l.length).map fun k => (a (n.toNat - l.length + k)).toNat

section Stacks

variable {n top : U32} {a : ℕ → U32} {l : List ℕ} {x : ℕ}

theorem SmallStack.empty_iff (h : SmallStack a top l) : top = 0 ↔ l = [] := by
  rw [← List.length_eq_zero_iff, ← h.top]
  constructor
  · rintro rfl
    rfl
  · exact fun hzero => BitVec.eq_of_toNat_eq hzero

theorem SmallStack.push (h : SmallStack a top l) (hroom : l.length < 2 ^ 32 - 1) (i : U32) :
    SmallStack (Function.update a top.toNat i) (top + 1) (i.toNat :: l) := by
  have htop := h.top
  refine ⟨?_, ?_⟩
  · rw [List.length_cons]
    bv_omega
  · rw [List.length_cons, List.range_succ, List.map_append, List.reverse_append, htop]
    simp only [List.map_cons, List.map_nil, List.reverse_singleton, Function.update_self,
      List.singleton_append]
    congr 1
    conv_lhs => rw [h.slots]
    congr 1
    -- the slots below lie at smaller indices
    refine List.map_congr_left fun k hk => ?_
    rw [Function.update_of_ne (List.mem_range.mp hk).ne]

/-- The topmost slot and the stack below it. -/
theorem SmallStack.pop (h : SmallStack a top (x :: l)) :
    (top - 1).toNat = l.length ∧ (a (top - 1).toNat).toNat = x ∧ SmallStack a (top - 1) l := by
  have hlength : (top - 1).toNat = l.length := by
    have htop := h.top
    rw [List.length_cons] at htop
    bv_omega
  have hslots := h.slots
  rw [List.length_cons, List.range_succ, List.map_append, List.reverse_append] at hslots
  simp only [List.map_cons, List.map_nil, List.reverse_singleton, List.singleton_append,
    List.cons.injEq] at hslots
  refine ⟨hlength, ?_, hlength, hslots.2⟩
  rw [hlength]
  exact hslots.1.symm

theorem LargeStack.empty_iff (h : LargeStack n a top l) : top = n - 1 ↔ l = [] := by
  have htop := h.top
  have hlength := h.length_le
  rw [← List.length_eq_zero_iff]
  constructor
  · intro heq
    bv_omega
  · intro hzero
    rw [htop, hzero]
    bv_omega

theorem LargeStack.top_toNat (h : LargeStack n a top l) (hroom : l.length < n.toNat) :
    top.toNat = n.toNat - 1 - l.length := by
  have htop := h.top
  bv_omega

theorem LargeStack.push (h : LargeStack n a top l) (hroom : l.length < n.toNat) (i : U32) :
    LargeStack n (Function.update a top.toNat i) (top - 1) (i.toNat :: l) := by
  have htop := h.top_toNat hroom
  refine ⟨hroom, ?_, ?_⟩
  · rw [List.length_cons, h.top]
    bv_omega
  · rw [List.length_cons, List.range_succ_eq_map, List.map_cons, List.map_map]
    congr 1
    · rw [show n.toNat - (l.length + 1) + 0 = top.toNat by omega, Function.update_self]
    · conv_lhs => rw [h.slots]
      -- the slots below lie at larger indices
      refine List.map_congr_left fun k _ => ?_
      have hindex : n.toNat - (l.length + 1) + k.succ = n.toNat - l.length + k := by omega
      rw [Function.comp_apply, hindex, Function.update_of_ne (by omega)]

theorem LargeStack.pop (h : LargeStack n a top (x :: l)) :
    (top + 1).toNat < n.toNat ∧ (a (top + 1).toNat).toNat = x ∧ LargeStack n a (top + 1) l := by
  have hlength := h.length_le
  have htop := h.top
  rw [List.length_cons] at hlength htop
  have hnat : (top + 1).toNat = n.toNat - (l.length + 1) := by bv_omega
  have hslots := h.slots
  rw [List.length_cons, List.range_succ_eq_map, List.map_cons, List.map_map,
    List.cons.injEq] at hslots
  refine ⟨by omega, ?_, by omega, ?_, ?_⟩
  · rw [hnat]
    exact hslots.1.symm
  · rw [htop]
    bv_omega
  · conv_lhs => rw [hslots.2]
    refine List.map_congr_left fun k _ => ?_
    have hindex : n.toNat - (l.length + 1) + k.succ = n.toNat - l.length + k := by omega
    rw [Function.comp_apply, hindex]

end Stacks

/-! ### The tables while they are built -/

theorem readAt_of_lt {α : Type} {n i : U32} (a : ℕ → α) (h : i.toNat < n.toNat) :
    readAt n a i = some (a i.toNat) := if_pos h

theorem writeAt_of_lt {α : Type} {n i : U32} (a : ℕ → α) (x : α) (h : i.toNat < n.toNat) :
    writeAt n a i x = some (Function.update a i.toNat x) := if_pos h

/-- The tables hold the stacks, the shares and the aliases of a deal. -/
structure AliasTables.Holds (n : U32) (t : AliasTables) (d : Deal ℕ ℚ) : Prop where
  small : SmallStack t.small t.nSmall d.small
  large : LargeStack n t.large t.nLarge d.large
  share : t.P = d.share
  aliasOf : ∀ i, (t.aliasTable i).toNat = d.aliasOf i

/-- The probabilities of the slots that have been filled. -/
def AliasTables.Closed (n : U32) (t : AliasTables) (d : Deal ℕ ℚ) : Prop :=
  ∀ i < n.toNat, i ∉ d.slots → t.filled i = true ∧ t.aliasProbability i = d.share i

section Build

variable {n : U32} {t : AliasTables} {d : Deal ℕ ℚ} {weight : ℕ → ℚ}

theorem AliasTables.Holds.push (h : t.Holds n d) {i : U32} (hi : i.toNat < n.toNat)
    (hroom : d.slots.length < n.toNat) :
    ∃ u, t.push n i = some u ∧ u.Holds n (d.put i.toNat) ∧ u.filled = t.filled ∧
      u.aliasProbability = t.aliasProbability := by
  rw [Deal.slots, List.length_append] at hroom
  have hsmall := h.small.top
  have hlarge := h.large.top_toNat (by omega)
  have hn := n.isLt
  unfold AliasTables.push Deal.put
  rw [readAt_of_lt _ hi, ← h.share]
  simp only [Option.bind_eq_bind, Option.bind_some]
  by_cases hp : t.P i.toNat < 1
  · rw [if_pos hp, if_pos hp, writeAt_of_lt _ _ (by omega)]
    exact ⟨_, rfl, ⟨h.small.push (by omega) i, h.large, rfl, h.aliasOf⟩, rfl, rfl⟩
  · rw [if_neg hp, if_neg hp, writeAt_of_lt _ _ (by omega)]
    exact ⟨_, rfl, ⟨h.small, h.large.push (by omega) i, rfl, h.aliasOf⟩, rfl, rfl⟩

/-- All slots from `k` on are on the stacks. -/
structure Stacked (n : U32) (P : ℕ → ℚ) (k : ℕ) (d : Deal ℕ ℚ) : Prop where
  share : d.share = P
  nodup : d.slots.Nodup
  mem : ∀ i, i ∈ d.slots ↔ k ≤ i ∧ i < n.toNat
  small : ∀ i ∈ d.small, d.share i < 1
  large : ∀ i ∈ d.large, 1 ≤ d.share i
  aliasOf : d.aliasOf = fun _ => 0

theorem Stacked.put {P : ℕ → ℚ} {k : ℕ} (h : Stacked n P (k + 1) d) (hk : k < n.toNat) :
    Stacked n P k (d.put k) := by
  have hperm := Deal.put_slots d k
  refine ⟨(Deal.put_share d k).trans h.share, ?_, fun i => ?_, Deal.put_small h.small,
    Deal.put_large h.large, (Deal.put_aliasOf d k).trans h.aliasOf⟩
  · rw [hperm.nodup_iff, List.nodup_cons]
    exact ⟨fun hmem => Nat.not_succ_le_self k ((h.mem k).mp hmem).1, h.nodup⟩
  · rw [hperm.mem_iff, List.mem_cons, h.mem]
    omega

theorem Stacked.length_lt {P : ℕ → ℚ} {k : ℕ} (h : Stacked n P (k + 1) d) (hk : k < n.toNat) :
    d.slots.length < n.toNat := by
  have hput := h.put hk
  have hlength : (d.put k).slots.length ≤ (range n.toNat).card := by
    rw [← List.toFinset_card_of_nodup hput.nodup]
    exact card_le_card fun i hi =>
      mem_range.mpr ((hput.mem i).mp (List.mem_toFinset.mp hi)).2
  rw [(Deal.put_slots d k).length_eq, List.length_cons, card_range] at hlength
  exact hlength

/-- How often the first loop runs. -/
theorem fillStacks_count (hpos : n ≠ 0) :
    ((n - 1).toInt + 1).toNat = if n.toNat ≤ 2 ^ 31 then n.toNat else 0 := by
  have hzero : n.toNat ≠ 0 := fun h => hpos (BitVec.eq_of_toNat_eq h)
  have hsub : (n - 1).toNat = n.toNat - 1 := by bv_omega
  -- read as a signed integer `n - 1` is negative from `2 ^ 31` on
  rw [BitVec.toInt_eq_toNat_cond]
  split <;> split <;> omega

/-- The first loop, for a number of slots that fits a signed integer. -/
theorem fillStacks_holds (P : ℕ → ℚ) (hpos : n ≠ 0) (hn : n.toNat ≤ 2 ^ 31) :
    ∃ t d, AliasTables.fillStacks n { P := P, nLarge := n - 1 } = some t ∧ t.Holds n d ∧
      Stacked n P 0 d := by
  unfold AliasTables.fillStacks
  rw [fillStacks_count hpos, if_pos hn]
  refine downLoop_induct
    (fun k t => ∃ (u : AliasTables) (d : Deal ℕ ℚ), t = some u ∧ u.Holds n d ∧ Stacked n P k d)
    ⟨_, ⟨[], [], P, fun _ => 0⟩, rfl, ?_, ?_⟩ ?_
  · exact ⟨⟨rfl, rfl⟩, ⟨Nat.zero_le _, (BitVec.sub_zero (n - 1)).symm, rfl⟩, rfl, fun _ => rfl⟩
  · refine ⟨rfl, List.nodup_nil, fun i => ?_, fun i hi => absurd hi List.not_mem_nil,
      fun i hi => absurd hi List.not_mem_nil, rfl⟩
    exact iff_of_false List.not_mem_nil (by omega)
  · rintro k t hk ⟨u, d, rfl, hholds, hstacked⟩
    have hindex : (BitVec.ofNat 32 k).toNat = k := by
      rw [BitVec.toNat_ofNat, Nat.mod_eq_of_lt (hk.trans n.isLt)]
    obtain ⟨v, hv, hput, -⟩ := hholds.push (i := BitVec.ofNat 32 k) (by omega)
      (hstacked.length_lt hk)
    rw [hindex] at hput
    exact ⟨v, d.put k, hv, hput, hstacked.put hk⟩

/-- The body of the second loop fills the topmost small slot. -/
theorem mix_holds (h : t.Holds n d) (hclosed : t.Closed n d) (hfair : d.Fair (range n.toNat) weight)
    {s l : ℕ} {small large : List ℕ} (ht : d.Tops s l small large) :
    ∃ u, t.mix n = some u ∧ u.Holds n (d.fill s l small large) ∧
      u.Closed n (d.fill s l small large) := by
  obtain ⟨-, -, hne, -⟩ := hfair.tops ht
  have hmem := ht.mem_fill hfair.nodup
  have hlength := hfair.length_le
  rw [card_range, ht.slots] at hlength
  simp only [List.length_cons, List.length_append] at hlength
  have hs := mem_range.mp (hfair.mem s ht.mem_small)
  have hl := mem_range.mp (hfair.mem l ht.mem_large)
  obtain ⟨hlow, hsmall, hstack⟩ :=
    (ht.small ▸ h.small : SmallStack t.small t.nSmall (s :: small)).pop
  obtain ⟨hhigh, hlarge, hstack'⟩ :=
    (ht.large ▸ h.large : LargeStack n t.large t.nLarge (l :: large)).pop
  unfold AliasTables.mix
  -- both stacks are popped within the arrays
  rw [readAt_of_lt _ (by omega), readAt_of_lt _ hhigh]
  generalize t.small (t.nSmall - 1).toNat = i at hsmall ⊢
  generalize t.large (t.nLarge + 1).toNat = j at hlarge ⊢
  subst hsmall hlarge
  simp only [Option.bind_eq_bind, Option.bind_some, readAt_of_lt _ hs, readAt_of_lt _ hl,
    writeAt_of_lt _ _ hs, writeAt_of_lt _ _ hl]
  set u : AliasTables := { t with
    P := Function.update t.P j.toNat (t.P j.toNat - (1 - t.P i.toNat))
    nSmall := t.nSmall - 1
    nLarge := t.nLarge + 1
    aliasProbability := Function.update t.aliasProbability i.toNat (t.P i.toNat)
    aliasTable := Function.update t.aliasTable i.toNat j
    filled := Function.update t.filled i.toNat true } with hu
  -- before the larger slot goes back to one of the stacks
  have hopened : u.Holds n ⟨small, large,
      Function.update d.share j.toNat (d.share j.toNat - (1 - d.share i.toNat)),
      Function.update d.aliasOf i.toNat j.toNat⟩ := by
    refine ⟨hstack, hstack', ?_, fun k => ?_⟩
    · rw [← h.share]
    · change (Function.update t.aliasTable i.toNat j k).toNat =
        Function.update d.aliasOf i.toNat j.toNat k
      by_cases hk : k = i.toNat
      · rw [hk, Function.update_self, Function.update_self]
      · rw [Function.update_of_ne hk, Function.update_of_ne hk, h.aliasOf]
  have hroom : (small ++ large).length < n.toNat := by
    rw [List.length_append]
    omega
  obtain ⟨v, hv, hput, hfilled, hprob⟩ := hopened.push (i := j) hl hroom
  refine ⟨v, hv, hput, fun k hk hout => ?_⟩
  rw [hfilled, hprob, Deal.fill_share]
  change Function.update t.filled i.toNat true k = true ∧
    Function.update t.aliasProbability i.toNat (t.P i.toNat) k = _
  -- filled is the smaller slot, or what was filled before
  by_cases hki : k = i.toNat
  · rw [hki, Function.update_self, Function.update_self, Function.update_of_ne hne, h.share]
    exact ⟨rfl, rfl⟩
  · have hold : k ∉ d.slots := fun hin => hout ((hmem k).mpr ⟨hin, hki⟩)
    have hkj : k ≠ j.toNat := by
      rintro rfl
      exact hold ht.mem_large
    rw [Function.update_of_ne hki, Function.update_of_ne hki, Function.update_of_ne hkj]
    exact hclosed k hk hold

/-- The number of slots on the stacks. -/
def AliasTables.waiting (n : U32) (t : AliasTables) : ℕ :=
  t.nSmall.toNat + (n - 1 - t.nLarge).toNat

theorem LargeStack.length_eq {a : ℕ → U32} {top : U32} {l : List ℕ} (h : LargeStack n a top l) :
    (n - 1 - top).toNat = l.length := by
  have htop := h.top
  have hlength := h.length_le
  bv_omega

theorem AliasTables.Holds.waiting (h : t.Holds n d) : t.waiting n = d.slots.length := by
  rw [AliasTables.waiting, h.small.top, h.large.length_eq, Deal.slots, List.length_append]

/-- The invariant of the second loop. -/
def MixInv (n : U32) (weight : ℕ → ℚ) (t : AliasTables) : Prop :=
  ∃ d : Deal ℕ ℚ, t.Holds n d ∧ t.Closed n d ∧ d.Fair (range n.toNat) weight

theorem MixInv.waiting_le (h : MixInv n weight t) : t.waiting n ≤ n.toNat := by
  obtain ⟨d, hholds, -, hfair⟩ := h
  rw [hholds.waiting, ← card_range n.toNat]
  exact hfair.length_le

theorem mix_step (h : MixInv n weight t) (hcond : t.nSmall ≠ 0 ∧ t.nLarge ≠ n - 1) :
    ∃ u, t.mix n = some u ∧ MixInv n weight u ∧ u.waiting n < t.waiting n := by
  obtain ⟨d, hholds, hclosed, hfair⟩ := h
  rw [ne_eq, ne_eq, hholds.small.empty_iff, hholds.large.empty_iff] at hcond
  obtain ⟨s, small, hsmall⟩ := List.exists_cons_of_ne_nil hcond.1
  obtain ⟨l, large, hlarge⟩ := List.exists_cons_of_ne_nil hcond.2
  have ht : d.Tops s l small large := ⟨hsmall, hlarge⟩
  obtain ⟨u, hu, hholds', hclosed'⟩ := mix_holds hholds hclosed hfair ht
  refine ⟨u, hu, ⟨_, hholds', hclosed', hfair.fill ht⟩, ?_⟩
  rw [hholds'.waiting, hholds.waiting]
  exact ht.length_fill

/-- The second loop ends, with one of the stacks empty. -/
theorem mixLoop_holds (h : MixInv n weight t) :
    ∃ u e, whileLoop (fun t => t.nSmall ≠ 0 && t.nLarge ≠ n - 1) (AliasTables.mix n) (n.toNat + 1) t
        = some u ∧
      u.Holds n e ∧ u.Closed n e ∧ e.Fair (range n.toNat) weight ∧
      (e.small = [] ∨ e.large = []) := by
  obtain ⟨u, hu, ⟨e, hholds, hclosed, hfair⟩, hend⟩ := whileLoop_total
    (fun t => t.nSmall ≠ 0 && t.nLarge ≠ n - 1) (AliasTables.mix n)
    (MixInv n weight) (AliasTables.waiting n) h (Nat.lt_succ_of_le h.waiting_le)
    fun t ht hcond => mix_step ht (by simpa using hcond)
  refine ⟨u, e, hu, hholds, hclosed, hfair, ?_⟩
  rw [Bool.and_eq_false_iff, decide_eq_false_iff_not, decide_eq_false_iff_not, not_not, not_not,
    hholds.small.empty_iff, hholds.large.empty_iff] at hend
  exact hend

/-- The invariant of the last loop. Only probabilities of one are missing. -/
structure Draining (n : U32) (share : ℕ → ℚ) (aliases : ℕ → U32) (t : AliasTables) (l : List ℕ) :
    Prop where
  stack : LargeStack n t.large t.nLarge l
  one : ∀ i ∈ l, i < n.toNat ∧ share i = 1
  aliasTable : t.aliasTable = aliases
  closed : ∀ i < n.toNat, i ∉ l → t.filled i = true ∧ t.aliasProbability i = share i

theorem drainLarge_step {share : ℕ → ℚ} {aliases : ℕ → U32} {x : ℕ} {l : List ℕ}
    (h : Draining n share aliases t (x :: l)) :
    ∃ u, t.drainLarge n = some u ∧ Draining n share aliases u l := by
  obtain ⟨hhigh, htop, hpop⟩ := h.stack.pop
  obtain ⟨hx, hone⟩ := h.one x List.mem_cons_self
  unfold AliasTables.drainLarge
  rw [readAt_of_lt _ hhigh]
  generalize t.large (t.nLarge + 1).toNat = i at htop ⊢
  subst htop
  simp only [Option.bind_eq_bind, Option.bind_some, writeAt_of_lt _ _ hx]
  refine ⟨_, rfl, hpop, fun j hj => h.one j (List.mem_cons_of_mem _ hj), h.aliasTable, ?_⟩
  intro j hj hout
  change Function.update t.filled i.toNat true j = true ∧
    Function.update t.aliasProbability i.toNat 1 j = _
  by_cases hji : j = i.toNat
  · rw [hji, Function.update_self, Function.update_self, hone]
    exact ⟨rfl, rfl⟩
  · rw [Function.update_of_ne hji, Function.update_of_ne hji]
    exact h.closed j hj (List.not_mem_cons_of_ne_of_not_mem hji hout)

/-- The last loop fills the slots that are left. -/
theorem drainLoop_holds {share : ℕ → ℚ} {aliases : ℕ → U32} {l : List ℕ}
    (h : Draining n share aliases t l) :
    ∃ u, whileLoop (fun t => t.nLarge ≠ n - 1) (AliasTables.drainLarge n) (n.toNat + 1) t = some u ∧
      Draining n share aliases u [] := by
  obtain ⟨u, hu, ⟨l, hl⟩, hend⟩ := whileLoop_total
    (fun t => t.nLarge ≠ n - 1) (AliasTables.drainLarge n)
    (fun u => ∃ l, Draining n share aliases u l) (fun u => (n - 1 - u.nLarge).toNat) ⟨l, h⟩
    (Nat.lt_succ_of_le (h.stack.length_eq.trans_le h.stack.length_le)) fun u hu hcond => by
      obtain ⟨l, hl⟩ := hu
      rw [decide_eq_true_eq, ne_eq, hl.stack.empty_iff] at hcond
      obtain ⟨x, l, rfl⟩ := List.exists_cons_of_ne_nil hcond
      obtain ⟨v, hv, hdrain⟩ := drainLarge_step hl
      refine ⟨v, hv, ⟨l, hdrain⟩, ?_⟩
      rw [hdrain.stack.length_eq, hl.stack.length_eq]
      exact Nat.lt_succ_self _
  rw [decide_eq_false_iff_not, not_not, hl.stack.empty_iff] at hend
  subst hend
  exact ⟨u, hu, hl⟩

/-- The tables that a fair deal ends in. -/
theorem createAliasTable_deal (P : ℕ → ℚ) (hpos : n ≠ 0) (hn : n.toNat ≤ 2 ^ 31)
    (hnonneg : ∀ i < n.toNat, 0 ≤ P i) (hsum : ∑ i ∈ range n.toNat, P i = n.toNat) :
    ∃ (u : AliasTables) (e : Deal ℕ ℚ), createAliasTable n P = some u ∧ e.Fair (range n.toNat) P ∧
      (e.small = [] ∨ e.large = []) ∧ Draining n e.share u.aliasTable u [] ∧
      ∀ i, (u.aliasTable i).toNat = e.aliasOf i := by
  have hzero : n.toNat ≠ 0 := fun h => hpos (BitVec.eq_of_toNat_eq h)
  obtain ⟨t, d, ht, hholds, hstacked⟩ := fillStacks_holds P hpos hn
  have hshare := hstacked.share
  have hfair : d.Fair (range n.toNat) P := by
    rw [← hshare]
    refine Deal.fair_start hstacked.nodup (fun i => ?_) hstacked.small hstacked.large ?_ ?_ ?_
    · rw [hstacked.mem, mem_range]
      omega
    · exact fun i hi => by rw [hshare]; exact hnonneg i (mem_range.mp hi)
    · intro i _
      rw [hstacked.aliasOf]
      exact mem_range.mpr (Nat.pos_of_ne_zero hzero)
    · rw [hshare, hsum, card_range]
  have hclosed : t.Closed n d := fun i hi hout =>
    absurd ((hstacked.mem i).mpr ⟨Nat.zero_le i, hi⟩) hout
  obtain ⟨v, e, hv, hholds', hclosed', hfair', hend⟩ := mixLoop_holds ⟨d, hholds, hclosed, hfair⟩
  obtain ⟨hsmall, hone⟩ := hfair'.rest hend
  have hempty : v.nSmall = 0 := hholds'.small.empty_iff.mpr hsmall
  have hslots : e.slots = e.large := by rw [Deal.slots, hsmall, List.nil_append]
  have hrest : Draining n e.share v.aliasTable v e.large := by
    refine ⟨hholds'.large, ?_, rfl, ?_⟩
    · rw [← hslots]
      exact fun i hi => ⟨mem_range.mp (hfair'.mem i hi), hone i hi⟩
    · rw [← hslots]
      exact hclosed'
  obtain ⟨u, hu, hdrain⟩ := drainLoop_holds hrest
  refine ⟨u, e, ?_, hfair', hend, ?_, ?_⟩
  · have hdone : whileLoop (fun t => t.nSmall ≠ 0) (AliasTables.drainSmall n) (n.toNat + 1) v =
        some v := whileLoop_done (decide_eq_false (not_not.mpr hempty))
    unfold createAliasTable
    simp only [ht, hv, hdone, hu, Option.bind_eq_bind, Option.bind_some]
  · rw [hdrain.aliasTable]
    exact hdrain
  · rw [hdrain.aliasTable]
    exact hholds'.aliasOf

end Build

/-! ### What is selected -/

section Selection
open MeasureTheory

/-- A number of the unit interval is below `x` with probability `x`. -/
theorem volume_threshold {x : ℝ} (h0 : 0 ≤ x) (h1 : x ≤ 1) (s a e : ℕ) :
    volume.real {p : ℝ | p ∈ Set.Ico 0 1 ∧ (if p < x then s else a) = e} =
      (if s = e then x else 0) + if a = e then 1 - x else 0 := by
  have hbelow : {p : ℝ | p ∈ Set.Ico 0 1 ∧ (if p < x then s else a) = e} =
      (if s = e then Set.Ico 0 x else ∅) ∪ if a = e then Set.Ico x 1 else ∅ := by
    ext p
    -- the slot below the threshold, its alias from there on
    by_cases hp : p < x
    · have hlt : p < 1 := hp.trans_le h1
      by_cases hs : s = e <;> by_cases ha : a = e <;> simp [hp, hs, ha, hlt, not_le.mpr hp]
    · have hle : 0 ≤ p := h0.trans (not_lt.mp hp)
      by_cases hs : s = e <;> by_cases ha : a = e <;> simp [hp, hs, ha, hle, not_lt.mp hp]
  have hdisjoint : Disjoint (if s = e then Set.Ico 0 x else ∅)
      (if a = e then Set.Ico x 1 else ∅) := by
    split <;> split
    · exact Set.Ico_disjoint_Ico_same
    · exact disjoint_bot_right
    · exact disjoint_bot_left
    · exact disjoint_bot_left
  have hfinite : ∀ (q : Prop) [Decidable q] (b c : ℝ),
      volume (if q then Set.Ico b c else ∅) ≠ ⊤ := by
    intro q _ b c
    split
    · exact measure_Ico_lt_top.ne
    · simp
  have hmeasurable : MeasurableSet (if a = e then Set.Ico x 1 else ∅) := by
    split
    · exact measurableSet_Ico
    · exact MeasurableSet.empty
  rw [hbelow, measureReal_union hdisjoint hmeasurable (hfinite _ _ _) (hfinite _ _ _)]
  congr 1
  · split
    · rw [Real.volume_real_Ico_of_le h0, sub_zero]
    · exact measureReal_empty
  · split
    · exact Real.volume_real_Ico_of_le h1
    · exact measureReal_empty

variable {n : U32} {t : AliasTables} {P : ℕ → ℚ}

/-- The table is complete and selects every entry with the probability that `P` gives it. -/
structure AliasTables.Exact (n : U32) (P : ℕ → ℚ) (t : AliasTables) : Prop where
  filled : ∀ s < n.toNat, t.filled s = true
  aliased : ∀ s < n.toNat, (t.aliasTable s).toNat < n.toNat
  selected : ∀ e < n.toNat, t.selectionProbability n e = P e / n.toNat
  never : ∀ e < n.toNat, P e = 0 → ∀ s < n.toNat, ∀ p ∈ Set.Ico (0 : ℝ) 1,
    t.selectNextQueueEntry s p ≠ e

/-- The probabilities and the aliases are those of a fair deal that has ended. -/
structure Dealt (n : U32) (P : ℕ → ℚ) (t : AliasTables) : Prop where
  filled : ∀ s < n.toNat, t.filled s = true
  aliased : ∀ s < n.toNat, (t.aliasTable s).toNat < n.toNat
  nonneg : ∀ s < n.toNat, 0 ≤ t.aliasProbability s
  le_one : ∀ s < n.toNat, t.aliasProbability s ≤ 1
  conserved : ∀ e < n.toNat, t.aliasProbability e +
    ∑ s ∈ range n.toNat, (if (t.aliasTable s).toNat = e then 1 - t.aliasProbability s else 0) = P e

theorem dealt_of_fair {e : Deal ℕ ℚ} (hfair : e.Fair (range n.toNat) P)
    (hend : e.small = [] ∨ e.large = []) (hdrain : Draining n e.share t.aliasTable t [])
    (halias : ∀ i, (t.aliasTable i).toNat = e.aliasOf i) : Dealt n P t := by
  have hprob : ∀ s < n.toNat, t.aliasProbability s = e.share s := fun s hs =>
    (hdrain.closed s hs List.not_mem_nil).2
  refine ⟨fun s hs => (hdrain.closed s hs List.not_mem_nil).1, fun s hs => ?_, fun s hs => ?_,
    fun s hs => ?_, fun i hi => ?_⟩
  · rw [halias]
    exact mem_range.mp (hfair.aliased s (mem_range.mpr hs))
  · rw [hprob s hs]
    exact hfair.nonneg s (mem_range.mpr hs)
  · rw [hprob s hs]
    exact hfair.share_le_one hend (mem_range.mpr hs)
  · rw [hprob i hi, ← hfair.dealt hend (mem_range.mpr hi)]
    congr 1
    refine sum_congr rfl fun s hs => ?_
    rw [halias, hprob s (mem_range.mp hs)]

theorem Dealt.exact (h : Dealt n P t) : t.Exact n P := by
  refine ⟨h.filled, h.aliased, fun e he => ?_, fun e he hzero s hs p hp => ?_⟩
  · have hconserved := congrArg (fun x : ℚ => (x : ℝ)) (h.conserved e he)
    push_cast at hconserved
    unfold AliasTables.selectionProbability AliasTables.selectNextQueueEntry
    rw [← hconserved]
    congr 1
    have hslot : ∀ s ∈ range n.toNat, volume.real {p : ℝ | p ∈ Set.Ico 0 1 ∧
        (if p < (t.aliasProbability s : ℝ) then s else (t.aliasTable s).toNat) = e} =
        (if s = e then (t.aliasProbability s : ℝ) else 0) +
          if (t.aliasTable s).toNat = e then 1 - (t.aliasProbability s : ℝ) else 0 := by
      intro s hs
      have h0 := h.nonneg s (mem_range.mp hs)
      have h1 := h.le_one s (mem_range.mp hs)
      exact volume_threshold (by exact_mod_cast h0) (by exact_mod_cast h1) s _ e
    rw [sum_congr rfl hslot, sum_add_distrib, sum_ite_eq', if_pos (mem_range.mpr he)]
    congr 1
    refine sum_congr rfl fun s _ => ?_
    split
    · rw [Rat.cast_sub, Rat.cast_one]
    · exact Rat.cast_zero.symm
  · -- what is given to an entry without a share is nothing
    have hgift : ∀ s ∈ range n.toNat,
        0 ≤ if (t.aliasTable s).toNat = e then 1 - t.aliasProbability s else 0 := by
      intro s hs
      split
      · exact sub_nonneg.mpr (h.le_one s (mem_range.mp hs))
      · exact le_refl _
    have hconserved := h.conserved e he
    rw [hzero, add_eq_zero_iff_of_nonneg (h.nonneg e he) (sum_nonneg hgift),
      sum_eq_zero_iff_of_nonneg hgift] at hconserved
    intro hsel
    unfold AliasTables.selectNextQueueEntry at hsel
    split at hsel
    · -- the slot itself, whose probability is zero
      rename_i hlt
      subst hsel
      rw [hconserved.1, Rat.cast_zero] at hlt
      exact absurd hp.1 (not_le.mpr hlt)
    · -- an alias of a slot that keeps everything
      rename_i hge
      have hone := hconserved.2 s (mem_range.mpr hs)
      rw [if_pos hsel, sub_eq_zero] at hone
      rw [← hone, Rat.cast_one] at hge
      exact hge hp.2

end Selection

/-- For more slots than a signed integer can count the first loop does nothing, and nor do the
others. -/
theorem createAliasTable_tooMany {n : U32} (P : ℕ → ℚ) (hn : 2 ^ 31 < n.toNat) :
    createAliasTable n P = some { P := P, nLarge := n - 1 } := by
  have hpos : n ≠ 0 := by
    rintro rfl
    exact absurd hn (by decide)
  unfold createAliasTable AliasTables.fillStacks
  rw [fillStacks_count hpos, if_neg (not_le.mpr hn)]
  simp only [downLoop, Option.bind_eq_bind, Option.bind_some]
  rw [whileLoop_done (by simp), Option.bind_some, whileLoop_done (by simp), Option.bind_some,
    whileLoop_done (by simp)]

theorem createAliasTable_exact {n : U32} {P : ℕ → ℚ} (hpos : n ≠ 0) (hn : n.toNat ≤ 2 ^ 31)
    (hnonneg : ∀ i < n.toNat, 0 ≤ P i) (hsum : ∑ i ∈ range n.toNat, P i = n.toNat) :
    ∃ t, createAliasTable n P = some t ∧ t.Exact n P := by
  obtain ⟨t, e, ht, hfair, hend, hdrain, halias⟩ := createAliasTable_deal P hpos hn hnonneg hsum
  exact ⟨t, ht, (dealt_of_fair hfair hend hdrain halias).exact⟩

/-- With a share for each of the `n` slots, and `n` shares in all, the table is complete and exact
as long as a signed integer can count the slots. -/
theorem createAliasTable_exact_iff {n : U32} {P : ℕ → ℚ} (hpos : n ≠ 0)
    (hnonneg : ∀ i < n.toNat, 0 ≤ P i) (hsum : ∑ i ∈ range n.toNat, P i = n.toNat) :
    (∃ t, createAliasTable n P = some t ∧ t.Exact n P) ↔ n.toNat ≤ 2 ^ 31 := by
  constructor
  · rintro ⟨t, ht, hexact⟩
    by_contra hn
    rw [createAliasTable_tooMany P (not_le.mp hn)] at ht
    cases ht
    exact Bool.false_ne_true (hexact.filled 0 (by omega))
  · exact fun hn => createAliasTable_exact hpos hn hnonneg hsum

/-- Two slots, the second of which gives half of a share to the first. -/
theorem createAliasTable_exact_iff_two :
    ∃ t, createAliasTable 2 (fun i => if i = 0 then 1 / 2 else 3 / 2) = some t ∧
      t.Exact 2 fun i => if i = 0 then 1 / 2 else 3 / 2 := by
  refine (createAliasTable_exact_iff (by decide) (fun i _ => ?_) ?_).mpr (by decide)
  · split <;> norm_num
  · change ∑ i ∈ range 2, _ = ((2 : ℕ) : ℚ)
    rw [sum_range_succ, sum_range_one]
    norm_num

/-- With `2 ^ 31 + 1` slots and one share for each of them the table stays empty. -/
theorem not_exact_tooMany :
    ∑ _i ∈ range (BitVec.ofNat 32 (2 ^ 31 + 1)).toNat, (1 : ℚ) =
        (BitVec.ofNat 32 (2 ^ 31 + 1)).toNat ∧
      ¬ ∃ t, createAliasTable (BitVec.ofNat 32 (2 ^ 31 + 1)) (fun _ => 1) = some t ∧
        t.Exact (BitVec.ofNat 32 (2 ^ 31 + 1)) fun _ => 1 := by
  have hcount : (BitVec.ofNat 32 (2 ^ 31 + 1)).toNat = 2 ^ 31 + 1 := by decide
  refine ⟨by rw [sum_const, card_range, nsmul_one], ?_⟩
  rintro ⟨t, ht, hexact⟩
  rw [createAliasTable_tooMany _ (by rw [hcount]; exact Nat.lt_succ_self _)] at ht
  cases ht
  exact Bool.false_ne_true (hexact.filled 0 (by rw [hcount]; exact Nat.succ_pos _))

end AflPlusPlus
