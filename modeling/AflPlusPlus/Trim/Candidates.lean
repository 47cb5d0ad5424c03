import AflPlusPlus.Trim.Case

/-!
# One candidate of the trimmer

What the body of the inner loop of `trim_case` does, in terms of the contents that the buffer has up
to `q->len`, and the bounds under which no access leaves the buffer and no position wraps around.
-/

namespace AflPlusPlus
open Lib

/-- The contents without the `n` bytes from `pos` on. -/
def gap (data : List Byte) (pos n : ℕ) : List Byte := data.take pos ++ data.drop (pos + n)

theorem gap_length {data : List Byte} {pos n : ℕ} (h : pos + n ≤ data.length) :
    (gap data pos n).length = data.length - n := by
  rw [gap, List.length_append, List.length_take, List.length_drop]
  omega

theorem gap_sublist (data : List Byte) (pos n : ℕ) : (gap data pos n).Sublist data := by
  have h : (data.take pos ++ data.drop (pos + n)).Sublist (data.take pos ++ data.drop pos) :=
    List.Sublist.append_left (List.drop_sublist_drop_left data (Nat.le_add_right pos n)) _
  rwa [List.take_append_drop] at h

theorem take_gap {data : List Byte} {pos n k : ℕ} (h : k ≤ pos) (hpos : pos ≤ data.length) :
    (gap data pos n).take k = data.take k := by
  rw [gap, List.take_append_of_le_length (by rw [List.length_take]; omega), List.take_take,
    Nat.min_eq_left h]

theorem toNat_minU32 (a b : U32) : (minU32 a b).toNat = min a.toNat b.toNat := by
  unfold minU32
  split
  · rename_i h
    exact (Nat.min_eq_left (Nat.le_of_lt h)).symm
  · rename_i h
    exact (Nat.min_eq_right (Nat.not_lt.mp h)).symm

theorem toNat_maxU32 (a b : U32) : (maxU32 a b).toNat = max a.toNat b.toNat := by
  unfold maxU32
  split
  · rename_i h
    exact (Nat.max_eq_left (Nat.le_of_lt h)).symm
  · rename_i h
    exact (Nat.max_eq_right (Nat.not_lt.mp h)).symm

namespace TrimLoop

/-- The test case, as far as it has been trimmed. -/
def data (c : TrimLoop) : List Byte := c.inBuf.take c.len.toNat

/-- `trim_avail`. -/
def avail (c : TrimLoop) : ℕ := min c.removeLen.toNat (c.len.toNat - c.removePos.toNat)

def candidate (c : TrimLoop) : List Byte := gap c.data c.removePos.toNat c.avail

/-- The candidate has been run. -/
def ran (inp : TrimInput) (c : TrimLoop) : TrimLoop :=
  { c with execs := c.execs + 1, fault := (inp.run c.execs c.candidate).1 }

/-- The block is gone. -/
def removed (inp : TrimInput) (c : TrimLoop) : TrimLoop :=
  { c.ran inp with
    len := c.len - BitVec.ofNat 32 c.avail
    lenP2 := lenPow2 (c.len - BitVec.ofNat 32 c.avail)
    inBuf := c.candidate ++ c.inBuf.drop (c.len.toNat - c.avail)
    needsWrite := true }

/-- The block stays. -/
def skipped (inp : TrimInput) (c : TrimLoop) : TrimLoop :=
  { c.ran inp with removePos := c.removePos + c.removeLen }

end TrimLoop

/-- What a candidate can do. -/
theorem trimCandidate_eq (inp : TrimInput) {c : TrimLoop} (hlen : c.len.toNat ≤ c.inBuf.length)
    (hpos : c.removePos < c.len) :
    trimCandidate inp c =
      if inp.aborts c.execs c.candidate then some { c.ran inp with aborted := true }
      else if inp.accepts c.execs c.candidate then some (c.removed inp)
      else some (c.skipped inp) := by
  have hpos' : c.removePos.toNat < c.len.toNat := hpos
  have hrest : (c.len - c.removePos).toNat = c.len.toNat - c.removePos.toNat :=
    BitVec.toNat_sub_of_le (Nat.le_of_lt hpos')
  have havail : (minU32 c.removeLen (c.len - c.removePos)).toNat = c.avail := by
    rw [toNat_minU32, hrest, TrimLoop.avail]
  have havail' : minU32 c.removeLen (c.len - c.removePos) = BitVec.ofNat 32 c.avail := by
    rw [← havail, BitVec.ofNat_toNat, BitVec.setWidth_eq]
  have hle : c.avail ≤ c.len.toNat - c.removePos.toNat := Nat.min_le_right _ _
  have htail : (c.len - c.removePos - minU32 c.removeLen (c.len - c.removePos)).toNat =
      c.len.toNat - c.removePos.toNat - c.avail := by
    rw [BitVec.toNat_sub_of_le, hrest, havail]
    change (minU32 _ _).toNat ≤ _
    rw [havail, hrest]
    exact hle
  have hcandidate : c.inBuf.take c.removePos.toNat ++
      (c.inBuf.drop (c.removePos.toNat + c.avail)).take
        (c.len.toNat - c.removePos.toNat - c.avail) = c.candidate := by
    rw [TrimLoop.candidate, gap, TrimLoop.data, List.take_take, Nat.min_eq_left hpos'.le,
      List.drop_take]
    congr 2
    omega
  have hgap : writeWithGap c.inBuf c.len c.removePos
      (minU32 c.removeLen (c.len - c.removePos)) = some c.candidate := by
    unfold writeWithGap
    dsimp only
    rw [htail, havail, if_pos (by omega), hcandidate]
  have hmove : moveBytes c.inBuf c.removePos.toNat (c.removePos.toNat + c.avail)
      (c.len.toNat - c.removePos.toNat - c.avail) =
        some (c.candidate ++ c.inBuf.drop (c.len.toNat - c.avail)) := by
    unfold moveBytes
    rw [if_pos (by omega), hcandidate]
    congr 3
    omega
  unfold trimCandidate
  dsimp only
  rw [hgap, Option.bind_some, htail, havail, hmove, havail']
  rfl

/-- No arithmetic of the loops wraps around. -/
structure TrimFits (c : TrimLoop) : Prop where
  inBuf : c.len.toNat ≤ c.inBuf.length
  len : c.len.toNat ≤ maxFileLen
  removeLen : c.removeLen.toNat < 2 ^ 28

/-- Inside of a round. -/
structure InRound (c : TrimLoop) : Prop extends TrimFits c where
  removeLen_ge : 4 ≤ c.removeLen.toNat
  removePos_ge : c.removeLen.toNat ≤ c.removePos.toNat
  removePos_le : c.removePos.toNat ≤ maxFileLen + c.removeLen.toNat

namespace InRound

variable {inp : TrimInput} {c : TrimLoop}

theorem avail_pos (h : InRound c) (hpos : c.removePos < c.len) : 0 < c.avail := by
  have hpos' : c.removePos.toNat < c.len.toNat := hpos
  have := h.removeLen_ge
  unfold TrimLoop.avail
  omega

theorem data_length (h : InRound c) : c.data.length = c.len.toNat := by
  rw [TrimLoop.data, List.length_take, Nat.min_eq_left h.inBuf]

theorem avail_le (hpos : c.removePos < c.len) : c.removePos.toNat + c.avail ≤ c.len.toNat := by
  have hpos' : c.removePos.toNat < c.len.toNat := hpos
  unfold TrimLoop.avail
  omega

theorem candidate_length (h : InRound c) (hpos : c.removePos < c.len) :
    c.candidate.length = c.len.toNat - c.avail := by
  have hle := avail_le hpos
  rw [← h.data_length] at hle ⊢
  exact gap_length hle

theorem removed_len (hpos : c.removePos < c.len) :
    (c.removed inp).len.toNat = c.len.toNat - c.avail := by
  have hle := avail_le hpos
  have hlt := c.len.isLt
  have havail : (BitVec.ofNat 32 c.avail).toNat = c.avail := by
    rw [BitVec.toNat_ofNat, Nat.mod_eq_of_lt (by omega)]
  change (c.len - BitVec.ofNat 32 c.avail).toNat = _
  rw [BitVec.toNat_sub_of_le, havail]
  change (BitVec.ofNat 32 c.avail).toNat ≤ _
  omega

theorem removed_data (h : InRound c) (hpos : c.removePos < c.len) :
    (c.removed inp).data = c.candidate := by
  rw [TrimLoop.data, removed_len hpos]
  change (c.candidate ++ _).take _ = _
  rw [← h.candidate_length hpos, List.take_left]

theorem skipped_removePos (h : InRound c) (hpos : c.removePos < c.len) :
    (c.skipped inp).removePos.toNat = c.removePos.toNat + c.removeLen.toNat := by
  have hpos' : c.removePos.toNat < c.len.toNat := hpos
  have hlen : c.len.toNat ≤ 1024 * 1024 := h.len
  have hremove := h.removeLen
  change (c.removePos + c.removeLen).toNat = _
  rw [BitVec.toNat_add, Nat.mod_eq_of_lt (by omega)]

theorem removed (h : InRound c) (hpos : c.removePos < c.len) : InRound (c.removed inp) := by
  have hlen : (c.removed inp).len.toNat = c.len.toNat - c.avail := removed_len hpos
  refine ⟨⟨?_, ?_, h.removeLen⟩, h.removeLen_ge, h.removePos_ge, h.removePos_le⟩
  · rw [hlen, ← h.candidate_length hpos]
    change _ ≤ (c.candidate ++ _).length
    rw [List.length_append]
    exact Nat.le_add_right _ _
  · rw [hlen]
    exact (Nat.sub_le _ _).trans h.len

theorem skipped (h : InRound c) (hpos : c.removePos < c.len) : InRound (c.skipped inp) := by
  have hpos' : c.removePos.toNat < c.len.toNat := hpos
  have hnext : (c.skipped inp).removePos.toNat = c.removePos.toNat + c.removeLen.toNat :=
    h.skipped_removePos hpos
  refine ⟨⟨h.inBuf, h.len, h.removeLen⟩, h.removeLen_ge, ?_, ?_⟩
  · rw [hnext]
    exact Nat.le_add_left _ _
  · rw [hnext]
    exact Nat.add_le_add_right (hpos'.le.trans h.len) _

theorem aborted (h : InRound c) : InRound { c.ran inp with aborted := true } :=
  ⟨⟨h.inBuf, h.len, h.removeLen⟩, h.removeLen_ge, h.removePos_ge, h.removePos_le⟩

end InRound

/-- One candidate: all accesses are in the buffer, and the loop comes closer to its end. -/
theorem trimCandidate_step (inp : TrimInput) {c : TrimLoop} (h : InRound c)
    (hpos : c.removePos < c.len) :
    ∃ c', trimCandidate inp c = some c' ∧ InRound c' ∧ c'.removeLen = c.removeLen ∧
      (c'.aborted = true ∨
        c'.len.toNat - c'.removePos.toNat < c.len.toNat - c.removePos.toNat) := by
  have hpos' : c.removePos.toNat < c.len.toNat := hpos
  rw [trimCandidate_eq inp h.inBuf hpos]
  split
  · exact ⟨_, rfl, h.aborted, rfl, Or.inl rfl⟩
  · split
    · refine ⟨_, rfl, h.removed hpos, rfl, Or.inr ?_⟩
      have havail := h.avail_pos hpos
      rw [InRound.removed_len hpos]
      change _ - c.removePos.toNat < _
      omega
    · refine ⟨_, rfl, h.skipped hpos, rfl, Or.inr ?_⟩
      have hremove := h.removeLen_ge
      rw [h.skipped_removePos hpos]
      change c.len.toNat - _ < _
      omega

theorem TrimFits.enter {c : TrimLoop} (h : TrimFits c)
    (hcond : maxU32 (c.lenP2 / trimEndSteps) trimMinBytes ≤ c.removeLen) :
    InRound { c with removePos := c.removeLen } := by
  refine ⟨⟨h.inBuf, h.len, h.removeLen⟩, ?_, le_refl _, Nat.le_add_left _ _⟩
  have hcond' : (maxU32 (c.lenP2 / trimEndSteps) trimMinBytes).toNat ≤ c.removeLen.toNat := hcond
  rw [toNat_maxU32] at hcond'
  exact (Nat.le_max_right _ _).trans hcond'

theorem toNat_half (x : U32) : (x >>> 1).toNat = x.toNat / 2 := by
  rw [BitVec.toNat_ushiftRight, Nat.shiftRight_eq_div_pow, pow_one]

theorem TrimFits.half {c : TrimLoop} (h : TrimFits c) :
    TrimFits { c with removeLen := c.removeLen >>> 1 } := by
  refine ⟨h.inBuf, h.len, ?_⟩
  change (c.removeLen >>> 1).toNat < _
  rw [toNat_half]
  exact (Nat.div_le_self _ _).trans_lt h.removeLen

theorem inRound_cond {c : TrimLoop} (h : (!c.aborted && decide (c.removePos < c.len)) = true) :
    c.aborted = false ∧ c.removePos < c.len := by
  rw [Bool.and_eq_true, Bool.not_eq_true', decide_eq_true_eq] at h
  exact h

theorem outOfRound_cond {c : TrimLoop}
    (h : (!c.aborted && decide (c.removePos < c.len)) = false) (habort : c.aborted = false) :
    ¬ c.removePos < c.len := by
  rw [habort] at h
  exact of_decide_eq_false h

/-- The inner loop ends, and no access has left the buffer. -/
theorem trimPositions_ends (inp : TrimInput) {c : TrimLoop} (h : InRound c) {fuel : ℕ}
    (hfuel : maxFileLen + 1 < fuel) :
    ∃ t, trimPositions inp fuel c = some t ∧ InRound t ∧ t.removeLen = c.removeLen := by
  have hlen := h.len
  have hloop : ∃ t, trimPositions inp fuel c = some t ∧
      (InRound t ∧ t.removeLen = c.removeLen) ∧
      (!t.aborted && decide (t.removePos < t.len)) = false := by
    refine whileLoop_total _ _ (fun t => InRound t ∧ t.removeLen = c.removeLen)
      (fun t => if t.aborted then 0 else t.len.toNat - t.removePos.toNat + 1) ⟨h, rfl⟩
      (by split <;> omega) fun t ⟨ht, hremove⟩ hcond => ?_
    obtain ⟨habort, hpos⟩ := inRound_cond hcond
    obtain ⟨u, hu, hround, hsame, hless⟩ := trimCandidate_step inp ht hpos
    refine ⟨u, hu, ⟨hround, hsame.trans hremove⟩, ?_⟩
    simp only [habort, Bool.false_eq_true, if_false]
    rcases hless with hless | hless
    · rw [if_pos hless]
      exact Nat.succ_pos _
    · split <;> omega
  obtain ⟨t, ht, ⟨hround, hremove⟩, -⟩ := hloop
  exact ⟨t, ht, hround, hremove⟩

/-- Both loops end. -/
theorem trimRounds_ends (inp : TrimInput) {c : TrimLoop} (h : TrimFits c) {fuel : ℕ}
    (hfuel : 2 ^ 28 < fuel) : ∃ t, trimRounds inp fuel c = some t := by
  have hremove := h.removeLen
  have hloop : ∃ t, trimRounds inp fuel c = some t ∧ TrimFits t ∧
      (!t.aborted && decide (maxU32 (t.lenP2 / trimEndSteps) trimMinBytes ≤ t.removeLen)) =
        false := by
    refine whileLoop_total _ _ TrimFits
      (fun t => if t.aborted then t.removeLen.toNat else t.removeLen.toNat + 1) h
      (by split <;> omega) fun t ht hcond => ?_
    rw [Bool.and_eq_true, Bool.not_eq_true', decide_eq_true_eq] at hcond
    obtain ⟨habort, hge⟩ := hcond
    have hpositions : maxFileLen + 1 < fuel := hfuel.trans' (by decide)
    obtain ⟨u, hu, hround, hsame⟩ := trimPositions_ends inp (ht.enter hge) hpositions
    have hsame' : u.removeLen.toNat = t.removeLen.toNat := congrArg BitVec.toNat hsame
    have hfour : 4 ≤ u.removeLen.toNat := hround.removeLen_ge
    unfold trimRound
    rw [hu, Option.map_some]
    simp only [habort, Bool.false_eq_true, if_false]
    split
    · rename_i habort'
      refine ⟨u, rfl, hround.toTrimFits, ?_⟩
      rw [if_pos habort']
      omega
    · rename_i habort'
      refine ⟨_, rfl, hround.toTrimFits.half, ?_⟩
      dsimp only
      rw [if_neg habort', toNat_half]
      omega
  obtain ⟨t, ht, -⟩ := hloop
  exact ⟨t, ht⟩

/-- Invariant rule for the two loops: `P` holds between the rounds, and `Q` between the candidates
of a round. -/
theorem trimRounds_invariant {inp : TrimInput} {fuel : ℕ} {c t : TrimLoop} (P Q : TrimLoop → Prop)
    (h : trimRounds inp fuel c = some t) (hfits : TrimFits c) (h0 : P c)
    (henter : ∀ c, P c → c.aborted = false →
      maxU32 (c.lenP2 / trimEndSteps) trimMinBytes ≤ c.removeLen →
        Q { c with removePos := c.removeLen })
    (habort : ∀ c, InRound c → c.removePos < c.len → c.aborted = false → Q c →
      inp.aborts c.execs c.candidate = true → Q { c.ran inp with aborted := true })
    (hremove : ∀ c, InRound c → c.removePos < c.len → c.aborted = false → Q c →
      inp.aborts c.execs c.candidate = false → inp.accepts c.execs c.candidate = true →
        Q (c.removed inp))
    (hskip : ∀ c, InRound c → c.removePos < c.len → c.aborted = false → Q c →
      inp.aborts c.execs c.candidate = false → inp.accepts c.execs c.candidate = false →
        Q (c.skipped inp))
    (hleave : ∀ c, InRound c → ¬ c.removePos < c.len → c.aborted = false → Q c →
      P { c with removeLen := c.removeLen >>> 1 })
    (hleft : ∀ c, c.aborted = true → Q c → P c) :
    P t ∧ TrimFits t ∧ (t.aborted = false →
      ¬ maxU32 (t.lenP2 / trimEndSteps) trimMinBytes ≤ t.removeLen) := by
  obtain ⟨⟨hP, hfits⟩, hcond⟩ := whileLoop_invariant (fun c => P c ∧ TrimFits c) h ⟨h0, hfits⟩
    fun u v ⟨hP, hfits⟩ hcond hbody => by
      rw [Bool.and_eq_true, Bool.not_eq_true', decide_eq_true_eq] at hcond
      obtain ⟨hrun, hge⟩ := hcond
      obtain ⟨w, hw, rfl⟩ := Option.map_eq_some_iff.mp hbody
      obtain ⟨⟨hQ, hround⟩, hdone⟩ := whileLoop_invariant (fun c => Q c ∧ InRound c) hw
        ⟨henter u hP hrun hge, hfits.enter hge⟩ fun c c' ⟨hQ, hround⟩ hcond hbody => by
          obtain ⟨hrun, hpos⟩ := inRound_cond hcond
          rw [trimCandidate_eq inp hround.inBuf hpos] at hbody
          split at hbody
          · cases hbody
            exact ⟨habort c hround hpos hrun hQ ‹_›, hround.aborted⟩
          · have hno := Bool.eq_false_iff.mpr ‹_›
            split at hbody
            · cases hbody
              exact ⟨hremove c hround hpos hrun hQ hno ‹_›, hround.removed hpos⟩
            · cases hbody
              exact ⟨hskip c hround hpos hrun hQ hno (Bool.eq_false_iff.mpr ‹_›),
                hround.skipped hpos⟩
      split
      · exact ⟨hleft w ‹_› hQ, hround.toTrimFits⟩
      · have hrun' := Bool.eq_false_iff.mpr ‹_›
        exact ⟨hleave w hround (outOfRound_cond hdone hrun') hrun' hQ, hround.toTrimFits.half⟩
  refine ⟨hP, hfits, fun hrun hge => ?_⟩
  rw [hrun, decide_eq_true hge] at hcond
  cases hcond

end AflPlusPlus
