import AflPlusPlus.Dict.Dedup
import AflPlusPlus.Lib.Residues
import Mathlib.Data.List.GetD

/-!
# De-unicoding

Tokens that are strings in UTF-16 or UTF-32. `deunicode_extras` guesses the encoding from the
numbers of zeros at the positions modulo 4, and takes the bytes between them.
-/

namespace AflPlusPlus.Dict
open Lib Mutation

/-- A block of `n` bytes for every character, with the character at position `r` of the block. -/
def widen (n r : ℕ) (s : List Byte) : List Byte :=
  s.flatMap fun c => (List.range n).map fun i => if i = r then c else 0

def utf16le : List Byte → List Byte := widen 2 0

def utf16be : List Byte → List Byte := widen 2 1

def utf32le : List Byte → List Byte := widen 4 0

def utf32be : List Byte → List Byte := widen 4 3

/-- The token is one of the encodings of the string, which is as long as they may be. -/
def Encodes (data s : List Byte) : Prop :=
  (s.length ≤ 32 ∧ (data = utf16le s ∨ data = utf16be s)) ∨
    (s.length ≤ 16 ∧ (data = utf32le s ∨ data = utf32be s))

section Widen

variable {n r : ℕ} {s : List Byte}

theorem length_widen (n r : ℕ) (s : List Byte) : (widen n r s).length = s.length * n := by
  simp [widen, List.length_flatMap]

theorem getD_widen (hr : r < n) (s : List Byte) (j : ℕ) :
    (widen n r s).getD j 0 = if j % n = r then s.getD (j / n) 0 else 0 := by
  induction s generalizing j with
  | nil => simp [widen]
  | cons c s ih =>
    have hcons : widen n r (c :: s) =
        ((List.range n).map fun i => if i = r then c else 0) ++ widen n r s := rfl
    rw [hcons]
    by_cases hj : j < n
    · rw [List.getD_append _ _ _ _ (by simpa using hj), Nat.mod_eq_of_lt hj, Nat.div_eq_of_lt hj]
      simp [List.getD_eq_getElem?_getD, hj]
    · have hmod : (j - n) % n = j % n := (Nat.mod_eq_sub_mod (Nat.not_lt.mp hj)).symm
      have hdiv : j / n = (j - n) / n + 1 := Nat.div_eq_sub_div (by omega) (Nat.not_lt.mp hj)
      rw [List.getD_append_right _ _ _ _ (by simpa using hj), List.length_map, List.length_range,
        ih, hmod, hdiv, List.getD_cons_succ]

/-- One position in every block. -/
theorem range_filter_mod (hr : r < n) (m : ℕ) :
    (List.range (m * n)).filter (· % n = r) = (List.range m).map (· * n + r) := by
  induction m with
  | zero => simp
  | succ m ih =>
    have hpick : (List.range n).filter (fun i => (m * n + i) % n = r) = [r] := by
      have hsame : ∀ i ∈ List.range n, decide ((m * n + i) % n = r) = decide (i = r) := by
        intro i hi
        rw [Nat.mul_add_mod', Nat.mod_eq_of_lt (List.mem_range.mp hi)]
      rw [List.filter_congr hsame, List.filter_eq,
        List.count_eq_one_of_mem List.nodup_range (List.mem_range.mpr hr)]
      rfl
    rw [Nat.succ_mul, List.range_add, List.filter_append, ih, List.filter_map, List.range_succ,
      List.map_append]
    congr 1
    exact congrArg (List.map (m * n + ·)) hpick

/-- The bytes that were put in come out again. -/
theorem everyNth_widen (hr : r < n) (s : List Byte) : everyNth n r (widen n r s) = s := by
  rw [everyNth, length_widen, range_filter_mod hr, List.map_map]
  apply List.ext_getElem
  · simp
  · intro i _ hi
    obtain ⟨hdiv, hmod⟩ := block_div_mod i hr
    rw [List.getElem_map, List.getElem_range, Function.comp_apply, getD_widen hr, hmod, if_pos rfl,
      hdiv, List.getD_eq_getElem _ _ hi]

/-- The zeros are in the other positions of the blocks. -/
theorem zerosAt_widen (hr : r < n) (hs : 0 ∉ s) (residues : List ℕ)
    (hper : ∀ j, (j + n) % 4 ∈ residues ↔ j % 4 ∈ residues) :
    zerosAt residues (widen n r s) =
      s.length * Nat.count (fun j => j % 4 ∈ residues ∧ j % n ≠ r) n := by
  have hzero : ∀ j ∈ List.range (s.length * n),
      decide (j % 4 ∈ residues ∧ (widen n r s).getD j 0 = 0) =
        decide (j % 4 ∈ residues ∧ j % n ≠ r) := by
    intro j hj
    have hlt : j / n < s.length := Nat.div_lt_of_lt_mul (Nat.mul_comm _ n ▸ List.mem_range.mp hj)
    have hbyte : s.getD (j / n) 0 ≠ 0 := by
      rw [List.getD_eq_getElem _ _ hlt]
      exact fun h0 => hs (h0 ▸ List.getElem_mem hlt)
    rw [getD_widen hr]
    by_cases hjr : j % n = r
    · simp only [hjr, if_true, hbyte, ne_eq, not_true_eq_false]
    · simp only [hjr, if_false, ne_eq, not_false_eq_true]
  rw [zerosAt, length_widen, List.filter_congr hzero, ← List.countP_eq_length_filter]
  exact count_periodic (fun j => by rw [hper, Nat.add_mod_right]) s.length

end Widen

/-! ### What is recovered -/

section Recovered

variable {r : ℕ} {s : List Byte}

/-- Half of the bytes are zeros, all of them at even or all of them at odd positions. -/
theorem deunicode_utf16 (hr : r < 2) (hs : 0 ∉ s) (hmin : 3 ≤ s.length) (hmax : s.length ≤ 32) :
    deunicode (widen 2 r s) = [s] := by
  have hz1 := zerosAt_widen hr hs [0, 2] (fun j => by simp; omega)
  have hz2 := zerosAt_widen hr hs [1, 3] (fun j => by simp; omega)
  have hlen := length_widen 2 r s
  have htake := everyNth_widen hr s
  obtain rfl | rfl : r = 0 ∨ r = 1 := by omega
  · rw [show Nat.count (fun j => j % 4 ∈ [0, 2] ∧ j % 2 ≠ 0) 2 = 0 by decide] at hz1
    rw [show Nat.count (fun j => j % 4 ∈ [1, 3] ∧ j % 2 ≠ 0) 2 = 1 by decide] at hz2
    rw [deunicode, if_neg (by omega), if_neg (by omega), if_neg (by omega), if_pos (by omega),
      htake]
    rfl
  · rw [show Nat.count (fun j => j % 4 ∈ [0, 2] ∧ j % 2 ≠ 1) 2 = 1 by decide] at hz1
    rw [show Nat.count (fun j => j % 4 ∈ [1, 3] ∧ j % 2 ≠ 1) 2 = 0 by decide] at hz2
    rw [deunicode, if_neg (by omega), if_neg (by omega), if_neg (by omega), if_neg (by omega),
      htake]
    rfl

/-- Three quarters of the bytes are zeros, a quarter at the positions 2 or 3 modulo 4. -/
theorem mem_deunicode_utf32 (hr : r = 0 ∨ r = 3) (hs : 0 ∉ s) (hmin : 3 ≤ s.length)
    (hmax : s.length ≤ 16) : s ∈ deunicode (widen 4 r s) := by
  have hlt : r < 4 := by omega
  have hz : ∀ residues, zerosAt residues (widen 4 r s) =
      s.length * Nat.count (fun j => j % 4 ∈ residues ∧ j % 4 ≠ r) 4 :=
    fun residues => zerosAt_widen hlt hs residues fun j => by rw [Nat.add_mod_right]
  have hz1 := hz [0, 2]
  have hz2 := hz [1, 3]
  have hz3 := hz [2]
  have hz4 := hz [3]
  have hlen := length_widen 4 r s
  have htake := everyNth_widen hlt s
  rcases hr with rfl | rfl
  · rw [show Nat.count (fun j => j % 4 ∈ [0, 2] ∧ j % 4 ≠ 0) 4 = 1 by decide] at hz1
    rw [show Nat.count (fun j => j % 4 ∈ [1, 3] ∧ j % 4 ≠ 0) 4 = 2 by decide] at hz2
    rw [show Nat.count (fun j => j % 4 ∈ [2] ∧ j % 4 ≠ 0) 4 = 1 by decide] at hz3
    rw [show Nat.count (fun j => j % 4 ∈ [3] ∧ j % 4 ≠ 0) 4 = 1 by decide] at hz4
    rw [deunicode, if_neg (by omega), if_neg (by omega), if_pos (by omega), if_neg (by omega),
      if_neg (by omega), if_neg (by omega), htake]
    exact List.mem_cons_self
  · rw [show Nat.count (fun j => j % 4 ∈ [0, 2] ∧ j % 4 ≠ 3) 4 = 2 by decide] at hz1
    rw [show Nat.count (fun j => j % 4 ∈ [1, 3] ∧ j % 4 ≠ 3) 4 = 1 by decide] at hz2
    rw [show Nat.count (fun j => j % 4 ∈ [2] ∧ j % 4 ≠ 3) 4 = 1 by decide] at hz3
    rw [show Nat.count (fun j => j % 4 ∈ [3] ∧ j % 4 ≠ 3) 4 = 0 by decide] at hz4
    rw [deunicode, if_neg (by omega), if_neg (by omega), if_pos (by omega), if_pos (by omega),
      htake]
    exact List.mem_cons_self

theorem Encodes.mem_deunicode {data : List Byte} (h : Encodes data s) (hs : 0 ∉ s)
    (hmin : 3 ≤ s.length) : s ∈ deunicode data := by
  rcases h with ⟨hmax, rfl | rfl⟩ | ⟨hmax, rfl | rfl⟩
  · exact deunicode_utf16 Nat.zero_lt_two hs hmin hmax ▸ List.mem_singleton_self s
  · exact deunicode_utf16 Nat.one_lt_two hs hmin hmax ▸ List.mem_singleton_self s
  · exact mem_deunicode_utf32 (.inl rfl) hs hmin hmax
  · exact mem_deunicode_utf32 (.inr rfl) hs hmin hmax

/-- Every string that is in the dictionary in one of the encodings is there afterwards as is, with
all the tokens there were, sorted by length. -/
theorem deunicodeExtras_recovers {extras sorted : List (List Byte)}
    (hlen : ∀ data ∈ extras, data.length < 2 ^ 31) (h : DeunicodeExtras extras sorted) :
    (∀ data ∈ extras, ∀ s, 0 ∉ s → 3 ≤ s.length → Encodes data s → s ∈ sorted) ∧
      extras.Subperm sorted ∧ SortedByLength sorted := by
  rw [DeunicodeExtras] at h
  split at h
  · rename_i hnil
    subst hnil h
    exact ⟨fun data hdata => absurd hdata List.not_mem_nil, List.Subperm.refl _, .nil⟩
  · refine ⟨fun data hdata s hs hmin hcode => ?_, ?_, ?_⟩
    · exact h.perm.mem_iff.mpr (List.mem_append_right _
        (List.mem_flatMap.mpr ⟨data, hdata, hcode.mem_deunicode hs hmin⟩))
    · exact (List.sublist_append_left extras _).subperm.trans h.perm.symm.subperm
    · refine sortedByLength_of_qsortCall (fun data hdata => ?_) h
      rcases List.mem_append.mp hdata with hold | hnew
      · exact hlen data hold
      · obtain ⟨token, -, hmem⟩ := List.mem_flatMap.mp hnew
        exact lt_of_le_of_lt (bounded_deunicode token data hmem) (by decide)

/-- The token `a\0b\0c\0`. -/
theorem deunicodeExtras_recovers_abc : ∃ sorted, DeunicodeExtras [utf16le [97, 98, 99]] sorted ∧
    [97, 98, 99] ∈ sorted ∧ SortedByLength sorted := by
  have h : DeunicodeExtras [utf16le [97, 98, 99]] [[97, 98, 99], utf16le [97, 98, 99]] := by
    rw [DeunicodeExtras, if_neg (by decide)]
    exact ⟨by decide, fun _ => by decide⟩
  obtain ⟨hrecovered, -, hsorted⟩ := deunicodeExtras_recovers (by decide) h
  exact ⟨_, h, hrecovered _ List.mem_cons_self _ (by decide) (by decide)
    (.inl ⟨by decide, .inl rfl⟩), hsorted⟩

end Recovered

end AflPlusPlus.Dict
