import AflPlusPlus.Lib.Loop
import AflPlusPlus.Lib.Memory
import AflPlusPlus.Queue.State

/-!
# Writing the trimmed file

With `AFL_NO_UNLINK` the file of a trimmed entry is written by a loop that counts what `write` has
taken, and starts each `write` at the beginning of the buffer.
-/

namespace AflPlusPlus
open Lib

/-- The file, the variable `written`, and the number of calls of `write` so far. -/
structure FileWrite where
  file : List Byte := []
  written : U32 := 0
  calls : ℕ := 0

/-- `result = write(fd, in_buf, q->len - written); if (result > 0) written += result;`, where the
`j`-th call takes at most `takes j` bytes and fails when this is not positive. -/
def writeStep (takes : ℕ → ℤ) (inBuf : List Byte) (len : U32) (w : FileWrite) : Option FileWrite :=
  let requested := (len - w.written).toNat
  let result := min (takes w.calls) requested
  if inBuf.length < requested then none
  else if result > 0 then
    some
      { file := w.file ++ inBuf.take result.toNat
        written := w.written + BitVec.ofNat 32 result.toNat
        calls := w.calls + 1 }
  else some { w with calls := w.calls + 1 }

/-- `while (written < q->len)`. -/
def writeTrimmed (takes : ℕ → ℤ) (inBuf : List Byte) (len : U32) (fuel : ℕ) : Option FileWrite :=
  whileLoop (fun w => w.written < len) (writeStep takes inBuf len) fuel {}

/-- How many bytes the calls before the `j`-th one take. -/
def taken (takes : ℕ → ℤ) : ℕ → ℕ
  | 0 => 0
  | j + 1 => taken takes j + (takes j).toNat

/-- The `j`-th call finds at the beginning of the buffer the bytes that belong behind those already
written. -/
def ChunkFits (takes : ℕ → ℤ) (data : List Byte) (j : ℕ) : Prop :=
  let r := min (takes j).toNat (data.length - taken takes j)
  data.take r = (data.drop (taken takes j)).take r

/-- The state of the loop before call `j`. -/
structure WriteInv (takes : ℕ → ℤ) (data : List Byte) (w : FileWrite) : Prop where
  written : w.written.toNat = min (taken takes w.calls) data.length
  length : w.file.length = w.written.toNat
  file : w.file = data.take w.written.toNat ↔ ∀ j, j < w.calls → ChunkFits takes data j

theorem taken_mono (takes : ℕ → ℤ) {i j : ℕ} (h : i ≤ j) : taken takes i ≤ taken takes j := by
  induction h with
  | refl => exact le_refl _
  | step _ ih => exact ih.trans (Nat.le_add_right _ _)

/-- Nothing is left for a call that comes too late. -/
theorem chunkFits_of_taken {takes : ℕ → ℤ} {data : List Byte} {j : ℕ}
    (h : data.length ≤ taken takes j) : ChunkFits takes data j := by
  have hr : min (takes j).toNat (data.length - taken takes j) = 0 := by omega
  rw [ChunkFits, hr]
  rfl

theorem WriteInv.start (takes : ℕ → ℤ) (data : List Byte) : WriteInv takes data {} := by
  refine ⟨(Nat.zero_min _).symm, rfl, fun _ j hj => absurd hj (Nat.not_lt_zero j), fun _ => rfl⟩

/-- One call of `write`. -/
theorem WriteInv.step {takes : ℕ → ℤ} {inBuf : List Byte} {len : U32} {w : FileWrite}
    (hlen : len.toNat ≤ inBuf.length) (h : WriteInv takes (inBuf.take len.toNat) w)
    (hlt : w.written < len) :
    ∃ w', writeStep takes inBuf len w = some w' ∧ WriteInv takes (inBuf.take len.toNat) w' ∧
      w'.calls = w.calls + 1 := by
  have hn : (inBuf.take len.toNat).length = len.toNat := by
    rw [List.length_take, Nat.min_eq_left hlen]
  have hlt' : w.written.toNat < len.toNat := hlt
  have hwritten : w.written.toNat = taken takes w.calls := by
    have := h.written
    omega
  have hrequested : (len - w.written).toNat = len.toNat - taken takes w.calls := by
    rw [← hwritten]
    exact BitVec.toNat_sub_of_le (Nat.le_of_lt hlt')
  have hr : (min (takes w.calls) ((len - w.written).toNat : ℤ)).toNat =
      min (takes w.calls).toNat (len.toNat - taken takes w.calls) := by
    rw [hrequested]
    omega
  unfold writeStep
  dsimp only
  rw [if_neg (by omega)]
  split
  · rename_i hpos
    refine ⟨_, rfl, ?_, rfl⟩
    -- `r` bytes are taken from the beginning of the buffer
    obtain ⟨r, hrdef⟩ : ∃ r, min (takes w.calls).toNat (len.toNat - taken takes w.calls) = r :=
      ⟨_, rfl⟩
    have hchunk : inBuf.take r = (inBuf.take len.toNat).take r := by
      rw [List.take_take, Nat.min_eq_left (by omega)]
    have hnext : (w.written + BitVec.ofNat 32 r).toNat = w.written.toNat + r := by
      have := len.isLt
      rw [BitVec.toNat_add, BitVec.toNat_ofNat, Nat.mod_eq_of_lt (a := r) (by omega),
        Nat.mod_eq_of_lt (by omega)]
    rw [hr, hrdef, hchunk]
    refine ⟨?_, ?_, ?_⟩
    · rw [hnext, hn, hwritten]
      change _ = min (taken takes w.calls + (takes w.calls).toNat) _
      omega
    · change (w.file ++ _).length = _
      rw [hnext, List.length_append, h.length, List.length_take, hn]
      omega
    · have hsplit : w.file ++ (inBuf.take len.toNat).take r =
            (inBuf.take len.toNat).take (w.written.toNat + r) ↔
          w.file = (inBuf.take len.toNat).take w.written.toNat ∧
            (inBuf.take len.toNat).take r =
              ((inBuf.take len.toNat).drop w.written.toNat).take r := by
        rw [List.take_add]
        refine ⟨fun heq => List.append_inj heq ?_, fun ⟨hl, hr⟩ => congrArg₂ _ hl hr⟩
        rw [h.length, List.length_take, hn]
        omega
      rw [hnext, hsplit, h.file, Nat.forall_lt_succ_right]
      refine and_congr Iff.rfl ?_
      rw [ChunkFits, hn, hrdef, hwritten]
  · refine ⟨_, rfl, ⟨?_, h.length, ?_⟩, rfl⟩
    · change w.written.toNat = min (taken takes w.calls + (takes w.calls).toNat) _
      rw [hn]
      omega
    · rw [h.file, Nat.forall_lt_succ_right, and_iff_left]
      rw [ChunkFits, hn, show min (takes w.calls).toNat (len.toNat - taken takes w.calls) = 0 by
        omega]
      rfl

/-- At the end everything has been written. -/
theorem WriteInv.done {takes : ℕ → ℤ} {inBuf : List Byte} {len : U32} {w : FileWrite}
    (hlen : len.toNat ≤ inBuf.length) (h : WriteInv takes (inBuf.take len.toNat) w)
    (hcond : decide (w.written < len) = false) :
    len.toNat ≤ taken takes w.calls ∧ w.written.toNat = len.toNat := by
  have hge : len.toNat ≤ w.written.toNat := Nat.not_lt.mp (of_decide_eq_false hcond)
  have hmin := h.written
  rw [List.length_take, Nat.min_eq_left hlen] at hmin
  omega

/-- The loop ends when the calls take everything, and leaves the right contents when all chunks
fit. -/
theorem writeTrimmed_ends {takes : ℕ → ℤ} {inBuf : List Byte} {len : U32} {j : ℕ}
    (hlen : len.toNat ≤ inBuf.length) (hj : len.toNat ≤ taken takes j)
    (hfits : ∀ j, ChunkFits takes (inBuf.take len.toNat) j) :
    ∃ w, writeTrimmed takes inBuf len (j + 1) = some w ∧ w.file = inBuf.take len.toNat := by
  obtain ⟨w, hrun, hinv, hcond⟩ := whileLoop_total (fun w : FileWrite => decide (w.written < len))
    (writeStep takes inBuf len) (WriteInv takes (inBuf.take len.toNat)) (fun w => j - w.calls)
    (.start takes _) (Nat.lt_succ_self _) fun u hu hlt => by
      obtain ⟨u', hu', hinv, hcalls⟩ := hu.step hlen (of_decide_eq_true hlt)
      refine ⟨u', hu', hinv, ?_⟩
      have hlt' : u.written.toNat < len.toNat := of_decide_eq_true hlt
      have hcalls' : u.calls < j := by
        by_contra hge
        have := taken_mono takes (Nat.not_lt.mp hge)
        have hmin := hu.written
        rw [List.length_take, Nat.min_eq_left hlen] at hmin
        omega
      omega
  refine ⟨w, hrun, ?_⟩
  rw [hinv.file.mpr fun i _ => hfits i, (hinv.done hlen hcond).2, List.take_take, Nat.min_self]

/-- The file has the right contents if the calls of `write` take them all, and each finds what it is
meant to write at the beginning of the buffer. -/
theorem writeTrimmed_iff {takes : ℕ → ℤ} {inBuf : List Byte} {len : U32}
    (hlen : len.toNat ≤ inBuf.length) :
    (∃ fuel w, writeTrimmed takes inBuf len fuel = some w ∧ w.file = inBuf.take len.toNat) ↔
      (∃ j, len.toNat ≤ taken takes j) ∧ ∀ j, ChunkFits takes (inBuf.take len.toNat) j := by
  have hn : (inBuf.take len.toNat).length = len.toNat := by
    rw [List.length_take, Nat.min_eq_left hlen]
  have htwice : (inBuf.take len.toNat).take len.toNat = inBuf.take len.toNat := by
    rw [List.take_take, Nat.min_self]
  constructor
  · rintro ⟨fuel, w, hrun, hfile⟩
    obtain ⟨hinv, hcond⟩ := whileLoop_invariant (WriteInv takes (inBuf.take len.toNat)) hrun
      (.start takes _) fun u v hu hlt hv => by
        obtain ⟨u', hu', hinv, -⟩ := hu.step hlen (of_decide_eq_true hlt)
        rw [hu'] at hv
        exact Option.some.inj hv ▸ hinv
    obtain ⟨htaken, hwritten⟩ := hinv.done hlen hcond
    refine ⟨⟨w.calls, htaken⟩, fun j => ?_⟩
    by_cases hj : j < w.calls
    · exact hinv.file.mp (by rw [hwritten, htwice]; exact hfile) j hj
    · refine chunkFits_of_taken ?_
      rw [hn]
      exact htaken.trans (taken_mono takes (Nat.not_lt.mp hj))
  · rintro ⟨⟨j, hj⟩, hfits⟩
    exact ⟨j + 1, writeTrimmed_ends hlen hj hfits⟩

theorem le_taken {takes : ℕ → ℤ} (hpos : ∀ j, 0 < takes j) (j : ℕ) : j ≤ taken takes j := by
  induction j with
  | zero => exact le_refl 0
  | succ j ih =>
    have := hpos j
    rw [taken]
    omega

/-- When every call takes something the loop ends, and the file has the right contents if and only
if each chunk is the same as the beginning of the buffer. -/
theorem writeTrimmed_faithful_iff {takes : ℕ → ℤ} {inBuf : List Byte} {len : U32}
    (hlen : len.toNat ≤ inBuf.length) (hpos : ∀ j, 0 < takes j) :
    (∃ fuel w, writeTrimmed takes inBuf len fuel = some w ∧ w.file = inBuf.take len.toNat) ↔
      ∀ j, ChunkFits takes (inBuf.take len.toNat) j := by
  rw [writeTrimmed_iff hlen]
  exact and_iff_right ⟨len.toNat, le_taken hpos len.toNat⟩

/-- A buffer of equal bytes, of which every call takes two. -/
theorem writeTrimmed_faithful_equal :
    ∃ fuel w, writeTrimmed (fun _ => 2) [7, 7, 7, 7] 4 fuel = some w ∧ w.file = [7, 7, 7, 7] := by
  refine (writeTrimmed_faithful_iff (by decide) fun _ => by decide).mpr fun j => ?_
  match j with
  | 0 => rfl
  | 1 => rfl
  | j + 2 =>
    refine chunkFits_of_taken ?_
    rw [taken, taken]
    change 4 ≤ _ + 2 + 2
    omega

/-- Two calls that take one byte each write the first byte twice. -/
theorem writeTrimmed_short_write :
    ¬ ∃ fuel w, writeTrimmed (fun _ => 1) [1, 2] 2 fuel = some w ∧ w.file = [1, 2] := by
  rintro ⟨fuel, w, hrun, hfile⟩
  have hrun' : writeTrimmed (fun _ => 1) [1, 2] 2 3 =
      some { file := [1, 1], written := 2, calls := 2 } := rfl
  rw [whileLoop_unique hrun hrun'] at hfile
  cases hfile

end AflPlusPlus
