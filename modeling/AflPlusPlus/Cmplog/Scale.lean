import AflPlusPlus.Cmplog.Recursion
import AflPlusPlus.Lib.Compact
import Mathlib.Data.List.GetD

/-!
# The scale encoding of a replacement

Both functions choose the mode from the value shifted left by two, in which the two top bits of the
value are lost. The placed bytes are those of the compact encoding unless what is left of such a
value is small enough for one of the short modes.
-/

namespace AflPlusPlus.Cmplog
open Lib Lib.Stopping

/-! ### One executed test case -/

theorem itsFuzz_runs (t : Target) (data : List Byte) (s : Solver) :
    (itsFuzz t data s).2.runs = s.runs ++ [data] := by
  rw [itsFuzz, modify_bind_apply, get_bind_apply]
  cases t.outcome (s.runs ++ [data]) <;> rfl

theorem runPatched_runs (t : Target) (idx n : ℕ) (src : Bytes) (s : Solver) :
    (runPatched t idx n src s).2.runs = s.runs ++ [contents s.buf t.len] := by
  have hfuzz := itsFuzz_runs t (contents s.buf t.len) s
  rw [runPatched, get_bind_apply]
  rcases hrun : itsFuzz t (contents s.buf t.len) s with ⟨e | u, s'⟩
  · rw [bind_of_error hrun]
    rwa [hrun] at hfuzz
  · rw [bind_of_ok hrun, get_bind_apply, Stopping.onlyIf]
    rw [hrun] at hfuzz
    split
    · exact hfuzz
    · exact hfuzz

/-- A patch in the buffer is executed once. -/
theorem tryBytes_runs {t : Target} {idx n : ℕ} (h : n = 0 ∨ idx + n ≤ t.len) (src : Bytes)
    (s : Solver) :
    (tryBytes t idx n src s).2.runs =
      s.runs ++ [contents (copyBlock s.buf idx src 0 n) t.len] := by
  have hpatched := runPatched_runs t idx n src { s with buf := copyBlock s.buf idx src 0 n }
  rw [tryBytes_apply h]
  rcases hrun :
      runPatched t idx n src { s with buf := copyBlock s.buf idx src 0 n } with ⟨e | u, s'⟩
  · rw [bind_of_error hrun]
    rwa [hrun] at hpatched
  · rw [bind_of_ok hrun, writeBuf_apply h]
    rwa [hrun] at hpatched

/-- The test case with the given bytes at the position. -/
def placed (t : Target) (idx : ℕ) (s : Solver) (bytes : List Byte) : List Byte :=
  contents (copyBlock s.buf idx (fun i => bytes.getD i 0) 0 bytes.length) t.len

theorem wordByte_eq_ofNat {w : ℕ} (v : BitVec w) (i : ℕ) :
    wordByte v i = BitVec.ofNat 8 (v.toNat / 256 ^ i) := by
  apply BitVec.eq_of_toNat_eq
  rw [wordByte, BitVec.extractLsb'_toNat, BitVec.toNat_ofNat, Nat.shiftRight_eq_div_pow,
    show 256 ^ i = 2 ^ (8 * i) by rw [Nat.pow_mul]]

/-- The bytes of a word that are placed. -/
theorem contents_copyBlock_word {w : ℕ} (t : Target) (idx n : ℕ) (s : Solver) (v : BitVec w) :
    contents (copyBlock s.buf idx (wordByte v) 0 n) t.len =
      placed t idx s (littleEndian n v.toNat) := by
  rw [placed, length_littleEndian, contents_eq_iff]
  intro i _
  simp only [copyBlock]
  split
  · rename_i hi
    rw [littleEndian, List.getD_eq_getElem _ _ (by simp; omega), wordByte_eq_ofNat]
    simp
  · rfl

/-! ### The placed bytes -/

theorem countBytes_eq (fuel : ℕ) {v : BitVec 128} (hv : v.toNat < 256 ^ fuel) :
    countBytes fuel v = if v = 0 then 0 else byteCount v.toNat := by
  induction fuel generalizing v with
  | zero =>
    have hzero : v = 0 := BitVec.eq_of_toNat_eq (by
      rw [Nat.pow_zero] at hv
      simpa using hv)
    rw [countBytes, if_pos hzero]
  | succ fuel ih =>
    have hshift : (v >>> 8).toNat = v.toNat / 256 := by
      rw [BitVec.toNat_ushiftRight, Nat.shiftRight_eq_div_pow]
    rw [countBytes]
    by_cases hzero : v = 0
    · rw [if_pos hzero, if_pos hzero]
    · rw [if_neg hzero, if_neg hzero, ih (by
        rw [hshift, Nat.div_lt_iff_lt_mul (by decide), ← Nat.pow_succ]
        exact hv)]
      by_cases hsmall : v.toNat < 256
      · have hnext : v >>> 8 = 0 := BitVec.eq_of_toNat_eq (by
          rw [hshift, Nat.div_eq_of_lt hsmall]
          rfl)
        have hpos : v.toNat ≠ 0 := fun h => hzero (BitVec.eq_of_toNat_eq h)
        rw [if_pos hnext, byteCount_eq (k := 0) (by omega) (by omega)]
      · have hnext : ¬ v >>> 8 = 0 := fun h => by
          have h0 := congrArg BitVec.toNat h
          rw [hshift] at h0
          have hz : (0 : BitVec 128).toNat = 0 := rfl
          omega
        rw [if_neg hnext, hshift, byteCount, byteCount, Nat.log_of_one_lt_of_le (by decide)
          (by omega : 256 ≤ v.toNat)]

/-- The mode with a length prefix is right wherever it is chosen. -/
theorem scaleBig_bytes {repl : BitVec 128} (hlow : 2 ^ 30 ≤ repl.toNat)
    (hhigh : repl.toNat < 2 ^ 120) :
    littleEndian (scaleBig repl).1 (scaleBig repl).2.toNat = compactEncode repl.toNat := by
  have hne : ¬ repl = 0 := fun h => by
    rw [h] at hlow
    exact absurd hlow (by decide)
  have hfour := four_le_byteCount hlow
  have hcount : byteCount repl.toNat ≤ 15 := byteCount_le (by omega) (by decide)
  have hbytes : countBytes 16 repl = byteCount repl.toNat := by
    rw [countBytes_eq 16 (by omega), if_neg hne]
  have hvalue : (scaleBig repl).2.toNat =
      256 * repl.toNat + (4 * (byteCount repl.toNat - 4) + 3) := by
    simp only [scaleBig, hbytes, if_pos hfour]
    have hlen : ((byteCount repl.toNat - 4) <<< 2) = 4 * (byteCount repl.toNat - 4) := by
      rw [Nat.shiftLeft_eq, Nat.mul_comm]
    rw [BitVec.toNat_add, BitVec.toNat_add, BitVec.toNat_shiftLeft, BitVec.toNat_ofNat, hlen,
      Nat.shiftLeft_eq]
    have hthree : (3 : BitVec 128).toNat = 3 := rfl
    rw [hthree]
    omega
  have hilen : (scaleBig repl).1 = byteCount repl.toNat + 1 := by
    simp only [scaleBig, hbytes, if_pos hfour]
    omega
  have hdiv : (256 * repl.toNat + (4 * (byteCount repl.toNat - 4) + 3)) / 256 = repl.toNat := by
    omega
  rw [hilen, hvalue, littleEndian_succ, hdiv, compactEncode, if_neg (by omega), if_neg (by omega),
    if_neg (by omega)]
  congr 1
  apply BitVec.eq_of_toNat_eq
  rw [BitVec.toNat_ofNat, BitVec.toNat_ofNat]
  omega

/-- A value of `w` bits is encoded right when the shift keeps it, or when what the shift leaves of
it is too large for the short modes all the same. -/
def ScaleModeRight (w n : ℕ) : Prop := n < 2 ^ (w - 2) ∨ 2 ^ 30 ≤ n % 2 ^ (w - 2)

/-- The encoding of a value whose top bits were lost is longer than a short mode. -/
theorem compactEncode_ne_of_lost {k n v : ℕ} (hk : k ≤ 4) (hn : 2 ^ 62 ≤ n) :
    littleEndian k v ≠ compactEncode n := by
  intro h
  have hlen := congrArg List.length h
  have hfour := four_le_byteCount (n := n) (by omega)
  rw [length_littleEndian, length_compactEncode_big (by omega)] at hlen
  omega

/-- A short mode with the two mode bits `m` in place. -/
theorem scaleShort_bytes {w k m n v : ℕ} (hw : 64 ≤ w) (hk : k ≤ 4) (hv : v = 4 * n % 2 ^ w + m)
    (hsmall : 4 * n % 2 ^ w < 2 ^ 32)
    (hmode : n < 2 ^ (w - 2) → littleEndian k (4 * n + m) = compactEncode n) :
    littleEndian k v = compactEncode n ↔ ScaleModeRight w n := by
  have hpow : 2 ^ w = 4 * 2 ^ (w - 2) := by
    have hsum := Nat.pow_add 2 (w - 2) 2
    rw [show w - 2 + 2 = w by omega] at hsum
    omega
  have hbig : 2 ^ 62 ≤ 2 ^ (w - 2) := Nat.pow_le_pow_right (by decide) (by omega)
  rw [hpow, Nat.mul_mod_mul_left] at hv hsmall
  by_cases hn : n < 2 ^ (w - 2)
  · rw [Nat.mod_eq_of_lt hn] at hv
    rw [hv]
    exact iff_of_true (hmode hn) (Or.inl hn)
  · exact iff_of_false (compactEncode_ne_of_lost hk (by omega)) fun h => by
      rcases h with h | h
      · exact hn h
      · omega

theorem littleEndian_two_eq {n : ℕ} (hlow : 2 ^ 6 ≤ n) (hhigh : n < 2 ^ 14) :
    littleEndian 2 (4 * n + 1) = compactEncode n := by
  rw [compactEncode, if_neg (by omega), if_pos hhigh]

theorem littleEndian_four_eq {n : ℕ} (hlow : 2 ^ 14 ≤ n) (hhigh : n < 2 ^ 30) :
    littleEndian 4 (4 * n + 2) = compactEncode n := by
  rw [compactEncode, if_neg (by omega), if_neg (by omega), if_pos hhigh]

theorem scaleCode_bytes {repl : BitVec 64} (hlen : 1 < (scaleCode repl repl).1) :
    littleEndian (scaleCode repl repl).1 (scaleCode repl repl).2.toNat =
      compactEncode repl.toNat ↔ ScaleModeRight 64 repl.toNat := by
  have hlt := repl.isLt
  have hnew : (repl <<< 2).toNat = 4 * repl.toNat % 2 ^ 64 := by
    rw [BitVec.toNat_shiftLeft, Nat.shiftLeft_eq, Nat.mul_comm]
  have h1 : (255 : BitVec 64).toNat = 255 := rfl
  have h2 : (65535 : BitVec 64).toNat = 65535 := rfl
  have h4 : (4294967295 : BitVec 64).toNat = 4294967295 := rfl
  have hadd : ∀ m, m < 4 → 4 * repl.toNat % 2 ^ 64 < 2 ^ 32 →
      (((repl <<< 2) + BitVec.ofNat 64 m).setWidth 128).toNat = 4 * repl.toNat % 2 ^ 64 + m :=
    fun m hm hsmall => by
      rw [BitVec.toNat_setWidth, BitVec.toNat_add, BitVec.toNat_ofNat, hnew]
      omega
  simp only [scaleCode, BitVec.le_def, hnew, h1, h2, h4] at hlen ⊢
  split
  · rename_i hone
    rw [if_pos hone] at hlen
    exact absurd hlen (Nat.lt_irrefl 1)
  · rename_i hone
    split
    · rename_i htwo
      exact scaleShort_bytes (k := 2) (Nat.le_refl 64) (by decide)
        (hadd 1 (by decide) (by omega)) (by omega) fun h =>
          littleEndian_two_eq (by omega) (by omega)
    · rename_i htwo
      split
      · rename_i hfour
        exact scaleShort_bytes (k := 4) (Nat.le_refl 64) (by decide)
          (hadd 2 (by decide) (by omega)) (by omega) fun h =>
            littleEndian_four_eq (by omega) (by omega)
      · rename_i hfour
        have hwide : (repl.setWidth 128).toNat = repl.toNat := by
          rw [BitVec.toNat_setWidth]
          omega
        have hlow : 2 ^ 30 ≤ (repl.setWidth 128).toNat := by omega
        have hbig := scaleBig_bytes hlow (by omega)
        rw [hwide] at hbig
        exact iff_of_true hbig (Or.inr (by omega))

theorem scaleCodeN_bytes {repl : BitVec 128} {code : ℕ × BitVec 128}
    (h : scaleCodeN repl = some code) :
    littleEndian code.1 code.2.toNat = compactEncode repl.toNat ↔
      ScaleModeRight 128 repl.toNat := by
  have hlt := repl.isLt
  have hnew : (repl <<< 2).toNat = 4 * repl.toNat % 2 ^ 128 := by
    rw [BitVec.toNat_shiftLeft, Nat.shiftLeft_eq, Nat.mul_comm]
  have h1 : (255 : BitVec 128).toNat = 255 := rfl
  have h2 : (65535 : BitVec 128).toNat = 65535 := rfl
  have h4 : (4294967295 : BitVec 128).toNat = 4294967295 := rfl
  have hmax : ((1 : BitVec 128) <<< 120).toNat = 2 ^ 120 := by decide
  have hadd : ∀ m, m < 4 → 4 * repl.toNat % 2 ^ 128 < 2 ^ 32 →
      ((repl <<< 2) + BitVec.ofNat 128 m).toNat = 4 * repl.toNat % 2 ^ 128 + m :=
    fun m hm hsmall => by
      rw [BitVec.toNat_add, BitVec.toNat_ofNat, hnew]
      omega
  simp only [scaleCodeN, BitVec.le_def, BitVec.lt_def, hnew, h1, h2, h4, hmax] at h
  split at h
  · obtain rfl := Option.some.inj h
    exact scaleShort_bytes (k := 1) (m := 0) (by decide) (by decide) (by rw [hnew]; omega)
      (by omega) fun h => by rw [compactEncode, if_pos (by omega), Nat.add_zero]
  · split at h
    · obtain rfl := Option.some.inj h
      exact scaleShort_bytes (k := 2) (by decide) (by decide) (hadd 1 (by decide) (by omega))
        (by omega) fun h => littleEndian_two_eq (by omega) (by omega)
    · split at h
      · obtain rfl := Option.some.inj h
        exact scaleShort_bytes (k := 4) (by decide) (by decide) (hadd 2 (by decide) (by omega))
          (by omega) fun h => littleEndian_four_eq (by omega) (by omega)
      · split at h
        · obtain rfl := Option.some.inj h
          exact iff_of_true (scaleBig_bytes (by omega) (by omega)) (Or.inl (by omega))
        · exact absurd h (by simp)

/-! ### The executed test cases -/

/-- The one test case of a scale step, if there is one. -/
theorem solveScale_runs {t : Target} {a : CmpArgs 64} {itsLen : ℕ} (hlen : a.idx + itsLen ≤ t.len)
    {s : Solver} (hrun : (solveScale t a itsLen s).2.runs ≠ s.runs) :
    a.repl = a.changedVal ∧ 1 < (scaleCode a.repl a.changedVal).1 ∧
      (scaleCode a.repl a.changedVal).1 ≤ itsLen ∧
      (solveScale t a itsLen s).2.runs = s.runs ++ [placed t a.idx s
        (littleEndian (scaleCode a.repl a.changedVal).1
          (scaleCode a.repl a.changedVal).2.toNat)] := by
  simp only [solveScale, Stopping.onlyIf] at hrun ⊢
  split at hrun
  · rename_i hcond
    split at hrun
    · rename_i hfit
      rw [if_pos hcond, if_pos hfit, tryBytes_runs (by omega), contents_copyBlock_word]
      exact ⟨hcond.2.2, hfit.2, hfit.1, rfl⟩
    · exact absurd rfl hrun
  · exact absurd rfl hrun

theorem solveScaleN_runs {t : Target} {a : CmpArgs 128} {itsLen : ℕ}
    (hlen : a.idx + itsLen ≤ t.len) {s : Solver}
    (hrun : (solveScaleN t a itsLen s).2.runs ≠ s.runs) :
    ∃ code, scaleCodeN a.repl = some code ∧ code.1 ≤ itsLen ∧
      (solveScaleN t a itsLen s).2.runs =
        s.runs ++ [placed t a.idx s (littleEndian code.1 code.2.toNat)] := by
  simp only [solveScaleN, Stopping.onlyIf] at hrun ⊢
  split at hrun
  · rename_i hcond
    rw [if_pos hcond]
    cases hcode : scaleCodeN a.repl with
    | none =>
      rw [hcode] at hrun
      exact absurd rfl hrun
    | some code =>
      rw [hcode] at hrun
      simp only at hrun ⊢
      split at hrun
      · rename_i hfit
        rw [if_pos hfit, tryBytes_runs (by omega), contents_copyBlock_word]
        exact ⟨code, rfl, hfit, rfl⟩
      · exact absurd rfl hrun
  · exact absurd rfl hrun

/-- The test case that a scale step executes has at the position the compact encoding of the value,
and decoding it gives the value, exactly when the shift by two keeps the value or leaves too much
of it for a short mode. -/
theorem solveScale_compact_iff (t : Target) (s : Solver) (itsLen : ℕ) :
    (∀ a : CmpArgs 64, a.idx + itsLen ≤ t.len → (solveScale t a itsLen s).2.runs ≠ s.runs →
      ∃ bytes, a.idx + bytes.length ≤ t.len ∧
        (solveScale t a itsLen s).2.runs = s.runs ++ [placed t a.idx s bytes] ∧
        (bytes = compactEncode a.repl.toNat ↔ ScaleModeRight 64 a.repl.toNat) ∧
        (ScaleModeRight 64 a.repl.toNat → compactDecode bytes = some a.repl.toNat)) ∧
    ∀ a : CmpArgs 128, a.idx + itsLen ≤ t.len → (solveScaleN t a itsLen s).2.runs ≠ s.runs →
      ∃ bytes, a.idx + bytes.length ≤ t.len ∧
        (solveScaleN t a itsLen s).2.runs = s.runs ++ [placed t a.idx s bytes] ∧
        (bytes = compactEncode a.repl.toNat ↔ ScaleModeRight 128 a.repl.toNat) ∧
        (ScaleModeRight 128 a.repl.toNat → compactDecode bytes = some a.repl.toNat) := by
  refine ⟨fun a hlen hrun => ?_, fun a hlen hrun => ?_⟩
  · obtain ⟨hsame, hone, hfit, hruns⟩ := solveScale_runs hlen hrun
    rw [← hsame] at hone hfit hruns
    have hbytes := scaleCode_bytes hone
    refine ⟨_, ?_, hruns, hbytes, fun hright => ?_⟩
    · rw [length_littleEndian]
      omega
    · have hlt := a.repl.isLt
      rw [hbytes.mpr hright, compactDecode_compactEncode (by omega)]
  · obtain ⟨code, hcode, hfit, hruns⟩ := solveScaleN_runs hlen hrun
    have hbytes := scaleCodeN_bytes hcode
    refine ⟨_, ?_, hruns, hbytes, fun hright => ?_⟩
    · rw [length_littleEndian]
      omega
    · have hlt := a.repl.isLt
      rw [hbytes.mpr hright, compactDecode_compactEncode (by omega)]

theorem solveScale_compact_thousand :
    ∃ bytes, 0 + bytes.length ≤ 2 ∧
      (solveScale (quietTarget 2 fun _ => 0) (.equality 7 1000 9 2) 2
        (.fresh (fun _ => 0) 8)).2.runs = [placed (quietTarget 2 fun _ => 0) 0
          (.fresh (fun _ => 0) 8) bytes] ∧
      (bytes = compactEncode 1000 ↔ ScaleModeRight 64 1000) ∧
      (ScaleModeRight 64 1000 → compactDecode bytes = some 1000) :=
  (solveScale_compact_iff (quietTarget 2 fun _ => 0) (.fresh (fun _ => 0) 8) 2).1
    (.equality 7 1000 9 2) (by decide) (by decide)

/-- The value `2 ^ 62` is placed as the number zero in two bytes. -/
theorem solveScale_lost :
    (solveScale (quietTarget 2 fun _ => 0) (.equality 7 0x4000000000000000 9 2) 2
      (.fresh (fun _ => 0) 8)).2.runs = [[1, 0]] ∧
      [1, 0] ≠ compactEncode 0x4000000000000000 ∧ compactDecode [1, 0] = some 0 := by
  refine ⟨by decide +kernel, ?_, by decide⟩
  exact compactEncode_ne_of_lost (k := 2) (v := 1) (by decide) (by decide)

end AflPlusPlus.Cmplog
