import AflPlusPlus.Cmplog.Scale

/-!
# The reversed attempt for operands of any size

`SWAPN` reverses sixteen bytes and shifts the wanted ones down by `128 - 8 * l` bits, so that its
length argument counts bytes. The recursive call gives the length in bits: the shift is then a
multiple of 64, and the operands are in the right place only where all sixteen bytes are wanted.
-/

namespace AflPlusPlus.Cmplog
open Lib Lib.Stopping

/-! ### The bytes of a swapped operand -/

theorem wordByte_gather (f : Bytes) {i : ℕ} (hi : i < 16) :
    wordByte (gather 128 f 0 16) i = f i := by
  have hword := wordByte_word (w := 128) (by decide) f 0 (b := i) hi
  rwa [word, Nat.zero_mul, Nat.zero_add] at hword

/-- A shift by `k` bytes moves byte `15 - k` of the operand to the front. -/
theorem wordByte_swapN (x : BitVec 128) {l k : ℕ}
    (hk : (128#32 - (BitVec.ofNat 32 l <<< 3)).toNat % 128 = 8 * k) (i : ℕ) :
    wordByte (swapN x l) i = if i + k < 16 then wordByte x (15 - (i + k)) else 0#8 := by
  rw [swapN, hk, wordByte_shift]
  split
  · rename_i hi
    rw [wordByte_gather _ hi]
  · rename_i hi
    exact wordByte_of_ge (by decide) _ (by omega)

/-- With a length in bytes the swap reverses the low bytes. -/
theorem wordByte_swapN_bytes (x : BitVec 128) {l i : ℕ} (hl : l ≤ 16) (hi : i < l) :
    wordByte (swapN x l) i = wordByte x (l - 1 - i) := by
  have hshift : ∀ l < 17, 0 < l →
      (128#32 - (BitVec.ofNat 32 l <<< 3)).toNat % 128 = 8 * (16 - l) := by decide
  rw [wordByte_swapN x (hshift l (by omega) (by omega)), if_pos (by omega)]
  congr 1
  omega

/-- The shift for a length in bits is no byte or eight bytes. -/
theorem shift_of_bits : ∀ h < 17,
    (128#32 - (BitVec.ofNat 32 (h <<< 3) <<< 3)).toNat % 128 = 8 * (8 * (h % 2)) := by decide

/-- The index of the byte that comes to the front. -/
def frontByte (h : ℕ) : ℕ := if h % 2 = 0 then 15 else 7

/-- The swap of the recursive call takes every byte that is compared or placed from where the
reversal of the low `h` bytes takes it, or from where there is the same byte. -/
def MirrorsRight (h : ℕ) (x : BitVec 128) : Prop :=
  ∀ i < h, (if i ≤ frontByte h then wordByte x (frontByte h - i) else 0#8) = wordByte x (h - 1 - i)

instance (h : ℕ) (x : BitVec 128) : Decidable (MirrorsRight h x) :=
  inferInstanceAs (Decidable (∀ i < h, _))

theorem wordByte_swapN_bits (x : BitVec 128) {h : ℕ} (hh : h ≤ 16) (i : ℕ) :
    wordByte (swapN x (h <<< 3)) i =
      if i ≤ frontByte h then wordByte x (frontByte h - i) else 0#8 := by
  rw [wordByte_swapN x (shift_of_bits h (by omega))]
  rcases Nat.mod_two_eq_zero_or_one h with hpar | hpar
  · have hfront : frontByte h = 15 := if_pos hpar
    rw [hpar, hfront, Nat.mul_zero, Nat.add_zero]
    by_cases hi : i < 16
    · rw [if_pos hi, if_pos (by omega)]
    · rw [if_neg hi, if_neg (by omega)]
  · have hfront : frontByte h = 7 := if_neg (by omega)
    rw [hpar, hfront, Nat.mul_one]
    by_cases hi : i + 8 < 16
    · rw [if_pos hi, if_pos (by omega)]
      congr 1
      omega
    · rw [if_neg hi, if_neg (by omega)]

theorem mirrorsRight_sixteen (x : BitVec 128) : MirrorsRight 16 x := by
  intro i hi
  rw [show frontByte 16 = 15 from rfl, if_pos (by omega)]

/-! ### The swap as an involution -/

def InvolutionOn (h : ℕ) : Prop :=
  ∀ x : BitVec 128, x.toNat < 2 ^ (8 * h) →
    (swapN x (h <<< 3)).toNat < 2 ^ (8 * h) ∧ swapN (swapN x (h <<< 3)) (h <<< 3) = x

theorem involutionOn_sixteen : InvolutionOn 16 := by
  intro x _
  refine ⟨(swapN x (16 <<< 3)).isLt, eq_of_wordByte (by decide) fun i hi => ?_⟩
  have hfront : frontByte 16 = 15 := rfl
  rw [wordByte_swapN_bits _ (by decide), wordByte_swapN_bits _ (by decide), hfront,
    if_pos (by omega), if_pos (by omega)]
  congr 1
  omega

/-- The number 1 becomes too large, or a ninth byte is lost. -/
theorem not_involutionOn : ∀ h < 16, 3 ≤ h → ∃ x : BitVec 128, x.toNat < 2 ^ (8 * h) ∧
    ¬ ((swapN x (h <<< 3)).toNat < 2 ^ (8 * h) ∧ swapN (swapN x (h <<< 3)) (h <<< 3) = x) := by
  have hone : ∀ h < 16, 3 ≤ h → (h % 2 = 0 ∨ h < 8) →
      (1#128).toNat < 2 ^ (8 * h) ∧ ¬ (swapN 1#128 (h <<< 3)).toNat < 2 ^ (8 * h) := by
    decide +kernel
  have hninth : ∀ h < 16, 8 ≤ h → h % 2 = 1 →
      (18446744073709551616#128).toNat < 2 ^ (8 * h) ∧
        swapN (swapN 18446744073709551616#128 (h <<< 3)) (h <<< 3) ≠ 18446744073709551616#128 := by
    decide +kernel
  intro h hhigh hlow
  by_cases hcase : h % 2 = 0 ∨ h < 8
  · exact ⟨1#128, (hone h hhigh hlow hcase).1, fun hx => (hone h hhigh hlow hcase).2 hx.1⟩
  · have hlost := hninth h hhigh (by omega) (by omega)
    exact ⟨_, hlost.1, fun hx => hlost.2 hx.2⟩

theorem involutionOn_iff {h : ℕ} (hlow : 3 ≤ h) (hhigh : h ≤ 16) : InvolutionOn h ↔ h = 16 := by
  constructor
  · intro hinv
    rcases Nat.lt_or_ge h 16 with hlt | hge
    · obtain ⟨x, hx, hbad⟩ := not_involutionOn h hlt hlow
      exact absurd (hinv x hx) hbad
    · omega
  · rintro rfl
    exact involutionOn_sixteen

/-! ### The reversed attempt -/

/-- The attempt of the call with swapped operands. -/
def reversedAttempt (t : Target) (a : CmpArgs 128) (h : ℕ) : Solve Unit :=
  attemptN t (a.swapped fun x => swapN x (h <<< 3)) h

/-- The attempt with the low `h` bytes of the operands in reversed order. -/
def mirroredAttempt (t : Target) (a : CmpArgs 128) (h : ℕ) : Solve Unit := do
  let s ← get
  onlyIf ((∀ i, i < h → s.buf (a.idx + i) = wordByte a.pattern (h - 1 - i)) ∧
      ∀ i, i < h → t.origBuf (a.idx + i) = wordByte a.oPattern (h - 1 - i)) do
    tryBytes t a.idx h fun i => wordByte a.repl (h - 1 - i)

/-- The recursive call makes the reversed attempt first. -/
theorem cmpExtendEncodingN_swapped (t : Target) (fuel : ℕ) (a : CmpArgs 128) {s : Solver}
    (hfit : min (t.len - a.idx) a.taintLen ≥ s.hshape) :
    cmpExtendEncodingN t (fuel + 1) (a.swapped fun x => swapN x (s.hshape <<< 3)) s =
      (do reversedAttempt t a s.hshape
          solveScaleN t (a.swapped fun x => swapN x (s.hshape <<< 3))
            (min (t.len - a.idx) a.taintLen) : Solve Unit) s := by
  have hnot : ∀ p : Prop, ¬ ((a.swapped fun x => swapN x (s.hshape <<< 3)).doReverse = true ∧ p) :=
    fun p h => Bool.noConfusion h.1
  rw [cmpExtendEncodingN, solveBodyN, get_bind_apply, Stopping.onlyIf]
  rw [if_pos (show min (t.len - (a.swapped _).idx) (a.swapped _).taintLen ≥ s.hshape from hfit)]
  rw [bind_apply, bind_apply, reversedAttempt]
  rcases attemptN t (a.swapped fun x => swapN x (s.hshape <<< 3)) s.hshape s with ⟨e | u, s'⟩
  · rfl
  · simp only [get_bind_apply, Stopping.onlyIf, if_neg (hnot _)]
    rfl

theorem tryBytes_congr (t : Target) (idx : ℕ) {n : ℕ} {src src' : Bytes}
    (h : ∀ i < n, src i = src' i) : tryBytes t idx n src = tryBytes t idx n src' := by
  have hcopy : ∀ m : Bytes, copyBlock m idx src 0 n = copyBlock m idx src' 0 n := by
    intro m
    funext i
    simp only [copyBlock]
    split
    · exact h _ (by omega)
    · rfl
  rw [tryBytes, tryBytes, writeBuf, writeBuf, runPatched, runPatched]
  simp only [hcopy]

/-- Operands that come out right make the two attempts the same. -/
theorem reversedAttempt_eq (t : Target) {a : CmpArgs 128} {h : ℕ} (hh : h ≤ 16)
    (hpattern : MirrorsRight h a.pattern) (hoPattern : MirrorsRight h a.oPattern)
    (hrepl : MirrorsRight h a.repl) : reversedAttempt t a h = mirroredAttempt t a h := by
  have hbytes : ∀ {x : BitVec 128}, MirrorsRight h x →
      ∀ i < h, wordByte (swapN x (h <<< 3)) i = wordByte x (h - 1 - i) :=
    fun hx i hi => (wordByte_swapN_bits _ hh i).trans (hx i hi)
  have htry : tryBytes t a.idx h (wordByte (swapN a.repl (h <<< 3))) =
      tryBytes t a.idx h fun i => wordByte a.repl (h - 1 - i) :=
    tryBytes_congr t a.idx (hbytes hrepl)
  have hcond : ∀ (m : Bytes) {x : BitVec 128}, MirrorsRight h x →
      ((∀ i, i < h → m (a.idx + i) = wordByte (swapN x (h <<< 3)) i) ↔
        ∀ i, i < h → m (a.idx + i) = wordByte x (h - 1 - i)) :=
    fun m x hx => forall_congr' fun i => imp_congr_right fun hi => by rw [hbytes hx i hi]
  funext s
  have hboth := and_congr (hcond s.buf hpattern) (hcond t.origBuf hoPattern)
  simp only [reversedAttempt, mirroredAttempt, attemptN, CmpArgs.swapped, get_bind_apply,
    Stopping.onlyIf, htry]
  by_cases hmatch : (∀ i, i < h → s.buf (a.idx + i) = wordByte a.pattern (h - 1 - i)) ∧
      ∀ i, i < h → t.origBuf (a.idx + i) = wordByte a.oPattern (h - 1 - i)
  · rw [if_pos hmatch, if_pos (hboth.mpr hmatch)]
  · rw [if_neg hmatch, if_neg fun hswapped => hmatch (hboth.mp hswapped)]

theorem copyBlock_at (m : Bytes) (idx : ℕ) (src : Bytes) {i n : ℕ} (hi : i < n) :
    copyBlock m idx src 0 n (idx + i) = src i := by
  rw [copyBlock, if_pos (by omega), Nat.zero_add, Nat.add_sub_cancel_left]

/-- An input that has the reversed bytes of an operand at the position. -/
def mirroredInput (idx h : ℕ) (x : BitVec 128) : Bytes := fun i => wordByte x (h - 1 - (i - idx))

/-- Whether the bytes at the position are those of the operands. -/
def MatchesAt (t : Target) (idx h : ℕ) (s : Solver) (pattern oPattern : Bytes) : Prop :=
  (∀ i, i < h → s.buf (idx + i) = pattern i) ∧ ∀ i, i < h → t.origBuf (idx + i) = oPattern i

theorem attemptN_runs {t : Target} {a : CmpArgs 128} {h : ℕ} (hfit : a.idx + h ≤ t.len)
    {s : Solver} (hmatch : MatchesAt t a.idx h s (wordByte a.pattern) (wordByte a.oPattern)) :
    (attemptN t a h s).2.runs =
      s.runs ++ [contents (copyBlock s.buf a.idx (wordByte a.repl) 0 h) t.len] := by
  rw [MatchesAt] at hmatch
  rw [attemptN, get_bind_apply, Stopping.onlyIf, if_pos hmatch, tryBytes_runs (Or.inr hfit)]

theorem attemptN_runs_of_not {t : Target} {a : CmpArgs 128} {h : ℕ} {s : Solver}
    (hmiss : ¬ MatchesAt t a.idx h s (wordByte a.pattern) (wordByte a.oPattern)) :
    (attemptN t a h s).2.runs = s.runs := by
  rw [MatchesAt] at hmiss
  rw [attemptN, get_bind_apply, Stopping.onlyIf, if_neg hmiss]
  rfl

theorem mirroredAttempt_runs {t : Target} {a : CmpArgs 128} {h : ℕ} (hfit : a.idx + h ≤ t.len)
    {s : Solver} (hmatch : MatchesAt t a.idx h s (fun i => wordByte a.pattern (h - 1 - i))
      fun i => wordByte a.oPattern (h - 1 - i)) :
    (mirroredAttempt t a h s).2.runs = s.runs ++
      [contents (copyBlock s.buf a.idx (fun i => wordByte a.repl (h - 1 - i)) 0 h) t.len] := by
  rw [MatchesAt] at hmatch
  rw [mirroredAttempt, get_bind_apply, Stopping.onlyIf, if_pos hmatch, tryBytes_runs (Or.inr hfit)]

/-- Where the two attempts are the same on inputs that the mirrored one matches, the operands come
out right. -/
theorem mirrorsRight_of_attempts {a : CmpArgs 128} {h : ℕ} (hh : h ≤ 16)
    (hsame : ∀ t s, reversedAttempt t a h s = mirroredAttempt t a h s) :
    MirrorsRight h a.pattern ∧ MirrorsRight h a.oPattern ∧ MirrorsRight h a.repl := by
  let t := quietTarget (a.idx + h) (mirroredInput a.idx h a.oPattern)
  let s := Solver.fresh (mirroredInput a.idx h a.pattern) h
  have hinput : ∀ (x : BitVec 128) (i : ℕ), mirroredInput a.idx h x (a.idx + i) =
      wordByte x (h - 1 - i) := fun x i => by rw [mirroredInput, Nat.add_sub_cancel_left]
  have hruns : (reversedAttempt t a h s).2.runs = (mirroredAttempt t a h s).2.runs := by
    rw [hsame]
  rw [mirroredAttempt_runs (Nat.le_refl _) ⟨fun i _ => hinput _ i, fun i _ => hinput _ i⟩,
    reversedAttempt] at hruns
  by_cases hswapped : MatchesAt t a.idx h s (wordByte (swapN a.pattern (h <<< 3)))
      (wordByte (swapN a.oPattern (h <<< 3)))
  · rw [attemptN_runs (Nat.le_refl _) hswapped, List.append_cancel_left_eq, List.cons.injEq,
      contents_eq_iff] at hruns
    refine ⟨fun i hi => ?_, fun i hi => ?_, fun i hi => ?_⟩
    · rw [← wordByte_swapN_bits _ hh, ← hinput]
      exact (hswapped.1 i hi).symm
    · rw [← wordByte_swapN_bits _ hh, ← hinput]
      exact (hswapped.2 i hi).symm
    · have hbyte : copyBlock s.buf a.idx (wordByte (swapN a.repl (h <<< 3))) 0 h (a.idx + i) = _ :=
        hruns.1 (a.idx + i) (show a.idx + i < a.idx + h by omega)
      rw [copyBlock_at _ _ _ hi, copyBlock_at _ _ _ hi] at hbyte
      rw [← wordByte_swapN_bits _ hh]
      exact hbyte
  · rw [attemptN_runs_of_not hswapped] at hruns
    exact absurd hruns (by simp [s, Solver.fresh])

/-- The reversed attempt compares and places the reversed low `h` bytes for every target, buffer and
position exactly when the swap of the recursive call takes each of them from the right place, and
this swap is an involution on numbers of `h` bytes for sixteen bytes only. -/
theorem reversedAttempt_mirrors_iff {h : ℕ} (hlow : 3 ≤ h) (hhigh : h ≤ 16) :
    (∀ a : CmpArgs 128, (∀ t s, reversedAttempt t a h s = mirroredAttempt t a h s) ↔
      MirrorsRight h a.pattern ∧ MirrorsRight h a.oPattern ∧ MirrorsRight h a.repl) ∧
    (InvolutionOn h ↔ h = 16) := by
  refine ⟨fun a => ⟨fun hsame => mirrorsRight_of_attempts hhigh hsame, ?_⟩,
    involutionOn_iff hlow hhigh⟩
  rintro ⟨hpattern, hoPattern, hrepl⟩ t s
  rw [reversedAttempt_eq t hhigh hpattern hoPattern hrepl]

theorem reversedAttempt_mirrors_five :
    (∀ a : CmpArgs 128, (∀ t s, reversedAttempt t a 5 s = mirroredAttempt t a 5 s) ↔
      MirrorsRight 5 a.pattern ∧ MirrorsRight 5 a.oPattern ∧ MirrorsRight 5 a.repl) ∧
    (InvolutionOn 5 ↔ 5 = 16) :=
  reversedAttempt_mirrors_iff (by decide) (by decide)

/-- Operands of three bytes: the input holds the reversed patterns, and the reversed replacement is
never executed. -/
theorem reversedAttempt_missed :
    (mirroredAttempt (quietTarget 3 (mirroredInput 0 3 0x010203))
      (.equality 0x040506 0x070809 0x010203 3) 3
      (.fresh (mirroredInput 0 3 0x040506) 3)).2.runs = [[7, 8, 9]] ∧
    [7, 8, 9] ∉ (cmpExtendEncodingN (quietTarget 3 (mirroredInput 0 3 0x010203)) 4
      (.equality 0x040506 0x070809 0x010203 3) (.fresh (mirroredInput 0 3 0x040506) 3)).2.runs := by
  decide +kernel

end AflPlusPlus.Cmplog
