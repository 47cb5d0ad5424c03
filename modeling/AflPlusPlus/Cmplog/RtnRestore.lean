import AflPlusPlus.Cmplog.RtnTests

/-!
# Whether the arguments are put back

`rtn_extend_encoding` restores the bytes before the index at which it leaves its last loop. A test
that was a find leaves the loop at its own index, so that the byte there stays what the test made of
it, and texts that are longer than the operand are not restored either.
-/

namespace AflPlusPlus.Cmplog
open Lib Lib.Stopping Mutation

/-! ### The tests at an index -/

section Turn

variable {t : RtnTarget} {a : RtnArgs} {b save : Bytes} {itsLen i : ℕ} {v : RtnLocals} {s : Solver}

theorem le_encodedLen {l : ℕ} (hl : l < 2 ^ 16) : l ≤ encodedLen l := by
  have hfit : base64Length l < 2 ^ 32 := by
    rw [base64Length]
    omega
  rw [encodedLen_eq hfit, base64Length]
  omega

/-- The text does not depend on what the array held. -/
theorem toBase64_congr (src dst dst' : Bytes) {l : ℕ} (hl : l < 2 ^ 16) {j : ℕ}
    (hj : j < encodedLen l) : (toBase64 src dst l).1 j = (toBase64 src dst' l).1 j := by
  have hfit : base64Length l < 2 ^ 32 := by
    rw [base64Length]
    omega
  rw [encodedLen_eq hfit, base64Length] at hj
  have hchar (d : Bytes) := toBase64_char src d (k := j / 4) (r := j % 4) hfit (by omega) (by omega)
  rw [Nat.div_add_mod] at hchar
  rw [hchar, hchar]

theorem tests_fromB64Loop (n hlen : ℕ) (tmp : Bytes) (hsmall : hlen + n ≤ 2 ^ 16) :
    Tests t.toTarget a.idx i (a.fromB64Writes t n hlen) (fromB64Loop t a n hlen tmp) s
      fun _ => True := by
  induction n generalizing hlen tmp s with
  | zero => exact Tests.pure trivial
  | succ n ih =>
    rw [fromB64Loop]
    by_cases hroom : hlen + a.idx < t.len
    · have hws : a.fromB64Writes t (n + 1) hlen =
          (if encodedLen hlen + a.idx < t.len then
            [(encodedLen hlen, (toBase64 a.repl (fun _ => 0) hlen).1)] else []) ++
            a.fromB64Writes t n (hlen + 1) := by
        rw [RtnArgs.fromB64Writes, List.range'_succ, List.filter_cons]
        simp only [decide_eq_true_eq]
        split <;> rfl
      rw [if_pos hroom, hws]
      refine Tests.bind (Tests.onlyIf fun _ => ?_) fun _ _ _ _ => ih _ _ (by omega)
      exact tests_place fun j _ hj => toBase64_congr _ _ _ (by omega) hj
    · have hws : a.fromB64Writes t (n + 1) hlen = [] := by
        rw [RtnArgs.fromB64Writes, List.map_eq_nil_iff, List.filter_eq_nil_iff]
        intro l hl
        have hmem := List.mem_range'_1.mp hl
        have hle := le_encodedLen (l := l) (by omega)
        simp only [decide_eq_true_eq]
        omega
      rw [if_neg hroom, hws]
      exact Tests.pure trivial

/-- A test only changes the scratch array. -/
def KeepsLocals (v v' : RtnLocals) : Prop := ∃ tmp, v' = { v with tmp := tmp }

theorem tests_tryFromB64 (hv : v.Counted t a b (i + 1)) (hsmall : itsLen < 2 ^ 16)
    (hi : i < itsLen) :
    Tests t.toTarget a.idx i (if a.FromB64 t i then a.fromB64Writes t (itsLen + 1 - i) i else [])
      (tryFromB64 t a itsLen i v) s (KeepsLocals v) := by
  rw [tryFromB64]
  by_cases htest : a.FromB64 t i
  · rw [if_pos htest, if_pos (hv.fromB64_iff.mpr htest)]
    rw [← List.append_nil (a.fromB64Writes t _ i)]
    exact Tests.bind (tests_fromB64Loop _ _ _ (by omega)) fun tmp _ _ _ => Tests.pure ⟨tmp, rfl⟩
  · rw [if_neg htest, if_neg (mt hv.fromB64_iff.mp htest)]
    exact Tests.pure ⟨v.tmp, rfl⟩

/-- The group is decoded in the same way whatever the array held. -/
theorem decodeGroup_congr (src : Bytes) (k : ℕ) {x y : Bytes × ℕ} (h : x.2 = y.2) :
    (decodeGroup src k x).2 = (decodeGroup src k y).2 ∧ (decodeGroup src k x).2 ≤ x.2 + 3 ∧
      ((decodeGroup src k x).2 = x.2 + 3 →
        (decodeGroup src k x).1 (3 * k + 2) = (decodeGroup src k y).1 (3 * k + 2)) := by
  obtain ⟨d, r⟩ := x
  obtain ⟨d', r'⟩ := y
  obtain rfl : r = r' := h
  by_cases h2 : src (4 * k + 2) = padByte
  · by_cases h3 : src (4 * k + 3) = padByte
    · simp [decodeGroup, h2, h3]
    · simp [decodeGroup, h2, h3, setByte]
  · by_cases h3 : src (4 * k + 3) = padByte
    · simp [decodeGroup, h2, h3]
    · simp [decodeGroup, h2, h3, setByte]

/-- Without a padding character all bytes are decoded, of which the last one does not depend on what
the array held. -/
theorem fromBase64_congr (src dst dst' : Bytes) (hmod : i % 3 = 2) (hi : i < 2 ^ 16) :
    (fromBase64 src dst (i + 1)).2 = (fromBase64 src dst' (i + 1)).2 ∧
      (fromBase64 src dst (i + 1)).2 ≤ i + 1 ∧
      ((fromBase64 src dst (i + 1)).2 = i + 1 →
        (fromBase64 src dst (i + 1)).1 i = (fromBase64 src dst' (i + 1)).1 i) := by
  have hdiv : (i + 1) / 3 * 4 % 2 ^ 32 / 4 = i / 3 + 1 := by omega
  have hloop : ∀ n, (forLoop n (decodeGroup src) (dst, 0)).2 =
      (forLoop n (decodeGroup src) (dst', 0)).2 ∧
      (forLoop n (decodeGroup src) (dst, 0)).2 ≤ 3 * n := by
    intro n
    induction n with
    | zero => exact ⟨rfl, Nat.le_refl _⟩
    | succ n ih =>
      obtain ⟨hsame, hle, -⟩ := decodeGroup_congr src n ih.1
      exact ⟨hsame, hle.trans (by omega)⟩
  obtain ⟨hsame, hle⟩ := hloop (i / 3)
  obtain ⟨hgroup, hthree, hlast⟩ := decodeGroup_congr src (i / 3) hsame
  simp only [fromBase64, hdiv, forLoop_succ]
  refine ⟨hgroup, by omega, fun hall => ?_⟩
  have hindex : 3 * (i / 3) + 2 = i := by omega
  rw [hindex] at hlast
  exact hlast (by omega)

theorem tests_tryToB64 (hv : v.Counted t a b (i + 1)) (hi : i < 2 ^ 16) :
    Tests t.toTarget a.idx i (if a.ToB64 t i then [a.toB64Write i] else [])
      (tryToB64 t a i v) s (KeepsLocals v) := by
  rw [tryToB64]
  by_cases htest : a.ToB64 t i
  · rw [if_pos htest, if_pos (hv.toB64_iff.mpr htest)]
    obtain ⟨hret, hle, hlast⟩ := fromBase64_congr a.repl v.tmp (fun _ => 0) htest.1 hi
    rw [RtnArgs.toB64Write, ← hret, ← List.append_nil [_]]
    refine Tests.bind (tests_place fun j hj hjlen => ?_) fun _ _ _ _ => Tests.pure ⟨_, rfl⟩
    obtain rfl : j = i := by omega
    exact hlast (by omega)
  · rw [if_neg htest, if_neg (mt hv.toB64_iff.mp htest)]
    exact Tests.pure ⟨v.tmp, rfl⟩

theorem tests_tryToHex (hv : v.Counted t a b (i + 1)) :
    Tests t.toTarget a.idx i (if a.ToHex t i then [(i + 1, unhex a.repl 0 i fun _ => 0)] else [])
      (tryToHex t a i v) s (KeepsLocals v) := by
  rw [tryToHex]
  by_cases htest : a.ToHex t i
  · rw [if_pos htest, if_pos (hv.toHex_iff.mpr htest), if_neg (hv.toHex_off htest),
      ← List.append_nil [_]]
    refine Tests.bind (tests_place fun j _ hj => ?_) fun _ _ _ _ => Tests.pure ⟨_, rfl⟩
    rw [unhex, unhex, if_pos (by omega), if_pos (by omega)]
  · rw [if_neg htest, if_neg (mt hv.toHex_iff.mp htest)]
    exact Tests.pure ⟨v.tmp, rfl⟩

/-- Afterwards the saved bytes stand in the place of the text. -/
theorem tests_fromHexTurn (off toUp hlen : ℕ) (tmp : Bytes) :
    Tests t.toTarget a.idx i (if hlen + a.idx < t.len then [(hlen + 1 + off, save)] else [])
      (fromHexTurn t a save off toUp hlen tmp) s fun _ => True := by
  rw [fromHexTurn]
  by_cases hroom : hlen + a.idx < t.len
  · rw [if_pos hroom, if_pos hroom]
    let text := hexText (if toUp = 1 then hexTableUp else hexTableLow) a.repl off hlen tmp
    have hplace : Tests t.toTarget a.idx i [(hlen + 1 + off, text)]
        (place t.toTarget a.idx (hlen + 1 + off) text) s fun _ => True :=
      tests_place fun _ _ _ => rfl
    have hfits (h : Fits t.toTarget a.idx [(hlen + 1 + off, text)]) :
        hlen + 1 + off = 0 ∨ a.idx + (hlen + 1 + off) ≤ t.len := h _ (List.mem_singleton_self _)
    rcases hrun : place t.toTarget a.idx (hlen + 1 + off) text s with ⟨e | u, s'⟩
    · refine .of_stops (bind_of_error hrun) ((hplace.stops hrun).imp_right fun hfault => ?_)
      refine ⟨hfault.1, fun h => hfault.2 fun w hw => ?_⟩
      rw [List.mem_singleton.mp hw]
      exact h (hlen + 1 + off, save) (List.mem_singleton_self _)
    · obtain ⟨heffect, -⟩ := hplace.returns hrun
      have hfit := hfits heffect.fits
      refine .of_returns ((bind_of_ok hrun).trans (bind_of_ok (writeBuf_apply hfit save s')))
        ⟨⟨fun k hk => ?_, fun w hw => List.mem_singleton.mp hw ▸ hfit, ?_⟩, trivial⟩
      · have hbuf := heffect.buf k hk
        simp only [patched, List.foldl_cons, List.foldl_nil, copyBlock] at hbuf ⊢
        split
        · rfl
        · rename_i hout
          rwa [if_neg hout] at hbuf
      · have htested := heffect.tested
        rw [if_neg (List.cons_ne_nil _ _)] at htested ⊢
        exact htested
  · rw [if_neg hroom, if_neg hroom]
    exact Tests.pure trivial

theorem tests_tryFromHex (hv : v.Counted t a b (i + 1)) :
    Tests t.toTarget a.idx i (if a.FromHex t i then a.fromHexWrites t i save else [])
      (tryFromHex t a save i v) s (KeepsLocals v) := by
  rw [tryFromHex]
  by_cases htest : a.FromHex t i
  · have hpos : 0 < i := by
      have := htest.2.1
      omega
    have hws : a.fromHexWrites t i save =
        (if i + a.idx < t.len then [(i + 1 + v.prefixLen, save)] else []) ++
          ((if 2 * i + a.idx < t.len then [(2 * i + 1 + v.prefixLen, save)] else []) ++ []) := by
      rw [RtnArgs.fromHexWrites, hv.prefixLen_eq hpos]
      by_cases hone : i + a.idx < t.len
      · by_cases htwo : 2 * i + a.idx < t.len
        · simp [hone, htwo]
        · simp [hone, htwo]
      · simp [hone, show ¬ 2 * i + a.idx < t.len by omega]
    rw [if_pos htest, if_pos (hv.fromHex_iff.mpr htest), hws]
    exact Tests.bind (tests_fromHexTurn _ _ _ _) fun _ _ _ _ =>
      Tests.bind (tests_fromHexTurn _ _ _ _) fun tmp _ _ _ => Tests.pure ⟨tmp, rfl⟩
  · rw [if_neg htest, if_neg (mt hv.fromHex_iff.mp htest)]
    exact Tests.pure ⟨v.tmp, rfl⟩

theorem tests_tryXor (hv : v.Counted t a b (i + 1)) :
    Tests t.toTarget a.idx i (if a.Xors t b i then
      [(i + 1, fun j => a.repl j ^^^ (a.pattern j ^^^ b (a.idx + j)))] else [])
      (tryXor t a i v) s fun _ => True := by
  rw [tryXor]
  by_cases htest : a.Xors t b i
  · rw [if_pos htest, Stopping.onlyIf, if_pos (hv.xor_iff.mpr htest)]
    refine tests_place fun j _ hj => ?_
    rw [hv.xorVal j hj]
  · rw [if_neg htest, Stopping.onlyIf, if_neg (mt hv.xor_iff.mp htest)]
    exact Tests.pure trivial

theorem KeepsLocals.counted {v' : RtnLocals} (h : KeepsLocals v v') (hv : v.Counted t a b i) :
    v'.Counted t a b i := by
  obtain ⟨tmp, rfl⟩ := h
  exact ⟨hv.xor, hv.arith, hv.tolower, hv.toupper, hv.tohex, hv.fromhex, hv.tob64, hv.fromb64,
    hv.from0, hv.fromSlash, hv.fromx, hv.to0, hv.toSlash, hv.tox, hv.xorVal, hv.arithVal⟩

theorem tests_tryAlways (hv : v.Counted t a b (i + 1)) (hsmall : itsLen < 2 ^ 16)
    (hi : i < itsLen) :
    Tests t.toTarget a.idx i (a.writes t b itsLen i save) (tryAlways t a save itsLen i v) s
      fun v' => v'.Counted t a b (i + 1) := by
  refine Tests.bind (tests_tryFromB64 hv hsmall hi) fun v₁ _ _ h₁ => ?_
  have hv₁ := h₁.counted hv
  refine Tests.bind (tests_tryToB64 hv₁ (by omega)) fun v₂ _ _ h₂ => ?_
  have hv₂ := h₂.counted hv₁
  refine Tests.bind (tests_tryToHex hv₂) fun v₃ _ _ h₃ => ?_
  have hv₃ := h₃.counted hv₂
  refine Tests.bind (tests_tryFromHex hv₃) fun v₄ _ _ h₄ => ?_
  have hv₄ := h₄.counted hv₃
  rw [← List.append_nil (if a.Xors t b i then _ else _)]
  exact Tests.bind (tests_tryXor hv₄) fun _ _ _ _ => Tests.pure hv₄

/-- A test that is not made after a find. -/
theorem tests_tryUnlessFound {count : ℕ} {src : Bytes} :
    Tests t.toTarget a.idx i (if count > i ∧ s.status ≠ 1 then [(i + 1, src)] else [])
      (tryUnlessFound t a i count src) s fun _ => True :=
  Ensures.get_bind (Tests.onlyIf fun _ => tests_place fun _ _ _ => rfl)

/-- Keeping a find in `cbuf` touches nothing else. -/
theorem ensures_keepFind {E : Stop → Prop} {idx n : ℕ} {s : Solver} :
    Ensures E (onlyIf (s.status = 1)
      (modify fun s => { s with cbuf := copyBlock s.cbuf idx s.buf idx n })) s fun _ s' =>
        s'.buf = s.buf ∧ s'.status = s.status :=
  Ensures.onlyIf (fun _ => Ensures.modify ⟨rfl, rfl⟩) fun _ => ⟨rfl, rfl⟩

end Turn

/-! ### The condition is enough -/

section Enough

variable {t : RtnTarget} {a : RtnArgs} {b save : Bytes} {itsLen : ℕ}
  (hsmall : itsLen < 2 ^ 16) (hroom : a.idx + itsLen ≤ t.len)
include hsmall hroom

theorem ensures_transformTurn {i : ℕ} {v : RtnLocals} {s : Solver} (hi : i < itsLen)
    (hkeeps : a.Keeps t b itsLen i save) (hv : v.Counted t a b i)
    (hbuf : SameBut a.idx i s.buf b) :
    Ensures (StopsBy t.toTarget) (transformTurn t a save itsLen i v) s fun v' s' =>
      v'.Counted t a b (i + 1) ∧ SameBut a.idx i s'.buf b := by
  have hscan := hv.scan (t := t) (hbuf (a.idx + i) (by omega))
  have hfits {c : Prop} [Decidable c] {src : Bytes} :
      Fits t.toTarget a.idx (if c then [(i + 1, src)] else []) := by
    intro w hw
    split at hw
    · rw [List.mem_singleton.mp hw]
      exact .inr (by omega)
    · cases hw
  refine Ensures.get_bind (Ensures.bind ((tests_tryAlways hscan hsmall hi).ensures hkeeps.fits) ?_)
  rintro v₁ s₁ ⟨heffect, hv₁⟩
  have hbuf₁ := heffect.sameBut_of_patched hkeeps.always hbuf
  refine Ensures.bind (tests_tryUnlessFound.ensures hfits) ?_
  rintro - s₂ ⟨harith, -⟩
  have hval := hv₁.arithVal i (Nat.lt_succ_self i)
  have hbuf₂ := harith.sameBut (fun hc => (congrArg (a.repl i - ·) hval).trans
    (hkeeps.adds (hv₁.arith_iff.mp hc.1))) hbuf₁
  refine Ensures.bind (tests_tryUnlessFound.ensures hfits) ?_
  rintro - s₃ ⟨hupper, -⟩
  have hbuf₃ := hupper.sameBut (fun hc => hkeeps.uppers (hv₁.upper_iff.mp hc.1)) hbuf₂
  refine Ensures.bind (tests_tryUnlessFound.ensures hfits) ?_
  rintro - s₄ ⟨hlower, -⟩
  have hbuf₄ := hlower.sameBut (fun hc => hkeeps.lowers (hv₁.lower_iff.mp hc.1)) hbuf₃
  refine Ensures.get_bind (Ensures.bind ensures_keepFind ?_)
  rintro - s₅ ⟨hsame, -⟩
  exact Ensures.pure ⟨hv₁, hsame ▸ hbuf₄⟩

/-- The loop changes only bytes before the index at which it is left. -/
theorem ensures_transformLoop (hkeeps : ∀ i, i < itsLen → a.Keeps t b itsLen i save) {n i : ℕ}
    {v : RtnLocals} {s : Solver} (hn : i + n = itsLen) (hv : v.Counted t a b i)
    (hbuf : SameBut a.idx i s.buf b) :
    Ensures (StopsBy t.toTarget) (transformLoop t a save itsLen n i v) s fun i' s' =>
      i' ≤ itsLen ∧ SameBut a.idx i' s'.buf b := by
  induction n generalizing i v s with
  | zero => exact Ensures.pure ⟨by omega, hbuf⟩
  | succ n ih =>
    have hi : i < itsLen := by omega
    refine Ensures.bind (ensures_transformTurn hsmall hroom hi (hkeeps i hi) hv hbuf) ?_
    rintro v' s' ⟨hv', hbuf'⟩
    refine Ensures.get_bind (Ensures.ite (fun _ => ?_) fun _ => ?_)
    · exact Ensures.pure ⟨Nat.le_of_lt hi, hbuf'⟩
    · exact ih (by omega) hv' (hbuf'.mono (Nat.le_succ i))

end Enough

/-- Putting back the bytes that were saved from the position. -/
theorem SameBut.restored {idx i : ℕ} {m b save : Bytes} (h : SameBut idx i m b)
    (hsave : ∀ k, k < i → save k = b (idx + k)) : Lib.copyBlock m idx save 0 i = b := by
  funext k
  simp only [Lib.copyBlock]
  split
  · rw [Nat.zero_add, hsave _ (by omega), Nat.add_sub_cancel' (by omega)]
  · exact h k (by omega)

theorem ensures_transforms {t : RtnTarget} {a : RtnArgs} {save : Bytes} {itsLen : ℕ} {s : Solver}
    (hsmall : itsLen < 2 ^ 16) (hroom : a.idx + itsLen ≤ t.len)
    (hkeeps : ∀ i, i < itsLen →
      a.Keeps t s.buf itsLen i (copyBlock save 0 s.buf a.idx itsLen)) :
    Ensures (StopsBy t.toTarget) (transforms t a save itsLen) s fun _ s' => s'.buf = s.buf := by
  refine Ensures.get_bind (Ensures.bind (ensures_transformLoop (b := s.buf) hsmall hroom hkeeps
    (Nat.zero_add _) (RtnLocals.counted_start _) fun _ _ => rfl) ?_)
  rintro i s' ⟨hi, hbuf⟩
  refine .of_returns (writeBuf_apply (.inr ?_) _ s') (hbuf.restored fun k hk => ?_)
  · omega
  · rw [copyBlock, if_pos (by omega), Nat.sub_zero]

/-! ### The operand as it is -/

section Direct

variable {t : Target} {a : RtnArgs} {b save : Bytes} {itsLen : ℕ} {s : Solver}

/-- Without a find there is none to be seen afterwards. -/
def KeepsUnfound (t : Target) (s s' : Solver) : Prop :=
  (∀ runs, t.outcome runs ≠ .newFind) → s.status ≠ 1 → s'.status ≠ 1

theorem ensures_itsFuzz (data : List Byte) :
    Ensures (StopsBy t) (itsFuzz t data) s fun _ s' => s'.buf = s.buf ∧ KeepsUnfound t s s' := by
  by_cases hstop : t.outcome (s.runs ++ [data]) = .stop
  · exact .of_stops (itsFuzz_of_stop hstop) ⟨rfl, _, hstop⟩
  · refine .of_returns (itsFuzz_of_ne_stop hstop) ⟨rfl, fun hnone _ => ?_⟩
    have hout := hnone (s.runs ++ [data])
    revert hout
    cases t.outcome (s.runs ++ [data]) <;> simp [statusOf]

theorem ensures_directLoop {idx n i : ℕ} (hfit : idx + (i + n) ≤ t.len)
    (hbuf : SameBut idx i s.buf b) :
    Ensures (StopsBy t) (directLoop t a idx n i) s fun i' s' =>
      i' ≤ i + n ∧ SameBut idx i' s'.buf b ∧ KeepsUnfound t s s' := by
  induction n generalizing i s with
  | zero => exact Ensures.pure ⟨Nat.le_refl _, hbuf, fun _ h => h⟩
  | succ n ih =>
    refine Ensures.get_bind (Ensures.ite (fun _ => ?_) fun _ => ?_)
    · exact Ensures.pure ⟨by omega, hbuf, fun _ h => h⟩
    · refine (ensures_bind_iff (writeBuf_apply (.inr (by omega)) _ s)).mpr
        (Ensures.get_bind (Ensures.bind (ensures_itsFuzz _) ?_))
      rintro - s₂ ⟨hbuf₂, hfind₂⟩
      refine Ensures.get_bind (Ensures.bind ensures_keepFind ?_)
      rintro - s₃ ⟨hbuf₃, hstatus₃⟩
      have hbuf' : SameBut idx (i + 1) s₃.buf b := by
        intro k hk
        rw [hbuf₃, hbuf₂]
        simp only [copyBlock]
        rw [if_neg (by omega)]
        exact hbuf k (by omega)
      refine (ih (by omega) hbuf').mono fun i' s' hpost => ?_
      obtain ⟨hle, hsame, hfind⟩ := hpost
      exact ⟨by omega, hsame, fun hnone h => hfind hnone (hstatus₃ ▸ hfind₂ hnone h)⟩

theorem ensures_directTurn {maxTo pre : ℕ} (hmaxTo : maxTo ≤ a.idx) (hpre : pre ≤ maxTo)
    (hroom : a.idx + itsLen ≤ t.len)
    (hsave : ∀ k, k < itsLen + maxTo → save k = s.buf (a.idx - maxTo + k)) :
    Ensures (StopsBy t) (directTurn t a save maxTo itsLen pre) s fun _ s' =>
      s'.buf = s.buf ∧ KeepsUnfound t s s' := by
  refine Ensures.get_bind (Ensures.onlyIf (fun _ => ?_) fun _ => ⟨rfl, fun _ h => h⟩)
  refine Ensures.bind (ensures_directLoop (b := s.buf) (by omega) fun _ _ => rfl) ?_
  rintro i s' ⟨hi, hbuf, hfind⟩
  have hsaved (k : ℕ) (hk : k < i) : save (maxTo - pre + k) = s.buf (a.idx - pre + k) := by
    rw [hsave _ (by omega), show a.idx - maxTo + (maxTo - pre + k) = a.idx - pre + k by omega]
  exact .of_returns (writeBuf_apply (.inr (by omega)) _ s') ⟨hbuf.restored hsaved, hfind⟩

theorem ensures_directTurns {maxTo n pre : ℕ} (hmaxTo : maxTo ≤ a.idx) (hpre : pre + n ≤ maxTo + 1)
    (hroom : a.idx + itsLen ≤ t.len)
    (hsave : ∀ k, k < itsLen + maxTo → save k = s.buf (a.idx - maxTo + k)) :
    Ensures (StopsBy t) (directTurns t a save maxTo itsLen n pre) s fun _ s' =>
      s'.buf = s.buf ∧ KeepsUnfound t s s' := by
  induction n generalizing pre s with
  | zero => exact Ensures.pure ⟨rfl, fun _ h => h⟩
  | succ n ih =>
    refine Ensures.bind (ensures_directTurn hmaxTo (by omega) hroom hsave) ?_
    rintro - s₁ ⟨hbuf, hfind⟩
    refine (ih (by omega) fun k hk => by rw [hbuf, hsave k hk]).mono fun _ s' hpost => ?_
    exact ⟨hpost.1.trans hbuf, fun hnone h => hpost.2 hnone (hfind hnone h)⟩

end Direct

end AflPlusPlus.Cmplog
