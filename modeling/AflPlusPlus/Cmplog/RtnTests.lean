import AflPlusPlus.Cmplog.RtnEncoding
import AflPlusPlus.Lib.Causal
import AflPlusPlus.Lib.PeriodicCount

/-!
# The tests of the transformations

Which tests the loop over the transformations makes at an index can be told from its input as long
as the buffer is what it was from that index on. Each test is one write at the position, and what
they leave behind their index is what the writes leave there.
-/

namespace AflPlusPlus.Cmplog
open Lib Lib.Stopping Mutation

/-! ### What the tests at an index write -/

namespace RtnArgs

section
variable (t : RtnTarget) (a : RtnArgs) (b : Bytes) (itsLen i : ℕ) (save : Bytes)

/-- All characters of the input up to the index are base64. -/
def FromB64 : Prop := i % 4 = 3 ∧ ∀ j, j ≤ i → j % 4 = 3 → a.fromB64At t j = true

/-- All characters of the replacement up to the index are base64. -/
def ToB64 : Prop := i % 3 = 2 ∧ ∀ j, j ≤ i → j % 3 = 2 → a.toB64At t j = true

def ToHex : Prop := ∀ j, j ≤ i → a.toHexAt t j = true

/-- Whether the input starts with `0` or a backslash, and goes on with an `x`. -/
def prefixMarks : ℕ × ℕ :=
  (if t.origBuf a.idx = chr '0' ∨ t.origBuf a.idx = chr '\\' then 1 else 0,
    if t.origBuf (a.idx + 1) = chr 'x' ∨ t.origBuf (a.idx + 1) = chr 'X' then 1 else 0)

/-- There are enough pairs of hexadecimal digits in the input, where a prefix makes up for one. -/
def FromHex : Prop :=
  t.enableXtreme = true ∧ i % 2 = 1 ∧ i < 16 ∧
    0 < Nat.count (fun j => a.fromHexAt t j = true) (i + 1) ∧
    i < 2 * Nat.count (fun j => a.fromHexAt t j = true) (i + 1) + (a.prefixMarks t).1 +
      (a.prefixMarks t).2

def Xors : Prop := ∀ j, j ≤ i → a.xorsAt t b j = true

def Adds : Prop := ∀ j, j ≤ i → a.addsAt t b j = true

def Uppers : Prop := ∀ j, j ≤ i → a.uppersAt t b j = true

def Lowers : Prop := ∀ j, j ≤ i → a.lowersAt t b j = true

instance : Decidable (a.FromB64 t i) := inferInstanceAs (Decidable (_ ∧ _))
instance : Decidable (a.ToB64 t i) := inferInstanceAs (Decidable (_ ∧ _))
instance : Decidable (a.ToHex t i) := inferInstanceAs (Decidable (∀ _, _))
instance : Decidable (a.FromHex t i) := inferInstanceAs (Decidable (_ ∧ _))
instance : Decidable (a.Xors t b i) := inferInstanceAs (Decidable (∀ _, _))
instance : Decidable (a.Adds t b i) := inferInstanceAs (Decidable (∀ _, _))
instance : Decidable (a.Uppers t b i) := inferInstanceAs (Decidable (∀ _, _))
instance : Decidable (a.Lowers t b i) := inferInstanceAs (Decidable (∀ _, _))

/-- The base64 texts of the replacement that are shorter than the rest of the buffer. -/
def fromB64Writes (n hlen : ℕ) : List (ℕ × Bytes) :=
  ((List.range' hlen n).filter fun l => encodedLen l + a.idx < t.len).map fun l =>
    (encodedLen l, (toBase64 a.repl (fun _ => 0) l).1)

/-- The replacement as the base64 text of something. -/
def toB64Write : ℕ × Bytes :=
  ((fromBase64 a.repl (fun _ => 0) (i + 1)).2, (fromBase64 a.repl (fun _ => 0) (i + 1)).1)

/-- After a test with hexadecimal digits, as many of the saved bytes are put back. -/
def fromHexWrites : List (ℕ × Bytes) :=
  let off := if (a.prefixMarks t).1 ≠ 0 ∧ (a.prefixMarks t).2 ≠ 0 then 2 else 0
  (([i, 2 * i]).filter fun hlen => hlen + a.idx < t.len).map fun hlen => (hlen + 1 + off, save)

/-- What the tests write that are made whatever an earlier one has found. -/
def writes : List (ℕ × Bytes) :=
  (if a.FromB64 t i then a.fromB64Writes t (itsLen + 1 - i) i else []) ++
    ((if a.ToB64 t i then [a.toB64Write i] else []) ++
      ((if a.ToHex t i then [(i + 1, unhex a.repl 0 i fun _ => 0)] else []) ++
        ((if a.FromHex t i then a.fromHexWrites t i save else []) ++
          if a.Xors t b i then
            [(i + 1, fun j => a.repl j ^^^ (a.pattern j ^^^ b (a.idx + j)))]
          else [])))

end

end RtnArgs

/-- The memory after writes at the position. -/
def patched (idx : ℕ) (ws : List (ℕ × Bytes)) (m : Bytes) : Bytes :=
  ws.foldl (fun m w => copyBlock m idx w.2 0 w.1) m

/-- The condition that a test at index `i` leaves no trace from there on: what is left behind after
the tests that are made in any case, and the last byte of each other test. -/
structure RtnArgs.Keeps (t : RtnTarget) (a : RtnArgs) (b : Bytes) (itsLen i : ℕ) (save : Bytes) :
    Prop where
  fits : ∀ w ∈ a.writes t b itsLen i save, w.1 = 0 ∨ a.idx + w.1 ≤ t.len
  always : ∀ k, a.idx + i ≤ k → patched a.idx (a.writes t b itsLen i save) b k = b k
  adds : a.Adds t b i → a.repl i - (a.pattern i - b (a.idx + i)) = b (a.idx + i)
  uppers : a.Uppers t b i → a.repl i ||| 0x20 = b (a.idx + i)
  lowers : a.Lowers t b i → a.repl i &&& 0x5f = b (a.idx + i)

/-! ### The counters -/

/-- The local variables before index `i`. -/
structure RtnLocals.Counted (t : RtnTarget) (a : RtnArgs) (b : Bytes) (i : ℕ) (v : RtnLocals) :
    Prop where
  xor : v.xor = Nat.count (fun j => a.xorsAt t b j = true) i
  arith : v.arith = Nat.count (fun j => a.addsAt t b j = true) i
  tolower : v.tolower = Nat.count (fun j => a.lowersAt t b j = true) i
  toupper : v.toupper = Nat.count (fun j => a.uppersAt t b j = true) i
  tohex : v.tohex = Nat.count (fun j => a.toHexAt t j = true) i
  fromhex : v.fromhex = 2 * Nat.count (fun j => a.fromHexAt t j = true) i
  tob64 : v.tob64 = 3 * Nat.count (fun j => a.toB64At t j = true) i
  fromb64 : v.fromb64 = 4 * Nat.count (fun j => a.fromB64At t j = true) i
  from0 : v.from0 = if 0 < i ∧ t.origBuf a.idx = chr '0' then 1 else 0
  fromSlash : v.fromSlash = if 0 < i ∧ t.origBuf a.idx = chr '\\' then 1 else 0
  fromx : v.fromx = if 1 < i ∧ (t.origBuf (a.idx + 1) = chr 'x' ∨ t.origBuf (a.idx + 1) = chr 'X')
    then 1 else 0
  to0 : v.to0 = if 0 < i ∧ a.repl 0 = chr '0' then 1 else 0
  toSlash : v.toSlash = if 0 < i ∧ a.repl 0 = chr '\\' then 1 else 0
  tox : v.tox = if 1 < i ∧ (a.repl 1 = chr 'x' ∨ a.repl 1 = chr 'X') then 1 else 0
  xorVal : ∀ j, j < i → v.xorVal j = a.pattern j ^^^ b (a.idx + j)
  arithVal : ∀ j, j < i → v.arithVal j = a.pattern j - b (a.idx + j)

namespace RtnLocals

variable {t : RtnTarget} {a : RtnArgs} {b buf : Bytes} {i : ℕ} {v : RtnLocals}

theorem counted_start (tmp : Bytes) : (start tmp).Counted t a b 0 := by
  constructor <;> simp [start]

/-- A flag that is set at the index `k`. -/
theorem flag_scan {q : ℕ → Prop} [DecidablePred q] {f k : ℕ}
    (h : f = if k < i ∧ q k then 1 else 0) :
    (if i = k ∧ q i then 1 else f) = if k < i + 1 ∧ q k then 1 else 0 := by
  by_cases hi : i = k
  · subst hi
    by_cases hq : q i
    · simp [hq]
    · simpa [hq] using h
  · rw [if_neg fun hk => hi hk.1, h]
    exact if_congr (and_congr_left fun _ => by omega) rfl rfl

theorem count_scan {p : ℕ → Bool} {c m : ℕ} (h : c = m * Nat.count (fun j => p j = true) i) :
    c + (if p i then m else 0) = m * Nat.count (fun j => p j = true) (i + 1) := by
  rw [Nat.count_succ, Nat.mul_add, ← h]
  split <;> simp

theorem Counted.scan (h : v.Counted t a b i) (hb : buf (a.idx + i) = b (a.idx + i)) :
    (v.scan t a buf i).Counted t a b (i + 1) := by
  have hone {p : ℕ → Bool} {c : ℕ} (hc : c = Nat.count (fun j => p j = true) i) :
      c + (if p i then 1 else 0) = Nat.count (fun j => p j = true) (i + 1) := by
    rw [Nat.count_succ, ← hc]
  have hval {f : Bytes} {g : ℕ → Byte} (hf : ∀ j, j < i → f j = g j) :
      ∀ j, j < i + 1 → setByte f i (g i) j = g j := by
    intro j hj
    rw [setByte]
    split
    · rename_i hji
      rw [hji]
    · exact hf j (by omega)
  have hxors : a.xorsAt t buf i = a.xorsAt t b i := by simp only [RtnArgs.xorsAt, hb]
  have hadds : a.addsAt t buf i = a.addsAt t b i := by simp only [RtnArgs.addsAt, hb]
  have hlowers : a.lowersAt t buf i = a.lowersAt t b i := by simp only [RtnArgs.lowersAt, hb]
  have huppers : a.uppersAt t buf i = a.uppersAt t b i := by simp only [RtnArgs.uppersAt, hb]
  constructor
  · simp only [RtnLocals.scan, hxors]
    exact hone h.xor
  · simp only [RtnLocals.scan, hadds]
    exact hone h.arith
  · simp only [RtnLocals.scan, hlowers]
    exact hone h.tolower
  · simp only [RtnLocals.scan, huppers]
    exact hone h.toupper
  · exact hone h.tohex
  · exact count_scan h.fromhex
  · exact count_scan h.tob64
  · exact count_scan h.fromb64
  · exact flag_scan (q := fun j => t.origBuf (a.idx + j) = chr '0') h.from0
  · exact flag_scan (q := fun j => t.origBuf (a.idx + j) = chr '\\') h.fromSlash
  · exact flag_scan (q := fun j =>
      t.origBuf (a.idx + j) = chr 'x' ∨ t.origBuf (a.idx + j) = chr 'X') h.fromx
  · exact flag_scan (q := fun _ => a.repl 0 = chr '0') h.to0
  · exact flag_scan (q := fun _ => a.repl 0 = chr '\\') h.toSlash
  · exact flag_scan (q := fun _ => a.repl 1 = chr 'x' ∨ a.repl 1 = chr 'X') h.tox
  · simp only [RtnLocals.scan, hb]
    exact hval h.xorVal
  · simp only [RtnLocals.scan, hb]
    exact hval h.arithVal

/-! ### When a test is made -/

section
variable (h : v.Counted t a b (i + 1))
include h

theorem Counted.xor_iff : v.xor > i ↔ a.Xors t b i := by
  rw [h.xor]
  exact lt_count_iff

theorem Counted.arith_iff : v.arith > i ↔ a.Adds t b i := by
  rw [h.arith]
  exact lt_count_iff

theorem Counted.upper_iff : v.toupper > i ↔ a.Uppers t b i := by
  rw [h.toupper]
  exact lt_count_iff

theorem Counted.lower_iff : v.tolower > i ↔ a.Lowers t b i := by
  rw [h.tolower]
  exact lt_count_iff

theorem Counted.toHex_iff :
    (t.enableXtreme = true ∧ i < 16 ∧ v.tohex > i) ↔ a.ToHex t i := by
  rw [h.tohex, gt_iff_lt, lt_count_iff]
  refine ⟨fun hall => hall.2.2, fun hall => ?_⟩
  have hlast := hall i (Nat.le_refl i)
  simp only [RtnArgs.toHexAt, Bool.and_eq_true, decide_eq_true_eq] at hlast
  exact ⟨hlast.1.1, hlast.1.2, hall⟩

theorem Counted.toB64_iff :
    (t.enableXtreme = true ∧ i % 3 = 2 ∧ i < 24 ∧ v.tob64 > i) ↔ a.ToB64 t i := by
  have hends : ∀ j, a.toB64At t j = true → j % 3 = 3 - 1 := by
    intro j hj
    simp only [RtnArgs.toB64At, Bool.and_eq_true, decide_eq_true_eq] at hj
    exact hj.1.1.2
  rw [h.tob64, gt_iff_lt]
  constructor
  · rintro ⟨-, hi, -, hlt⟩
    exact ⟨hi, (lt_mul_count_iff (by decide) hends hi).mp hlt⟩
  · rintro ⟨hi, hall⟩
    have hlast := hall i (Nat.le_refl i) hi
    simp only [RtnArgs.toB64At, Bool.and_eq_true, decide_eq_true_eq] at hlast
    exact ⟨hlast.1.1.1, hi, hlast.1.2, (lt_mul_count_iff (by decide) hends hi).mpr hall⟩

theorem Counted.fromB64_iff :
    (t.enableXtreme = true ∧ i % 4 = 3 ∧ i < 24 ∧ v.fromb64 > i) ↔ a.FromB64 t i := by
  have hends : ∀ j, a.fromB64At t j = true → j % 4 = 4 - 1 := by
    intro j hj
    simp only [RtnArgs.fromB64At, Bool.and_eq_true, decide_eq_true_eq] at hj
    exact hj.1.1.2
  rw [h.fromb64, gt_iff_lt]
  constructor
  · rintro ⟨-, hi, -, hlt⟩
    exact ⟨hi, (lt_mul_count_iff (by decide) hends hi).mp hlt⟩
  · rintro ⟨hi, hall⟩
    have hlast := hall i (Nat.le_refl i) hi
    simp only [RtnArgs.fromB64At, Bool.and_eq_true, decide_eq_true_eq] at hlast
    exact ⟨hlast.1.1.1, hi, hlast.1.2, (lt_mul_count_iff (by decide) hends hi).mpr hall⟩

theorem Counted.marks (hi : 0 < i) :
    v.fromSlash + v.from0 = (a.prefixMarks t).1 ∧ v.fromx = (a.prefixMarks t).2 := by
  rw [h.fromSlash, h.from0, h.fromx, RtnArgs.prefixMarks]
  have hdiff : chr '0' ≠ chr '\\' := by decide
  by_cases h0 : t.origBuf a.idx = chr '0'
  · simp [h0, hdiff, hi]
  · simp [h0, hi]

theorem Counted.fromHex_iff :
    (t.enableXtreme = true ∧ i % 2 = 1 ∧ i < 16 ∧ v.fromhex ≠ 0 ∧
      v.fromhex + v.fromSlash + v.fromx + v.from0 > i) ↔ a.FromHex t i := by
  rw [RtnArgs.FromHex]
  refine and_congr_right fun _ => and_congr_right fun hi => and_congr_right fun _ => ?_
  obtain ⟨hfirst, hsecond⟩ := h.marks (by omega)
  rw [← hfirst, ← hsecond, ← Nat.pos_iff_ne_zero, h.fromhex]
  exact and_congr (by omega) (by omega)

theorem Counted.prefixLen_eq (hi : 0 < i) :
    v.prefixLen = if (a.prefixMarks t).1 ≠ 0 ∧ (a.prefixMarks t).2 ≠ 0 then 2 else 0 := by
  obtain ⟨hfirst, hsecond⟩ := h.marks hi
  rw [RtnLocals.prefixLen, ← hfirst, ← hsecond]
  exact if_congr (and_congr_left fun _ => by omega) rfl rfl

/-- The replacement does not start like a hexadecimal literal where it is a hexadecimal text. -/
theorem Counted.toHex_off (hhex : a.ToHex t i) : ¬ v.toSlash + v.tox + v.to0 = 2 := by
  have hfirst := hhex 0 (Nat.zero_le i)
  simp only [RtnArgs.toHexAt, isHex, Bool.and_eq_true] at hfirst
  have hx : ¬ (a.repl 1 = chr 'x' ∨ a.repl 1 = chr 'X') := by
    rintro (hx | hx)
    all_goals
      have hdigit : isxdigit (a.repl 1) = true := hfirst.2.2
      rw [hx] at hdigit
      exact absurd hdigit (by decide)
  have hdiff : chr '0' ≠ chr '\\' := by decide
  have htox : v.tox = 0 := h.tox.trans (if_neg fun hc => hx hc.2)
  rw [htox, h.toSlash, h.to0]
  by_cases h0 : a.repl 0 = chr '0'
  · rw [h0, if_neg fun hc => hdiff hc.2]
    split <;> omega
  · rw [if_neg (c := 0 < i + 1 ∧ a.repl 0 = chr '0') fun hc => h0 hc.2]
    split <;> omega

/-- Once nothing has matched for a while, no test is made any more. -/
theorem Counted.none_of_idle {j itsLen : ℕ} {save : Bytes} (hidle : v.idle t i = true)
    (hj : i < j) :
    a.writes t b itsLen j save = [] ∧ ¬ a.Adds t b j ∧ ¬ a.Uppers t b j ∧ ¬ a.Lowers t b j := by
  simp only [RtnLocals.idle, Bool.and_eq_true, decide_eq_true_eq] at hidle
  obtain ⟨hseven, ⟨⟨⟨⟨⟨hxor, harith⟩, hlower⟩, hupper⟩, hhex⟩, hfromhex⟩, ⟨-, hb64⟩, hfromb64⟩ :=
    hidle
  have hle := Nat.le_of_lt hj
  have hnotFromB64 : ¬ a.FromB64 t j := by
    rintro ⟨-, hall⟩
    have := le_mul_count (m := 4) (by decide) (fun k hk => ?_) hall hle
    · rw [h.fromb64] at hfromb64
      omega
    · simp only [RtnArgs.fromB64At, Bool.and_eq_true, decide_eq_true_eq] at hk
      exact hk.1.1.2
  have hnotToB64 : ¬ a.ToB64 t j := by
    rintro ⟨-, hall⟩
    have := le_mul_count (m := 3) (by decide) (fun k hk => ?_) hall hle
    · rw [h.tob64] at hb64
      omega
    · simp only [RtnArgs.toB64At, Bool.and_eq_true, decide_eq_true_eq] at hk
      exact hk.1.1.2
  have hnotToHex : ¬ a.ToHex t j := fun hall => by
    have := lt_count_of_le hall hle
    rw [h.tohex] at hhex
    omega
  have hnotFromHex : ¬ a.FromHex t j := by
    rintro ⟨-, hodd, -, -, hlt⟩
    have hcount := two_mul_count_le (p := fun k => a.fromHexAt t k = true) (i := j + 1)
      (n := i + 1) (fun k hk => ?_) (by omega)
    · obtain ⟨hfirst, hsecond⟩ := h.marks (by omega)
      rw [h.fromhex] at hfromhex
      omega
    · simp only [RtnArgs.fromHexAt, Bool.and_eq_true, decide_eq_true_eq] at hk
      exact hk.1.1.2
  have hnotXors : ¬ a.Xors t b j := fun hall => by
    have := lt_count_of_le hall hle
    rw [h.xor] at hxor
    omega
  refine ⟨?_, fun hall => ?_, fun hall => ?_, fun hall => ?_⟩
  · rw [RtnArgs.writes, if_neg hnotFromB64, if_neg hnotToB64, if_neg hnotToHex, if_neg hnotFromHex,
      if_neg hnotXors]
    rfl
  · have := lt_count_of_le hall hle
    rw [h.arith] at harith
    omega
  · have := lt_count_of_le hall hle
    rw [h.toupper] at hupper
    omega
  · have := lt_count_of_le hall hle
    rw [h.tolower] at hlower
    omega

end

end RtnLocals

/-! ### What a test leaves behind -/

/-- The memories agree except in the first `i` bytes at the position. -/
def SameBut (idx i : ℕ) (m m' : Bytes) : Prop := ∀ k, k < idx ∨ idx + i ≤ k → m k = m' k

theorem SameBut.trans {idx i : ℕ} {m m' m'' : Bytes} (h : SameBut idx i m m')
    (h' : SameBut idx i m' m'') : SameBut idx i m m'' := fun k hk => (h k hk).trans (h' k hk)

theorem SameBut.mono {idx i j : ℕ} {m m' : Bytes} (h : SameBut idx i m m') (hij : i ≤ j) :
    SameBut idx j m m' := fun k hk => h k (by omega)

/-- Writes of the same bytes keep two memories the same. -/
theorem SameBut.copyBlock {idx i n : ℕ} {m m' src src' : Bytes} (h : SameBut idx i m m')
    (hsrc : ∀ j, i ≤ j → j < n → src j = src' j) :
    SameBut idx i (copyBlock m idx src 0 n) (copyBlock m' idx src' 0 n) := by
  intro k hk
  simp only [Lib.copyBlock]
  split
  · exact hsrc _ (by omega) (by omega)
  · exact h k hk

theorem SameBut.patched {idx i : ℕ} {m m' : Bytes} (h : SameBut idx i m m')
    (ws : List (ℕ × Bytes)) :
    SameBut idx i (Cmplog.patched idx ws m) (Cmplog.patched idx ws m') := by
  induction ws generalizing m m' with
  | nil => exact h
  | cons w ws ih => exact ih (h.copyBlock fun _ _ _ => rfl)

theorem patched_below {idx k : ℕ} (hk : k < idx) (ws : List (ℕ × Bytes)) (m : Bytes) :
    patched idx ws m k = m k := by
  induction ws generalizing m with
  | nil => rfl
  | cons w ws ih =>
    have hrest : patched idx (w :: ws) m k = Lib.copyBlock m idx w.2 0 w.1 k := ih _
    rw [hrest, Lib.copyBlock, if_neg (by omega)]

theorem patched_append (idx : ℕ) (ws ws' : List (ℕ × Bytes)) (m : Bytes) :
    patched idx (ws ++ ws') m = patched idx ws' (patched idx ws m) := List.foldl_append ..

/-- A write that ends with the index changes one byte from there on. -/
theorem patched_single {idx i k : ℕ} (hk : idx + i ≤ k) (src m : Bytes) :
    patched idx [(i + 1, src)] m k = if k = idx + i then src i else m k := by
  simp only [patched, List.foldl_cons, List.foldl_nil, copyBlock]
  by_cases hlast : k = idx + i
  · rw [if_pos (by omega), if_pos hlast, hlast, Nat.zero_add, Nat.add_sub_cancel_left]
  · rw [if_neg (by omega), if_neg hlast]

theorem patched_single_iff {idx i : ℕ} (src m : Bytes) :
    (∀ k, idx + i ≤ k → patched idx [(i + 1, src)] m k = m k) ↔ src i = m (idx + i) := by
  constructor
  · intro h
    have hlast := h (idx + i) (Nat.le_refl _)
    rwa [patched_single (Nat.le_refl _), if_pos rfl] at hlast
  · intro h k hk
    rw [patched_single hk]
    split
    · rename_i hlast
      rw [h, hlast]
    · rfl

/-- The target asks to stop. -/
def StopsBy (t : Target) (e : Stop) : Prop := e = .stopped ∧ ∃ runs, t.outcome runs = .stop

def Fits (t : Target) (idx : ℕ) (ws : List (ℕ × Bytes)) : Prop :=
  ∀ w ∈ ws, w.1 = 0 ∨ idx + w.1 ≤ t.len

/-- The status after a test. -/
def statusOf : Outcome → ℕ
  | .newFind => 1
  | _ => 2

/-- Tests have written `ws`, each before it was executed. -/
structure Effect (t : Target) (idx i : ℕ) (ws : List (ℕ × Bytes)) (s s' : Solver) : Prop where
  buf : SameBut idx i s'.buf (patched idx ws s.buf)
  fits : Fits t idx ws
  tested : if ws = [] then s'.runs = s.runs ∧ s'.status = s.status
    else s.runs.length < s'.runs.length ∧ s'.status = statusOf (t.outcome s'.runs)

theorem Effect.runs_le {t : Target} {idx i : ℕ} {ws : List (ℕ × Bytes)} {s s' : Solver}
    (h : Effect t idx i ws s s') : s.runs.length ≤ s'.runs.length := by
  have htested := h.tested
  split at htested
  · rw [htested.1]
  · exact Nat.le_of_lt htested.1

theorem Effect.append {t : Target} {idx i : ℕ} {ws ws' : List (ℕ × Bytes)} {s s' s'' : Solver}
    (h : Effect t idx i ws s s') (h' : Effect t idx i ws' s' s'') :
    Effect t idx i (ws ++ ws') s s'' := by
  refine ⟨?_, fun w hw => ?_, ?_⟩
  · rw [patched_append]
    exact h'.buf.trans (h.buf.patched ws')
  · exact (List.mem_append.mp hw).elim (h.fits w) (h'.fits w)
  · have hle := h.runs_le
    have hfirst := h.tested
    have hsecond := h'.tested
    cases ws' with
    | nil =>
      rw [if_pos rfl] at hsecond
      rw [List.append_nil, hsecond.1, hsecond.2]
      exact hfirst
    | cons w ws' =>
      rw [if_neg (List.cons_ne_nil _ _)] at hsecond
      rw [if_neg (by simp)]
      exact ⟨Nat.lt_of_le_of_lt hle hsecond.1, hsecond.2⟩

/-- Writes that leave no trace from the index on keep all other bytes. -/
theorem Effect.sameBut_of_patched {t : Target} {idx i : ℕ} {ws : List (ℕ × Bytes)}
    {s s' : Solver} {b : Bytes} (h : Effect t idx i ws s s')
    (hws : ∀ k, idx + i ≤ k → patched idx ws b k = b k) (hbuf : SameBut idx i s.buf b) :
    SameBut idx i s'.buf b := by
  intro k hk
  rw [h.buf k hk, hbuf.patched ws k hk]
  rcases hk with hk | hk
  · exact patched_below hk ws b
  · exact hws k hk

theorem Effect.sameBut {t : Target} {idx i : ℕ} {s s' : Solver} {b src : Bytes} {c : Prop}
    [Decidable c] (h : Effect t idx i (if c then [(i + 1, src)] else []) s s')
    (hsrc : c → src i = b (idx + i)) (hbuf : SameBut idx i s.buf b) : SameBut idx i s'.buf b := by
  refine h.sameBut_of_patched ?_ hbuf
  by_cases hc : c
  · rw [if_pos hc]
    exact (patched_single_iff src b).mpr (hsrc hc)
  · rw [if_neg hc]
    exact fun _ _ => rfl

/-- The program writes `ws` for tests, and stops because the target asks to or because one of the
writes is not within the buffer. -/
def Tests {α : Type} (t : Target) (idx i : ℕ) (ws : List (ℕ × Bytes)) (m : Solve α) (s : Solver)
    (post : α → Prop) : Prop :=
  Ensures (fun e => StopsBy t e ∨ e = .fault ∧ ¬ Fits t idx ws) m s fun r s' =>
    Effect t idx i ws s s' ∧ post r

section Tests

variable {α β : Type} {t : Target} {idx i n : ℕ} {ws ws' : List (ℕ × Bytes)} {s : Solver}

theorem Tests.pure {post : α → Prop} {r : α} (hr : post r) :
    Tests t idx i [] (Pure.pure r) s post :=
  Ensures.pure ⟨⟨fun _ _ => rfl, fun _ hw => absurd hw List.not_mem_nil, ⟨rfl, rfl⟩⟩, hr⟩

theorem Tests.bind {m : Solve α} {f : α → Solve β} {mid : α → Prop} {post : β → Prop}
    (hm : Tests t idx i ws m s mid)
    (hf : ∀ r s', Effect t idx i ws s s' → mid r → Tests t idx i ws' (f r) s' post) :
    Tests t idx i (ws ++ ws') (m >>= f) s post := by
  have hmono {w w' : List (ℕ × Bytes)} {e : Stop} (hsub : ∀ x ∈ w, x ∈ w')
      (he : StopsBy t e ∨ e = .fault ∧ ¬ Fits t idx w) :
      StopsBy t e ∨ e = .fault ∧ ¬ Fits t idx w' :=
    he.imp_right fun hfault => ⟨hfault.1, fun hfits => hfault.2 fun x hx => hfits x (hsub x hx)⟩
  rcases hrun : m s with ⟨e | r, s'⟩
  · refine .of_stops (bind_of_error hrun) (hmono ?_ (hm.stops hrun))
    exact fun _ => List.mem_append_left _
  · obtain ⟨heffect, hmid⟩ := hm.returns hrun
    have hrest := hf r s' heffect hmid
    refine ⟨fun h => ?_, fun h => ?_⟩
    all_goals rw [bind_of_ok hrun] at h
    · exact (hrest.returns h).imp_left heffect.append
    · exact hmono (fun _ => List.mem_append_right _) (hrest.stops h)

theorem Tests.mono {m : Solve α} {post post' : α → Prop} (h : Tests t idx i ws m s post)
    (hpost : ∀ r, post r → post' r) : Tests t idx i ws m s post' :=
  Ensures.mono h fun r _ hr => hr.imp_right (hpost r)

theorem Tests.onlyIf {p : Prop} [Decidable p] {m : Solve Unit}
    (hm : p → Tests t idx i ws m s fun _ => True) :
    Tests t idx i (if p then ws else []) (Stopping.onlyIf p m) s fun _ => True := by
  by_cases hp : p
  · rw [if_pos hp, Stopping.onlyIf, if_pos hp]
    exact hm hp
  · rw [if_neg hp, Stopping.onlyIf, if_neg hp]
    exact Tests.pure trivial

theorem Tests.ensures {m : Solve α} {post : α → Prop} (h : Tests t idx i ws m s post)
    (hfits : Fits t idx ws) :
    Ensures (StopsBy t) m s fun r s' => Effect t idx i ws s s' ∧ post r :=
  ⟨h.returns, fun hrun => (h.stops hrun).elim id fun hfault => absurd hfits hfault.2⟩

theorem itsFuzz_of_stop {data : List Byte} (h : t.outcome (s.runs ++ [data]) = .stop) :
    itsFuzz t data s = (.error .stopped, { s with runs := s.runs ++ [data] }) := by
  rw [itsFuzz, modify_bind_apply, get_bind_apply, h]
  rfl

theorem itsFuzz_of_ne_stop {data : List Byte} (h : t.outcome (s.runs ++ [data]) ≠ .stop) :
    itsFuzz t data s = (.ok (), { s with
      runs := s.runs ++ [data]
      status := statusOf (t.outcome (s.runs ++ [data])) }) := by
  rw [itsFuzz, modify_bind_apply, get_bind_apply]
  cases hout : t.outcome (s.runs ++ [data]) with
  | stop => exact absurd hout h
  | newFind => rfl
  | nothing => rfl

theorem place_apply {src : Bytes} (h : n = 0 ∨ idx + n ≤ t.len) :
    place t idx n src s = itsFuzz t (contents (copyBlock s.buf idx src 0 n) t.len)
      { s with buf := copyBlock s.buf idx src 0 n } := by
  rw [place, bind_of_ok (writeBuf_apply h src s), get_bind_apply]

/-- Put the bytes at the position and execute. -/
theorem tests_place {src src' : Bytes} (hsrc : ∀ j, i ≤ j → j < n → src j = src' j) :
    Tests t idx i [(n, src')] (place t idx n src) s fun _ => True := by
  by_cases hfit : n = 0 ∨ idx + n ≤ t.len
  · by_cases hstop : t.outcome
        (s.runs ++ [contents (copyBlock s.buf idx src 0 n) t.len]) = .stop
    · exact .of_stops ((place_apply hfit).trans (itsFuzz_of_stop hstop)) (.inl ⟨rfl, _, hstop⟩)
    · refine .of_returns ((place_apply hfit).trans (itsFuzz_of_ne_stop hstop))
        ⟨⟨?_, fun w hw => ?_, ?_⟩, trivial⟩
      · exact SameBut.copyBlock (fun _ _ => rfl) hsrc
      · exact List.mem_singleton.mp hw ▸ hfit
      · rw [if_neg (List.cons_ne_nil _ _)]
        exact ⟨by simp, rfl⟩
  · have hfault : place t idx n src s = (.error .fault, s) := by
      rw [place, writeBuf, if_neg hfit]
      rfl
    exact .of_stops hfault (.inr ⟨rfl, fun hfits => hfit (hfits _ (List.mem_singleton_self _))⟩)

end Tests

end AflPlusPlus.Cmplog
