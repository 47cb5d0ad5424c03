import AflPlusPlus.Lib.Digits
import AflPlusPlus.Mutation.InBounds
import AflPlusPlus.Mutation.Insert

/-!
# Numbers in decimal

The operators `MUT_ASCIINUM` and `MUT_INSERTASCIINUM` of the library mutator. The first takes a run
of digits as a number, changes the number, and writes it in place of the run. The text is cut off at
the size of a pointer, and a minus sign before the run stays where it is.
-/

namespace AflPlusPlus.Mutation
open Lib Lib.Stopping
open Cmplog (decimalText)

/-! ### The run of digits -/

/-- The digits from `off` to `off2` and their number, which is negative behind a minus sign. -/
structure AsciiRun where
  off : ℕ
  off2 : ℕ
  minus : Bool
  val : ℤ

namespace Library

/-- The first of `n` positions from `i` on whose byte is not one of `p`. -/
def scanWhile (a : Arena) (s : Library) (p : Byte → Bool) : ℕ → ℕ → Checked ℕ
  | 0, i => pure i
  | n + 1, i => do
    if p (← s.readBuf a i) then scanWhile a s p n (i + 1) else return i

/-- The first digit from a drawn position on, or else from the start. -/
def findDigit (a : Arena) (s : Library) : Checked (Option ℕ) := do
  let off ← rand s.len
  let i ← s.scanWhile a (!isdigit ·) (sub32 s.len off) off
  if i = s.len then
    -- none found, wrap
    let i ← s.scanWhile a (!isdigit ·) off 0
    if i = off then
      if s.len < 8 then return none else stop .retry
    else return some i
  else return some i

/-- The number of `n` more digits from `i` on, and its end: a digit that is too much is left out. -/
def parseDigits (a : Arena) (s : Library) : ℕ → ℕ → ℤ → Checked (ℕ × ℤ)
  | 0, i, val => pure (i, val)
  | n + 1, i, val => do
    let digit := ((← s.readBuf a i) - chr '0').toNat
    if val > int64Max / 10 then return (i, val)
    else
      let valx10 ← s64 (val * 10)
      if valx10 > int64Max - digit then return (i, val)
      else parseDigits a s n (i + 1) (← s64 (valx10 + digit))

/-- `off && buf[off - 1] == '-'`. -/
def minusBefore (a : Arena) (s : Library) (off : ℕ) : Checked Bool := do
  if off = 0 then return false else return decide ((← s.readBuf a (off - 1)) = chr '-')

/-- The run of digits that starts at `off`. -/
def digitRun (a : Arena) (s : Library) (off : ℕ) : Checked AsciiRun := do
  let off2 ← s.scanWhile a isdigit (sub32 s.len (off + 1)) (off + 1)
  let first ← s.readBuf a off
  let (off2, val) ← s.parseDigits a (off2 - (off + 1)) (off + 1) ((first.toNat : ℤ) - 48)
  let minus ← s.minusBefore a off
  return ⟨off, off2, minus, ← if minus then s64 (-val) else pure val⟩

end Library

/-! ### Another number -/

/-- The number is too close to the end of its type: it is divided by ten, and its last digit stays
in the buffer. -/
def strategyDivides (strat : ℕ) (val : ℤ) : Prop :=
  match strat with
  | 0 => val = int64Max
  | 1 => val = int64Min
  | 2 => val > int64Max / 2 ∨ val < int64Min / 2
  | 5 => val > int64Max - 256
  | 6 => val < int64Min + 256
  | _ => False

instance (strat : ℕ) (val : ℤ) : Decidable (strategyDivides strat val) :=
  match strat with
  | 0 => inferInstanceAs (Decidable (val = int64Max))
  | 1 => inferInstanceAs (Decidable (val = int64Min))
  | 2 => inferInstanceAs (Decidable (val > int64Max / 2 ∨ val < int64Min / 2))
  | 3 => inferInstanceAs (Decidable False)
  | 4 => inferInstanceAs (Decidable False)
  | 5 => inferInstanceAs (Decidable (val > int64Max - 256))
  | 6 => inferInstanceAs (Decidable (val < int64Min + 256))
  | _ + 7 => inferInstanceAs (Decidable False)

/-- What a strategy draws. -/
def strategyDraw (strat : ℕ) (val : ℤ) : Rand ℕ :=
  match strat with
  | 4 => do
    let unsigned := (BitVec.ofInt 64 val).toNat
    if val ≠ 0 ∧ unsigned < 0x19999999 then return (← randNext).toNat % (unsigned * 10 % 2 ^ 64)
    else randBelow 256
  | 5 => randBelow 256
  | 6 => randBelow 256
  | _ => pure 0

def strategyValue (strat : ℕ) (val : ℤ) (r : ℕ) : ℤ :=
  match strat with
  | 0 => val + 1
  | 1 => val - 1
  | 2 => val * 2
  | 3 => val.tdiv 2
  | 4 => r
  | 5 => val + r
  | 6 => val - r
  | _ => -val - 1

/-- `sizeof(buf)`, where `buf` is a pointer. -/
def sizeofBuf : ℕ := 8

/-- `snprintf(numbuf, sizeof(buf), "%" PRId64, val)`. -/
def numbuf (val : ℤ) : List Byte := (decimalText val).take (sizeofBuf - 1)

/-- What the operator did to a run. -/
structure AsciiChange where
  run : AsciiRun
  strat : ℕ
  /-- What the strategy drew. -/
  r : ℕ
  val : ℤ
  /-- The end of the replaced bytes. -/
  off2 : ℕ
  after : Library

namespace Library

/-- The bytes from `off` to `off2` are replaced by a text. -/
def writeNumber (a : Arena) (s : Library) (off off2 : ℕ) (text : List Byte) : Checked Library := do
  let oldLen := sub32 off2 off
  let newLen := text.length
  if oldLen = newLen then s.dataToBuf a text off 0 newLen
  else if sub32 (add32 (add32 off newLen) s.len) off2 > a.maxLen then stop .retry
  else
    let s ← s.bufToTmp a 0 0 off
    let s ← s.dataToTmp a text off 0 newLen
    let s ← s.bufToTmp a (off + newLen) off2 (sub32 s.len off2)
    let s := { s with len := add32 s.len (sub32 newLen oldLen) }
    s.tmpToBuf a 0 0 s.len

/-- A run of digits gets another number. -/
def changeRun (a : Arena) (s : Library) (run : AsciiRun) : Checked AsciiChange := do
  let strat ← rand 8
  let divides := strategyDivides strat run.val
  let val := if divides then run.val.tdiv 10 else run.val
  let off2 := if divides then sub32 run.off2 1 else run.off2
  let r ← draw (strategyDraw strat val)
  let val ← s64 (strategyValue strat val r)
  let after ← s.writeNumber a run.off off2 (numbuf val)
  return ⟨run, strat, r, val, off2, after⟩

/-- `MUT_ASCIINUM`; nothing is changed in a small buffer without digits. -/
def asciinumChange (a : Arena) (s : Library) : Checked (Option AsciiChange) := do
  if s.len < 4 then return none
  else
    match ← s.findDigit a with
    | none => return none
    | some off => return some (← s.changeRun a (← s.digitRun a off))

def checkedAsciinum (a : Arena) (s : Library) : Checked Library := do
  match ← s.asciinumChange a with
  | none => return s
  | some c => return c.after

/-- `MUT_INSERTASCIINUM`. -/
def checkedInsertasciinum (a : Arena) (s : Library) : Checked Library := do
  let insLen := 1 + (← rand 8)
  let pos ← rand s.len
  if s.len < add32 pos insLen then s.retryOrBreak
  else
    let val ← draw randNext
    let text := (decimalText val.toNat).take 31
    if insLen > text.length then s.dataToBuf a text pos 0 text.length
    else s.dataToBuf a text pos (text.length - insLen) insLen

/-- The bytes from `off` to `off2`. -/
def runText (s : Library) (off off2 : ℕ) : List Byte :=
  contents (fun i => s.buf (off + i)) (off2 - off)

end Library

/-! ### The run that is found -/

/-- What the operator takes for the number at a position of the buffer. -/
structure IsRun (s : Library) (run : AsciiRun) : Prop where
  lt : run.off < run.off2
  le : run.off2 ≤ s.len
  digits : ∀ i, run.off ≤ i → i < run.off2 → isdigit (s.buf i) = true
  /-- It ends with the digits, or in front of the first that is too much. -/
  ended : run.off2 < s.len → isdigit (s.buf run.off2) = true →
    int64Max < decimalValue (s.runText run.off (run.off2 + 1))
  minus : run.minus = true ↔ run.off ≠ 0 ∧ s.buf (run.off - 1) = chr '-'
  value_le : (decimalValue (s.runText run.off run.off2) : ℤ) ≤ int64Max
  val : run.val = if run.minus then -(decimalValue (s.runText run.off run.off2) : ℤ)
    else decimalValue (s.runText run.off run.off2)

section Runs

variable {a : Arena} {s : Library} {off : ℕ}

theorem s64_ensures {x : ℤ} {ds : Draws} (h : int64Min ≤ x ∧ x ≤ int64Max) :
    Ensures Harmless (s64 x) ds fun y _ => y = x := by
  unfold s64
  rw [if_pos h]
  exact Ensures.pure rfl

theorem scanWhile_ensures (p : Byte → Bool) {n i : ℕ} (hfit : i + n ≤ a.maxLen) (ds : Draws) :
    Ensures Harmless (s.scanWhile a p n i) ds fun j _ => (i ≤ j ∧ j ≤ i + n) ∧
      (∀ k, i ≤ k → k < j → p (s.buf k) = true) ∧ (j < i + n → p (s.buf j) = false) := by
  induction n generalizing i ds with
  | zero => exact Ensures.pure ⟨⟨le_rfl, le_rfl⟩, fun k hk hk' => by omega, fun h => by omega⟩
  | succ n ih =>
    refine (readBuf_ensures (by omega)).bind fun x ds₁ hx => ?_
    subst hx
    refine Ensures.ite (fun hp => ?_) fun hp => Ensures.pure ?_
    · refine (ih (by omega) ds₁).mono fun j _ ⟨⟨hij, hjn⟩, hall, hend⟩ => ?_
      refine ⟨⟨by omega, by omega⟩, fun k hik hkj => ?_, fun h => hend (by omega)⟩
      rcases Nat.eq_or_lt_of_le hik with rfl | hlt
      · exact hp
      · exact hall k hlt hkj
    · exact ⟨⟨le_rfl, by omega⟩, fun k hk hk' => by omega, fun _ => Bool.eq_false_iff.mpr hp⟩

theorem findDigit_ensures (h : InRange a s) (hmaxLen : a.maxLen + havocBlkXl < 2 ^ 32)
    (ds : Draws) :
    Ensures Harmless (s.findDigit a) ds fun found _ =>
      ∀ off ∈ found, off < s.len ∧ isdigit (s.buf off) = true := by
  have hle := h.le
  have hlt := h.lt hmaxLen
  refine rand_bind h.pos fun off ds₁ hoff => ?_
  rw [sub32_eq hoff.le (by omega)]
  refine (scanWhile_ensures _ (by omega) ds₁).bind fun i ds₂ ⟨⟨_, hi⟩, _, hfound⟩ => ?_
  refine Ensures.ite (fun _ => ?_) fun hend => Ensures.pure ?_
  · refine (scanWhile_ensures _ (by omega) ds₂).bind fun j ds₃ ⟨⟨_, hj⟩, _, hwrapped⟩ => ?_
    refine Ensures.ite (fun _ => Ensures.ite (fun _ => Ensures.pure ?_) fun _ => ensures_retry) ?_
    · rintro _ ⟨⟩
    · intro hne
      refine Ensures.pure ?_
      rintro _ ⟨⟩
      exact ⟨by omega, by simpa using hwrapped (by omega)⟩
  · rintro _ ⟨⟩
    exact ⟨by omega, by simpa using hfound (by omega)⟩

theorem runText_succ {i : ℕ} (hi : off ≤ i) :
    s.runText off (i + 1) = s.runText off i ++ [s.buf i] := by
  have hlen : i + 1 - off = i - off + 1 := by omega
  rw [Library.runText, hlen, contents_add]
  simp only [contents, List.range_one, List.map_cons, List.map_nil, Nat.add_zero]
  rw [Nat.add_sub_cancel' hi]
  rfl

theorem digit_toNat {c : Byte} (h : isdigit c = true) : (c - chr '0').toNat = digitValue c := by
  have hc := isdigit_iff.mp h
  have hzero : (chr '0').toNat = 48 := rfl
  rw [digitValue_of_isdigit h, BitVec.toNat_sub, hzero]
  omega

theorem parseDigits_ensures {n i : ℕ} (hi : off ≤ i) (hfit : i + n ≤ a.maxLen)
    (hdigits : ∀ k, i ≤ k → k < i + n → isdigit (s.buf k) = true)
    (hval : (decimalValue (s.runText off i) : ℤ) ≤ int64Max) (ds : Draws) :
    Ensures Harmless (s.parseDigits a n i (decimalValue (s.runText off i))) ds fun r _ =>
      (i ≤ r.1 ∧ r.1 ≤ i + n) ∧ r.2 = decimalValue (s.runText off r.1) ∧ r.2 ≤ int64Max ∧
        (r.1 < i + n → int64Max < decimalValue (s.runText off (r.1 + 1))) := by
  induction n generalizing i ds with
  | zero => exact Ensures.pure ⟨⟨le_rfl, le_rfl⟩, rfl, hval, fun h => by dsimp only at h; omega⟩
  | succ n ih =>
    have hdigit := hdigits i le_rfl (by omega)
    have hnext : decimalValue (s.runText off (i + 1)) =
        decimalValue (s.runText off i) * 10 + digitValue (s.buf i) := by
      rw [runText_succ hi, decimalValue_concat]
    refine (readBuf_ensures (by omega)).bind fun x ds₁ hx => ?_
    subst hx
    dsimp only
    rw [digit_toNat hdigit]
    generalize hv : decimalValue (s.runText off i) = v at hval hnext ⊢
    have hlarge : ∀ ds', int64Max < ((v * 10 + digitValue (s.buf i) : ℕ) : ℤ) →
        Ensures Harmless (pure (i, (v : ℤ)) : Checked (ℕ × ℤ)) ds' fun r _ =>
          (i ≤ r.1 ∧ r.1 ≤ i + (n + 1)) ∧ r.2 = decimalValue (s.runText off r.1) ∧ r.2 ≤ int64Max ∧
            (r.1 < i + (n + 1) → int64Max < decimalValue (s.runText off (r.1 + 1))) :=
      fun ds' hmore =>
        Ensures.pure ⟨⟨le_rfl, by omega⟩, by rw [hv], hval, fun _ => by rw [hnext]; exact hmore⟩
    unfold int64Max at hval hlarge ⊢
    refine Ensures.ite (fun hbig => hlarge ds₁ (by omega)) fun hsmall => ?_
    have hten : int64Min ≤ (v : ℤ) * 10 ∧ (v : ℤ) * 10 ≤ int64Max := by
      unfold int64Min int64Max
      omega
    refine (s64_ensures hten).bind fun valx10 ds₂ hx10 => ?_
    subst hx10
    refine Ensures.ite (fun hbig => hlarge ds₂ (by omega)) fun hroom => ?_
    have hsum : int64Min ≤ (v : ℤ) * 10 + digitValue (s.buf i) ∧
        (v : ℤ) * 10 + digitValue (s.buf i) ≤ int64Max := by
      unfold int64Min int64Max
      omega
    refine (s64_ensures hsum).bind fun val ds₃ hval' => ?_
    have hval : val = decimalValue (s.runText off (i + 1)) := by
      rw [hval', hnext]
      push_cast
      rfl
    rw [hval]
    refine (ih (by omega) (by omega) (fun k hk hk' => hdigits k (by omega) (by omega))
      (by rw [← hval, hval']; exact hsum.2) ds₃).mono fun r _ ⟨⟨hir, hrn⟩, hv', hmax, hend⟩ => ?_
    exact ⟨⟨by omega, by omega⟩, hv', hmax, fun hlt => hend (by omega)⟩

theorem minusBefore_ensures (hoff : off < a.maxLen) (ds : Draws) :
    Ensures Harmless (s.minusBefore a off) ds fun minus _ =>
      (minus = true ↔ off ≠ 0 ∧ s.buf (off - 1) = chr '-') := by
  refine Ensures.ite (fun hzero => Ensures.pure ?_) fun hne => ?_
  · simp [hzero]
  · refine (readBuf_ensures (by omega)).bind fun x ds₁ hx => Ensures.pure ?_
    simp [hx, hne]

/-- The run starts with the value of its first digit. -/
theorem decimalValue_first (hdigit : isdigit (s.buf off) = true) :
    (decimalValue (s.runText off (off + 1)) : ℤ) = ((s.buf off).toNat : ℤ) - 48 := by
  have hnone : s.runText off off = [] := by
    rw [Library.runText, Nat.sub_self]
    rfl
  have hone : decimalValue (s.runText off (off + 1)) = digitValue (s.buf off) := by
    rw [runText_succ le_rfl, hnone, decimalValue_concat]
    exact Nat.zero_add _
  have hrange := isdigit_iff.mp hdigit
  rw [hone, digitValue_of_isdigit hdigit]
  omega

theorem decimalValue_first_le (hdigit : isdigit (s.buf off) = true) :
    (decimalValue (s.runText off (off + 1)) : ℤ) ≤ int64Max := by
  have hrange := isdigit_iff.mp hdigit
  rw [decimalValue_first hdigit, int64Max]
  omega

theorem digitRun_ensures (h : InRange a s) (hmaxLen : a.maxLen + havocBlkXl < 2 ^ 32)
    (hoff : off < s.len) (hdigit : isdigit (s.buf off) = true) (ds : Draws) :
    Ensures Harmless (s.digitRun a off) ds fun run _ => IsRun s run := by
  have hle := h.le
  have hlt := h.lt hmaxLen
  unfold Library.digitRun
  rw [sub32_eq (by omega) (by omega)]
  refine (scanWhile_ensures isdigit (by omega) ds).bind
    fun last ds₁ ⟨⟨hlast, hend⟩, hdigits, hstop⟩ => ?_
  refine (readBuf_ensures (by omega)).bind fun first ds₂ hfirst => ?_
  rw [hfirst, ← decimalValue_first hdigit]
  refine (parseDigits_ensures (by omega) (by omega)
    (fun k hk hk' => hdigits k hk (by omega)) (decimalValue_first_le hdigit) ds₂).bind
    fun r ds₃ ⟨⟨hmore, hfit⟩, hval, hmax, hmuch⟩ => ?_
  obtain ⟨off2, val⟩ := r
  dsimp only at hmore hfit hval hmax hmuch ⊢
  have hall : ∀ i, off ≤ i → i < off2 → isdigit (s.buf i) = true := by
    intro i hi hi'
    rcases Nat.eq_or_lt_of_le hi with rfl | hlt
    · exact hdigit
    · exact hdigits i hlt (by omega)
  have hended : off2 < s.len → isdigit (s.buf off2) = true →
      int64Max < decimalValue (s.runText off (off2 + 1)) := by
    intro hrest hnext
    by_cases hcase : off2 = last
    · rw [hcase] at hrest hnext
      rw [hstop (by omega)] at hnext
      cases hnext
    · exact hmuch (by omega)
  have hoff2 : off2 ≤ s.len := by omega
  refine (minusBefore_ensures (by omega) ds₃).bind fun minus ds₄ hminus => ?_
  have hrun : ∀ val', val' = (if minus then -(decimalValue (s.runText off off2) : ℤ)
      else decimalValue (s.runText off off2)) → IsRun s ⟨off, off2, minus, val'⟩ :=
    fun val' hval' => ⟨hmore, hoff2, hall, hended, hminus, hval ▸ hmax, hval'⟩
  cases minus with
  | false => exact Ensures.pure (hrun val (by rw [hval]; rfl))
  | true =>
    have hneg : int64Min ≤ -val ∧ -val ≤ int64Max := by
      unfold int64Max at hmax
      unfold int64Min int64Max
      omega
    refine (s64_ensures hneg).bind fun val' ds₅ hval' => Ensures.pure (hrun val' ?_)
    rw [hval', hval]
    rfl

/-- A head, a text and a tail. -/
theorem contents_replaced {m buf : Bytes} {off2 len : ℕ} {text : List Byte} (hoff : off ≤ off2)
    (hoff2 : off2 ≤ len) (hhead : ∀ i, i < off → m i = buf i)
    (htext : ∀ i, i < text.length → m (off + i) = tokenBytes text i)
    (htail : ∀ i, i < len - off2 → m (off + text.length + i) = buf (off2 + i)) :
    contents m (off + text.length + (len - off2)) =
      (contents buf len).take off ++ text ++ (contents buf len).drop off2 := by
  have htake : (contents buf len).take off = contents buf off := by
    have hlen : len = off + (len - off) := by omega
    conv_lhs => rw [hlen, contents_add]
    exact List.take_left' (length_contents _ _)
  rw [contents_add, contents_add, htake, drop_contents _ hoff2, contents_eq_iff.mpr hhead,
    contents_eq_iff.mpr htext, contents_eq_iff.mpr htail, contents_tokenBytes]

/-- The bytes before and behind the replaced ones stay. -/
theorem writeNumber_ensures (h : InRange a s) (hmaxLen : a.maxLen + havocBlkXl < 2 ^ 32)
    {off2 : ℕ} {text : List Byte} (hoff : off ≤ off2)
    (hoff2 : off2 ≤ s.len) (hne : text ≠ []) (hsize : text.length ≤ sizeofBuf) (ds : Draws) :
    Ensures Harmless (s.writeNumber a off off2 text) ds fun s' _ => InRange a s' ∧
      s'.output = s.output.take off ++ text ++ s.output.drop off2 := by
  have hle := h.le
  have hlt := h.lt hmaxLen
  have hone := List.length_pos_iff.mpr hne
  unfold sizeofBuf at hsize
  unfold havocBlkXl at hlt
  unfold Library.writeNumber
  dsimp only
  have hwhole : sub32 (add32 (add32 off text.length) s.len) off2 =
      off + text.length + (s.len - off2) := by
    unfold sub32 add32
    omega
  rw [hwhole, sub32_eq hoff (by omega)]
  refine Ensures.ite (fun hsame => ?_) fun hdiffer => Ensures.ite (fun _ => ensures_retry) ?_
  · refine (dataToBuf_ensures (by omega) (by omega)).mono fun s' _ hs' => ?_
    have hlen : s.len = off + text.length + (s.len - off2) := by omega
    refine ⟨⟨by rw [hs']; exact h.pos, by rw [hs']; exact hle⟩, ?_⟩
    rw [hs', Library.output]
    dsimp only
    conv_lhs => rw [hlen]
    refine contents_replaced hoff hoff2 (fun i hi => ?_) (fun i hi => ?_) fun i hi => ?_
    · rw [copyBlock, if_neg (by omega)]
    · rw [copyBlock, if_pos (by omega), Nat.zero_add, Nat.add_sub_cancel_left]
    · rw [copyBlock, if_neg (by omega)]
      congr 1
      omega
  · intro hroom
    refine (bufToTmp_ensures (by omega) (by omega)).bind fun s₁ ds₁ hs₁ => ?_
    refine (dataToTmp_ensures (by omega) (by omega)).bind fun s₂ ds₂ hs₂ => ?_
    have hlen₂ : s₂.len = s.len := by rw [hs₂, hs₁]
    rw [hlen₂, sub32_eq hoff2 (by omega)]
    refine (bufToTmp_ensures (by omega) (by omega)).bind fun s₃ ds₃ hs₃ => ?_
    have hlen₃ : s₃.len = s.len := by rw [hs₃, hlen₂]
    have hmore : add32 s₃.len (sub32 text.length (off2 - off)) =
        off + text.length + (s.len - off2) := by
      rw [hlen₃]
      unfold sub32 add32
      omega
    rw [hmore]
    refine (tmpToBuf_ensures (by omega) (by omega)).mono fun s' _ hs' => ?_
    refine ⟨⟨by rw [hs']; dsimp only; omega, by rw [hs']; dsimp only; omega⟩, ?_⟩
    have htmp : ∀ i, i < off + text.length + (s.len - off2) → s'.buf i = s₃.tmpBuf i := by
      intro i hi
      rw [hs']
      dsimp only
      rw [copyBlock, if_pos (by omega), Nat.zero_add, Nat.sub_zero]
    have hout : s'.output = contents s'.buf (off + text.length + (s.len - off2)) := by
      rw [Library.output]
      congr 1
      rw [hs']
    rw [hout]
    refine contents_replaced hoff hoff2 (fun i hi => ?_) (fun i hi => ?_) fun i hi => ?_
    · rw [htmp i (by omega), hs₃, hs₂, hs₁]
      dsimp only
      rw [copyBlock, if_neg (by omega), copyBlock, if_neg (by omega), copyBlock, if_pos (by omega),
        Nat.zero_add, Nat.sub_zero]
    · rw [htmp _ (by omega), hs₃, hs₂]
      dsimp only
      rw [copyBlock, if_neg (by omega), copyBlock, if_pos (by omega), Nat.zero_add,
        Nat.add_sub_cancel_left]
    · rw [htmp _ (by omega), hs₃, hs₂, hs₁]
      dsimp only
      rw [copyBlock, if_pos (by omega), Nat.add_sub_cancel_left]

end Runs

/-! ### The change -/

section Changes

variable {a : Arena} {s : Library} {strat r : ℕ} {val : ℤ}

/-- The number that a strategy works on. -/
def strategyInput (strat : ℕ) (val : ℤ) : ℤ :=
  if strategyDivides strat val then val.tdiv 10 else val

theorem tdiv_cases (val n : ℤ) : val.tdiv n = if 0 ≤ val then val / n else -(-val / n) := by
  split
  · exact Int.tdiv_eq_ediv_of_nonneg ‹_›
  · rw [← Int.tdiv_eq_ediv_of_nonneg (by omega), Int.neg_tdiv, Int.neg_neg]

theorem strategyInput_cases (strat : ℕ) (val : ℤ) :
    (strategyDivides strat val ∧ (0 ≤ val → strategyInput strat val = val / 10) ∧
      (val < 0 → strategyInput strat val = -(-val / 10))) ∨
    (¬ strategyDivides strat val ∧ strategyInput strat val = val) := by
  unfold strategyInput
  rw [tdiv_cases]
  by_cases h : strategyDivides strat val
  · rw [if_pos h]
    exact .inl ⟨h, fun hpos => if_pos hpos, fun hneg => if_neg (by omega)⟩
  · rw [if_neg h]
    exact .inr ⟨h, rfl⟩

theorem strategyInput_range (hval : -int64Max ≤ val ∧ val ≤ int64Max) (strat : ℕ) :
    -int64Max ≤ strategyInput strat val ∧ strategyInput strat val ≤ int64Max := by
  have hinput := strategyInput_cases strat val
  unfold int64Max at hval ⊢
  omega

/-- A draw below ten times the number. -/
theorem mod_ten_lt {u : ℕ} (n : ℕ) (hpos : 0 < u) (hless : u < 0x19999999) :
    n % (u * 10 % 2 ^ 64) < 2 ^ 32 := by
  have hten : u * 10 % 2 ^ 64 = u * 10 := Nat.mod_eq_of_lt (by omega)
  have hmod := Nat.mod_lt n (show 0 < u * 10 by omega)
  rw [hten]
  omega

theorem strategyDraw_lt (hval : -int64Max ≤ val ∧ val ≤ int64Max) :
    Returns (strategyDraw strat val) fun r => r < 2 ^ 32 ∧ (strat = 5 ∨ strat = 6 → r < 256) := by
  have hbyte : Returns (randBelow 256) fun r => r < 2 ^ 32 ∧ (strat = 5 ∨ strat = 6 → r < 256) :=
    (randBelow_lt (by decide)).mono fun r hr => ⟨by omega, fun _ => hr⟩
  unfold strategyDraw
  split
  · refine Returns.ite (fun hsmall => Returns.after fun rnd => .pure ⟨?_, fun h => by omega⟩)
      fun _ => hbyte
    have hpos : 0 < (BitVec.ofInt 64 val).toNat := by
      unfold int64Max at hval
      rw [BitVec.toNat_ofInt]
      omega
    exact mod_ten_lt rnd.toNat hpos hsmall.2
  · exact hbyte
  · exact hbyte
  · exact .pure ⟨by decide, fun _ => by decide⟩

/-- No strategy leaves the numbers of 64 bits: where it could, a digit is left out. -/
theorem strategyValue_range (hval : -int64Max ≤ val ∧ val ≤ int64Max) (hr : r < 2 ^ 32)
    (hbyte : strat = 5 ∨ strat = 6 → r < 256) :
    int64Min ≤ strategyValue strat (strategyInput strat val) r ∧
      strategyValue strat (strategyInput strat val) r ≤ int64Max := by
  have hinput := strategyInput_cases strat val
  generalize strategyInput strat val = w at hinput ⊢
  rcases strat with _ | _ | _ | _ | _ | _ | _ | strat
  all_goals
    simp only [strategyDivides, strategyValue, int64Max, int64Min, false_and, false_or,
      not_false_eq_true, true_and] at hval hinput ⊢
  · omega
  · omega
  · omega
  · rw [tdiv_cases]
    split <;> omega
  · omega
  · omega
  · omega
  · omega

/-- What the operator made of a run. -/
structure Changed (a : Arena) (s : Library) (c : AsciiChange) : Prop where
  run : IsRun s c.run
  drawn : c.strat = 5 ∨ c.strat = 6 → c.r < 256
  val : c.val = strategyValue c.strat (strategyInput c.strat c.run.val) c.r
  off2 : c.off2 = if strategyDivides c.strat c.run.val then c.run.off2 - 1 else c.run.off2
  inRange : InRange a c.after
  output : c.after.output = s.output.take c.run.off ++ numbuf c.val ++ s.output.drop c.off2

theorem take_digitBytes_ne_nil (n : ℕ) {k : ℕ} (hk : 1 ≤ k) : (digitBytes n).take k ≠ [] := by
  rw [ne_eq, List.take_eq_nil_iff, not_or]
  exact ⟨by omega, digitBytes_ne_nil n⟩

theorem numbuf_of_neg (hval : val < 0) :
    numbuf val = chr '-' :: (digitBytes val.natAbs).take 6 := by
  rw [numbuf, decimalText, if_pos hval]
  rfl

theorem numbuf_of_nonneg (hval : 0 ≤ val) : numbuf val = (digitBytes val.natAbs).take 7 := by
  rw [numbuf, decimalText, if_neg (by omega)]
  rfl

theorem numbuf_ne_nil (val : ℤ) : numbuf val ≠ [] := by
  rcases lt_or_ge val 0 with hneg | hpos
  · rw [numbuf_of_neg hneg]
    exact List.cons_ne_nil _ _
  · rw [numbuf_of_nonneg hpos]
    exact take_digitBytes_ne_nil _ (by decide)

theorem changeRun_ensures (h : InRange a s) (hmaxLen : a.maxLen + havocBlkXl < 2 ^ 32)
    {run : AsciiRun} (hrun : IsRun s run) (ds : Draws) :
    Ensures Harmless (s.changeRun a run) ds fun c _ => Changed a s c := by
  have hle := h.le
  have hlt := h.lt hmaxLen
  have hoff := hrun.lt
  have hoff2 := hrun.le
  have hval : -int64Max ≤ run.val ∧ run.val ≤ int64Max := by
    have hmax := hrun.value_le
    rw [hrun.val]
    unfold int64Max at hmax ⊢
    split <;> omega
  refine rand_bind (by decide) fun strat ds₁ _ => ?_
  dsimp only
  refine draw_bind (strategyDraw_lt (strategyInput_range hval strat)) fun r ds₂ ⟨hr, hbyte⟩ => ?_
  refine (s64_ensures (strategyValue_range hval hr hbyte)).bind fun val ds₃ hnew => ?_
  have hend : (if strategyDivides strat run.val then sub32 run.off2 1 else run.off2) =
      if strategyDivides strat run.val then run.off2 - 1 else run.off2 := by
    rw [sub32_eq (by omega) (by omega)]
  have hbetween : run.off ≤ (if strategyDivides strat run.val then run.off2 - 1 else run.off2) ∧
      (if strategyDivides strat run.val then run.off2 - 1 else run.off2) ≤ s.len := by
    split <;> omega
  rw [hend]
  refine (writeNumber_ensures h hmaxLen hbetween.1 hbetween.2 (numbuf_ne_nil val)
    ((List.length_take_le _ _).trans (by decide)) ds₃).bind fun after ds₄ ⟨hin, hout⟩ => ?_
  exact Ensures.pure ⟨hrun, hbyte, hnew, rfl, hin, hout⟩

theorem asciinumChange_ensures (h : InRange a s)
    (hmaxLen : a.maxLen + havocBlkXl < 2 ^ 32) (ds : Draws) :
    Ensures Harmless (s.asciinumChange a) ds fun result _ => ∀ c ∈ result, Changed a s c := by
  refine Ensures.ite (fun _ => Ensures.pure ?_) fun _ => ?_
  · rintro _ ⟨⟩
  · refine (findDigit_ensures h hmaxLen ds).bind fun found ds₁ hfound => ?_
    cases found with
    | none =>
      refine Ensures.pure ?_
      rintro _ ⟨⟩
    | some off =>
      obtain ⟨hoff, hdigit⟩ := hfound off rfl
      refine (digitRun_ensures h hmaxLen hoff hdigit ds₁).bind fun run ds₂ hrun => ?_
      refine (changeRun_ensures h hmaxLen hrun ds₂).bind fun c ds₃ hc => Ensures.pure ?_
      rintro _ ⟨⟩
      exact hc

theorem InRange.asciinum (h : InRange a s) (hmaxLen : a.maxLen + havocBlkXl < 2 ^ 32) :
    KeepsRange a (s.checkedAsciinum a) := by
  intro ds
  refine (asciinumChange_ensures h hmaxLen ds).bind fun result ds₁ hresult => ?_
  cases result with
  | none => exact Ensures.pure h
  | some c => exact Ensures.pure (hresult c rfl).inRange

theorem InRange.insertasciinum (h : InRange a s) (hmaxLen : a.maxLen + havocBlkXl < 2 ^ 32) :
    KeepsRange a (s.checkedInsertasciinum a) := by
  intro ds
  have hle := h.le
  have hlt := h.lt hmaxLen
  unfold havocBlkXl at hlt
  have hany : Returns randNext fun _ => True := fun _ _ _ _ => trivial
  refine rand_bind (by decide) fun extra ds₁ hextra => rand_bind h.pos fun pos ds₂ hpos => ?_
  refine Ensures.ite (fun _ => h.retryOrBreak ds₂) fun hfit => ?_
  rw [add32_eq (by omega)] at hfit
  refine draw_bind hany fun val ds₃ _ => ?_
  dsimp only
  generalize (decimalText val.toNat).take 31 = text
  refine Ensures.ite (fun hshort => ?_) fun hlong => ?_
  · refine (dataToBuf_ensures (by omega) (by omega)).mono fun s' _ hs' => ?_
    rw [hs']
    exact ⟨h.pos, h.le⟩
  · refine (dataToBuf_ensures (by omega) (by omega)).mono fun s' _ hs' => ?_
    rw [hs']
    exact ⟨h.pos, h.le⟩

/-! ### Reading the number back -/

/-- The digits of the text that are left, all of which are digits. -/
theorem isdigit_take (n k : ℕ) : ∀ c ∈ (digitBytes n).take k, isdigit c = true := fun c hc =>
  digitBytes_isdigit n c (List.mem_of_mem_take hc)

theorem readsAs_numbuf_iff (val : ℤ) :
    ReadsAs (numbuf val) val ↔ -10 ^ 6 < val ∧ val < 10 ^ 7 := by
  rcases lt_or_ge val 0 with hneg | hpos
  · have hfits := decimalValue_take_iff (k := 6) (by decide) val.natAbs
    rw [numbuf_of_neg hneg, readsAs_minus_iff (take_digitBytes_ne_nil _ (by decide))
      (isdigit_take _ _)]
    omega
  · have hfits := decimalValue_take_iff (k := 7) (by decide) val.natAbs
    rw [numbuf_of_nonneg hpos, readsAs_digits_iff (take_digitBytes_ne_nil _ (by decide))
      (isdigit_take _ _)]
    omega

/-- Behind a minus sign only zero is read back. -/
theorem readsAs_minus_numbuf_iff (val : ℤ) : ReadsAs (chr '-' :: numbuf val) val ↔ val = 0 := by
  rcases lt_or_ge val 0 with hneg | hpos
  · rw [numbuf_of_neg hneg]
    exact iff_of_false (not_readsAs_minus_minus _ _) (by omega)
  · have hfits := decimalValue_take_iff (k := 7) (by decide) val.natAbs
    rw [numbuf_of_nonneg hpos, readsAs_minus_iff (take_digitBytes_ne_nil _ (by decide))
      (isdigit_take _ _)]
    omega

/-- When the strategy turns `v`, with a minus sign before it or not, into a number that is written
in full. -/
def fits (minus : Bool) (v r strat : ℕ) : Prop :=
  match minus, strat with
  | false, 0 => v + 1 < 10 ^ 7
  | false, 1 => v < 10 ^ 7 + 1
  | false, 2 => v * 2 < 10 ^ 7
  | false, 3 => v / 2 < 10 ^ 7
  | false, 4 => r < 10 ^ 7
  | false, 5 => v + r < 10 ^ 7
  | false, 6 => v < 10 ^ 7 + r
  | false, _ => v + 1 < 10 ^ 6
  | true, 0 => v = 1
  | true, 1 => False
  | true, 2 => v = 0
  | true, 3 => v / 2 = 0
  | true, 4 => r = 0
  | true, 5 => v = r
  | true, 6 => v = 0 ∧ r = 0
  | true, _ => v = 1

theorem fits_false_iff {v : ℕ} (hv : (v : ℤ) ≤ int64Max) (hbyte : strat = 5 ∨ strat = 6 → r < 256) :
    -10 ^ 6 < strategyValue strat (strategyInput strat v) r ∧
      strategyValue strat (strategyInput strat v) r < 10 ^ 7 ↔ fits false v r strat := by
  have hinput := strategyInput_cases strat v
  generalize strategyInput strat v = w at hinput ⊢
  rcases strat with _ | _ | _ | _ | _ | _ | _ | strat
  all_goals
    simp only [strategyDivides, strategyValue, fits, int64Max, int64Min, false_and, false_or,
      not_false_eq_true, true_and] at hv hinput ⊢
  · omega
  · omega
  · omega
  · rw [tdiv_cases]
    split <;> omega
  · omega
  · omega
  · omega
  · omega

theorem fits_true_iff {v : ℕ} (hv : (v : ℤ) ≤ int64Max) :
    strategyValue strat (strategyInput strat (-v)) r = 0 ↔ fits true v r strat := by
  have hinput := strategyInput_cases strat (-v)
  generalize strategyInput strat (-v) = w at hinput ⊢
  rcases strat with _ | _ | _ | _ | _ | _ | _ | strat
  all_goals
    simp only [strategyDivides, strategyValue, fits, int64Max, int64Min, false_and, false_or,
      not_false_eq_true, true_and] at hv hinput ⊢
  · omega
  · exact iff_of_false (by omega) not_false
  · omega
  · rw [tdiv_cases]
    split <;> omega
  · omega
  · omega
  · omega
  · omega

end Changes

namespace AsciiChange

/-- Only the run is replaced, and the new text with the minus sign before it is the number. -/
def Faithful (s : Library) (c : AsciiChange) : Prop :=
  ∃ text, c.after.output = s.output.take c.run.off ++ text ++ s.output.drop c.off2 ∧
    ReadsAs ((if c.run.minus then [chr '-'] else []) ++ text) c.val

/-- The number that the run has, and what is drawn, fit the strategy. -/
def Fits (s : Library) (c : AsciiChange) : Prop :=
  fits c.run.minus (decimalValue (s.runText c.run.off c.run.off2)) c.r c.strat

end AsciiChange

/-- There is only one text that it can have written. -/
theorem Changed.faithful_iff_reads {a : Arena} {s : Library} {c : AsciiChange} (h : Changed a s c) :
    c.Faithful s ↔ ReadsAs ((if c.run.minus then [chr '-'] else []) ++ numbuf c.val) c.val := by
  constructor
  · rintro ⟨text, hout, hreads⟩
    rw [h.output, List.append_cancel_right_eq, List.append_cancel_left_eq] at hout
    rw [hout]
    exact hreads
  · exact fun hreads => ⟨_, h.output, hreads⟩

theorem Changed.faithful_iff {a : Arena} {s : Library} {c : AsciiChange} (h : Changed a s c) :
    c.Faithful s ↔ c.Fits s := by
  have hrun := h.run.val
  rw [h.faithful_iff_reads, AsciiChange.Fits, h.val]
  cases hminus : c.run.minus with
  | false =>
    rw [hminus] at hrun
    rw [← fits_false_iff h.run.value_le h.drawn, ← readsAs_numbuf_iff, hrun]
    rfl
  | true =>
    rw [hminus] at hrun
    rw [← fits_true_iff h.run.value_le, ← readsAs_minus_numbuf_iff, hrun]
    rfl

/-- The operator stays in its buffers and its numbers in 64 bits, and only the run is replaced. The
new text is read back as the new number exactly when that is short enough, and zero behind a minus
sign. -/
theorem asciinum_faithful_iff (a : Arena) (s : Library) (h : InRange a s)
    (hmaxLen : a.maxLen + havocBlkXl < 2 ^ 32) (ds : Draws) :
    Ensures Harmless (s.asciinumChange a) ds fun result _ =>
      ∀ c ∈ result, Changed a s c ∧ (c.Faithful s ↔ c.Fits s) :=
  (asciinumChange_ensures h hmaxLen ds).mono fun _ _ hchange c hc =>
    ⟨hchange c hc, (hchange c hc).faithful_iff⟩

/-- A buffer of sixteen bytes and no tokens. -/
def smallArena (op : Operator) : Arena where
  afl := ⟨1, false⟩
  maxLen := 16
  spliceBuf := none
  spliceLen_lt := by simp
  extras := []
  aExtras := []
  mutationArray := List.replicate mutStrategyArraySize op
  mutationArray_length := List.length_replicate

/-- A text in the buffer. -/
def Library.ofText (text : List Byte) : Library := ⟨tokenBytes text, tokenBytes text, text.length⟩

theorem asciinum_faithful_four_digits :
    Ensures Harmless ((Library.ofText (digitBytes 9999)).asciinumChange (smallArena .asciinum))
      [0, 0] fun result _ => ∀ c ∈ result,
        Changed (smallArena .asciinum) (Library.ofText (digitBytes 9999)) c ∧
          (c.Faithful (Library.ofText (digitBytes 9999)) ↔
            c.Fits (Library.ofText (digitBytes 9999))) :=
  asciinum_faithful_iff (smallArena .asciinum) (Library.ofText (digitBytes 9999))
    ⟨by decide, by decide⟩ (by decide) [0, 0]

/-- 9999999 becomes 10000000, of which the last zero is cut off. -/
theorem asciinum_not_faithful :
    ¬ ∀ (a : Arena) (s : Library), InRange a s → a.maxLen + havocBlkXl < 2 ^ 32 → ∀ ds c ds',
      s.asciinumChange a ds = (.ok (some c), ds') → c.after.output ≠ s.output → c.Faithful s := by
  intro hall
  have hseen : ((((Library.ofText (digitBytes 9999999)).asciinumChange (smallArena .asciinum)
      [0, 0]).1.toOption.join).map fun c => (c.val, c.run.minus, c.after.output)) =
      some (10000000, false, digitBytes 1000000) := by
    decide +kernel
  have hrange : InRange (smallArena .asciinum) (Library.ofText (digitBytes 9999999)) :=
    ⟨by decide, by decide⟩
  rcases hrun : (Library.ofText (digitBytes 9999999)).asciinumChange (smallArena .asciinum)
    [0, 0] with ⟨e | _ | c, ds'⟩
  · rw [hrun] at hseen
    cases hseen
  · rw [hrun] at hseen
    cases hseen
  · rw [hrun] at hseen
    obtain ⟨hval, hrest⟩ := Prod.mk.inj (Option.some.inj hseen)
    obtain ⟨hminus, hout⟩ := Prod.mk.inj hrest
    have hchanged : Changed _ _ c :=
      (asciinumChange_ensures hrange (by decide) [0, 0]).returns hrun c rfl
    have hfaithful := hall _ _ hrange (by decide) [0, 0] c ds' hrun (by rw [hout]; decide +kernel)
    rw [hchanged.faithful_iff_reads, hminus, hval] at hfaithful
    exact absurd ((readsAs_numbuf_iff 10000000).mp hfaithful) (by decide)

end AflPlusPlus.Mutation
