import AflPlusPlus.Lib.Ctype
import AflPlusPlus.Lib.Loop
import AflPlusPlus.Lib.Reach
import AflPlusPlus.Mutation.Values

/-!
# Queue entries that are texts

`check_if_text`. The scan counts the characters that are valid UTF-8, and takes one off the divisor
for each further byte of a character, so that the quotient never exceeds a hundred percent. The test
in front of it compares twice in the same direction and lets no entry pass that is shorter than
`AFL_TXT_MAX_LEN`.
-/

namespace AflPlusPlus
open Lib

def aflTxtMinLen : ℕ := 12

def aflTxtMaxLen : ℕ := 65535

def aflTxtMinPercent : ℕ := 99

/-- The bytes from `i` on lie in these ranges. A byte is looked at only when those in front of it
match; `none` is a read outside the buffer. -/
def bytesIn (buf : List Byte) : ℕ → List (Byte × Byte) → Option Bool
  | _, [] => some true
  | i, (lo, hi) :: ranges => do
    let c ← buf[i]?
    if lo ≤ c ∧ c ≤ hi then bytesIn buf (i + 1) ranges else some false

def anyBytesIn (buf : List Byte) (i : ℕ) : List (List (Byte × Byte)) → Option Bool
  | [] => some false
  | ranges :: alts => do
    if ← bytesIn buf i ranges then some true else anyBytesIn buf i alts

/-- "non-overlong 2-byte". -/
def twoBytes : List (List (Byte × Byte)) := [[(0xc2, 0xdf), (0x80, 0xbf)]]

/-- "excluding overlongs", "straight 3-byte" and "excluding surrogates". -/
def threeBytes : List (List (Byte × Byte)) :=
  [[(0xe0, 0xe0), (0xa0, 0xbf), (0x80, 0xbf)],
    [(0xe1, 0xec), (0x80, 0xbf), (0x80, 0xbf)],
    [(0xee, 0xee), (0x80, 0xbf), (0x80, 0xbf)],
    [(0xef, 0xef), (0x80, 0xbf), (0x80, 0xbf)],
    [(0xed, 0xed), (0x80, 0x9f), (0x80, 0xbf)]]

/-- "planes 1-3", "planes 4-15" and "plane 16". -/
def fourBytes : List (List (Byte × Byte)) :=
  [[(0xf0, 0xf0), (0x90, 0xbf), (0x80, 0xbf), (0x80, 0xbf)],
    [(0xf1, 0xf3), (0x80, 0xbf), (0x80, 0xbf), (0x80, 0xbf)],
    [(0xf4, 0xf4), (0x80, 0x8f), (0x80, 0xbf), (0x80, 0xbf)]]

/-- The variables of the scan. -/
structure TextScan where
  offset : ℕ
  ascii : ℕ
  utf8 : ℕ
  comp : ℤ

/-- A character of more than `k` bytes at the offset. -/
def wideAt (buf : List Byte) (len offset k : ℕ) (alts : List (List (Byte × Byte))) : Option Bool :=
  if len - offset > k then anyBytesIn buf offset alts else some false

/-- Over a character of `k + 1` bytes. -/
def TextScan.skip (s : TextScan) (k : ℕ) : TextScan :=
  { s with offset := s.offset + (k + 1), utf8 := s.utf8 + 1, comp := s.comp - k }

def isascii (c : Byte) : Bool := c < 0x80

/-- The loop body; `none` is a read outside the buffer. -/
def textStep (buf : List Byte) (len : ℕ) (s : TextScan) : Option TextScan := do
  let c ← buf[s.offset]?
  if c = 0x09 ∨ c = 0x0a ∨ c = 0x0d ∨ (0x20 ≤ c ∧ c ≤ 0x7e) then
    return { s.skip 0 with ascii := s.ascii + 1 }
  let s := { s with ascii := if isascii c || isprint c then s.ascii + 1 else s.ascii }
  if ← wideAt buf len s.offset 1 twoBytes then return s.skip 1
  if ← wideAt buf len s.offset 2 threeBytes then return s.skip 2
  if ← wideAt buf len s.offset 3 fourBytes then return s.skip 3
  return { s with offset := s.offset + 1 }

/-- The class of the text. -/
def textClass (len : ℕ) (s : TextScan) : ℕ :=
  let percentUtf8 := ((s.utf8 * 100 : ℕ) : ℤ) / s.comp
  let percentAscii := s.ascii * 100 / len
  if percentUtf8 ≥ percentAscii ∧ percentUtf8 ≥ aflTxtMinPercent then 2
  else if percentAscii ≥ aflTxtMinPercent then 1
  else 0

def textStart (len : ℕ) : TextScan := ⟨0, 0, 0, len⟩

/-- The scan of a buffer of `len` bytes with a NUL behind them. -/
def scanText (bytes : List Byte) : Option TextScan :=
  whileLoop (fun s => s.offset < bytes.length) (textStep (bytes ++ [0]) bytes.length)
    (bytes.length + 1) (textStart bytes.length)

/-- `check_if_text` on an entry of `qLen` bytes whose file has these contents; there are none when
it cannot be opened. -/
def checkIfText (qLen : ℕ) (file : Option (List Byte)) : Option ℕ :=
  if qLen < aflTxtMinLen ∨ qLen < aflTxtMaxLen then some 0
  else
    let len := if qLen ≥ Mutation.maxFile then Mutation.maxFile - 1 else qLen
    match file with
    | none => some 0
    | some contents =>
      let bytes := contents.take len
      if bytes.length ≠ len then some 0 else (scanText bytes).map (textClass len)

/-! ### Reads -/

section Reads

variable {buf : List Byte} {i : ℕ}

theorem bytesIn_inside {ranges : List (Byte × Byte)} (h : i + ranges.length ≤ buf.length) :
    ∃ b, bytesIn buf i ranges = some b := by
  induction ranges generalizing i with
  | nil => exact ⟨true, rfl⟩
  | cons range ranges ih =>
    rw [List.length_cons] at h
    rw [bytesIn, List.getElem?_eq_getElem (by omega), Option.bind_eq_bind, Option.bind_some]
    split
    · exact ih (by omega)
    · exact ⟨false, rfl⟩

theorem anyBytesIn_inside {n : ℕ} {alts : List (List (Byte × Byte))}
    (halts : ∀ ranges ∈ alts, ranges.length ≤ n) (h : i + n ≤ buf.length) :
    ∃ b, anyBytesIn buf i alts = some b := by
  induction alts with
  | nil => exact ⟨false, rfl⟩
  | cons ranges alts ih =>
    have hlen := halts ranges List.mem_cons_self
    obtain ⟨b, hb⟩ : ∃ b, bytesIn buf i ranges = some b := bytesIn_inside (by omega)
    rw [anyBytesIn, hb, Option.bind_eq_bind, Option.bind_some]
    cases b with
    | true => exact ⟨true, rfl⟩
    | false => exact ih fun r hr => halts r (List.mem_cons_of_mem ranges hr)

theorem wideAt_inside {len k : ℕ} {alts : List (List (Byte × Byte))}
    (halts : ∀ ranges ∈ alts, ranges.length ≤ k + 1) (hlen : len ≤ buf.length) :
    ∃ b, wideAt buf len i k alts = some b ∧ (b = true → i + (k + 1) ≤ len) := by
  unfold wideAt
  by_cases hk : len - i > k
  · obtain ⟨b, hb⟩ := anyBytesIn_inside halts (show i + (k + 1) ≤ buf.length by omega)
    exact ⟨b, by rw [if_pos hk, hb], fun _ => by omega⟩
  · exact ⟨false, if_neg hk, fun h => by cases h⟩

end Reads

/-! ### The scan -/

section Scan

variable {bytes : List Byte} {s t : TextScan}

/-- One step takes `k` bytes for a character and leaves the divisor one smaller for each of them but
the first. -/
structure TextAdvance (len : ℕ) (s t : TextScan) (k : ℕ) : Prop where
  pos : 1 ≤ k
  offset : t.offset = s.offset + k
  inside : t.offset ≤ len
  comp : t.comp = s.comp - (k - 1)
  utf8 : t.utf8 ≤ s.utf8 + 1

theorem textStep_advance (h : s.offset < bytes.length) :
    ∃ t k, textStep (bytes ++ [0]) bytes.length s = some t ∧ TextAdvance bytes.length s t k := by
  have hlen : bytes.length ≤ (bytes ++ [(0 : Byte)]).length := by simp
  have hget : s.offset < (bytes ++ [(0 : Byte)]).length := by omega
  obtain ⟨b2, hb2, hin2⟩ := wideAt_inside (i := s.offset) (k := 1)
    (show ∀ ranges ∈ twoBytes, _ by decide) hlen
  obtain ⟨b3, hb3, hin3⟩ := wideAt_inside (i := s.offset) (k := 2)
    (show ∀ ranges ∈ threeBytes, _ by decide) hlen
  obtain ⟨b4, hb4, hin4⟩ := wideAt_inside (i := s.offset) (k := 3)
    (show ∀ ranges ∈ fourBytes, _ by decide) hlen
  unfold textStep
  rw [List.getElem?_eq_getElem hget, Option.bind_eq_bind, Option.bind_some]
  split
  · exact ⟨_, 1, rfl, Nat.le_refl _, rfl, h, by simp [TextScan.skip], Nat.le_refl _⟩
  · dsimp only
    rw [hb2, Option.bind_eq_bind, Option.bind_some]
    cases b2 with
    | true => exact ⟨_, 2, rfl, by decide, rfl, hin2 rfl, rfl, Nat.le_refl _⟩
    | false =>
      rw [if_neg Bool.false_ne_true, hb3, Option.bind_some]
      cases b3 with
      | true => exact ⟨_, 3, rfl, by decide, rfl, hin3 rfl, rfl, Nat.le_refl _⟩
      | false =>
        rw [if_neg Bool.false_ne_true, hb4, Option.bind_some]
        cases b4 with
        | true => exact ⟨_, 4, rfl, by decide, rfl, hin4 rfl, rfl, Nat.le_refl _⟩
        | false => exact ⟨_, 1, rfl, Nat.le_refl _, rfl, h, by simp, Nat.le_succ _⟩

/-- What holds whenever the loop tests its condition: every byte that was taken, but for the first
one of each character, has been taken off the divisor. -/
structure TextInv (len : ℕ) (s : TextScan) : Prop where
  offset_le : s.offset ≤ len
  utf8_le : (s.utf8 : ℤ) ≤ s.comp - (len - s.offset : ℕ)
  started : 0 < s.offset → 1 ≤ s.comp - (len - s.offset : ℕ)

theorem TextInv.advance {len k : ℕ} (h : TextInv len s) (hstep : TextAdvance len s t k) :
    TextInv len t := by
  obtain ⟨hpos, hoffset, hinside, hcomp, hutf8⟩ := hstep
  have hle := h.utf8_le
  have hchars : t.comp - (len - t.offset : ℕ) = s.comp - (len - s.offset : ℕ) + 1 := by omega
  exact ⟨hinside, by omega, fun _ => by omega⟩

theorem TextInv.bounds {len : ℕ} (h : TextInv len s) (hpos : 0 < len) :
    (s.utf8 : ℤ) ≤ s.comp ∧ 1 ≤ s.comp := by
  have hle := h.utf8_le
  have hstarted := h.started
  have hoffset := h.offset_le
  constructor
  · omega
  · by_cases hzero : 0 < s.offset
    · have := hstarted hzero
      omega
    · omega

theorem textInv_start (len : ℕ) : TextInv len (textStart len) :=
  ⟨Nat.zero_le _, by simp [textStart], fun h => absurd h (Nat.lt_irrefl 0)⟩

/-- The states that the scan of the buffer passes. -/
def ScanReaches (bytes : List Byte) : TextScan → Prop :=
  Reaches (fun s (_ : Unit) => textStep (bytes ++ [0]) bytes.length s)
    (fun s _ => s.offset < bytes.length) (textStart bytes.length)

/-- The count stays below the divisor, the divisor above zero, and no read leaves the buffer. -/
def ScanSafe (bytes : List Byte) : Prop :=
  ∀ s, ScanReaches bytes s → (s.utf8 : ℤ) ≤ s.comp ∧ 1 ≤ s.comp ∧
    (s.offset < bytes.length → (textStep (bytes ++ [0]) bytes.length s).isSome)

theorem scanSafe (hne : bytes ≠ []) : ScanSafe bytes := by
  intro s hs
  have hinv : TextInv bytes.length s := by
    refine hs.invariant (textInv_start _) fun u _ v hu hok hstep => ?_
    obtain ⟨t, k, ht, hadvance⟩ := textStep_advance hok
    rw [ht] at hstep
    exact Option.some.inj hstep ▸ hu.advance hadvance
  obtain ⟨hutf8, hcomp⟩ := hinv.bounds (List.length_pos_iff.mpr hne)
  refine ⟨hutf8, hcomp, fun hlt => ?_⟩
  obtain ⟨t, k, ht, -⟩ := textStep_advance hlt
  rw [ht]
  rfl

/-! ### Printable entries -/

/-- After some characters of a text in ASCII. -/
structure AllAscii (len : ℕ) (s : TextScan) : Prop where
  offset_le : s.offset ≤ len
  ascii : s.ascii = s.offset
  utf8 : s.utf8 = s.offset
  comp : s.comp = len

theorem textStep_printable (h : s.offset < bytes.length) (hprint : isprint bytes[s.offset] = true) :
    textStep (bytes ++ [0]) bytes.length s = some { s.skip 0 with ascii := s.ascii + 1 } := by
  have hget : (bytes ++ [(0 : Byte)])[s.offset]? = some bytes[s.offset] := by
    rw [List.getElem?_append_left h, List.getElem?_eq_getElem h]
  have hrange : 0x20 ≤ bytes[s.offset] ∧ bytes[s.offset] ≤ 0x7e := by
    unfold isprint at hprint
    generalize bytes[s.offset] = c at hprint ⊢
    simp only [Bool.and_eq_true, decide_eq_true_eq] at hprint
    bv_omega
  rw [textStep, hget, Option.bind_eq_bind, Option.bind_some,
    if_pos (Or.inr (Or.inr (Or.inr hrange)))]
  rfl

theorem scanText_printable (hprint : ∀ c ∈ bytes, isprint c = true) :
    ∃ s, scanText bytes = some s ∧ AllAscii bytes.length s ∧ s.offset = bytes.length := by
  have hfuel : bytes.length - (textStart bytes.length).offset < bytes.length + 1 := by
    simp [textStart]
  obtain ⟨s, hs, hinv, hdone⟩ :=
    whileLoop_total (fun s : TextScan => decide (s.offset < bytes.length))
    (textStep (bytes ++ [0]) bytes.length)
    (AllAscii bytes.length) (fun s => bytes.length - s.offset)
    ⟨Nat.zero_le _, rfl, rfl, rfl⟩ hfuel fun s hs hlt => by
      have hlt := of_decide_eq_true hlt
      refine ⟨_, textStep_printable hlt (hprint _ (List.getElem_mem hlt)), ?_, ?_⟩
      · exact ⟨hlt, congrArg Nat.succ hs.ascii, congrArg Nat.succ hs.utf8, by
          rw [TextScan.skip, hs.comp]; rfl⟩
      · rw [TextScan.skip]
        dsimp only
        omega
  exact ⟨s, hs, hinv, by have := of_decide_eq_false hdone; have := hinv.offset_le; omega⟩

theorem textClass_printable {len : ℕ} (hpos : 0 < len) (h : AllAscii len s)
    (hend : s.offset = len) : textClass len s = 2 := by
  have hutf8 : ((s.utf8 * 100 : ℕ) : ℤ) / s.comp = 100 := by
    rw [h.utf8, hend, h.comp]
    push_cast
    exact Int.mul_ediv_cancel_left _ (by omega)
  have hascii : s.ascii * 100 / len = 100 := by
    rw [h.ascii, hend]
    exact Nat.mul_div_cancel_left _ hpos
  rw [textClass, hutf8, hascii]
  rfl

end Scan

/-- Of the entries that are long enough, printable, and not longer than `AFL_TXT_MAX_LEN`, only
those of exactly this length are found to be texts. The scan is sound for all buffers. -/
theorem checkIfText_printable_iff {bytes : List Byte} (hmin : aflTxtMinLen ≤ bytes.length)
    (hmax : bytes.length ≤ aflTxtMaxLen) (hprint : ∀ c ∈ bytes, isprint c = true) :
    ((∃ r, checkIfText bytes.length (some bytes) = some r ∧ r ≠ 0) ∧
      ∀ other, other ≠ [] → ScanSafe other) ↔ bytes.length = aflTxtMaxLen := by
  constructor
  · rintro ⟨⟨r, hr, hne⟩, -⟩
    by_contra hlen
    rw [checkIfText, if_pos (Or.inr (by omega))] at hr
    exact hne (Option.some.inj hr).symm
  · intro hlen
    refine ⟨⟨2, ?_, by decide⟩, fun other hother => scanSafe hother⟩
    have hlong : ¬ (bytes.length < aflTxtMinLen ∨ bytes.length < aflTxtMaxLen) := by omega
    have hfile : ¬ bytes.length ≥ Mutation.maxFile := by
      rw [hlen]
      decide
    obtain ⟨s, hs, hascii, hend⟩ := scanText_printable hprint
    rw [checkIfText, if_neg hlong]
    dsimp only
    rw [if_neg hfile, List.take_length, if_neg (by simp), hs, Option.map_some,
      textClass_printable (by rw [hlen]; decide) hascii hend]

theorem checkIfText_printable_longest :
    (∃ r, checkIfText aflTxtMaxLen (some (List.replicate aflTxtMaxLen (chr 'a'))) = some r ∧
      r ≠ 0) ∧
      ∀ other, other ≠ [] → ScanSafe other := by
  have hlen : (List.replicate aflTxtMaxLen (chr 'a')).length = aflTxtMaxLen := List.length_replicate
  have hprint : ∀ c ∈ List.replicate aflTxtMaxLen (chr 'a'), isprint c = true := by
    intro c hc
    rw [List.eq_of_mem_replicate hc]
    decide
  have h := (checkIfText_printable_iff (by rw [hlen]; decide) (Nat.le_of_eq hlen) hprint).mpr hlen
  rwa [hlen] at h

/-- Twelve letters are not found to be a text. -/
theorem checkIfText_not_printable_twelve :
    ¬ ∃ r, checkIfText 12 (some (List.replicate 12 (chr 'a'))) = some r ∧ r ≠ 0 := by
  rintro ⟨r, hr, hne⟩
  exact hne (Option.some.inj hr).symm

end AflPlusPlus
