import AflPlusPlus.Dict.Extras

/-!
# Tokens written to a dictionary

`__tokencap_dump` of the token capture library and `dict2file` of the compiler pass write a token as
a quoted line each. Both escape the same bytes, so that the loader reads every line back as one
extra; the pass leaves out a final zero that looks like the end of a string.
-/

namespace AflPlusPlus.Dict
open Lib

def minAutoExtra : ℕ := 3

def maxAutoExtra : ℕ := 32

/-- What `sprintf` writes for `\x%02x`. -/
def hexEscape (c : Byte) : List Byte :=
  [chr '\\', chr 'x', hexDigit (c.toNat / 16), hexDigit (c.toNat % 16)]

def tokencapChar (c : Byte) : List Byte :=
  if c ≤ 31 ∨ 127 ≤ c ∨ c = chr '"' ∨ c = chr '\\' then hexEscape c else [c]

/-- The output file is open and takes everything. -/
def tokencapDump (isText : Bool) (token : List Byte) : List Byte :=
  if token.length < minAutoExtra ∨ token.length > maxAutoExtra then []
  else
    let token := if isText then token.takeWhile (· ≠ 0) else token
    [chr '"'] ++ token.flatMap tokencapChar ++ [chr '"', chr '\n']

/-- The condition under which `dict2file` writes a byte as it is. -/
def isPlain (c : Byte) : Bool := isprint c && c ≠ chr '\\' && c ≠ chr '"'

/-- The loop of `dict2file` from some byte on. -/
def dict2fileBody (len : ℕ) : Bool → List Byte → List Byte
  | _, [] => []
  | binary, c :: rest =>
    if isPlain c then c :: dict2fileBody len binary rest
    -- `i + 1 != len` as long as there are bytes left
    else (if rest ≠ [] ∨ c ≠ 0 ∨ binary ∨ len = 4 ∨ len = 8 then hexEscape c else []) ++
      dict2fileBody len true rest

def dict2file (token : List Byte) : List Byte :=
  [chr '"'] ++ dict2fileBody token.length false token ++ [chr '"', chr '\n']

/-- The token ends in a single zero behind plain characters, and is not as long as an integer. -/
def EndsLikeString (token : List Byte) : Prop :=
  token.getLast? = some 0 ∧ token.dropLast.all isPlain ∧ token.length ≠ 4 ∧ token.length ≠ 8

instance (token : List Byte) : Decidable (EndsLikeString token) :=
  inferInstanceAs (Decidable (_ ∧ _ ∧ _ ∧ _))

inductive Writer
  | tokencap
  | dict2file

/-- The line a writer makes of a token that is not taken as text. -/
def Writer.line : Writer → List Byte → List Byte
  | .tokencap, token => tokencapDump false token
  | .dict2file, token => Dict.dict2file token

/-- The bytes of the token that the line stands for. -/
def Writer.kept : Writer → List Byte → List Byte
  | .tokencap, token => token
  | .dict2file, token => if EndsLikeString token then token.dropLast else token

/-! ### Escaping -/

def escapeChar (c : Byte) : List Byte := if isPlain c then [c] else hexEscape c

/-- A property of all bytes is checked on the numbers below 256. -/
theorem forall_byte {p : Byte → Prop} (h : ∀ n : Fin 256, p (BitVec.ofNat 8 n)) (c : Byte) :
    p c := by
  have hc := h ⟨c.toNat, c.isLt⟩
  rwa [BitVec.ofNat_toNat, BitVec.setWidth_eq] at hc

theorem tokencapChar_eq (c : Byte) : tokencapChar c = escapeChar c :=
  forall_byte (p := fun c => tokencapChar c = escapeChar c) (by decide +kernel) c

theorem isprint_escapeChar (c : Byte) : (escapeChar c).all isprint :=
  forall_byte (p := fun c => (escapeChar c).all isprint) (by decide +kernel) c

theorem length_escapeChar_le (c : Byte) : (escapeChar c).length ≤ 4 := by
  rw [escapeChar]
  split
  · exact Nat.le_of_ble_eq_true rfl
  · exact Nat.le_refl 4

theorem unescape_hexEscape (c : Byte) (rest : List Byte) :
    unescape (hexEscape c ++ rest) = c :: unescape rest := by
  have hhigh : isxdigit (hexDigit (c.toNat / 16)) = true :=
    forall_byte (p := fun c => isxdigit (hexDigit (c.toNat / 16)) = true) (by decide +kernel) c
  have hlow : isxdigit (hexDigit (c.toNat % 16)) = true :=
    forall_byte (p := fun c => isxdigit (hexDigit (c.toNat % 16)) = true) (by decide +kernel) c
  have hbyte : hexByte (hexDigit (c.toNat / 16)) (hexDigit (c.toNat % 16)) = c :=
    forall_byte (p := fun c => hexByte (hexDigit (c.toNat / 16)) (hexDigit (c.toNat % 16)) = c)
      (by decide +kernel) c
  rw [hexEscape, List.cons_append, List.cons_append, List.cons_append, List.cons_append,
    unescape_hex hhigh hlow, hbyte, List.nil_append]

theorem unescape_plain {c : Byte} (hc : isPlain c = true) (rest : List Byte) :
    unescape (c :: rest) = c :: unescape rest := by
  have hclass : isPlain c = true → ¬ ((1 ≤ c ∧ c ≤ 31) ∨ 128 ≤ c) ∧ c ≠ chr '\\' :=
    forall_byte (p := fun c => isPlain c = true →
      ¬ ((1 ≤ c ∧ c ≤ 31) ∨ 128 ≤ c) ∧ c ≠ chr '\\') (by decide +kernel) c
  obtain ⟨hctrl, hslash⟩ := hclass hc
  exact unescape_cons hctrl hslash rest

theorem unescape_escape (token : List Byte) : unescape (token.flatMap escapeChar) = token := by
  induction token with
  | nil => exact unescape_nil
  | cons c token ih =>
    rw [List.flatMap_cons, escapeChar]
    split
    · rename_i hplain
      rw [List.singleton_append, unescape_plain hplain, ih]
    · rw [unescape_hexEscape, ih]

theorem length_escape_le (token : List Byte) :
    (token.flatMap escapeChar).length ≤ 4 * token.length := by
  induction token with
  | nil => exact Nat.le_refl 0
  | cons c token ih =>
    have hc := length_escapeChar_le c
    rw [List.flatMap_cons, List.length_append, List.length_cons]
    omega

theorem isprint_escape {token : List Byte} {c : Byte} (hc : c ∈ token.flatMap escapeChar) :
    isprint c = true := by
  obtain ⟨x, _, hx⟩ := List.mem_flatMap.mp hc
  exact List.all_eq_true.mp (isprint_escapeChar x) c hx

theorem escape_eq_nil_iff {token : List Byte} : token.flatMap escapeChar = [] ↔ token = [] := by
  constructor
  · intro h
    rw [← unescape_escape token, h, unescape_nil]
  · rintro rfl
    rfl

/-! ### The lines of the writers -/

/-- Once a byte was escaped, nothing is left out any more. -/
theorem dict2fileBody_binary (len : ℕ) (token : List Byte) :
    dict2fileBody len true token = token.flatMap escapeChar := by
  induction token with
  | nil => rfl
  | cons c token ih =>
    rw [dict2fileBody, List.flatMap_cons, escapeChar, ih]
    split
    · rfl
    · rw [if_pos (Or.inr (Or.inr (Or.inl rfl)))]

theorem dict2fileBody_eq {len : ℕ} (token : List Byte) :
    dict2fileBody len false token =
      (if token.getLast? = some 0 ∧ token.dropLast.all isPlain ∧ len ≠ 4 ∧ len ≠ 8
        then token.dropLast else token).flatMap escapeChar := by
  induction token with
  | nil => simp [dict2fileBody]
  | cons c rest ih =>
    cases hrest : rest with
    | nil =>
      by_cases hplain : isPlain c
      · have hc0 : ¬ c = 0#8 := by
          rintro rfl
          exact absurd hplain (by decide)
        simp [dict2fileBody, hplain, hc0, escapeChar]
      · by_cases hzero : c = 0#8
        · have hesc : ¬ isPlain 0#8 = true := by decide
          subst hzero
          by_cases h4 : len = 4 <;> by_cases h8 : len = 8 <;>
            simp [dict2fileBody, hesc, h4, h8, escapeChar]
        · simp [dict2fileBody, hplain, hzero, escapeChar]
    | cons d rest' =>
      rw [hrest] at ih
      have hlast : (c :: d :: rest').getLast? = (d :: rest').getLast? := List.getLast?_cons_cons
      have hcons : ∀ l, (c :: l).flatMap escapeChar = escapeChar c ++ l.flatMap escapeChar :=
        fun l => List.flatMap_cons
      rw [dict2fileBody, hlast, List.dropLast_cons_cons, List.all_cons]
      by_cases hplain : isPlain c
      · have hchar : escapeChar c = [c] := if_pos hplain
        rw [if_pos hplain, ih, hplain, Bool.true_and]
        split
        · rw [hcons, hchar, List.singleton_append]
        · rw [hcons, hchar, List.singleton_append]
      · have hchar : escapeChar c = hexEscape c := if_neg hplain
        rw [if_neg hplain, if_pos (Or.inl (List.cons_ne_nil _ _)), dict2fileBody_binary,
          if_neg (by simp [hplain]), hcons, hchar]

/-- Both writers put the bytes they keep between quotes, escaped alike. -/
theorem Writer.line_eq (w : Writer) {token : List Byte} (hmin : minAutoExtra ≤ token.length)
    (hmax : token.length ≤ maxAutoExtra) :
    w.line token =
      chr '"' :: (w.kept token).flatMap escapeChar ++ [chr '"', chr '\n'] := by
  cases w with
  | tokencap =>
    have hfun : tokencapChar = escapeChar := funext tokencapChar_eq
    rw [line, tokencapDump, if_neg (by omega), hfun]
    rfl
  | dict2file =>
    rw [line, Dict.dict2file, dict2fileBody_eq, kept]
    rfl

theorem Writer.length_kept (w : Writer) (token : List Byte) :
    token.length - 1 ≤ (w.kept token).length ∧ (w.kept token).length ≤ token.length := by
  cases w with
  | tokencap => exact ⟨Nat.sub_le _ _, Nat.le_refl _⟩
  | dict2file =>
    rw [kept]
    split
    · rw [List.length_dropLast]
      exact ⟨Nat.le_refl _, Nat.sub_le _ _⟩
    · exact ⟨Nat.sub_le _ _, Nat.le_refl _⟩

/-! ### Loading them -/

/-- The line of a token is one line of the file and adds one extra. -/
theorem Writer.loadExtrasFile_line (w : Writer) (dictLevel : ℤ) (e : Extras)
    {token : List Byte} (hmin : minAutoExtra ≤ token.length) (hmax : token.length ≤ maxAutoExtra)
    (file : List Byte) :
    loadExtrasFile dictLevel e (w.line token ++ file) =
      loadExtrasFile dictLevel (e.add (w.kept token)) file := by
  obtain ⟨hshort, hlong⟩ := w.length_kept token
  rw [minAutoExtra] at hmin
  rw [maxAutoExtra] at hmax
  have hbody : (w.kept token).flatMap escapeChar ≠ [] := by
    rw [ne_eq, escape_eq_nil_iff]
    intro h
    rw [h, List.length_nil] at hshort
    omega
  have hnul : 0 ∉ (w.kept token).flatMap escapeChar :=
    fun h => absurd (isprint_escape h) (by decide)
  have hfeed : chr '\n' ∉ chr '"' :: (w.kept token).flatMap escapeChar ++ [chr '"'] := by
    simp only [List.cons_append, List.mem_cons, List.mem_append, List.not_mem_nil, or_false]
    rintro (h | h | h)
    · exact absurd h (by decide)
    · exact absurd (isprint_escape h) (by decide)
    · exact absurd h (by decide)
  have hlen : (chr '"' :: (w.kept token).flatMap escapeChar ++ [chr '"']).length < maxLine - 1 := by
    have hle := length_escape_le (w.kept token)
    rw [List.length_append, List.length_cons, List.length_singleton, maxLine]
    omega
  have hsplit : w.line token ++ file =
      (chr '"' :: (w.kept token).flatMap escapeChar ++ [chr '"']) ++ chr '\n' :: file := by
    rw [w.line_eq hmin hmax]
    simp
  have hjoin : [] ++ (chr '"' :: (w.kept token).flatMap escapeChar ++ [chr '"']) ++ [chr '\n'] =
      chr '"' :: (w.kept token).flatMap escapeChar ++ [chr '"', chr '\n'] := by simp
  have hload : loadLine dictLevel e
      (chr '"' :: (w.kept token).flatMap escapeChar ++ [chr '"', chr '\n']) =
        e.add (w.kept token) := by
    rw [loadLine, parseLine_quoted dictLevel hbody hnul, unescape_escape]
    exact if_neg (by rw [maxDictFile]; omega)
  rw [loadExtrasFile, hsplit, readLines_line _ hfeed [] file hlen, hjoin, List.foldl_cons, hload]
  rfl

/-- A file of dumped tokens loads as these tokens, one extra for each line, whichever writer made it
and whatever the level is. -/
theorem loadExtrasFile_dumps (dictLevel : ℤ) (e : Extras) (dumps : List (Writer × List Byte))
    (h : ∀ d ∈ dumps, minAutoExtra ≤ d.2.length ∧ d.2.length ≤ maxAutoExtra) :
    (loadExtrasFile dictLevel e (dumps.flatMap fun d => d.1.line d.2)).data =
      e.data ++ dumps.map fun d => d.1.kept d.2 := by
  induction dumps generalizing e with
  | nil => simp [loadExtrasFile, readLines]
  | cons d dumps ih =>
    obtain ⟨hmin, hmax⟩ := h d (List.mem_cons_self ..)
    rw [List.flatMap_cons, d.1.loadExtrasFile_line dictLevel e hmin hmax,
      ih _ fun d' hd' => h d' (List.mem_cons_of_mem _ hd'), List.map_cons]
    simp [Extras.add]

theorem loadExtrasFile_dumps_two :
    (loadExtrasFile 0 ⟨[], 0, 0⟩ (Writer.tokencap.line [0, 34, 92, 255] ++
      Writer.dict2file.line [65, 66, 0])).data = [[0, 34, 92, 255], [65, 66]] :=
  loadExtrasFile_dumps 0 ⟨[], 0, 0⟩ [(.tokencap, [0, 34, 92, 255]), (.dict2file, [65, 66, 0])]
    (by decide)

end AflPlusPlus.Dict
