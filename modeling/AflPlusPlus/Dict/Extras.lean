import AflPlusPlus.Lib.Ctype
import Mathlib.Data.List.DropRight

/-!
# Reading a dictionary file

`load_extras_file`. The pointer `lptr` is the rest of the line it points at; the line ends where
`rptr` has put a NUL. Lines that are not taken only leave a warning.
-/

namespace AflPlusPlus.Dict
open Lib

def maxLine : ℕ := 8192

def maxDictFile : ℕ := 128

/-- What the loader has collected: the extras with the shortest and the longest length. -/
structure Extras where
  data : List (List Byte)
  minLen : ℕ
  maxLen : ℕ

/-- The line without blanks at its ends. -/
def trim (line : List Byte) : List Byte := (line.dropWhile isspace).rdropWhile isspace

def skipLabel (line : List Byte) : List Byte :=
  line.dropWhile fun c => isalnum c || c = chr '_'

/-- `@number`; nothing when the number is above the level. -/
def skipLevel (dictLevel : ℤ) : List Byte → Option (List Byte)
  | [] => some []
  | c :: line =>
    if c = chr '@' then
      if atoi line > dictLevel then none else some (line.dropWhile isdigit)
    else some (c :: line)

/-- `[number]`. -/
def skipNumber : List Byte → List Byte
  | [] => []
  | c :: line =>
    if c = chr '[' then
      match line.dropWhile isdigit with
      | [] => []
      | d :: rest => if d = chr ']' then rest else d :: rest
    else c :: line

def skipEquals (line : List Byte) : List Byte := line.dropWhile fun c => isspace c || c = chr '='

/-- The value of `\xNN`. -/
def hexByte (h l : Byte) : Byte := BitVec.ofNat 8 (16 * digitValue h + digitValue l)

/-- The bytes of the keyword up to the end of the line. -/
def unescape : List Byte → List Byte
  | [] => []
  | c :: line =>
    if (1 ≤ c ∧ c ≤ 31) ∨ 128 ≤ c then unescape line
    else if c = chr '\\' then
      match line with
      | [] => []
      | d :: rest =>
        if d = chr '\\' ∨ d = chr '"' then d :: unescape rest
        else match rest with
          | h :: l :: rest' =>
            if d = chr 'x' ∧ isxdigit h ∧ isxdigit l then hexByte h l :: unescape rest'
            -- invalid escaping: the scan goes on behind the backslash
            else unescape (d :: h :: l :: rest')
          | rest => unescape (d :: rest)
    else c :: unescape line
termination_by line => line.length

/-- The keyword of a line, if it has one. -/
def parseLine (dictLevel : ℤ) (buf : List Byte) : Option (List Byte) :=
  let line := trim (cString buf)
  match line with
  | [] => none
  | c :: _ =>
    if c = chr '#' then none
    else if line.getLast? ≠ some (chr '"') then none
    else match skipLevel dictLevel (skipLabel line.dropLast) with
      | none => none
      | some line => match skipEquals (skipNumber line) with
        | [] => none
        | q :: keyword => if q ≠ chr '"' ∨ keyword = [] then none else some (unescape keyword)

def Extras.add (e : Extras) (data : List Byte) : Extras where
  data := e.data ++ [data]
  minLen := if e.minLen > data.length then data.length else e.minLen
  maxLen := if e.maxLen < data.length then data.length else e.maxLen

def loadLine (dictLevel : ℤ) (e : Extras) (buf : List Byte) : Extras :=
  match parseLine dictLevel buf with
  | none => e
  | some data => if data.length > maxDictFile then e else e.add data

/-- `load_extras_file` on the contents of the file. -/
def loadExtrasFile (dictLevel : ℤ) (e : Extras) (file : List Byte) : Extras :=
  (readLines (maxLine - 1) (maxLine - 1) [] file).foldl (loadLine dictLevel) e

/-! ### Quoted lines -/

theorem unescape_nil : unescape [] = [] := by rw [unescape]

theorem unescape_cons {c : Byte} (hctrl : ¬ ((1 ≤ c ∧ c ≤ 31) ∨ 128 ≤ c)) (hslash : c ≠ chr '\\')
    (line : List Byte) : unescape (c :: line) = c :: unescape line := by
  rw [unescape.eq_def]
  simp only [if_neg hctrl, if_neg hslash]

theorem unescape_hex {h l : Byte} (hh : isxdigit h = true) (hl : isxdigit l = true)
    (line : List Byte) :
    unescape (chr '\\' :: chr 'x' :: h :: l :: line) = hexByte h l :: unescape line := by
  have hctrl : ¬ ((1 ≤ chr '\\' ∧ chr '\\' ≤ 31) ∨ 128 ≤ chr '\\') := by decide
  have hquote : ¬ (chr 'x' = chr '\\' ∨ chr 'x' = chr '"') := by decide
  rw [unescape.eq_def]
  simp only [if_neg hctrl, if_neg hquote, hh, hl, and_self, if_true]

/-- The line of a keyword in quotes: no character of it is a NUL or a line feed, and the quotes are
no blanks. -/
theorem parseLine_quoted (dictLevel : ℤ) {body : List Byte} (hbody : body ≠ [])
    (hnul : 0 ∉ body) :
    parseLine dictLevel (chr '"' :: body ++ [chr '"', chr '\n']) = some (unescape body) := by
  have hcstring : cString (chr '"' :: body ++ [chr '"', chr '\n']) =
      chr '"' :: body ++ [chr '"', chr '\n'] := by
    rw [cString, List.takeWhile_eq_self_iff]
    intro c hc
    simp only [List.cons_append, List.mem_cons, List.mem_append, List.not_mem_nil, or_false] at hc
    rcases hc with rfl | hc | rfl | rfl
    · decide
    · have hne : c ≠ 0 := fun h => hnul (h ▸ hc)
      simpa using hne
    · decide
    · decide
  have htrim : trim (chr '"' :: body ++ [chr '"', chr '\n']) = chr '"' :: body ++ [chr '"'] := by
    have hright : chr '"' :: body ++ [chr '"', chr '\n'] =
        (chr '"' :: body ++ [chr '"']) ++ [chr '\n'] := by simp
    rw [trim, List.cons_append, List.dropWhile_cons_of_neg (by decide), ← List.cons_append, hright,
      List.rdropWhile_concat_pos _ _ _ (by decide), List.rdropWhile_concat_neg _ _ _ (by decide)]
  have hlabel : skipLabel (chr '"' :: body) = chr '"' :: body :=
    List.dropWhile_cons_of_neg (by decide)
  have hlevel : skipLevel dictLevel (chr '"' :: body) = some (chr '"' :: body) := by
    rw [skipLevel, if_neg (by decide)]
  have hnumber : skipNumber (chr '"' :: body) = chr '"' :: body := by
    rw [skipNumber, if_neg (by decide)]
  have hequals : skipEquals (chr '"' :: body) = chr '"' :: body :=
    List.dropWhile_cons_of_neg (by decide)
  have hlast : (chr '"' :: body ++ [chr '"']).getLast? = some (chr '"') :=
    List.getLast?_concat
  have hdrop : (chr '"' :: body ++ [chr '"']).dropLast = chr '"' :: body := by
    rw [List.dropLast_append_of_ne_nil (by simp)]
    simp
  rw [parseLine, hcstring, htrim, hlast, hdrop, hlabel, hlevel]
  simp only [List.cons_append, if_neg (show ¬ chr '"' = chr '#' by decide), ne_eq,
    not_true_eq_false, if_false, hnumber, hequals, false_or, hbody]

end AflPlusPlus.Dict
