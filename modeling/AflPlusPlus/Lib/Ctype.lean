import AflPlusPlus.Lib.Memory
import Mathlib.Algebra.Group.Int.Defs
import Mathlib.Data.List.Basic

/-!
# Characters and numbers in texts

The classes of `ctype.h` in the C locale, lines read with `fgets`, hexadecimal digits, and the
integers that `strtol` and its relatives find at the start of a text. A text is a list of bytes
without its terminating NUL.
-/

namespace Lib

/-- The byte of an ASCII character. -/
def chr (c : Char) : Byte := BitVec.ofNat 8 c.toNat

def isspace (c : Byte) : Bool := c = 32 || (9 ≤ c && c ≤ 13)

def isdigit (c : Byte) : Bool := chr '0' ≤ c && c ≤ chr '9'

def isupper (c : Byte) : Bool := chr 'A' ≤ c && c ≤ chr 'Z'

def islower (c : Byte) : Bool := chr 'a' ≤ c && c ≤ chr 'z'

def isalnum (c : Byte) : Bool := isdigit c || isupper c || islower c

def isxdigit (c : Byte) : Bool :=
  isdigit c || (chr 'A' ≤ c && c ≤ chr 'F') || (chr 'a' ≤ c && c ≤ chr 'f')

def isprint (c : Byte) : Bool := 32 ≤ c && c < 127

/-- The value of a digit in a base up to 36; 36 for other characters. -/
def digitValue (c : Byte) : ℕ :=
  if isdigit c then c.toNat - 48
  else if islower c then c.toNat - 87
  else if isupper c then c.toNat - 55
  else 36

/-- The digit that `%x` prints. -/
def hexDigit (n : ℕ) : Byte := BitVec.ofNat 8 (if n < 10 then 48 + n else 87 + n)

/-- A C string in a buffer ends at the first NUL. -/
def cString (buf : List Byte) : List Byte := buf.takeWhile (· ≠ 0)

/-! ### Lines -/

/-- The rest of a file as `fgets` with a buffer of `max + 1` bytes delivers it: `room` bytes are
left for the line that starts with `cur`. -/
def readLines (max : ℕ) : ℕ → List Byte → List Byte → List (List Byte)
  | _, [], [] => []
  | _, c :: cur, [] => [c :: cur]
  | room, cur, c :: file =>
    if c = chr '\n' ∨ room ≤ 1 then (cur ++ [c]) :: readLines max max [] file
    else readLines max (room - 1) (cur ++ [c]) file

/-- A line that fits into the buffer is delivered as one. -/
theorem readLines_line (max : ℕ) {line : List Byte} (hline : chr '\n' ∉ line) (cur file : List Byte)
    {room : ℕ} (hroom : line.length < room) :
    readLines max room cur (line ++ chr '\n' :: file) =
      (cur ++ line ++ [chr '\n']) :: readLines max max [] file := by
  induction line generalizing cur room with
  | nil => cases cur <;> simp [readLines]
  | cons c line ih =>
    rw [List.mem_cons, not_or] at hline
    have hlen : line.length < room - 1 := by
      rw [List.length_cons] at hroom
      omega
    have hstep : readLines max room cur (c :: (line ++ chr '\n' :: file)) =
        readLines max (room - 1) (cur ++ [c]) (line ++ chr '\n' :: file) := by
      have hne : ¬ (c = chr '\n' ∨ room ≤ 1) := by
        rw [not_or]
        exact ⟨fun h => hline.1 h.symm, by omega⟩
      cases cur <;> rw [readLines, if_neg hne]
    rw [List.cons_append, hstep, ih hline.2 (cur ++ [c]) hlen, List.append_assoc cur [c] line]
    rfl

/-! ### Integers -/

/-- What the scanning of an integer finds: sign, absolute value, and the number of characters it
takes; none of them when there are no digits. -/
structure ScannedInt where
  negative : Bool
  magnitude : ℕ
  length : ℕ

def scanSign : List Byte → Bool × List Byte
  | [] => (false, [])
  | c :: text =>
    if c = chr '-' then (true, text) else if c = chr '+' then (false, text) else (false, c :: text)

/-- The base that `base 0` stands for, and the digits behind its mark. -/
def scanBase (text : List Byte) : ℕ × List Byte :=
  match text with
  | z :: x :: d :: rest =>
    if z = chr '0' ∧ (x = chr 'x' ∨ x = chr 'X') ∧ isxdigit d then (16, d :: rest)
    else if z = chr '0' then (8, z :: x :: d :: rest) else (10, z :: x :: d :: rest)
  | z :: rest => if z = chr '0' then (8, z :: rest) else (10, z :: rest)
  | [] => (10, [])

/-- `strtol` and its relatives on a text, in a given base or in the one the text names. -/
def scanInt (base : Option ℕ) (text : List Byte) : ScannedInt :=
  let (negative, unsigned) := scanSign (text.dropWhile isspace)
  let (base, digits) := match base with
    | some b => (b, unsigned)
    | none => scanBase unsigned
  let number := digits.takeWhile (digitValue · < base)
  if number = [] then ⟨false, 0, 0⟩
  else ⟨negative, number.foldl (fun v c => v * base + digitValue c) 0,
    text.length - (digits.length - number.length)⟩

/-- The value clamped to the signed numbers of `w` bits, and whether that changed it. -/
def ScannedInt.signed (w : ℕ) (n : ScannedInt) : ℤ × Bool :=
  let v : ℤ := if n.negative then -n.magnitude else n.magnitude
  if v < -2 ^ (w - 1) then (-2 ^ (w - 1), true)
  else if v ≥ 2 ^ (w - 1) then (2 ^ (w - 1) - 1, true)
  else (v, false)

/-- The value clamped to the unsigned numbers of `w` bits, and whether that changed it. -/
def ScannedInt.unsigned (w : ℕ) (n : ScannedInt) : ℕ × Bool :=
  if n.magnitude ≥ 2 ^ w then (2 ^ w - 1, true)
  else (if n.negative then (2 ^ w - n.magnitude) % 2 ^ w else n.magnitude, false)

/-- `atoi`: the low 32 bits of what `strtol` returns. -/
def atoi (text : List Byte) : ℤ := (BitVec.ofInt 32 ((scanInt (some 10) text).signed 64).1).toInt

end Lib
