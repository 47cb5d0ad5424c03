import AflPlusPlus.Cmplog.Base64
import AflPlusPlus.Cmplog.Recursion

/-!
# Solving the arguments of a routine

`rtn_extend_encoding` puts one operand of a logged call in the place of the other, byte by byte, and
then tries what the target may have done to its input before the call. An operand is read in its
slot of the log, also behind its end; the shape of a call is at most 32 bytes, for which the local
arrays are long enough. As for the other two functions, the position lies in the buffer, and an
executed test leaves the buffer as it is, which is so as long as no `post_process` of a custom
mutator changes the data.
-/

namespace AflPlusPlus.Cmplog
open Lib Lib.Stopping Mutation

/-- What the function reads besides: the setting for extreme transformations, and what the arrays
`save` and `tmp` hold before anything is stored in them. -/
structure RtnTarget extends Target where
  enableXtreme : Bool
  save : Bytes
  tmp : Bytes

/-- The slots of the call in the two logs are memories that start with the slot. -/
structure RtnArgs where
  entry : ℕ
  o : Bytes
  origO : Bytes
  idx : ℕ
  taintLen : ℕ
  lvl : BitVec 8

/-! ### The operands -/

def v0 (slot : Bytes) : Bytes := slot

def v1 (slot : Bytes) : Bytes := fun i => slot (32 + i)

def v0Len (slot : Bytes) : Byte := slot 64

def v1Len (slot : Bytes) : Byte := slot 65

namespace RtnArgs

def pattern (a : RtnArgs) : Bytes := if a.entry = 0 then v0 a.o else v1 a.o

def repl (a : RtnArgs) : Bytes := if a.entry = 0 then v1 a.o else v0 a.o

def oPattern (a : RtnArgs) : Bytes := if a.entry = 0 then v0 a.origO else v1 a.origO

def changedVal (a : RtnArgs) : Bytes := if a.entry = 0 then v1 a.origO else v0 a.origO

/-- The larger one of the pattern's lengths in the two slots. A mark for strings is taken away, and
if a length is of no use, both are the size of the operands. -/
def lmax (a : RtnArgs) (hshape : ℕ) : ℕ :=
  let (l0, l1) := if a.entry = 0 then (v0Len a.o, v1Len a.o) else (v1Len a.o, v0Len a.o)
  let (ol0, ol1) :=
    if a.entry = 0 then (v0Len a.origO, v1Len a.origO) else (v1Len a.origO, v0Len a.origO)
  let unmark := fun l : Byte => if (l0 ≥ 0x80 ∨ ol0 ≥ 0x80) ∧ l ≥ 0x80 then l - 0x80 else l
  let useless := fun l : Byte => l = 0 ∨ l > 32
  if useless (unmark l0) ∨ useless (unmark l1) ∨ useless (unmark ol0) ∨ useless (unmark ol1) then
    hshape % 256
  else max (unmark l0).toNat (unmark ol0).toNat

def itsLen (t : Target) (a : RtnArgs) (hshape : ℕ) : ℕ :=
  min (min (min (a.lmax hshape) hshape) (t.len - a.idx)) a.taintLen

end RtnArgs

/-! ### The operand as it is -/

/-- The loop that replaces one byte after the other, with the position `idx`. -/
def directLoop (t : Target) (a : RtnArgs) (idx : ℕ) : ℕ → ℕ → Solve ℕ
  | 0, i => pure i
  | n + 1, i => do
    let s ← get
    if (a.pattern i ≠ s.buf (idx + i) ∨ a.oPattern i ≠ t.origBuf (idx + i)) ∨ s.status = 1 then
      pure i
    else
      writeBuf t (idx + i) 1 fun _ => a.repl i
      itsFuzz t (contents (← get).buf t.len)
      onlyIf ((← get).status = 1) do
        modify fun s => { s with cbuf := copyBlock s.cbuf idx s.buf idx i }
      directLoop t a idx n (i + 1)

/-- One turn, `pre` bytes before the position. -/
def directTurn (t : Target) (a : RtnArgs) (save : Bytes) (maxTo itsLen pre : ℕ) : Solve Unit := do
  let s ← get
  let idx := a.idx - pre
  onlyIf (s.status ≠ 1 ∧ (pre = 0 ∨ ∀ k, k < pre → s.buf (idx + k) = a.repl k)) do
    let i ← directLoop t a idx (itsLen + pre) 0
    writeBuf t idx i fun k => save (maxTo - pre + k)

def directTurns (t : Target) (a : RtnArgs) (save : Bytes) (maxTo itsLen : ℕ) :
    ℕ → ℕ → Solve Unit
  | 0, _ => pure ()
  | n + 1, pre => do
    directTurn t a save maxTo itsLen pre
    directTurns t a save maxTo itsLen n (pre + 1)

/-! ### Texts -/

def isHex (str : Bytes) (i : ℕ) : Bool := isxdigit (str i) && isxdigit (str (i + 1))

def isBase64Char (c : Byte) : Bool :=
  isalnum c || c = chr '+' || c = chr '/' || c = chr '='

def isBase64 (str : Bytes) (i : ℕ) : Bool :=
  isBase64Char (str i) && isBase64Char (str (i + 1)) && isBase64Char (str (i + 2)) &&
    isBase64Char (str (i + 3))

def hexTableUp : List Byte := "0123456789ABCDEF".toList.map chr

def hexTableLow : List Byte := "0123456789abcdef".toList.map chr

/-- `hex_table`, of which only entries of hexadecimal digits are looked up. -/
def hexTable : List Byte :=
  [0, 1, 2, 3, 4, 5, 6, 7, 8, 9, 0, 0, 0, 0,
    0, 0, 0, 10, 11, 12, 13, 14, 15, 0, 0, 0, 0, 0,
    0, 0, 0, 0, 0, 0, 0, 0, 0, 0, 0, 0, 0, 0,
    0, 0, 0, 0, 0, 0, 0, 10, 11, 12, 13, 14, 15]

def unhexDigit (c : Byte) : Byte := hexTable.getD (c.toNat - 48) 0

/-- The first `i + 1` bytes that a text of hexadecimal digits stands for. -/
def unhex (src : Bytes) (off i : ℕ) (tmp : Bytes) : Bytes := fun j =>
  if j ≤ i then
    (unhexDigit (src (off + 2 * j)) <<< 4) + unhexDigit (src (off + 2 * j + 1))
  else tmp j

/-- The hexadecimal digits of the first `hlen / 2 + 1` bytes. -/
def hexText (table : List Byte) (src : Bytes) (off hlen : ℕ) (tmp : Bytes) : Bytes := fun k =>
  if off ≤ k ∧ k < off + 2 * (hlen / 2 + 1) then
    let c := (src ((k - off) / 2)).toNat
    if (k - off) % 2 = 0 then table.getD (c / 16) 0 else table.getD (c % 16) 0
  else tmp k

/-- The case of the digits, 1 for upper and 2 for lower case, is taken from the first pair that
shows it. -/
def hexCase (up : ℕ) (c d : Byte) : ℕ :=
  let shows := fun (x : Byte) (otherwise : ℕ) =>
    if chr 'A' ≤ x ∧ x ≤ chr 'F' then 1 else if chr 'a' ≤ x ∧ x ≤ chr 'f' then 2 else otherwise
  if up = 0 then shows d (shows c 0) else up

/-! ### What the bytes tell about a transformation -/

namespace RtnArgs

section
variable (t : RtnTarget) (a : RtnArgs) (buf : Bytes) (i : ℕ)

def xorsAt : Bool :=
  a.oPattern i ^^^ t.origBuf (a.idx + i) = a.pattern i ^^^ buf (a.idx + i) &&
    a.pattern i ^^^ buf (a.idx + i) ≠ 0

/-- The difference on the left is that of two `int`s. -/
def addsAt : Bool :=
  ((a.oPattern i).toNat : ℤ) - (t.origBuf (a.idx + i)).toNat =
      ((a.pattern i - buf (a.idx + i)).toNat : ℤ) &&
    a.pattern i - buf (a.idx + i) ≠ 0

def lowersAt : Bool :=
  buf (a.idx + i) ||| 0x20 = a.pattern i && t.origBuf (a.idx + i) ||| 0x20 = a.oPattern i

def uppersAt : Bool :=
  buf (a.idx + i) &&& 0x5a = a.pattern i && t.origBuf (a.idx + i) &&& 0x5a = a.oPattern i

def toHexAt : Bool := t.enableXtreme && i < 16 && isHex a.repl (2 * i)

def fromHexAt : Bool :=
  t.enableXtreme && i % 2 = 1 && t.len > a.idx + i + 1 && isHex t.origBuf (a.idx + i - 1)

def toB64At : Bool := t.enableXtreme && i % 3 = 2 && i < 24 && isBase64 a.repl (i / 3 * 4)

def fromB64At : Bool :=
  t.enableXtreme && i % 4 = 3 && i < 24 && isBase64 t.origBuf (a.idx + i - 3)

end

end RtnArgs

/-- The local variables of the loop over the transformations. -/
structure RtnLocals where
  toupper : ℕ
  tolower : ℕ
  xor : ℕ
  arith : ℕ
  tohex : ℕ
  fromhex : ℕ
  tob64 : ℕ
  fromb64 : ℕ
  from0 : ℕ
  fromx : ℕ
  fromX : ℕ
  fromSlash : ℕ
  to0 : ℕ
  tox : ℕ
  toSlash : ℕ
  toUp : ℕ
  xorVal : Bytes
  arithVal : Bytes
  tmp : Bytes

namespace RtnLocals

def start (tmp : Bytes) : RtnLocals :=
  ⟨0, 0, 0, 0, 0, 0, 0, 0, 0, 0, 0, 0, 0, 0, 0, 0, fun _ => 0, fun _ => 0, tmp⟩

/-- The first part of the loop: look at byte `i`. -/
def scan (t : RtnTarget) (a : RtnArgs) (buf : Bytes) (i : ℕ) (v : RtnLocals) : RtnLocals :=
  let c := t.origBuf (a.idx + i)
  { v with
    xorVal := setByte v.xorVal i (a.pattern i ^^^ buf (a.idx + i))
    arithVal := setByte v.arithVal i (a.pattern i - buf (a.idx + i))
    from0 := if i = 0 ∧ c = chr '0' then 1 else v.from0
    fromSlash := if i = 0 ∧ c = chr '\\' then 1 else v.fromSlash
    to0 := if i = 0 ∧ a.repl 0 = chr '0' then 1 else v.to0
    toSlash := if i = 0 ∧ a.repl 0 = chr '\\' then 1 else v.toSlash
    fromx := if i = 1 ∧ (c = chr 'x' ∨ c = chr 'X') then 1 else v.fromx
    fromX := if i = 1 ∧ c = chr 'X' then 1 else v.fromX
    tox := if i = 1 ∧ (a.repl 1 = chr 'x' ∨ a.repl 1 = chr 'X') then 1 else v.tox
    tohex := v.tohex + if a.toHexAt t i then 1 else 0
    toUp := if a.toHexAt t i then hexCase v.toUp (a.repl (2 * i)) (a.repl (2 * i + 1)) else v.toUp
    fromhex := v.fromhex + if a.fromHexAt t i then 2 else 0
    tob64 := v.tob64 + if a.toB64At t i then 3 else 0
    fromb64 := v.fromb64 + if a.fromB64At t i then 4 else 0
    xor := v.xor + if a.xorsAt t buf i then 1 else 0
    arith := v.arith + if a.addsAt t buf i then 1 else 0
    tolower := v.tolower + if a.lowersAt t buf i then 1 else 0
    toupper := v.toupper + if a.uppersAt t buf i then 1 else 0 }

/-- The length of a prefix `\x` or `0x` of the input that is to be written in front. -/
def prefixLen (v : RtnLocals) : ℕ :=
  if (v.fromSlash ≠ 0 ∨ v.from0 ≠ 0) ∧ v.fromx ≠ 0 then 2 else 0

def putPrefix (v : RtnLocals) : Bytes :=
  if v.prefixLen = 0 then v.tmp
  else
    let first := if v.fromSlash ≠ 0 then chr '\\' else chr '0'
    setByte (setByte v.tmp 0 first) 1 (if v.fromX ≠ 0 then chr 'X' else chr 'x')

/-- Nothing has matched for a while. -/
def idle (t : RtnTarget) (i : ℕ) (v : RtnLocals) : Bool :=
  i ≥ 7 && (i ≥ v.xor && i ≥ v.arith && i ≥ v.tolower && i ≥ v.toupper && i > v.tohex &&
    i > v.fromhex + v.from0 + v.fromx + v.fromSlash + 1 &&
    (t.enableXtreme && i > v.tob64 + 3 && i > v.fromb64 + 4))

end RtnLocals

/-! ### The tests of the transformations -/

/-- Put `n` bytes at the position and execute. -/
def place (t : Target) (idx n : ℕ) (src : Bytes) : Solve Unit := do
  writeBuf t idx n src
  itsFuzz t (contents (← get).buf t.len)

section
variable (t : RtnTarget) (a : RtnArgs) (save : Bytes) (itsLen i : ℕ)

/-- The loop over the lengths `hlen` of what is encoded. -/
def fromB64Loop : ℕ → ℕ → Bytes → Solve Bytes
  | 0, _, tmp => pure tmp
  | n + 1, hlen, tmp =>
    if hlen + a.idx < t.len then do
      let (tmp, res) := toBase64 a.repl tmp hlen
      onlyIf (res + a.idx < t.len) do
        place t.toTarget a.idx res tmp
      fromB64Loop n (hlen + 1) tmp
    else pure tmp

/-- The input is base64 and converted to binary. -/
def tryFromB64 (v : RtnLocals) : Solve RtnLocals :=
  if t.enableXtreme ∧ i % 4 = 3 ∧ i < 24 ∧ v.fromb64 > i then do
    let tmp ← fromB64Loop t a (itsLen + 1 - i) i v.tmp
    pure { v with tmp := tmp }
  else pure v

/-- The input is converted to base64. -/
def tryToB64 (v : RtnLocals) : Solve RtnLocals :=
  if t.enableXtreme ∧ i % 3 = 2 ∧ i < 24 ∧ v.tob64 > i then do
    let (tmp, olen) := fromBase64 a.repl v.tmp (i + 1)
    place t.toTarget a.idx olen tmp
    pure { v with tmp := tmp }
  else pure v

/-- The input is converted to hex. -/
def tryToHex (v : RtnLocals) : Solve RtnLocals :=
  if t.enableXtreme ∧ i < 16 ∧ v.tohex > i then do
    let off := if v.toSlash + v.tox + v.to0 = 2 then 2 else 0
    let tmp := unhex a.repl off i v.tmp
    place t.toTarget a.idx (i + 1) tmp
    pure { v with tmp := tmp }
  else pure v

/-- One turn of the loop over the lengths `hlen`, in which the saved bytes are put back. -/
def fromHexTurn (off toUp hlen : ℕ) (tmp : Bytes) : Solve Bytes :=
  if hlen + a.idx < t.len then do
    let tmp := hexText (if toUp = 1 then hexTableUp else hexTableLow) a.repl off hlen tmp
    let tmpL := hlen + 1 + off
    place t.toTarget a.idx tmpL tmp
    writeBuf t.toTarget a.idx tmpL save
    pure (setByte tmp tmpL 0)
  else pure tmp

/-- The input is hex and converted to binary; the lengths are `i` and `2 * i`. -/
def tryFromHex (v : RtnLocals) : Solve RtnLocals :=
  if t.enableXtreme ∧ i % 2 = 1 ∧ i < 16 ∧ v.fromhex ≠ 0 ∧
      v.fromhex + v.fromSlash + v.fromx + v.from0 > i then do
    let tmp ← fromHexTurn t a save v.prefixLen v.toUp i v.putPrefix
    let tmp ← fromHexTurn t a save v.prefixLen v.toUp (2 * i) tmp
    pure { v with tmp := tmp }
  else pure v

def tryXor (v : RtnLocals) : Solve Unit :=
  onlyIf (v.xor > i) do
    place t.toTarget a.idx (i + 1) fun j => a.repl j ^^^ v.xorVal j

/-- The tests that are made whatever an earlier one has found. -/
def tryAlways (v : RtnLocals) : Solve RtnLocals := do
  let v ← tryFromB64 t a itsLen i v
  let v ← tryToB64 t a i v
  let v ← tryToHex t a i v
  let v ← tryFromHex t a save i v
  tryXor t a i v
  pure v

/-- A test that is made unless an earlier one has been a find. -/
def tryUnlessFound (count : ℕ) (src : Bytes) : Solve Unit := do
  onlyIf (count > i ∧ (← get).status ≠ 1) do
    place t.toTarget a.idx (i + 1) src

def tryArith (v : RtnLocals) : Solve Unit :=
  tryUnlessFound t a i v.arith fun j => a.repl j - v.arithVal j

def tryUpper (v : RtnLocals) : Solve Unit :=
  tryUnlessFound t a i v.toupper fun j => a.repl j ||| 0x20

def tryLower (v : RtnLocals) : Solve Unit :=
  tryUnlessFound t a i v.tolower fun j => a.repl j &&& 0x5f

/-- One turn of the loop over the transformations, up to its `break`. -/
def transformTurn (v : RtnLocals) : Solve RtnLocals := do
  let v ← tryAlways t a save itsLen i (v.scan t a (← get).buf i)
  tryArith t a i v
  tryUpper t a i v
  tryLower t a i v
  onlyIf ((← get).status = 1) do
    modify fun s => { s with cbuf := copyBlock s.cbuf a.idx s.buf a.idx (i + 1) }
  pure v

end

/-- The loop over the transformations; what it returns is `i` behind it. -/
def transformLoop (t : RtnTarget) (a : RtnArgs) (save : Bytes) (itsLen : ℕ) :
    ℕ → ℕ → RtnLocals → Solve ℕ
  | 0, i, _ => pure i
  | n + 1, i, v => do
    let v ← transformTurn t a save itsLen i v
    if v.idle t i ∨ a.repl i ≠ a.changedVal i ∨ (← get).status = 1 then pure i
    else transformLoop t a save itsLen n (i + 1) v

/-- The bytes before the position that went into `save` first are still behind the others. -/
def transforms (t : RtnTarget) (a : RtnArgs) (save : Bytes) (itsLen : ℕ) : Solve Unit := do
  let save := copyBlock save 0 (← get).buf a.idx itsLen
  let i ← transformLoop t a save itsLen itsLen 0 (.start t.tmp)
  writeBuf t.toTarget a.idx i save

/-! ### The function -/

/-- How many bytes before the position are tried as well. -/
def RtnArgs.maxTo (a : RtnArgs) : ℕ := if a.lvl &&& lvl3 ≠ 0 then min 4 a.idx else 0

def RtnArgs.firstPre (a : RtnArgs) : ℕ :=
  if a.lvl &&& lvl3 ≠ 0 ∧ a.lvl &&& lvl1 = 0 ∧ a.maxTo ≠ 0 then 1 else 0

def rtnExtendEncoding (t : RtnTarget) (a : RtnArgs) : Solve Unit := do
  let s ← get
  let itsLen := a.itsLen t.toTarget s.hshape
  if itsLen ≤ 1 then pure ()
  else if a.lvl &&& lvl3 ≠ 0 ∧ ¬ ∀ k, k < itsLen → a.changedVal k = a.repl k then pure ()
  else
    let save := copyBlock t.save 0 s.buf (a.idx - a.maxTo) (itsLen + a.maxTo)
    directTurns t.toTarget a save a.maxTo itsLen (a.maxTo + 1 - a.firstPre) a.firstPre
    onlyIf ((← get).status ≠ 1 ∧ t.enableTransform ∧ a.lvl &&& lvl3 ≠ 0) do
      transforms t a save itsLen

end AflPlusPlus.Cmplog
