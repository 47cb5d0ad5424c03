import AflPlusPlus.Coverage.Classify
import AflPlusPlus.Lib.Blocks
import AflPlusPlus.Lib.Ctype
import AflPlusPlus.Queue.Score

/-!
# Minimizing a test case

`afl-tmin` makes a test case smaller, and its bytes the character `0`, as long as the target gives
the same verdict: blocks are normalized once, and then passes of block deletion, symbol replacement
and character replacement follow, until a pass changes nothing.
-/

namespace AflPlusPlus.Tmin
open Lib Coverage

def tminSetMinSize : ℕ := 4

def tminSetSteps : ℕ := 128

def trimStartSteps : ℕ := 16

/-- The modes of the program. -/
structure Modes where
  hangMode : Bool := false
  exactMode : Bool := false
  edgesOnly : Bool := false
  crashMode : Bool := false
  mapSize : ℕ
  maskBitmap : Option Bytes := none
  origCksum : U64 := 0
  hash64 : Bytes → U64

/-- What an execution of the target leaves behind. -/
structure Execution where
  ret : Fault
  traceBits : Bytes
  stopSoon : Bool := false

def Modes.classifyCounts (m : Modes) (traceBits : Bytes) : Bytes :=
  forLoop m.mapSize (fun i mem =>
    if m.edgesOnly then (if mem i ≠ 0 then setByte mem i 1 else mem)
    else setByte mem i (countClassLookup8 (mem i))) traceBits

def Modes.applyMask (m : Modes) (mem : Bytes) : Bytes :=
  match m.maskBitmap with
  | none => mem
  | some mask =>
    forLoop (m.mapSize >>> 2)
      (fun i mem => setWord 32 mem i (word 32 mem i &&& ~~~ word 32 mask i)) mem

/-- The comparison of the checksums, at the end of `tmin_run_target`. -/
def Modes.compareCksum (m : Modes) (e : Execution) (firstRun : Bool) : Option (Bool × Modes) :=
  if e.ret = .noinst then none
  else
    let cksum := m.hash64 (m.applyMask (m.classifyCounts e.traceBits))
    let m := if firstRun then { m with origCksum := cksum } else m
    some (m.origCksum = cksum, m)

/-- `tmin_run_target`, from the return of the target on. `none` is the end of the program. -/
def tminRunTarget (m : Modes) (e : Execution) (firstRun : Bool) : Option (Bool × Modes) :=
  if e.ret = .error ∨ e.stopSoon then none
  else if m.hangMode then some (e.ret = .tmout, m)
  else if e.ret = .tmout then some (false, m)
  else if e.ret = .crash then
    let m := if firstRun then { m with crashMode := true } else m
    if m.crashMode then
      if !m.exactMode then some (true, m) else m.compareCksum e firstRun
    else some (false, m)
  else if m.crashMode then some (false, m)
  else m.compareCksum e firstRun

/-- Only the first run changes the modes. -/
theorem tminRunTarget_modes {m m' : Modes} {e : Execution} {res : Bool}
    (h : tminRunTarget m e false = some (res, m')) : m' = m := by
  have hcompare : ∀ {r : Bool}, m.compareCksum e false = some (r, m') → m' = m := by
    intro r h
    unfold Modes.compareCksum at h
    split at h
    · cases h
    · exact (congrArg Prod.snd (Option.some.inj h)).symm
  have hsome : ∀ {r : Bool}, some (r, m) = some (res, m') → m' = m := fun h =>
    (congrArg Prod.snd (Option.some.inj h)).symm
  unfold tminRunTarget at h
  dsimp only at h
  split at h
  · cases h
  split at h
  · exact hsome h
  split at h
  · exact hsome h
  split at h
  · rw [if_neg Bool.false_ne_true] at h
    split at h
    · split at h
      · exact hsome h
      · exact hcompare h
    · exact hsome h
  · split at h
    · exact hsome h
    · exact hcompare h

/-- A target whose verdict is the same whenever it gets the same test case. -/
structure Target where
  /-- The modes after the first run. -/
  modes : Modes
  /-- The `n`-th execution. -/
  run : ℕ → List Byte → Execution
  verdict : List Byte → Bool
  verdict_eq : ∀ n mem, (tminRunTarget modes (run n mem) false).map Prod.fst = some (verdict mem)

/-- What an execution answers, and that it leaves the modes as they are. -/
theorem Target.run_eq (t : Target) (n : ℕ) (mem : List Byte) :
    tminRunTarget t.modes (t.run n mem) false = some (t.verdict mem, t.modes) := by
  obtain ⟨⟨res, m'⟩, h, hres⟩ := Option.map_eq_some_iff.mp (t.verdict_eq n mem)
  rw [h, tminRunTarget_modes h]
  exact congrArg (fun v => some (v, t.modes)) hres

/-! ### The stages -/

/-- Stage 0 at `set_pos`. -/
def blockStep (t : Target) (setLen : ℕ) : List Byte × ℕ → Option (List Byte × ℕ)
  | (inData, setPos) =>
    let useLen := min setLen (inData.length - setPos)
    let normalized := inData.take setPos ++ List.replicate useLen (chr '0') ++
      inData.drop (setPos + useLen)
    if ((inData.drop setPos).take useLen).all (· = chr '0') then some (inData, setPos + setLen)
    else if t.verdict normalized then some (normalized, setPos + setLen)
    else some (inData, setPos + setLen)

/-- `next_pow2` of a number that is no larger than an input. -/
def pow2From (n : ℕ) : ℕ := (Alloc.nextPow2 (BitVec.ofNat 64 n)).toNat

def blockNormalization (t : Target) (inData : List Byte) : Option (List Byte) :=
  let setLen := pow2From (inData.length / tminSetSteps)
  let setLen := if setLen < tminSetMinSize then tminSetMinSize else setLen
  (whileLoop (fun (inData, setPos) => setPos < inData.length) (blockStep t setLen)
    (inData.length + 1) (inData, 0)).map Prod.fst

/-- The variables of the loop over the blocks. -/
structure Deletion where
  inData : List Byte
  delPos : ℕ := 0
  prevDel : Bool := true
  changedAny : Bool

def deleteStep (t : Target) (delLen : ℕ) (s : Deletion) : Option Deletion :=
  let tailLen := s.inData.length - s.delPos - delLen
  if !s.prevDel ∧ tailLen ≠ 0 ∧
      (s.inData.drop (s.delPos - delLen)).take delLen = (s.inData.drop s.delPos).take delLen then
    some { s with delPos := s.delPos + delLen }
  else
    let tmpBuf := s.inData.take s.delPos ++ (s.inData.drop (s.delPos + delLen)).take tailLen
    if t.verdict tmpBuf then some { s with inData := tmpBuf, prevDel := true, changedAny := true }
    else some { s with prevDel := false, delPos := s.delPos + delLen }

/-- The loop for one length of blocks. -/
def deleteBlocks (t : Target) (delLen : ℕ) (inData : List Byte) (changedAny : Bool) :
    Option Deletion :=
  whileLoop (fun s => s.delPos < s.inData.length) (deleteStep t delLen) (inData.length + 1)
    { inData, changedAny }

/-- From `next_del_blksize` on, for at most as many lengths as the first number says. -/
def nextDelBlksize (t : Target) (delLenLimit : ℕ) : ℕ → ℕ → List Byte → Bool →
    Option (List Byte × Bool)
  | 0, _, _, _ => none
  | fuel + 1, delLen, inData, changedAny =>
    let delLen := if delLen = 0 then 1 else delLen
    (deleteBlocks t delLen inData changedAny).bind fun s =>
      if delLen > delLenLimit ∧ s.inData.length ≥ 1 then
        nextDelBlksize t delLenLimit fuel (delLen / 2) s.inData s.changedAny
      else some (s.inData, s.changedAny)

/-- Stage 1 of a pass, which begins with `changed_any = 0`. -/
def blockDeletion (t : Target) (delLenLimit : ℕ) (inData : List Byte) : Option (List Byte × Bool) :=
  let delLen := pow2From (inData.length / trimStartSteps)
  nextDelBlksize t delLenLimit (delLen + 1) delLen inData false

/-- Stage 2 for the symbol `c`, of which there were `alpha` when the stage began. -/
def symbolStep (t : Target) (alpha : ℕ) (c : Byte) : List Byte × Bool → List Byte × Bool
  | (inData, changedAny) =>
    if c = chr '0' ∨ alpha = 0 then (inData, changedAny)
    else
      let tmpBuf := inData.map fun d => if d = c then chr '0' else d
      if t.verdict tmpBuf then (tmpBuf, true) else (inData, changedAny)

def alphabetMinimization (t : Target) (s : List Byte × Bool) : List Byte × Bool :=
  forLoop 256 (fun i => symbolStep t (s.1.count (BitVec.ofNat 8 i)) (BitVec.ofNat 8 i)) s

/-- The two buffers of stage 3. -/
structure Characters where
  inData : List Byte
  tmpBuf : List Byte
  changedAny : Bool

def characterStep (t : Target) (i : ℕ) (s : Characters) : Characters :=
  let orig := s.tmpBuf.getD i 0
  if orig = chr '0' then s
  else
    let tmpBuf := s.tmpBuf.set i (chr '0')
    if t.verdict tmpBuf then { inData := s.inData.set i (chr '0'), tmpBuf, changedAny := true }
    else { s with tmpBuf := tmpBuf.set i orig }

def characterMinimization (t : Target) (s : List Byte × Bool) : List Byte × Bool :=
  let r := forLoop s.1.length (characterStep t) ⟨s.1, s.1, s.2⟩
  (r.inData, r.changedAny)

/-! ### The passes -/

/-- From `next_pass` on, for at most as many passes as the first number says. -/
def nextPass (t : Target) (delLenLimit : ℕ) : ℕ → ℕ → List Byte → Option (List Byte)
  | 0, _, _ => none
  | fuel + 1, curPass, inData =>
    let curPass := curPass + 1
    (blockDeletion t delLenLimit inData).bind fun s =>
      if curPass > 1 ∧ !s.2 then some s.1
      else
        let s := characterMinimization t (alphabetMinimization t s)
        if s.2 then nextPass t delLenLimit fuel curPass s.1 else some s.1

/-- `minimize` without custom mutators. -/
def minimize (t : Target) (delLenLimit : ℕ) (inData : List Byte) : Option (List Byte) :=
  if inData.length ≤ 1 then some inData
  else
    (blockNormalization t inData).bind fun inData =>
      nextPass t delLenLimit (2 * inData.length + 1) 0 inData

end AflPlusPlus.Tmin
