import AflPlusPlus.Coverage.Classify
import AflPlusPlus.Queue.Score
import AflPlusPlus.Testcache.Cache
import AflPlusPlus.Trim.Write

/-!
# Trimming

`trim_case` removes blocks of a test case as long as the trace stays the same. It shortens the
buffer and `q->len` with each block, and writes the file at the end. `trim_case_custom` leaves the
choice of the candidates to a custom mutator, and changes `q->len` together with the file.
-/

namespace AflPlusPlus
open Lib Coverage

def trimMinBytes : U32 := 4
def trimStartSteps : U32 := 16
def trimEndSteps : U32 := 1024
def maxFileLen : ℕ := 1024 * 1024

/-- `MIN` and `MAX` of two `u32`. -/
def minU32 (a b : U32) : U32 := if a < b then a else b
def maxU32 (a b : U32) : U32 := if a > b then a else b

/-- The trimming functions of a custom mutator, a library that is loaded at run time. -/
structure CustomTrim where
  initTrim : U32
  /-- `retbuf` after the `k`-th call of `afl_custom_trim`; `none` is `NULL`. -/
  trim : ℕ → Option (List Byte)
  /-- What `write_to_testcase` leaves in `retbuf`; nothing when it does not run the test case. -/
  sent : List Byte → List Byte
  /-- The length that `write_to_testcase` returns is a `u32`. -/
  sent_lt : ∀ retbuf, (sent retbuf).length < 2 ^ 32
  /-- `afl_custom_post_trim`, a signed number. -/
  postTrim : ℕ → Bool → U32

structure CustomMutator where
  /-- `afl_custom_trim` and the functions that come with it. -/
  trim : Option CustomTrim := none
  /-- `afl_custom_post_process`, which has no result when it returns no buffer or no length. -/
  postProcess : Option (List Byte → Option (List Byte)) := none

/-- The outside world during `trim_case`. -/
structure TrimInput where
  hash64 : Bytes → U64
  mapSize : ℕ
  execCksum : U64
  /-- Result and raw trace of the `k`-th execution, the post processing of the test case by custom
  mutators included. -/
  run : ℕ → List Byte → Fault × Bytes
  /-- `stop_soon` as read after the `k`-th execution. -/
  stopSoon : ℕ → Bool := fun _ => false
  noUnlink : Bool := false
  takes : ℕ → ℤ := fun _ => 2 ^ 32
  customMutators : List CustomMutator := []
  aflPostProcessKeepOriginal : Bool := false
  minLength : ℕ := 1
  maxLength : ℕ := maxFileLen

/-- `classify_counts` and `hash64`. -/
def TrimInput.cksum (inp : TrimInput) (trace : Bytes) : U64 :=
  inp.hash64 (classifyCounts64 inp.mapSize trace)

/-- `afl->stop_soon || fault == FSRV_RUN_ERROR` after the `k`-th execution. -/
def TrimInput.aborts (inp : TrimInput) (k : ℕ) (mem : List Byte) : Bool :=
  inp.stopSoon k || (inp.run k mem).1 = .error

/-- The removal has no effect on the trace. -/
def TrimInput.accepts (inp : TrimInput) (k : ℕ) (mem : List Byte) : Bool :=
  inp.cksum (inp.run k mem).2 = inp.execCksum

/-- The test case that `write_with_gap` makes. -/
def writeWithGap (mem : List Byte) (len skipAt skipLen : U32) : Option (List Byte) :=
  let tailLen := len - skipAt - skipLen
  if skipAt.toNat ≤ mem.length ∧ skipAt.toNat + skipLen.toNat + tailLen.toNat ≤ mem.length then
    some (mem.take skipAt.toNat ++ (mem.drop (skipAt.toNat + skipLen.toNat)).take tailLen.toNat)
  else none

/-- `memmove(buf + dst, buf + src, n)`. -/
def moveBytes (buf : List Byte) (dst src n : ℕ) : Option (List Byte) :=
  if src + n ≤ buf.length ∧ dst + n ≤ buf.length then
    some (buf.take dst ++ (buf.drop src).take n ++ buf.drop (dst + n))
  else none

/-- `next_pow2` of a length, as a `u32`. -/
def lenPow2 (len : U32) : U32 := (Alloc.nextPow2 (len.setWidth 64)).setWidth 32

/-- The local variables of `trim_case`, the buffer and `q->len`. -/
structure TrimLoop where
  len : U32
  inBuf : List Byte
  removeLen : U32
  removePos : U32 := 0
  lenP2 : U32
  needsWrite : Bool := false
  execs : ℕ := 0
  fault : Fault := .ok
  aborted : Bool := false

/-- The body of the inner loop: one candidate. -/
def trimCandidate (inp : TrimInput) (c : TrimLoop) : Option TrimLoop :=
  let trimAvail := minU32 c.removeLen (c.len - c.removePos)
  (writeWithGap c.inBuf c.len c.removePos trimAvail).bind fun mem =>
    let k := c.execs
    let c := { c with execs := k + 1, fault := (inp.run k mem).1 }
    if inp.aborts k mem then some { c with aborted := true }
    else if inp.accepts k mem then
      let moveTail := c.len - c.removePos - trimAvail
      (moveBytes c.inBuf c.removePos.toNat (c.removePos.toNat + trimAvail.toNat)
        moveTail.toNat).map fun inBuf =>
          { c with
            len := c.len - trimAvail
            lenP2 := lenPow2 (c.len - trimAvail)
            inBuf
            needsWrite := true }
    else some { c with removePos := c.removePos + c.removeLen }

/-- `while (remove_pos < q->len)`. -/
def trimPositions (inp : TrimInput) (fuel : ℕ) (c : TrimLoop) : Option TrimLoop :=
  whileLoop (fun c => !c.aborted && c.removePos < c.len) (trimCandidate inp) fuel c

/-- The body of the outer loop. -/
def trimRound (inp : TrimInput) (fuel : ℕ) (c : TrimLoop) : Option TrimLoop :=
  (trimPositions inp fuel { c with removePos := c.removeLen }).map fun c =>
    if c.aborted then c else { c with removeLen := c.removeLen >>> 1 }

/-- `while (remove_len >= MAX(len_p2 / TRIM_END_STEPS, TRIM_MIN_BYTES))`. -/
def trimRounds (inp : TrimInput) (fuel : ℕ) (c : TrimLoop) : Option TrimLoop :=
  whileLoop (fun c => !c.aborted && maxU32 (c.lenP2 / trimEndSteps) trimMinBytes ≤ c.removeLen)
    (trimRound inp fuel) fuel c

def trimStart (len : U32) (inBuf : List Byte) : TrimLoop where
  len
  inBuf
  removeLen := maxU32 (lenPow2 len / trimStartSteps) trimMinBytes
  lenP2 := lenPow2 len

/-! ### Custom mutators -/

/-- The local variables of `trim_case_custom`. -/
structure CustomLoop where
  stageCur : U32 := 0
  trimExec : ℕ := 0
  execs : ℕ
  outBuf : Option (List Byte) := none
  fault : Fault := .ok
  aborted : Bool := false

/-- The candidate was not kept. A negative result is a `FATAL`. -/
def customUnsuccessful (m : CustomTrim) (c : CustomLoop) : Option CustomLoop :=
  if (m.postTrim c.trimExec false).slt 0 then none
  else some { c with stageCur := m.postTrim c.trimExec false, trimExec := c.trimExec + 1 }

/-- The body of the loop of `trim_case_custom`. -/
def customStep (inp : TrimInput) (m : CustomTrim) (c : CustomLoop) : Option CustomLoop :=
  (m.trim c.trimExec).bind fun retbuf =>
    let sent := if retbuf = [] then [] else m.sent retbuf
    if sent = [] then customUnsuccessful m c
    else
      let k := c.execs
      let c := { c with execs := k + 1, fault := (inp.run k sent).1 }
      if inp.aborts k sent then some { c with aborted := true }
      else if inp.accepts k sent then
        some
          { c with
            outBuf := some sent
            stageCur := m.postTrim c.trimExec true
            trimExec := c.trimExec + 1 }
      else customUnsuccessful m c

/-- The entry with new contents of the file, and the length of these. -/
def CacheEntry.store (e : CacheEntry) (data : List Byte) : CacheEntry :=
  { e with file := data, len := BitVec.ofNat 32 data.length }

/-- The result of `trim_case` or a part of it. -/
structure TrimResult where
  cache : TestcaseCache
  inBuf : List Byte
  execs : ℕ := 0
  fault : Fault := .ok
  /-- Left by a `goto abort_trimming` in a loop. -/
  aborted : Bool := false

/-- `trim_case_custom`, which changes the length with the file. -/
def trimCaseCustom (inp : TrimInput) (fuel : ℕ) (q : ℕ) (m : CustomTrim) (r : TrimResult) :
    Option TrimResult :=
  (whileLoop (fun c => !c.aborted && c.stageCur < m.initTrim) (customStep inp m) fuel
    { execs := r.execs }).map fun c =>
      { r with
        cache := match c.aborted, c.outBuf with
          | false, some out => r.cache.modify q fun e => e.store out
          | _, _ => r.cache
        execs := c.execs
        fault := c.fault
        aborted := r.aborted || c.aborted }

/-! ### The whole function -/

/-- The loop over the `afl_custom_post_process` of the mutators: the new buffer, if it is not
`in_buf`, and `new_size`. -/
def postProcessAll (inBuf : List Byte) (len : ℕ) (ps : List (List Byte → Option (List Byte))) :
    Option (List Byte) × ℕ :=
  ps.foldl (fun st p =>
    match p ((st.1.getD inBuf).take st.2) with
    | none => (st.1, 0)
    | some newBuf => (some newBuf, newBuf.length)) (none, len)

/-- `new_size` and the buffer that goes to the file: a new one, or `in_buf` when there is no result;
`none` when the copy would read behind the end of the result. -/
def postProcess (inp : TrimInput) (inBuf : List Byte) (len : ℕ) :
    Option (Option (List Byte) × ℕ) :=
  if inp.customMutators.isEmpty || inp.aflPostProcessKeepOriginal then some (none, len)
  else
    let st := postProcessAll inBuf len (inp.customMutators.filterMap CustomMutator.postProcess)
    let st := if st.2 = 0 then (none, len) else st
    let size := if st.2 < inp.minLength then inp.minLength
      else if inp.maxLength < st.2 then inp.maxLength else st.2
    if (st.1.getD inBuf).length < size then none
    else some (st.1.map (List.take size), size)

/-- The end of `trim_case` after a removal: the file is written, and the cached copy renewed. -/
def trimWrite (inp : TrimInput) (fuel : ℕ) (s : TestcaseCache) (q : ℕ) (c : TrimLoop)
    (inPlace : Bool) (origLen : U32) : Option TestcaseCache :=
  (postProcess inp c.inBuf c.len.toNat).bind fun st =>
    let inBuf := st.1.getD c.inBuf
    let len := BitVec.ofNat 32 st.2
    let file := if inp.noUnlink then (writeTrimmed inp.takes inBuf len fuel).map FileWrite.file
      else some (inBuf.take st.2)
    file.map fun file =>
      (s.modify q fun e => { e with len, file }).queueTestcaseRetakeMem q (inBuf.take st.2)
        (inPlace && st.1.isNone) len origLen

/-- `trim_case`; `inPlace` says that `in_buf` is the cached buffer of the entry. -/
def trimCase (inp : TrimInput) (fuel : ℕ) (s : TestcaseCache) (q : ℕ) (inBuf : List Byte)
    (inPlace : Bool) : Option TrimResult :=
  let origLen := (s.entries q).len
  let trims := inp.customMutators.filterMap CustomMutator.trim
  if !trims.isEmpty then
    (trims.foldlM (fun r m => trimCaseCustom inp fuel q m r) { cache := s, inBuf }).map fun r =>
        { r with cache := r.cache.queueTestcaseRetake q origLen }
  else if origLen < 5 then some { cache := s, inBuf }
  else
    (trimRounds inp fuel (trimStart origLen inBuf)).bind fun c =>
      let t := s.modify q fun e =>
        { e with len := c.len, testcaseBuf := if inPlace then some c.inBuf else e.testcaseBuf }
      let r : TrimResult :=
        { cache := t, inBuf := c.inBuf, execs := c.execs, fault := c.fault, aborted := c.aborted }
      if c.aborted || !c.needsWrite then some r
      else (trimWrite inp fuel t q c inPlace origLen).map fun cache => { r with cache }

end AflPlusPlus
