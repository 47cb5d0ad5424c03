import AflPlusPlus.Lib.Loop
import AflPlusPlus.Lib.Stopping
import AflPlusPlus.Mutation.WriteTestcase

/-!
# The skip inference

`skip_deterministic_stage` looks for blocks of the input that do not matter: it flips a block as a
whole and executes that, and as long as the checksum is the one of the input, it doubles the block.
How long the last accepted block was is computed once more afterwards.

The checksum is that of `trace_bits`, which is the trace of an earlier execution when the
`post_process` function of a custom mutator drops the test case.
-/

namespace AflPlusPlus.Mutation
open Lib Lib.Stopping

/-- `MINIMAL_BLOCK_SIZE`. -/
def minimalBlockSize : ℕ := 64

/-- Why there is no result: an execution asks to stop, memory outside of a buffer is accessed, or
the model has run out of rounds. -/
inductive InferHalt
  | aborted
  | outside
  | fuel
  deriving DecidableEq

/-- What stays the same. What the target does with a test case is a function of all test cases that
were executed so far: nothing when `common_fuzz_stuff` is to stop, and else the checksum of the
trace. -/
structure Inferrer where
  len : ℕ
  write : WriteConfig
  run : List (List Byte) → Option (BitVec 64)

structure Inferred where
  origBuf : Bytes
  outBuf : Bytes
  outBufs : OutBufs
  /-- The checksum of `trace_bits`. -/
  traceCksum : BitVec 64
  infEffMap : Bytes
  /-- The executed test cases. -/
  runs : List (List Byte)
  stageCur : ℕ
  infSkippedBytes : ℕ

abbrev Infer := Stopping InferHalt Inferred

/-- The loop of `flip_range`; the index is a `u32`. -/
def flipBytes (pos size : ℕ) (input : Bytes) : Bytes :=
  forLoop size (fun i m => setByte m ((pos + i) % 2 ^ 32) (m ((pos + i) % 2 ^ 32) ^^^ 0xff)) input

def flipRange (t : Inferrer) (pos size : ℕ) : Infer Unit :=
  if ∀ i, i < size → (pos + i) % 2 ^ 32 < t.len then
    modify fun s => { s with outBuf := flipBytes pos size s.outBuf }
  else stop .outside

/-- `memset(inf_eff_map + pos, x, n)`. -/
def markRangeAs (t : Inferrer) (pos n : ℕ) (x : Byte) : Infer Unit :=
  if pos + n ≤ t.len then modify fun s => { s with infEffMap := fillBlock s.infEffMap pos x n }
  else stop .outside

/-- `common_fuzz_stuff` after `write_to_testcase`. -/
def runTestcase (t : Inferrer) : Option (List Byte) → Infer Unit
  | none => pure ()
  | some test => do
    modify fun s => { s with runs := s.runs ++ [test] }
    match t.run (← get).runs with
    | none => stop .aborted
    | some cksum => modify fun s => { s with traceCksum := cksum }

/-- `common_fuzz_stuff` for the input itself. -/
def fuzzOrigBuf (t : Inferrer) : Infer Unit := do
  let s ← get
  let w := writeToTestcase t.write s.outBufs.calls s.origBuf t.len
  modify fun s => { s with
    origBuf := w.mem
    outBuf := s.outBufs.workAfter w s.outBuf
    outBufs := s.outBufs.next w }
  runTestcase t w.executed

/-- `common_fuzz_stuff` for the work buffer. -/
def fuzzOutBuf (t : Inferrer) : Infer Unit := do
  let s ← get
  let w := writeToTestcase t.write s.outBufs.calls s.outBuf t.len
  modify fun s => { s with
    outBuf := s.outBufs.workAfter w w.mem
    outBufs := s.outBufs.next w }
  runTestcase t w.executed

/-- The inner loop. It returns `cur_block_size`. -/
def growBlock (t : Inferrer) (prevCksum : BitVec 64) (pos : ℕ) : ℕ → ℕ → Infer ℕ
  | 0, _ => stop .fuel
  | fuel + 1, curBlockSize =>
    if curBlockSize < t.len / 8 then do
      let flipBlockSize :=
        if (curBlockSize + pos) % 2 ^ 32 < t.len then curBlockSize else t.len - 1 - pos
      modify fun s => { s with stageCur := s.stageCur + 1 }
      flipRange t pos flipBlockSize
      fuzzOutBuf t
      flipRange t pos flipBlockSize
      if (← get).traceCksum = prevCksum then
        let curBlockSize := curBlockSize * 2 % 2 ^ 32
        if curBlockSize ≥ t.len - 1 - pos then return curBlockSize
        else growBlock t prevCksum pos fuel curBlockSize
      else return curBlockSize
    else return curBlockSize

/-- The outer loop. -/
def inferBlocks (t : Inferrer) (prevCksum : BitVec 64) : ℕ → ℕ → Infer Unit
  | 0, _ => stop .fuel
  | fuel + 1, pos =>
    onlyIf (pos < t.len - 1) do
      let curBlockSize ← growBlock t prevCksum pos t.len minimalBlockSize
      if curBlockSize = minimalBlockSize then
        inferBlocks t prevCksum fuel ((pos + curBlockSize) % 2 ^ 32)
      else
        let curSkipLen :=
          if (curBlockSize / 2 + pos) % 2 ^ 32 < t.len then curBlockSize / 2 else t.len - pos - 1
        markRangeAs t pos curSkipLen 0
        modify fun s => { s with infSkippedBytes := s.infSkippedBytes + curSkipLen }
        inferBlocks t prevCksum fuel ((pos + curSkipLen) % 2 ^ 32)

/-- The inference phase of `skip_deterministic_stage`. -/
def skipInference (t : Inferrer) : Infer Unit := do
  markRangeAs t 0 t.len 1
  fuzzOrigBuf t
  let prevCksum := (← get).traceCksum
  if minimalBlockSize * 8 < t.len then inferBlocks t prevCksum t.len 0
  else markRangeAs t 0 t.len 1

/-! ### One block -/

section Blocks

variable {t : Inferrer} {s s' : Inferred} {pos size : ℕ} {out : Bytes} {c : BitVec 64}

/-- Only an execution that asks to stop ends the inference. -/
def OnlyAborts (t : Inferrer) (e : InferHalt) : Prop := e = .aborted ∧ ∃ tests, t.run tests = none

theorem flipBytes_apply (h : pos + size ≤ 2 ^ 32) (m : Bytes) (j : ℕ) :
    flipBytes pos size m j = if pos ≤ j ∧ j < pos + size then m j ^^^ 0xff else m j := by
  refine forLoop_induct (fun n (m' : Bytes) =>
    m' j = if pos ≤ j ∧ j < pos + n then m j ^^^ 0xff else m j) ?_ ?_
  · rw [if_neg (by omega)]
  · intro i m' hi hm'
    have hmod : (pos + i) % 2 ^ 32 = pos + i := Nat.mod_eq_of_lt (by omega)
    rw [hmod, setByte]
    by_cases hj : j = pos + i
    · subst hj
      rw [if_pos rfl, if_pos (by omega), hm', if_neg (by omega)]
    · rw [if_neg hj, hm']
      have hiff : (pos ≤ j ∧ j < pos + (i + 1)) ↔ pos ≤ j ∧ j < pos + i := by omega
      simp only [hiff]

/-- Flipping a block a second time restores it. -/
theorem flipBytes_flipBytes (h : pos + size ≤ 2 ^ 32) (m : Bytes) :
    flipBytes pos size (flipBytes pos size m) = m := by
  funext j
  rw [flipBytes_apply h, flipBytes_apply h]
  split
  · rw [BitVec.xor_assoc, BitVec.xor_self, BitVec.xor_zero]
  · rfl

theorem flipRange_ensures (hsize : pos + size ≤ t.len) (hlen : t.len < 2 ^ 32) :
    Ensures (OnlyAborts t) (flipRange t pos size) s fun _ s' =>
      s' = { s with outBuf := flipBytes pos size s.outBuf } := by
  have hinside : ∀ i, i < size → (pos + i) % 2 ^ 32 < t.len := by
    intro i hi
    rw [Nat.mod_eq_of_lt (by omega)]
    omega
  unfold flipRange
  rw [if_pos hinside]
  exact Ensures.modify rfl

theorem markRangeAs_ensures (hsize : pos + size ≤ t.len) (x : Byte) :
    Ensures (OnlyAborts t) (markRangeAs t pos size x) s fun _ s' =>
      s' = { s with infEffMap := fillBlock s.infEffMap pos x size } := by
  unfold markRangeAs
  rw [if_pos hsize]
  exact Ensures.modify rfl

/-- What is sent of a buffer. -/
def Inferrer.sent (t : Inferrer) (buf : Bytes) : List Byte := contents buf (t.write.clip t.len)

/-- The buffer was executed, and the rest is as before. -/
structure Tested (t : Inferrer) (buf : Bytes) (s s' : Inferred) : Prop where
  outBuf : s'.outBuf = s.outBuf
  infEffMap : s'.infEffMap = s.infEffMap
  earlier : s.runs <+: s'.runs
  ran : 0 < t.len → s'.runs = s.runs ++ [t.sent buf] ∧ t.run s'.runs = some s'.traceCksum

theorem runTestcase_ensures {buf : Bytes} {executed : Option (List Byte)}
    (hexecuted : 0 < t.len → executed = some (t.sent buf)) {s₀ : Inferred}
    (hout : s.outBuf = s₀.outBuf) (hmap : s.infEffMap = s₀.infEffMap) (hruns : s.runs = s₀.runs) :
    Ensures (OnlyAborts t) (runTestcase t executed) s fun _ s' => Tested t buf s₀ s' := by
  cases executed with
  | none =>
    refine Ensures.pure ⟨hout, hmap, hruns ▸ List.prefix_refl _, fun hlen => ?_⟩
    exact nomatch hexecuted hlen
  | some test =>
    refine Ensures.modify_bind (Ensures.get_bind ?_)
    simp only
    cases hrun : t.run (s.runs ++ [test]) with
    | none => exact Ensures.stop ⟨rfl, _, hrun⟩
    | some cksum =>
      refine Ensures.modify ⟨hout, hmap, hruns ▸ List.prefix_append _ _, fun hlen => ⟨?_, hrun⟩⟩
      exact congrArg₂ (· ++ [·]) hruns (Option.some.inj (hexecuted hlen))

/-- No custom mutator drops or changes a test case, and with custom mutators the input is not
lengthened. -/
structure Inferrer.Keeps (t : Inferrer) : Prop where
  data : t.write.KeepsData t.len
  minLength : t.write.customMutators ≠ [] → t.write.minLength ≤ t.len
  maxLength : 0 < t.write.maxLength

theorem fuzzOutBuf_ensures (hkeeps : t.Keeps) (s : Inferred) :
    Ensures (OnlyAborts t) (fuzzOutBuf t) s fun _ s' => Tested t s.outBuf s s' := by
  obtain ⟨hmem, hcopied, -, hexecutes⟩ :=
    writeToTestcase_faithful hkeeps.data s.outBufs.calls s.outBuf
  refine Ensures.get_bind (Ensures.modify_bind (runTestcase_ensures
    (fun hlen => hexecutes hlen hkeeps.maxLength) ?_ rfl rfl))
  dsimp only
  rw [hmem]
  refine OutBufs.workAfter_eq _ fun src hsrc => ?_
  obtain ⟨-, hsize, hdata⟩ := hcopied src hsrc
  rw [hsize]
  exact hdata

/-- Where the input is copied to the work buffer, it lies there already. -/
theorem fuzzOrigBuf_ensures (hkeeps : t.Keeps) (s : Inferred)
    (hsame : contents s.origBuf t.len = contents s.outBuf t.len) :
    Ensures (OnlyAborts t) (fuzzOrigBuf t) s fun _ s' => Tested t s.origBuf s s' := by
  obtain ⟨-, hcopied, -, hexecutes⟩ :=
    writeToTestcase_faithful hkeeps.data s.outBufs.calls s.origBuf
  refine Ensures.get_bind (Ensures.modify_bind (runTestcase_ensures
    (fun hlen => hexecutes hlen hkeeps.maxLength) ?_ rfl rfl))
  refine OutBufs.workAfter_eq _ fun src hsrc => ?_
  obtain ⟨hmutators, hsize, hdata⟩ := hcopied src hsrc
  have hle : t.write.clip t.len ≤ t.len := t.write.clip_le (hkeeps.minLength hmutators)
  rw [hsize, hdata]
  exact contents_eq_iff.mpr fun i hi => contents_eq_iff.mp hsame i (by omega)

/-- The test case was executed, with this checksum. -/
def Reported (t : Inferrer) (s : Inferred) (test : List Byte) (cksum : BitVec 64) : Prop :=
  ∃ earlier, earlier ++ [test] <+: s.runs ∧ t.run (earlier ++ [test]) = some cksum

theorem Reported.mono {test : List Byte} (h : Reported t s test c) (hruns : s.runs <+: s'.runs) :
    Reported t s' test c := by
  obtain ⟨earlier, hprefix, hrun⟩ := h
  exact ⟨earlier, hprefix.trans hruns, hrun⟩

/-- How much of the block lies in front of the last byte. -/
def blockLen (len pos size : ℕ) : ℕ := if size + pos < len then size else len - 1 - pos

theorem blockLen_inside (hpos : pos < t.len - 1) : pos + blockLen t.len pos size ≤ t.len := by
  unfold blockLen
  split <;> omega

/-- The block of this size was flipped as a whole, and the checksum was `c`. -/
def Accepted (t : Inferrer) (c : BitVec 64) (out : Bytes) (pos size : ℕ) (s : Inferred) : Prop :=
  Reported t s (t.sent (flipBytes pos (blockLen t.len pos size) out)) c

/-- The inner loop executes tests only. -/
structure OnlyTests (s s' : Inferred) : Prop where
  outBuf : s'.outBuf = s.outBuf
  infEffMap : s'.infEffMap = s.infEffMap
  runs : s.runs <+: s'.runs

theorem OnlyTests.refl (s : Inferred) : OnlyTests s s := ⟨rfl, rfl, List.prefix_refl _⟩

theorem OnlyTests.trans {s'' : Inferred} (h : OnlyTests s s') (h' : OnlyTests s' s'') :
    OnlyTests s s'' :=
  ⟨h'.outBuf.trans h.outBuf, h'.infEffMap.trans h.infEffMap, h.runs.trans h'.runs⟩

/-- A block that is not doubled, or half of it was accepted. -/
structure Grown (t : Inferrer) (c : BitVec 64) (out : Bytes) (pos cur : ℕ) (s : Inferred) :
    Prop where
  minimal : minimalBlockSize ≤ cur
  small : cur < 2 ^ 31
  accepted : cur = minimalBlockSize ∨ Accepted t c out pos (cur / 2) s

theorem growBlock_ensures (hkeeps : t.Keeps) (hlen : t.len < 2 ^ 31) (hpos : pos < t.len - 1)
    {fuel cur : ℕ}
    (hfuel : t.len / 8 < fuel + cur) (hfuel' : 0 < fuel) (hcur : Grown t c out pos cur s)
    (hout : s.outBuf = out) :
    Ensures (OnlyAborts t) (growBlock t c pos fuel cur) s fun cur' s' =>
      OnlyTests s s' ∧ Grown t c out pos cur' s' := by
  induction fuel generalizing cur s with
  | zero => omega
  | succ fuel ih =>
    refine Ensures.ite (fun hlt => ?_) fun _ => Ensures.pure ⟨.refl s, hcur⟩
    have hflip : (if (cur + pos) % 2 ^ 32 < t.len then cur else t.len - 1 - pos) =
        blockLen t.len pos cur := by
      rw [Nat.mod_eq_of_lt (by omega)]
      rfl
    have hinside : pos + blockLen t.len pos cur ≤ t.len := blockLen_inside hpos
    rw [hflip]
    refine Ensures.modify_bind ((flipRange_ensures hinside (by omega)).bind fun _ s₁ hs₁ =>
      (fuzzOutBuf_ensures hkeeps s₁).bind fun _ s₂ hs₂ =>
        (flipRange_ensures hinside (by omega)).bind fun _ s₃ hs₃ => Ensures.get_bind ?_)
    obtain ⟨hruns, hrun⟩ := hs₂.ran (by omega)
    have htests : OnlyTests s s₃ := by
      subst hs₁ hs₃
      refine ⟨?_, hs₂.infEffMap, hs₂.earlier⟩
      exact (congrArg _ hs₂.outBuf).trans (flipBytes_flipBytes (by omega) _)
    have haccepted : s₃.traceCksum = c → Accepted t c out pos cur s₃ := by
      subst hs₁ hs₃ hout
      rintro rfl
      refine ⟨s.runs, ?_, ?_⟩
      · exact hruns ▸ List.prefix_refl _
      · exact hruns ▸ hrun
    have hmin := hcur.minimal
    unfold minimalBlockSize at hmin
    -- where the block is smaller than an eighth, doubling it does not wrap
    have hdouble : cur * 2 % 2 ^ 32 = cur * 2 := Nat.mod_eq_of_lt (by omega)
    have hhalf : cur * 2 / 2 = cur := by omega
    refine Ensures.ite (fun hsame => ?_) fun _ =>
      Ensures.pure ⟨htests, hcur.minimal, hcur.small, ?_⟩
    · dsimp only
      rw [hdouble]
      have hnext : Grown t c out pos (cur * 2) s₃ := by
        refine ⟨by unfold minimalBlockSize; omega, by omega, .inr ?_⟩
        rw [hhalf]
        exact haccepted hsame
      refine Ensures.ite (fun _ => Ensures.pure ⟨htests, hnext⟩) fun _ => ?_
      refine (ih (by omega) (by omega) hnext (htests.outBuf.trans hout)).mono ?_
      rintro cur' s' ⟨htests', hcur'⟩
      exact ⟨htests.trans htests', hcur'⟩
    · exact hcur.accepted.imp_right fun h => h.mono htests.runs

/-! ### All blocks -/

/-- The byte lies in a block that was accepted and marked as a whole. -/
def Ineffective (t : Inferrer) (c : BitVec 64) (out : Bytes) (s : Inferred) (k : ℕ) : Prop :=
  ∃ pos n, (pos ≤ k ∧ k < pos + n) ∧ pos + n ≤ t.len ∧
    (∀ j, pos ≤ j → j < pos + n → s.infEffMap j = 0) ∧
    Reported t s (t.sent (flipBytes pos n out)) c

structure Sound (t : Inferrer) (c : BitVec 64) (out : Bytes) (s : Inferred) : Prop where
  outBuf : s.outBuf = out
  marked : ∀ k, k < t.len → s.infEffMap k = 0 → Ineffective t c out s k

theorem Sound.onlyTests (h : Sound t c out s) (htests : OnlyTests s s') : Sound t c out s' := by
  refine ⟨htests.outBuf.trans h.outBuf, fun k hk hzero => ?_⟩
  rw [htests.infEffMap] at hzero
  obtain ⟨pos, n, hin, hn, hall, hreported⟩ := h.marked k hk hzero
  rw [← htests.infEffMap] at hall
  exact ⟨pos, n, hin, hn, hall, hreported.mono htests.runs⟩

/-- A block that was accepted may be marked. -/
theorem Sound.mark (h : Sound t c out s) (hpos : pos < t.len - 1)
    (haccepted : Accepted t c out pos size s) :
    Sound t c out
      { s with infEffMap := fillBlock s.infEffMap pos 0 (blockLen t.len pos size) } := by
  refine ⟨h.outBuf, fun k hk hzero => ?_⟩
  by_cases hin : pos ≤ k ∧ k < pos + blockLen t.len pos size
  · refine ⟨pos, _, hin, blockLen_inside hpos, fun j hle hlt => ?_, haccepted⟩
    dsimp only
    rw [fillBlock, if_pos ⟨hle, hlt⟩]
  · dsimp only at hzero
    rw [fillBlock, if_neg hin] at hzero
    obtain ⟨pos', n, hin', hn, hall, hreported⟩ := h.marked k hk hzero
    refine ⟨pos', n, hin', hn, fun j hle hlt => ?_, hreported⟩
    dsimp only
    rw [fillBlock]
    split
    · rfl
    · exact hall j hle hlt

theorem inferBlocks_ensures (hkeeps : t.Keeps) (hlen : t.len < 2 ^ 31)
    (hmin : minimalBlockSize * 8 < t.len)
    {fuel : ℕ} (hfuel : t.len - 1 < fuel + pos) (hfuel' : 0 < fuel) (h : Sound t c out s) :
    Ensures (OnlyAborts t) (inferBlocks t c fuel pos) s fun _ s' => Sound t c out s' := by
  induction fuel generalizing pos s with
  | zero => omega
  | succ fuel ih =>
    refine Ensures.onlyIf (fun hpos => ?_) fun _ => h
    have hstart : Grown t c out pos minimalBlockSize s := ⟨Nat.le_refl _, by decide, .inl rfl⟩
    refine (growBlock_ensures hkeeps hlen hpos (by omega) (by omega) hstart h.outBuf).bind ?_
    rintro cur s₁ ⟨htests, hcur⟩
    have h₁ := h.onlyTests htests
    have hcurmin := hcur.minimal
    have hsmall := hcur.small
    unfold minimalBlockSize at hcurmin
    refine Ensures.ite (fun hsize => ?_) fun hsize => ?_
    · rw [Nat.mod_eq_of_lt (by omega)]
      exact ih (by omega) (by omega) h₁
    · -- what is marked is what was flipped last
      have hskip : (if (cur / 2 + pos) % 2 ^ 32 < t.len then cur / 2 else t.len - pos - 1) =
          blockLen t.len pos (cur / 2) := by
        rw [Nat.mod_eq_of_lt (by omega), Nat.sub_right_comm]
        rfl
      have hinside : pos + blockLen t.len pos (cur / 2) ≤ t.len := blockLen_inside hpos
      have hadvance : 0 < blockLen t.len pos (cur / 2) := by
        unfold blockLen
        split <;> omega
      have hmark := h₁.mark hpos (hcur.accepted.resolve_left hsize)
      rw [hskip]
      refine (markRangeAs_ensures hinside 0).bind fun _ s₂ hs₂ => Ensures.modify_bind ?_
      rw [Nat.mod_eq_of_lt (by omega)]
      subst hs₂
      exact ih (by omega) (by omega) ⟨hmark.outBuf, hmark.marked⟩

/-- Without an abort the inference ends; it restores the buffer and marks only blocks that an
execution has shown not to matter, as long as no `post_process` drops or changes a test case. The
work buffer holds the input at first. The inputs are shorter than `hlen` asks for: they have at most
`MAX_FILE` bytes. -/
theorem skipInference_sound (t : Inferrer) (s : Inferred) (hlen : t.len < 2 ^ 31)
    (hsame : contents s.origBuf t.len = contents s.outBuf t.len) (hkeeps : t.Keeps)
    (hrun : ∀ tests, t.run tests ≠ none) : ∃ s' cksum, skipInference t s = (.ok (), s') ∧
      (0 < t.len → t.run (s.runs ++ [t.sent s.origBuf]) = some cksum) ∧
      s'.outBuf = s.outBuf ∧
      ∀ k, k < t.len → s'.infEffMap k = 0 → Ineffective t cksum s.outBuf s' k := by
  have hspec : Ensures (OnlyAborts t) (skipInference t) s fun _ s' => ∃ cksum,
      (0 < t.len → t.run (s.runs ++ [t.sent s.origBuf]) = some cksum) ∧
        Sound t cksum s.outBuf s' := by
    refine (markRangeAs_ensures (by omega) 1).bind fun _ s₁ hs₁ => ?_
    have hsame₁ : contents s₁.origBuf t.len = contents s₁.outBuf t.len := by
      subst hs₁
      exact hsame
    refine (fuzzOrigBuf_ensures hkeeps s₁ hsame₁).bind fun _ s₂ hs₂ => Ensures.get_bind ?_
    have hout : s₂.outBuf = s.outBuf := by
      subst hs₁
      exact hs₂.outBuf
    have hcksum : 0 < t.len → t.run (s.runs ++ [t.sent s.origBuf]) = some s₂.traceCksum := by
      intro hpos
      obtain ⟨hruns, hran⟩ := hs₂.ran hpos
      rw [hruns] at hran
      subst hs₁
      exact hran
    have hfilled : ∀ (s' : Inferred) map, s'.outBuf = s.outBuf →
        s'.infEffMap = fillBlock map 0 1 t.len → Sound t s₂.traceCksum s.outBuf s' := by
      intro s' map hout' hmap
      refine ⟨hout', fun k hk hzero => ?_⟩
      rw [hmap, fillBlock, if_pos (by omega)] at hzero
      exact absurd hzero (by decide)
    refine Ensures.ite (fun hmin => ?_) fun _ => ?_
    · have hstart : Sound t s₂.traceCksum s.outBuf s₂ := by
        refine hfilled _ s.infEffMap hout ?_
        subst hs₁
        exact hs₂.infEffMap
      exact (inferBlocks_ensures hkeeps hlen hmin (by omega) (by omega) hstart).mono
        fun _ s' h => ⟨s₂.traceCksum, hcksum, h⟩
    · refine (markRangeAs_ensures (by omega) 1).mono fun _ s' hs' => ⟨s₂.traceCksum, hcksum, ?_⟩
      subst hs'
      exact hfilled _ _ hout rfl
  rcases hresult : skipInference t s with ⟨e | r, s'⟩
  · obtain ⟨-, tests, hnone⟩ := hspec.stops hresult
    exact absurd hnone (hrun tests)
  · obtain ⟨cksum, hcksum, hsound⟩ := hspec.returns hresult
    exact ⟨s', cksum, rfl, hcksum, hsound.outBuf, hsound.marked⟩

end Blocks

/-- An input of 600 bytes that no execution looks at. -/
def ignored (postProcess : PostProcess) : Inferrer where
  len := 600
  write := ⟨[some postProcess], false, 1, 1 <<< 20⟩
  run := fun _ => some 0

def ignoredStart : Inferred where
  origBuf := fun _ => 1
  outBuf := fun _ => 1
  outBufs := ⟨0, false⟩
  traceCksum := 0
  infEffMap := fun _ => 0
  runs := []
  stageCur := 0
  infSkippedBytes := 0

/-- The data as it is, in memory of the mutator. -/
def copyPostProcess : PostProcess := fun _ buf len => ⟨buf, .own buf, len⟩

theorem skipInference_sound_ignored : ∃ s' cksum,
    skipInference (ignored copyPostProcess) ignoredStart = (.ok (), s') ∧
      (0 < 600 → (ignored copyPostProcess).run
        (ignoredStart.runs ++ [(ignored copyPostProcess).sent ignoredStart.origBuf]) =
          some cksum) ∧
      s'.outBuf = ignoredStart.outBuf ∧ ∀ k, k < 600 → s'.infEffMap k = 0 →
        Ineffective (ignored copyPostProcess) cksum ignoredStart.outBuf s' k := by
  refine skipInference_sound (ignored copyPostProcess) ignoredStart (by decide) rfl
    ⟨?_, fun _ => by decide, by decide⟩ fun _ => Option.some_ne_none 0
  intro postProcess hmem calls buf
  obtain rfl := Option.some.inj (List.mem_singleton.mp hmem)
  exact ⟨rfl, rfl, .inr ⟨buf, rfl, rfl⟩⟩

/-- A mutator that drops every test case. -/
def dropPostProcess : PostProcess := fun _ buf _ => ⟨buf, .null, 0⟩

/-- Blocks are marked although nothing is executed. -/
theorem skipInference_dropped : ∃ s',
    skipInference (ignored dropPostProcess) ignoredStart = (.ok (), s') ∧
      s'.infEffMap 0 = 0 ∧ s'.runs = [] := by
  have hresult : (skipInference (ignored dropPostProcess) ignoredStart).1.toBool = true := by
    decide +kernel
  rcases hrun : skipInference (ignored dropPostProcess) ignoredStart with ⟨e | r, s'⟩
  · rw [hrun] at hresult
    contradiction
  · have hs' : s' = (skipInference (ignored dropPostProcess) ignoredStart).2 := by rw [hrun]
    refine ⟨s', rfl, ?_, ?_⟩
    · rw [hs']
      decide +kernel
    · rw [hs']
      decide +kernel

end AflPlusPlus.Mutation
