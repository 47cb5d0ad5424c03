import AflPlusPlus.Lib.Blocks

/-!
# Writing a test case

`write_to_testcase` hands a buffer to the target, here as `common_fuzz_stuff` calls it (`fix` is 0).
The `post_process` functions of the custom mutators may change the data first, where it lies or in
memory of their own. What lies in memory of their own is copied to `out_scratch_buf`, which changes
places with `out_buf` then; a stage that keeps its pointer goes on in memory that is the scratch
buffer now, so that a later copy may go there.

Where the data goes (a file, shared memory or `fuzz_send`) is left out, and so is what becomes of a
scratch buffer that is too short for a copy and moves.
-/

namespace AflPlusPlus.Mutation
open Lib

/-- `*out_buf` after a call of `post_process`: no memory, the memory that it was given, or its
own. -/
inductive ProcessedIn
  | null
  | place
  | own (data : Bytes)

/-- What a call of `post_process` does: `buf` is what it leaves in the memory that it was given. A
size of 0 stands for all that are not positive. -/
structure PostProcessed where
  buf : Bytes
  outBuf : ProcessedIn
  size : ℕ

/-- `afl_custom_post_process`, for the number of the call. -/
abbrev PostProcess := ℕ → Bytes → ℕ → PostProcessed

/-- The custom mutators, each with its `post_process` if it has one, and the options. -/
structure WriteConfig where
  customMutators : List (Option PostProcess)
  keepOriginal : Bool
  minLength : ℕ
  maxLength : ℕ

/-- In the loop over the mutators: the memory of the caller, `new_mem` when it is not that memory,
and `new_size`. -/
structure Processing where
  mem : Bytes
  newMem : Option Bytes
  newSize : ℕ

def Processing.data (p : Processing) : Bytes := p.newMem.getD p.mem

def Processing.apply (calls : ℕ) (p : Processing) : Option PostProcess → Processing
  | none => p
  | some postProcess =>
    let r := postProcess calls p.data p.newSize
    let p := match p.newMem with
      | none => { p with mem := r.buf }
      | some _ => { p with newMem := some r.buf }
    match r.outBuf with
    | .null => { p with newSize := 0 }
    | .place => { p with newSize := r.size }
    | .own data =>
      if r.size = 0 then { p with newSize := 0 }
      else { p with newMem := some data, newSize := r.size }

def WriteConfig.clip (cfg : WriteConfig) (size : ℕ) : ℕ :=
  if size < cfg.minLength then cfg.minLength
  else if size > cfg.maxLength then cfg.maxLength
  else size

/-- What is left in the memory of the caller, what went to the scratch buffer, if anything, whether
the buffers have changed places, how much was written, and the result. -/
structure Written where
  mem : Bytes
  copied : Option Bytes
  swapped : Bool
  size : ℕ
  ret : ℕ

def writeToTestcase (cfg : WriteConfig) (calls : ℕ) (mem : Bytes) (len : ℕ) : Written :=
  if cfg.customMutators.isEmpty then ⟨mem, none, false, cfg.clip len, cfg.clip len⟩
  else
    let p := cfg.customMutators.foldl (Processing.apply calls) ⟨mem, none, len⟩
    if p.newSize = 0 then ⟨p.mem, none, false, 0, 0⟩
    else
      let newSize := cfg.clip p.newSize
      let copied := if newSize > 0 then p.newMem else none
      -- to keep the original, the buffers change places once more, whether or not they did before
      ⟨p.mem, copied, copied.isSome != cfg.keepOriginal, newSize,
        if cfg.keepOriginal then len else newSize⟩

/-- What the target gets; nothing when `common_fuzz_stuff` returns at once. -/
def Written.executed (w : Written) : Option (List Byte) :=
  if w.ret = 0 then none else some (contents (w.copied.getD w.mem) w.size)

/-- Between two calls: how many there were, and whether the scratch buffer is the memory that the
stage works on. -/
structure OutBufs where
  calls : ℕ
  scratchIsWork : Bool

/-- The memory that the stage works on. -/
def OutBufs.workAfter (b : OutBufs) (w : Written) (work : Bytes) : Bytes :=
  match w.copied with
  | none => work
  | some src => if b.scratchIsWork then copyBlock work 0 src 0 w.size else work

def OutBufs.next (b : OutBufs) (w : Written) : OutBufs :=
  ⟨b.calls + 1, b.scratchIsWork != w.swapped⟩

/-- The memory of a stage after it was executed, when the stage has executed `earlier` before. -/
def WriteConfig.after (cfg : WriteConfig) (b : OutBufs) (len : ℕ) (earlier : List Bytes)
    (work : Bytes) : Bytes :=
  let b := earlier.foldl (fun b x => b.next (writeToTestcase cfg b.calls x len)) b
  let w := writeToTestcase cfg b.calls work len
  b.workAfter w w.mem

/-! ### Mutators that leave the data alone -/

/-- The call neither drops the `len` bytes nor changes what is sent of them. -/
structure PostProcessed.Keeps (r : PostProcessed) (cfg : WriteConfig) (buf : Bytes) (len : ℕ) :
    Prop where
  left : r.buf = buf
  whole : r.size = len
  same : r.outBuf = .place ∨
    ∃ data, r.outBuf = .own data ∧ contents data (cfg.clip len) = contents buf (cfg.clip len)

/-- No `post_process` drops or changes a test case of `len` bytes. -/
def WriteConfig.KeepsData (cfg : WriteConfig) (len : ℕ) : Prop :=
  ∀ postProcess, some postProcess ∈ cfg.customMutators → ∀ calls buf,
    (postProcess calls buf len).Keeps cfg buf len

section Keeps

variable {cfg : WriteConfig} {len calls : ℕ} {mem : Bytes}

theorem WriteConfig.clip_pos (cfg : WriteConfig) {size : ℕ} (hsize : 0 < size)
    (hmax : 0 < cfg.maxLength) : 0 < cfg.clip size := by
  unfold WriteConfig.clip
  split
  · omega
  · split
    · exact hmax
    · exact hsize

theorem WriteConfig.clip_le (cfg : WriteConfig) {size : ℕ} (h : cfg.minLength ≤ size) :
    cfg.clip size ≤ size := by
  unfold WriteConfig.clip
  rw [if_neg (Nat.not_lt.mpr h)]
  split
  · omega
  · exact Nat.le_refl _

/-- The data is still there. -/
structure Processing.Kept (p : Processing) (cfg : WriteConfig) (mem : Bytes) (len : ℕ) : Prop where
  left : p.mem = mem
  whole : p.newSize = len
  same : contents p.data (cfg.clip len) = contents mem (cfg.clip len)

theorem Processing.Kept.apply {p : Processing} (h : p.Kept cfg mem len) {f : Option PostProcess}
    (hf : ∀ postProcess, f = some postProcess → ∀ buf,
      (postProcess calls buf len).Keeps cfg buf len) : (p.apply calls f).Kept cfg mem len := by
  cases f with
  | none => exact h
  | some postProcess =>
    have hkeeps := hf postProcess rfl p.data
    rw [← h.whole] at hkeeps
    obtain ⟨hbuf, hsize, hdata⟩ := hkeeps
    unfold Processing.apply
    dsimp only
    rw [hbuf]
    -- what is left where the data lay is the data
    have hsame : (match p.newMem with
        | none => { p with mem := p.data }
        | some _ => { p with newMem := some p.data } : Processing) = p := by
      rcases p with ⟨pmem, _ | data, newSize⟩ <;> rfl
    rw [hsame]
    rcases hdata with hdata | ⟨data, hdata, hcontents⟩
    · rw [hdata]
      exact ⟨h.left, hsize.trans h.whole, h.same⟩
    · rw [hdata]
      dsimp only
      split
      · rename_i hzero
        exact ⟨h.left, hzero.symm.trans (hsize.trans h.whole), h.same⟩
      · rw [h.whole] at hcontents
        exact ⟨h.left, hsize.trans h.whole, hcontents.trans h.same⟩

theorem kept_foldl (hkeeps : cfg.KeepsData len) {mutators : List (Option PostProcess)}
    (hsub : ∀ f ∈ mutators, f ∈ cfg.customMutators) {p : Processing} (hp : p.Kept cfg mem len) :
    (mutators.foldl (Processing.apply calls) p).Kept cfg mem len := by
  induction mutators generalizing p with
  | nil => exact hp
  | cons f mutators ih =>
    refine ih (fun g hg => hsub g (List.mem_cons_of_mem f hg)) (hp.apply ?_)
    rintro postProcess rfl buf
    exact hkeeps postProcess (hsub _ List.mem_cons_self) calls buf

/-- Nothing but the data of the caller is written, and its memory is left as it is. -/
structure Written.Faithful (w : Written) (cfg : WriteConfig) (mem : Bytes) (len : ℕ) : Prop where
  left : w.mem = mem
  copied : ∀ src, w.copied = some src → cfg.customMutators ≠ [] ∧ w.size = cfg.clip len ∧
    contents src (cfg.clip len) = contents mem (cfg.clip len)
  executed : ∀ test, w.executed = some test → test = contents mem (cfg.clip len)
  executes : 0 < len → 0 < cfg.maxLength → w.executed = some (contents mem (cfg.clip len))

theorem Written.eq_of_executed {w : Written} {test : List Byte} (h : w.executed = some test) :
    test = contents (w.copied.getD w.mem) w.size := by
  unfold Written.executed at h
  split at h
  · contradiction
  · exact (Option.some.inj h).symm

theorem Written.executed_of_ret {w : Written} (h : 0 < w.ret) :
    w.executed = some (contents (w.copied.getD w.mem) w.size) :=
  if_neg (Nat.ne_of_gt h)

theorem writeToTestcase_faithful (hkeeps : cfg.KeepsData len) (calls : ℕ) (mem : Bytes) :
    (writeToTestcase cfg calls mem len).Faithful cfg mem len := by
  have hp : (cfg.customMutators.foldl (Processing.apply calls) ⟨mem, none, len⟩).Kept cfg mem len :=
    kept_foldl hkeeps (fun _ hf => hf) ⟨rfl, rfl, rfl⟩
  unfold writeToTestcase
  generalize cfg.customMutators.foldl (Processing.apply calls) ⟨mem, none, len⟩ = p at hp
  obtain ⟨hmem, hsize, hdata⟩ := hp
  by_cases hnil : cfg.customMutators = []
  · rw [if_pos (List.isEmpty_iff.mpr hnil)]
    refine ⟨rfl, ?_, fun test htest => Written.eq_of_executed htest, fun hlen hmax => ?_⟩
    · intro src hsrc
      contradiction
    · exact Written.executed_of_ret (cfg.clip_pos hlen hmax)
  · rw [if_neg (mt List.isEmpty_iff.mp hnil)]
    dsimp only
    split
    · refine ⟨hmem, ?_, ?_, fun hlen _ => ?_⟩
      · intro src hsrc
        contradiction
      · intro test htest
        contradiction
      · omega
    · rw [hsize]
      -- what is written lies in memory of its own, or where it lay
      have hwritten : contents ((if cfg.clip len > 0 then p.newMem else none).getD p.mem)
          (cfg.clip len) = contents mem (cfg.clip len) := by
        split
        · exact hdata
        · rw [Option.getD_none, hmem]
      refine ⟨hmem, fun src hsrc => ?_, fun test htest => ?_, fun hlen hmax => ?_⟩
      · dsimp only at hsrc
        rw [hsrc] at hwritten
        exact ⟨hnil, rfl, hwritten⟩
      · exact (Written.eq_of_executed htest).trans hwritten
      · have hclip := cfg.clip_pos hlen hmax
        refine (Written.executed_of_ret ?_).trans (congrArg some hwritten)
        dsimp only
        split <;> assumption

theorem OutBufs.workAfter_eq (b : OutBufs) {w : Written} {work : Bytes}
    (h : ∀ src, w.copied = some src → contents src w.size = contents work w.size) :
    b.workAfter w work = work := by
  unfold OutBufs.workAfter
  split
  · rfl
  · rename_i src hsrc
    split
    · funext i
      rw [copyBlock]
      split
      · rename_i hi
        rw [Nat.zero_add, Nat.sub_zero]
        exact contents_eq_iff.mp (h src hsrc) i (by omega)
      · rfl
    · rfl

/-- The memory of the stage is left as it is. -/
theorem WriteConfig.after_eq (hkeeps : cfg.KeepsData len) (b : OutBufs) (earlier : List Bytes)
    (work : Bytes) : cfg.after b len earlier work = work := by
  unfold WriteConfig.after
  dsimp only
  generalize earlier.foldl (fun b x => b.next (writeToTestcase cfg b.calls x len)) b = b'
  obtain ⟨hmem, hcopied, -, -⟩ := writeToTestcase_faithful hkeeps b'.calls work
  rw [hmem]
  refine b'.workAfter_eq fun src hsrc => ?_
  obtain ⟨-, hsize, hdata⟩ := hcopied src hsrc
  rw [hsize]
  exact hdata

end Keeps

end AflPlusPlus.Mutation
