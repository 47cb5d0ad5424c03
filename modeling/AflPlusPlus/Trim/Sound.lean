import AflPlusPlus.Trim.Abort

/-!
# Trimming is sound

With a target whose trace is a function of the test case the blocks that are removed are those
without effect on the trace. The file agrees with the buffer unless the loop for `AFL_NO_UNLINK` is
served by a short `write`.
-/

namespace AflPlusPlus
open Lib

/-- No custom mutators, no abort, and the trace is a function of the test case. -/
structure SteadyTarget (inp : TrimInput) (trace : List Byte → Bytes) : Prop where
  plain : inp.customMutators = []
  trace : ∀ k mem, (inp.run k mem).2 = trace mem
  quiet : ∀ k mem, inp.aborts k mem = false

/-- The result of trimming the test case `orig`. -/
structure Trimmed (inp : TrimInput) (trace : List Byte → Bytes) (orig : List Byte)
    (r : TrimResult) (e : CacheEntry) : Prop where
  sublist : (r.inBuf.take e.len.toNat).Sublist orig
  head : (r.inBuf.take e.len.toNat).take 4 = orig.take 4
  cksum : e.len.toNat ≠ orig.length →
    inp.cksum (trace (r.inBuf.take e.len.toNat)) = inp.execCksum
  file : e.file = r.inBuf.take e.len.toNat
  consistent : Consistent e

/-- What has been kept is what the trace needs. -/
structure TrimKept (inp : TrimInput) (trace : List Byte → Bytes) (s c : TrimLoop) : Prop where
  sublist : c.data.Sublist s.data
  head : c.data.take 4 = s.data.take 4
  unwritten : c.needsWrite = false → c.data = s.data ∧ c.len = s.len
  written : c.needsWrite = true →
    inp.cksum (trace c.data) = inp.execCksum ∧ c.len.toNat < s.len.toNat
  running : c.aborted = false

theorem TrimKept.congr {inp : TrimInput} {trace : List Byte → Bytes} {s c c' : TrimLoop}
    (h : TrimKept inp trace s c) (hdata : c'.data = c.data) (hlen : c'.len = c.len)
    (hwrite : c'.needsWrite = c.needsWrite) (habort : c'.aborted = c.aborted) :
    TrimKept inp trace s c' := by
  refine ⟨?_, ?_, ?_, ?_, habort.trans h.running⟩
  · rw [hdata]
    exact h.sublist
  · rw [hdata]
    exact h.head
  · rw [hdata, hlen, hwrite]
    exact h.unwritten
  · rw [hdata, hlen, hwrite]
    exact h.written

/-- A block without effect on the trace goes. -/
theorem TrimKept.removed {inp : TrimInput} {trace : List Byte → Bytes} {s c : TrimLoop}
    (h : TrimKept inp trace s c) (hsteady : SteadyTarget inp trace) (hround : InRound c)
    (hpos : c.removePos < c.len) (haccept : inp.accepts c.execs c.candidate = true) :
    TrimKept inp trace s (c.removed inp) := by
  have hpos' : c.removePos.toNat < c.len.toNat := hpos
  have hdata : (c.removed inp).data = c.candidate := hround.removed_data hpos
  have hlen : (c.removed inp).len.toNat = c.len.toNat - c.avail := InRound.removed_len hpos
  have havail := hround.avail_pos hpos
  have hfour := hround.removeLen_ge.trans hround.removePos_ge
  have hle : c.len.toNat ≤ s.len.toNat := by
    cases hwrite : c.needsWrite with
    | false => exact (congrArg BitVec.toNat (h.unwritten hwrite).2).le
    | true => exact (h.written hwrite).2.le
  refine ⟨?_, ?_, nofun, fun _ => ⟨?_, ?_⟩, h.running⟩
  · rw [hdata]
    exact (gap_sublist _ _ _).trans h.sublist
  · rw [hdata, TrimLoop.candidate, take_gap hfour]
    · exact h.head
    · rw [hround.data_length]
      exact hpos'.le
  · rw [hdata, ← hsteady.trace c.execs]
    exact of_decide_eq_true haccept
  · rw [hlen]
    omega

/-- The invariant of the trimmer. -/
theorem trimRounds_kept {inp : TrimInput} {trace : List Byte → Bytes} {fuel : ℕ} {s t : TrimLoop}
    (hsteady : SteadyTarget inp trace) (hrun : trimRounds inp fuel s = some t) (hfits : TrimFits s)
    (hwrite : s.needsWrite = false) (habort : s.aborted = false) :
    TrimKept inp trace s t ∧ TrimFits t := by
  have hstart : TrimKept inp trace s s := by
    refine ⟨List.Sublist.refl _, rfl, fun _ => ⟨rfl, rfl⟩, fun hyes => ?_, habort⟩
    rw [hwrite] at hyes
    cases hyes
  obtain ⟨hkept, hfits, -⟩ := trimRounds_invariant (TrimKept inp trace s)
    (TrimKept inp trace s) hrun hfits hstart (fun _ h _ _ => h.congr rfl rfl rfl rfl)
    (fun c _ _ _ _ habort => by
      rw [hsteady.quiet] at habort
      cases habort)
    (fun _ hround hpos _ h _ haccept => h.removed hsteady hround hpos haccept)
    (fun _ _ _ _ h _ _ => h.congr rfl rfl rfl rfl) (fun _ _ _ _ h => h.congr rfl rfl rfl rfl)
    (fun _ _ h => h)
  exact ⟨hkept, hfits⟩

/-! ### The file and the cached copy -/

/-- The cached copy is renewed. -/
theorem queueTestcaseRetakeMem_entry (s : TestcaseCache) (q : ℕ) (input : List Byte)
    (inPlace : Bool) (len oldLen : U32) :
    ((s.queueTestcaseRetakeMem q input inPlace len oldLen).entries q).len = (s.entries q).len ∧
      ((s.queueTestcaseRetakeMem q input inPlace len oldLen).entries q).file =
        (s.entries q).file ∧
      ∀ buf ∈ ((s.queueTestcaseRetakeMem q input inPlace len oldLen).entries q).testcaseBuf,
        (inPlace = true ∧ buf ∈ (s.entries q).testcaseBuf) ∨ buf.take input.length = input := by
  unfold TestcaseCache.queueTestcaseRetakeMem
  split
  · rename_i hnone
    refine ⟨rfl, rfl, fun buf hbuf => ?_⟩
    rw [hnone] at hbuf
    cases hbuf
  · split
    · rename_i hplace
      exact ⟨rfl, rfl, fun buf hbuf => Or.inl ⟨hplace, hbuf⟩⟩
    · dsimp only
      split
      · dsimp only
        rw [Function.update_self]
        refine ⟨rfl, rfl, fun buf hbuf => Or.inr ?_⟩
        obtain rfl := Option.some.inj hbuf
        exact List.take_length
      · rw [TestcaseCache.modify_entries]
        refine ⟨rfl, rfl, fun buf hbuf => Or.inr ?_⟩
        obtain rfl := Option.some.inj hbuf
        exact List.take_left

section Plain

variable {inp : TrimInput} {trace : List Byte → Bytes} {s : TestcaseCache} {q : ℕ}
  {inBuf : List Byte} {inPlace : Bool} {fuel : ℕ} {c : TrimLoop}

/-- The cache with the new length, and in place with the new contents. -/
def TrimLoop.shorten (c : TrimLoop) (s : TestcaseCache) (q : ℕ) (inPlace : Bool) : TestcaseCache :=
  s.modify q fun e =>
    { e with len := c.len, testcaseBuf := if inPlace then some c.inBuf else e.testcaseBuf }

/-- The result of the function when the loops have left `c`. -/
def TrimLoop.result (c : TrimLoop) (cache : TestcaseCache) : TrimResult where
  cache
  inBuf := c.inBuf
  execs := c.execs
  fault := c.fault
  aborted := c.aborted

/-- What `write` leaves in the file. -/
def writtenFile (inp : TrimInput) (fuel : ℕ) (c : TrimLoop) : Option (List Byte) :=
  if inp.noUnlink then (writeTrimmed inp.takes c.inBuf c.len fuel).map FileWrite.file
  else some c.data

/-- The function without custom mutators. -/
theorem trimCase_plain (hplain : inp.customMutators = []) (hlong : ¬ (s.entries q).len < 5) :
    trimCase inp fuel s q inBuf inPlace =
      (trimRounds inp fuel (trimStart (s.entries q).len inBuf)).bind fun c =>
        if c.aborted || !c.needsWrite then some (c.result (c.shorten s q inPlace))
        else (writtenFile inp fuel c).map fun file =>
          c.result (((c.shorten s q inPlace).modify q fun e =>
            { e with len := c.len, file }).queueTestcaseRetakeMem q c.data inPlace c.len
              (s.entries q).len) := by
  have hwrite : ∀ (t : TestcaseCache) (c : TrimLoop) (origLen : U32),
      trimWrite inp fuel t q c inPlace origLen = (writtenFile inp fuel c).map fun file =>
        (t.modify q fun e => { e with len := c.len, file }).queueTestcaseRetakeMem q c.data inPlace
          c.len origLen := by
    intro t c origLen
    have hpost : postProcess inp c.inBuf c.len.toNat = some (none, c.len.toNat) := by
      unfold postProcess
      rw [hplain]
      rfl
    have hlen : BitVec.ofNat 32 c.len.toNat = c.len := by
      rw [BitVec.ofNat_toNat, BitVec.setWidth_eq]
    unfold trimWrite
    rw [hpost, Option.bind_some]
    dsimp only [Option.getD_none]
    rw [hlen, Option.isNone_none, Bool.and_true]
    rfl
  unfold trimCase
  dsimp only
  rw [hplain, List.filterMap_nil, List.isEmpty_nil, if_neg (by simp), if_neg hlong]
  refine congrArg _ (funext fun c => ?_)
  split
  · rfl
  · rw [hwrite, Option.map_map]
    rfl

/-- Nothing was removed. -/
theorem trimmed_unwritten (hstart : TrimStarts s q inBuf inPlace)
    (hkept : TrimKept inp trace (trimStart (s.entries q).len inBuf) c)
    (hwrite : c.needsWrite = false) :
    Trimmed inp trace (s.entries q).file (c.result (c.shorten s q inPlace))
      ((c.shorten s q inPlace).entries q) := by
  obtain ⟨hdata, hlen⟩ := hkept.unwritten hwrite
  rw [hstart.data] at hdata
  have hlen' : c.len.toNat = (s.entries q).file.length :=
    (congrArg BitVec.toNat hlen).trans hstart.len
  rw [TrimLoop.shorten, TestcaseCache.modify_entries]
  refine ⟨?_, ?_, fun hne => absurd hlen' hne, hdata.symm, hlen', fun buf hbuf => ?_⟩
  · change c.data.Sublist _
    rw [hdata]
  · change c.data.take 4 = _
    rw [hdata]
  · dsimp only at hbuf ⊢
    cases inPlace with
    | false => exact hstart.cached buf hbuf
    | true =>
      obtain rfl := Option.some.inj hbuf
      rw [TrimLoop.data, hlen'] at hdata
      exact hdata

/-- The file was written. -/
theorem trimmed_written {file : List Byte} (hstart : TrimStarts s q inBuf inPlace)
    (hkept : TrimKept inp trace (trimStart (s.entries q).len inBuf) c) (hfits : TrimFits c)
    (hwrite : c.needsWrite = true) {cache : TestcaseCache}
    (hcache : cache = ((c.shorten s q inPlace).modify q fun e =>
      { e with len := c.len, file }).queueTestcaseRetakeMem q c.data inPlace c.len
        (s.entries q).len) :
    Trimmed inp trace (s.entries q).file (c.result cache) (cache.entries q) ↔ file = c.data := by
  obtain ⟨hlen, hfile, hcached⟩ := queueTestcaseRetakeMem_entry
    ((c.shorten s q inPlace).modify q fun e => { e with len := c.len, file }) q c.data inPlace c.len
    (s.entries q).len
  rw [← hcache, TestcaseCache.modify_entries] at hlen hfile
  rw [← hcache] at hcached
  have hdata : (c.result cache).inBuf.take (cache.entries q).len.toNat = c.data := by
    rw [hlen]
    rfl
  have hcount : c.data.length = c.len.toNat := by
    rw [TrimLoop.data, List.length_take, Nat.min_eq_left hfits.inBuf]
  constructor
  · intro h
    have := h.file
    rw [hdata, hfile] at this
    exact this
  · rintro rfl
    refine ⟨?_, ?_, fun _ => ?_, ?_, ?_, fun buf hbuf => ?_⟩
    · rw [hdata, ← hstart.data]
      exact hkept.sublist
    · rw [hdata, ← hstart.data]
      exact hkept.head
    · rw [hdata]
      exact (hkept.written hwrite).1
    · rw [hdata, hfile]
    · rw [hlen, hfile]
      exact hcount.symm
    · rw [hfile]
      obtain ⟨hplace, hbuf⟩ | hbuf := hcached buf hbuf
      · rw [TestcaseCache.modify_entries, TrimLoop.shorten, TestcaseCache.modify_entries] at hbuf
        dsimp only at hbuf ⊢
        rw [if_pos hplace] at hbuf
        obtain rfl := Option.some.inj hbuf
        rw [hcount]
        rfl
      · exact hbuf

end Plain

end AflPlusPlus
