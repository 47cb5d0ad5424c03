import AflPlusPlus.Trim.Sound

/-!
# Trimming with `AFL_NO_UNLINK`

The longest file that the loop with the short writes has to write: the blocks of a test case of
almost `MAX_FILE` bytes begin at multiples of 1024. Trimming is sound if the first `write` that
succeeds takes a file of this length.
-/

namespace AflPlusPlus
open Lib Coverage

/-- The length of the longest trimmed file. -/
def longestTrimmed : ℕ := maxFileLen - 1024

/-- The block lengths for a test case that is longer. -/
def LongBlock (removeLen : ℕ) : Prop :=
  removeLen ∈ [65536, 32768, 16384, 8192, 4096, 2048, 1024]

theorem LongBlock.dvd {n : ℕ} (h : LongBlock n) : 1024 ∣ n := by
  simp only [LongBlock, List.mem_cons, List.not_mem_nil, or_false] at h
  omega

theorem LongBlock.half {n : ℕ} (h : LongBlock n) : LongBlock (n / 2) ∨ n / 2 < 1024 := by
  simp only [LongBlock, List.mem_cons, List.not_mem_nil, or_false] at h ⊢
  omega

/-- `next_pow2` rounds such a length up to `MAX_FILE`. -/
theorem lenPow2_long {len : U32} (hlong : longestTrimmed < len.toNat)
    (hle : len.toNat ≤ maxFileLen) : lenPow2 len = 1048576 := by
  have hall : ∀ i, i < 1024 → lenPow2 (BitVec.ofNat 32 (1047553 + i)) = 1048576 := by
    decide +kernel
  have hlower : 1047552 < len.toNat := hlong
  have hupper : len.toNat ≤ 1048576 := hle
  obtain ⟨i, hi⟩ := Nat.exists_eq_add_of_le hlower
  have hlen : len = BitVec.ofNat 32 (1047553 + i) := by
    rw [← hi, BitVec.ofNat_toNat, BitVec.setWidth_eq]
  rw [hlen]
  exact hall i (by omega)

/-- Until the first removal the blocks of a long test case begin at multiples of 1024. -/
structure LongTrim (s c : TrimLoop) (blocks : Prop) : Prop where
  len_le : c.len.toNat ≤ s.len.toNat
  written : c.needsWrite = true → c.len.toNat ≤ longestTrimmed
  unwritten : c.needsWrite = false → longestTrimmed < s.len.toNat →
    c.len = s.len ∧ c.lenP2 = 1048576 ∧ blocks

/-- What is left after a removal is not longer than this. -/
theorem trimRounds_longest {inp : TrimInput} {fuel : ℕ} {len : U32} {inBuf : List Byte}
    {t : TrimLoop} (hrun : trimRounds inp fuel (trimStart len inBuf) = some t)
    (hfits : TrimFits (trimStart len inBuf)) :
    t.needsWrite = true → t.len.toNat ≤ longestTrimmed := by
  have hstart : LongTrim (trimStart len inBuf) (trimStart len inBuf)
      (LongBlock (trimStart len inBuf).removeLen.toNat ∨
        (trimStart len inBuf).removeLen.toNat < 1024) := by
    refine ⟨le_refl _, nofun, fun _ hlong => ?_⟩
    have hp2 : lenPow2 len = 1048576 := lenPow2_long hlong hfits.len
    refine ⟨rfl, hp2, Or.inl ?_⟩
    change LongBlock (maxU32 (lenPow2 len / trimStartSteps) trimMinBytes).toNat
    rw [hp2]
    change LongBlock 65536
    simp [LongBlock]
  obtain ⟨hend, -⟩ := trimRounds_invariant
    (fun c => LongTrim (trimStart len inBuf) c
      (LongBlock c.removeLen.toNat ∨ c.removeLen.toNat < 1024))
    (fun c => LongTrim (trimStart len inBuf) c
      (LongBlock c.removeLen.toNat ∧ 1024 ∣ c.removePos.toNat))
    hrun hfits hstart
    (fun c h _ hge => by
      refine ⟨h.len_le, h.written, fun hno hlong => ?_⟩
      obtain ⟨hlen, hp2, hblock | hless⟩ := h.unwritten hno hlong
      · exact ⟨hlen, hp2, hblock, hblock.dvd⟩
      · rw [hp2] at hge
        have hge' : 1024 ≤ c.removeLen.toNat := hge
        omega)
    (fun c _ _ _ h _ => ⟨h.len_le, h.written, h.unwritten⟩)
    (fun c hround hpos _ h _ _ => by
      have hlen' : (c.removed inp).len.toNat = c.len.toNat - c.avail := InRound.removed_len hpos
      refine ⟨?_, fun _ => ?_, nofun⟩
      · rw [hlen']
        exact (Nat.sub_le _ _).trans h.len_le
      · rw [hlen']
        cases hno : c.needsWrite with
        | true => exact (Nat.sub_le _ _).trans (h.written hno)
        | false =>
          by_cases hlong : longestTrimmed < (trimStart len inBuf).len.toNat
          · -- the block has 1024 bytes, or reaches from a multiple of 1024 to the end
            obtain ⟨-, -, hblock, hdvd⟩ := h.unwritten hno hlong
            have hmax : c.len.toNat ≤ 1048576 := hround.len
            have hfour := hround.removeLen_ge
            have hblock' := hblock.dvd
            have hpos' : c.removePos.toNat < c.len.toNat := hpos
            change c.len.toNat - min c.removeLen.toNat (c.len.toNat - c.removePos.toNat) ≤ 1047552
            omega
          · exact ((Nat.sub_le _ _).trans h.len_le).trans (Nat.not_lt.mp hlong))
    (fun c hround hpos _ h _ _ => by
      refine ⟨h.len_le, h.written, fun hno hlong => ?_⟩
      obtain ⟨hlen, hp2, hblock, hdvd⟩ := h.unwritten hno hlong
      refine ⟨hlen, hp2, hblock, ?_⟩
      rw [hround.skipped_removePos hpos]
      exact Nat.dvd_add hdvd hblock.dvd)
    (fun c _ _ _ h => by
      refine ⟨h.len_le, h.written, fun hno hlong => ?_⟩
      obtain ⟨hlen, hp2, hblock, -⟩ := h.unwritten hno hlong
      refine ⟨hlen, hp2, ?_⟩
      rw [toNat_half]
      exact hblock.half)
    (fun c hleft h => by
      refine ⟨h.len_le, h.written, fun hno hlong => ?_⟩
      obtain ⟨hlen, hp2, hblock, -⟩ := h.unwritten hno hlong
      exact ⟨hlen, hp2, Or.inl hblock⟩)
  exact hend.written

/-! ### Which writes are enough -/

/-- The first `write` that succeeds takes `n` bytes. -/
def FirstTakes (takes : ℕ → ℤ) (n : ℕ) : Prop := ∃ j, (∀ i, i < j → takes i ≤ 0) ∧ (n : ℤ) ≤ takes j

theorem taken_eq_zero {takes : ℕ → ℤ} {j : ℕ} : taken takes j = 0 ↔ ∀ i, i < j → takes i ≤ 0 := by
  induction j with
  | zero => simp [taken]
  | succ j ih =>
    rw [taken, Nat.add_eq_zero_iff, ih, Nat.forall_lt_succ_right]
    refine and_congr Iff.rfl ?_
    omega

/-- Such a `write` leaves the right file, whatever the contents are. -/
theorem writeTrimmed_of_firstTakes {takes : ℕ → ℤ} {n : ℕ} (h : FirstTakes takes n) :
    ∃ fuel, ∀ (inBuf : List Byte) (len : U32), len.toNat ≤ inBuf.length → len.toNat ≤ n →
      ∃ w, writeTrimmed takes inBuf len fuel = some w ∧ w.file = inBuf.take len.toNat := by
  obtain ⟨j, hfail, htakes⟩ := h
  have hzero := taken_eq_zero.mpr hfail
  have hall : n ≤ taken takes (j + 1) := by
    rw [taken]
    omega
  refine ⟨j + 2, fun inBuf len hlen hn => writeTrimmed_ends hlen (hn.trans hall) fun i => ?_⟩
  rcases Nat.lt_trichotomy i j with hlt | rfl | hgt
  · have hr : (takes i).toNat = 0 := Int.toNat_of_nonpos (hfail i hlt)
    rw [ChunkFits, hr, Nat.zero_min]
    rfl
  · rw [ChunkFits, hzero, List.drop_zero]
  · refine chunkFits_of_taken ?_
    rw [List.length_take]
    exact ((Nat.min_le_left _ _).trans (hn.trans hall)).trans (taken_mono takes hgt)

/-- A file that begins with a byte found nowhere else in it is written by one call. -/
theorem firstTakes_of_marked {takes : ℕ → ℤ} {data : List Byte} {x : Byte} {rest : List Byte}
    (hdata : data = x :: rest) (hx : x ∉ rest) (hend : ∃ j, data.length ≤ taken takes j)
    (hfits : ∀ j, ChunkFits takes data j) : FirstTakes takes data.length := by
  have hlast : ∃ j, taken takes j < data.length ∧ data.length ≤ taken takes (j + 1) := by
    obtain ⟨j, hj⟩ := hend
    induction j with
    | zero =>
      rw [hdata] at hj
      exact absurd hj (Nat.not_succ_le_zero _)
    | succ j ih =>
      by_cases hlt : data.length ≤ taken takes j
      · exact ih hlt
      · exact ⟨j, Nat.not_le.mp hlt, hj⟩
  obtain ⟨j, hlt, hle⟩ := hlast
  have hfit := hfits j
  have hr : min (takes j).toNat (data.length - taken takes j) = data.length - taken takes j := by
    rw [taken] at hle
    omega
  rw [ChunkFits, hr] at hfit
  have hzero : taken takes j = 0 := by
    by_contra hne
    obtain ⟨m, hm⟩ := Nat.exists_eq_succ_of_ne_zero hne
    obtain ⟨n, hn⟩ := Nat.exists_eq_succ_of_ne_zero (Nat.sub_ne_zero_of_lt hlt)
    refine hx ?_
    rw [hn, hm, hdata, List.drop_succ_cons, List.take_succ_cons] at hfit
    have hmem : x ∈ (rest.drop m).take (n + 1) := by
      rw [← hfit]
      exact List.mem_cons_self ..
    exact List.mem_of_mem_drop (List.mem_of_mem_take hmem)
  refine ⟨j, taken_eq_zero.mp hzero, ?_⟩
  rw [taken, hzero] at hle
  omega

theorem mem_trimBlocks {len removeLen pos : ℕ} (k : ℕ) (hremove : 0 < removeLen)
    (hlt : pos + k * removeLen < len) :
    (pos + k * removeLen, min removeLen (len - (pos + k * removeLen))) ∈
      trimBlocks len removeLen pos := by
  induction k generalizing pos with
  | zero =>
    rw [Nat.zero_mul, Nat.add_zero] at hlt ⊢
    rw [trimBlocks_cons hlt hremove]
    exact List.mem_cons_self ..
  | succ k ih =>
    have hnext : pos + (k + 1) * removeLen = pos + removeLen + k * removeLen := by
      rw [Nat.succ_mul]
      omega
    rw [hnext] at hlt ⊢
    rw [trimBlocks_cons (by omega) hremove]
    exact List.mem_cons_of_mem _ (ih hlt)

theorem mem_trimBlockRounds {len limit removeLen : ℕ} {b : ℕ × ℕ} (j : ℕ) (hlimit : 0 < limit)
    (hge : limit ≤ removeLen / 2 ^ j)
    (hb : b ∈ trimBlocks len (removeLen / 2 ^ j) (removeLen / 2 ^ j)) :
    b ∈ trimBlockRounds len limit removeLen := by
  induction j generalizing removeLen with
  | zero =>
    rw [pow_zero, Nat.div_one] at hge hb
    rw [trimBlockRounds_append hge (hlimit.trans_le hge)]
    exact List.mem_append_left _ hb
  | succ j ih =>
    have hhalf : removeLen / 2 ^ (j + 1) = removeLen / 2 / 2 ^ j := by
      rw [Nat.pow_succ', Nat.div_div_eq_div_mul]
    have hle : limit ≤ removeLen := hge.trans (Nat.div_le_self _ _)
    rw [hhalf] at hge hb
    rw [trimBlockRounds_append hle (hlimit.trans_le hle)]
    exact List.mem_append_right _ (ih hge hb)

/-- Something is removed when there is a block without effect on the trace. -/
theorem firstEvent_accepted {inp : TrimInput} {data : List Byte} {blocks : List (ℕ × ℕ)}
    {b : ℕ × ℕ} (hquiet : ∀ k mem, inp.aborts k mem = false)
    (haccept : ∀ k, inp.accepts k (gap data b.1 b.2) = true) (hb : b ∈ blocks) (k : ℕ) :
    firstEvent inp data k blocks = some .accepted := by
  induction blocks generalizing k with
  | nil => cases hb
  | cons c blocks ih =>
    rw [firstEvent, if_neg (by simp [hquiet])]
    rcases List.mem_cons.mp hb with rfl | hb
    · rw [if_pos (haccept k)]
    · split
      · rfl
      · exact ih hb (k + 1)

/-- The byte 1 and `n` zeros, not cached. -/
def markedCase (n : ℕ) : TestcaseCache :=
  { twelveBytes with
    entries := fun _ =>
      { len := BitVec.ofNat 32 (n + 1)
        belowAverage := true
        file := 1 :: List.replicate n 0
        testcaseBuf := none } }

theorem markedCase_starts {n : ℕ} (hn : n + 1 ≤ maxFileLen) :
    TrimStarts (markedCase n) 0 (1 :: List.replicate n 0) false where
  len := by
    have hn' : n + 1 ≤ 1048576 := hn
    change (BitVec.ofNat 32 (n + 1)).toNat = (List.cons _ (List.replicate n _)).length
    rw [BitVec.toNat_ofNat, Nat.mod_eq_of_lt (by omega), List.length_cons, List.length_replicate]
  cached := nofun
  len_le := by
    change (List.cons _ (List.replicate n _)).length ≤ _
    rw [List.length_cons, List.length_replicate]
    exact hn
  contents := List.take_length
  inPlace := nofun

/-- A target whose trace tells whether the test case has `n` bytes. -/
def lengthTarget (noUnlink : Bool) (takes : ℕ → ℤ) (n : ℕ) : TrimInput where
  hash64 := fun trace => (trace 0).setWidth 64
  mapSize := 64
  execCksum := 1
  run := fun _ mem => (.ok, fun _ => if mem.length = n then 1 else 0)
  noUnlink
  takes

theorem lengthTarget_cksum {noUnlink : Bool} {takes : ℕ → ℤ} {n : ℕ} (mem : List Byte) :
    (lengthTarget noUnlink takes n).cksum (fun _ => if mem.length = n then 1 else 0) = 1 ↔
      mem.length = n := by
  change BitVec.setWidth 64 (classifyCounts64 64 _ 0) = 1 ↔ _
  rw [classifyCounts64_apply (by decide) (by decide)]
  split
  · rename_i h
    exact iff_of_true (by decide) h
  · rename_i h
    exact iff_of_false (by decide) h

theorem lengthTarget_accepts {noUnlink : Bool} {takes : ℕ → ℤ} {n k : ℕ} {mem : List Byte} :
    (lengthTarget noUnlink takes n).accepts k mem = true ↔ mem.length = n :=
  decide_eq_true_iff.trans (lengthTarget_cksum mem)

theorem gap_marked_length (n : ℕ) : (gap (1 :: List.replicate n 0) n 1).length = n := by
  have hn : (1 :: List.replicate n 0 : List Byte).length = n + 1 := by
    rw [List.length_cons, List.length_replicate]
  rw [gap_length hn.ge, hn, Nat.add_sub_cancel]

theorem lengthTarget_steady (noUnlink : Bool) (takes : ℕ → ℤ) (n : ℕ) :
    SteadyTarget (lengthTarget noUnlink takes n) fun mem _ => if mem.length = n then 1 else 0 where
  plain := rfl
  trace := fun _ _ => rfl
  quiet := fun _ _ => rfl

/-- The last block of this test case is one byte behind a multiple of 1024. -/
theorem mem_trimSchedule_longest :
    (longestTrimmed, 1) ∈ trimSchedule (BitVec.ofNat 32 1047553) := by
  have hschedule : trimSchedule (BitVec.ofNat 32 1047553) = trimBlockRounds 1047553 1024 65536 := by
    have hp2 : lenPow2 (BitVec.ofNat 32 1047553) = 1048576 := by decide +kernel
    rw [trimSchedule, hp2]
    rfl
  rw [hschedule]
  refine mem_trimBlockRounds 6 (by decide) (by decide) ?_
  have hlast : (1024 + 1022 * 1024, min 1024 (1047553 - (1024 + 1022 * 1024))) ∈
      trimBlocks 1047553 1024 1024 := mem_trimBlocks 1022 (by decide) (by decide)
  exact hlast

/-! ### The environments in which trimming is sound -/

/-- Trimming is sound for all test cases and targets. -/
def TrimSound (noUnlink : Bool) (takes : ℕ → ℤ) : Prop :=
  ∀ (inp : TrimInput) (trace : List Byte → Bytes) (s : TestcaseCache) (q : ℕ) (inBuf : List Byte)
    (inPlace : Bool), inp.noUnlink = noUnlink → inp.takes = takes → SteadyTarget inp trace →
      TrimStarts s q inBuf inPlace → 5 ≤ (s.entries q).file.length →
        ∃ fuel r, trimCase inp fuel s q inBuf inPlace = some r ∧
          Trimmed inp trace (s.entries q).file r (r.cache.entries q)

theorem not_lt_five {s : TestcaseCache} {q : ℕ} {inBuf : List Byte} {inPlace : Bool}
    (hstart : TrimStarts s q inBuf inPlace) (hlong : 5 ≤ (s.entries q).file.length) :
    ¬ (s.entries q).len < 5 := by
  intro hlt
  have hlt' : (s.entries q).len.toNat < 5 := hlt
  rw [hstart.len] at hlt'
  omega

/-- When the file is written well the function is sound. -/
theorem trimmed_of_writtenFile {inp : TrimInput} {trace : List Byte → Bytes} {s : TestcaseCache}
    {q : ℕ} {inBuf : List Byte} {inPlace : Bool} {fuel : ℕ} (hsteady : SteadyTarget inp trace)
    (hstart : TrimStarts s q inBuf inPlace) (hlong : 5 ≤ (s.entries q).file.length)
    (hfuel : 2 ^ 28 < fuel)
    (hfile : ∀ c : TrimLoop, c.len.toNat ≤ c.inBuf.length → c.len.toNat ≤ longestTrimmed →
      writtenFile inp fuel c = some c.data) :
    ∃ r, trimCase inp fuel s q inBuf inPlace = some r ∧
      Trimmed inp trace (s.entries q).file r (r.cache.entries q) := by
  obtain ⟨c, hc⟩ := trimRounds_ends inp hstart.fits hfuel
  obtain ⟨hkept, hfits⟩ := trimRounds_kept hsteady hc hstart.fits rfl rfl
  rw [trimCase_plain hsteady.plain (not_lt_five hstart hlong), hc, Option.bind_some, hkept.running,
    Bool.false_or]
  cases hwrite : c.needsWrite with
  | false => exact ⟨_, rfl, trimmed_unwritten hstart hkept hwrite⟩
  | true =>
    rw [hfile c hfits.inBuf (trimRounds_longest hc hstart.fits hwrite)]
    exact ⟨_, rfl, (trimmed_written hstart hkept hfits hwrite rfl).mpr rfl⟩

/-- A written file comes from a loop in which all chunks fit. -/
theorem firstTakes_of_trimmed {inp : TrimInput} {trace : List Byte → Bytes} {s : TestcaseCache}
    {q n : ℕ} {inBuf : List Byte} {inPlace : Bool} {fuel : ℕ} {c : TrimLoop} {r : TrimResult}
    (hunlink : inp.noUnlink = true) (hstart : TrimStarts s q inBuf inPlace)
    (hmarked : (s.entries q).file = 1 :: List.replicate n 0)
    (hkept : TrimKept inp trace (trimStart (s.entries q).len inBuf) c) (hfits : TrimFits c)
    (hwrite : c.needsWrite = true)
    (hrun : ((writtenFile inp fuel c).map fun file =>
      c.result (((c.shorten s q inPlace).modify q fun e =>
        { e with len := c.len, file }).queueTestcaseRetakeMem q c.data inPlace c.len
          (s.entries q).len)) = some r)
    (htrimmed : Trimmed inp trace (s.entries q).file r (r.cache.entries q)) :
    FirstTakes inp.takes c.data.length := by
  obtain ⟨file, hfile, rfl⟩ := Option.map_eq_some_iff.mp hrun
  have hdata := (trimmed_written hstart hkept hfits hwrite rfl).mp htrimmed
  rw [writtenFile, hunlink, if_pos rfl] at hfile
  obtain ⟨w, hw, rfl⟩ := Option.map_eq_some_iff.mp hfile
  obtain ⟨hend, hfit⟩ := (writeTrimmed_iff hfits.inBuf).mp ⟨fuel, w, hw, hdata⟩
  have hlength : c.data.length = c.len.toNat := by
    rw [TrimLoop.data, List.length_take, Nat.min_eq_left hfits.inBuf]
  -- the mark is in the part that the trimmer keeps
  have hhead := hkept.head
  have hsub := hkept.sublist
  rw [hstart.data, hmarked] at hhead hsub
  obtain ⟨rest, hrest⟩ : ∃ rest, c.data = 1 :: rest := by
    cases hcons : c.data with
    | nil =>
      rw [hcons] at hhead
      cases hhead
    | cons x rest =>
      rw [hcons, List.take_succ_cons, List.take_succ_cons] at hhead
      exact ⟨rest, by rw [(List.cons.inj hhead).1]⟩
  refine firstTakes_of_marked hrest (fun hone => ?_) (by rw [hlength]; exact hend) hfit
  rw [hrest] at hsub
  have hzero := List.eq_of_mem_replicate ((List.cons_sublist_cons.mp hsub).subset hone)
  exact absurd hzero (by decide)

/-- The result that a marked test case must have for trimming to be sound. -/
def MarkedSound (takes : ℕ → ℤ) (m n : ℕ) : Prop :=
  ∃ fuel r, trimCase (lengthTarget true takes n) fuel (markedCase m) 0 (1 :: List.replicate m 0)
      false = some r ∧
    Trimmed (lengthTarget true takes n) (fun mem _ => if mem.length = n then 1 else 0)
      ((markedCase m).entries 0).file r (r.cache.entries 0)

/-- It is trimmed to `n` bytes if one of its blocks leaves these, and they take one `write`. -/
theorem firstTakes_of_markedSound {takes : ℕ → ℤ} {m n : ℕ} {b : ℕ × ℕ} (hm : m + 1 ≤ maxFileLen)
    (hlong : 4 ≤ m) (hb : b ∈ trimSchedule (BitVec.ofNat 32 (m + 1)))
    (hgap : (gap (1 :: List.replicate m 0) b.1 b.2).length = n) (h : MarkedSound takes m n) :
    FirstTakes takes n := by
  obtain ⟨fuel, r, hrun, htrimmed⟩ := h
  have hstart := markedCase_starts hm
  have hfile : ((markedCase m).entries 0).file = 1 :: List.replicate m 0 := rfl
  have hfive : 5 ≤ ((markedCase m).entries 0).file.length := by
    rw [hfile, List.length_cons, List.length_replicate]
    omega
  have hsteady := lengthTarget_steady true takes n
  rw [trimCase_plain rfl (not_lt_five hstart hfive)] at hrun
  obtain ⟨c, hc, hrun⟩ := Option.bind_eq_some_iff.mp hrun
  obtain ⟨hkept, hfits⟩ := trimRounds_kept hsteady hc hstart.fits rfl rfl
  have hevent : firstEvent (lengthTarget true takes n) ((markedCase m).entries 0).file 0
      (trimSchedule (BitVec.ofNat 32 (m + 1))) = some .accepted := by
    refine firstEvent_accepted hsteady.quiet (fun k => ?_) hb 0
    rw [hfile]
    exact lengthTarget_accepts.mpr hgap
  have hwrite : c.needsWrite = true := by
    have hprogress := trimRounds_progress hc hstart.fits rfl rfl rfl
    rw [hstart.data] at hprogress
    rcases hprogress with ⟨-, -, -, -, -, hfirst⟩ | ⟨-, -, -, -, hfirst⟩ | ⟨-, hyes, -⟩
    · exact nomatch hevent.symm.trans hfirst
    · exact nomatch hevent.symm.trans hfirst
    · exact hyes
  rw [hkept.running, hwrite, if_neg (by simp)] at hrun
  have hcount : c.data.length = n := (lengthTarget_cksum _).mp (hkept.written hwrite).1
  rw [← hcount]
  exact firstTakes_of_trimmed rfl hstart hfile hkept hfits hwrite hrun htrimmed

/-- Trimming is sound if files are unlinked, or if the first `write` that succeeds takes the longest
trimmed file as a whole. -/
theorem trimCase_sound_iff (noUnlink : Bool) (takes : ℕ → ℤ) :
    TrimSound noUnlink takes ↔ noUnlink = false ∨ FirstTakes takes longestTrimmed := by
  constructor
  · intro hsound
    cases noUnlink with
    | false => exact Or.inl rfl
    | true =>
      refine Or.inr (firstTakes_of_markedSound (m := longestTrimmed) (by decide) (by decide)
        mem_trimSchedule_longest (gap_marked_length longestTrimmed) ?_)
      refine hsound _ _ (markedCase longestTrimmed) 0 _ false rfl rfl (lengthTarget_steady ..)
        (markedCase_starts (by decide)) ?_
      change 5 ≤ (List.cons _ (List.replicate longestTrimmed _)).length
      rw [List.length_cons, List.length_replicate]
      decide
  · intro henv inp trace s q inBuf inPlace hunlink htakes hsteady hstart hlong
    subst hunlink htakes
    cases hno : inp.noUnlink with
    | false =>
      refine ⟨2 ^ 28 + 1, trimmed_of_writtenFile hsteady hstart hlong (by decide) fun c _ _ => ?_⟩
      rw [writtenFile, hno, if_neg Bool.false_ne_true]
    | true =>
      obtain ⟨fuel, hfuel⟩ := writeTrimmed_of_firstTakes
        (henv.resolve_left fun h => Bool.false_ne_true (h.symm.trans hno))
      refine ⟨fuel + (2 ^ 28 + 1), trimmed_of_writtenFile hsteady hstart hlong (by omega)
        fun c hlen hle => ?_⟩
      obtain ⟨w, hw, hfile⟩ := hfuel c.inBuf c.len hlen hle
      have hw' : writeTrimmed inp.takes c.inBuf c.len (fuel + (2 ^ 28 + 1)) = some w :=
        whileLoop_add hw _
      rw [writtenFile, hno, if_pos rfl, hw', Option.map_some, hfile]
      rfl

/-- Eight bytes are trimmed to four, of which each `write` takes one. -/
theorem not_markedSound_short_writes : ¬ MarkedSound (fun _ => 1) 7 4 := by
  intro h
  have hschedule : trimSchedule (BitVec.ofNat 32 (7 + 1)) = trimBlockRounds 8 4 4 := rfl
  obtain ⟨j, hfail, htakes⟩ := firstTakes_of_markedSound (b := (4, 4)) (by decide) (by decide)
    (by
      rw [hschedule, trimBlockRounds_append (by decide) (by decide),
        trimBlocks_cons (by decide) (by decide)]
      exact List.mem_cons_self ..)
    (by decide) h
  have hfour : (4 : ℤ) ≤ 1 := htakes
  exact absurd hfour (by decide)

end AflPlusPlus
