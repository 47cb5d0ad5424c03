import AflPlusPlus.Trim.Candidates

/-!
# Aborted trimming

The built-in trimmer shortens `q->len` with the first block that it removes, and the file only at
the end. An abort in between leaves the two different. Which comes first can be read off the
candidates that the trimmer tries on the original test case.
-/

namespace AflPlusPlus
open Lib

/-- The blocks of a round from position `pos` on, each with its length. -/
def trimBlocks (len removeLen pos : ℕ) : List (ℕ × ℕ) :=
  if pos < len ∧ 0 < removeLen then
    (pos, min removeLen (len - pos)) :: trimBlocks len removeLen (pos + removeLen)
  else []
termination_by len - pos
decreasing_by omega

/-- The blocks of the rounds from `removeLen` on. -/
def trimBlockRounds (len limit removeLen : ℕ) : List (ℕ × ℕ) :=
  if limit ≤ removeLen ∧ 0 < removeLen then
    trimBlocks len removeLen removeLen ++ trimBlockRounds len limit (removeLen / 2)
  else []
termination_by removeLen
decreasing_by omega

/-- `MAX(len_p2 / TRIM_END_STEPS, TRIM_MIN_BYTES)`. -/
def trimLimit (lenP2 : U32) : ℕ := (maxU32 (lenP2 / trimEndSteps) trimMinBytes).toNat

/-- The blocks that the trimmer tries to remove from a test case while it keeps all of them. -/
def trimSchedule (len : U32) : List (ℕ × ℕ) :=
  trimBlockRounds len.toNat (trimLimit (lenPow2 len))
    (maxU32 (lenPow2 len / trimStartSteps) trimMinBytes).toNat

inductive TrimEvent
  | aborted
  | accepted
  deriving DecidableEq

/-- Whether an abort or a block without effect comes first, from the `k`-th execution on. -/
def firstEvent (inp : TrimInput) (data : List Byte) : ℕ → List (ℕ × ℕ) → Option TrimEvent
  | _, [] => none
  | k, (pos, n) :: rest =>
    if inp.aborts k (gap data pos n) then some .aborted
    else if inp.accepts k (gap data pos n) then some .accepted
    else firstEvent inp data (k + 1) rest

/-- How the trimmer that began in `s` has come to `c`, with the blocks of `rest` ahead as long as
nothing has happened. -/
inductive Progress (inp : TrimInput) (s : TrimLoop) (first : Option TrimEvent)
    (rest : List (ℕ × ℕ)) (c : TrimLoop) : Prop
  | quiet (data : c.data = s.data) (len : c.len = s.len) (lenP2 : c.lenP2 = s.lenP2)
      (unwritten : c.needsWrite = false) (running : c.aborted = false)
      (event : first = firstEvent inp s.data c.execs rest)
  | aborted (data : c.data = s.data) (len : c.len = s.len) (unwritten : c.needsWrite = false)
      (left : c.aborted = true) (event : first = some .aborted)
  | accepted (len : c.len.toNat < s.len.toNat) (written : c.needsWrite = true)
      (event : first = some .accepted)

theorem trimBlocks_cons {len removeLen pos : ℕ} (hpos : pos < len) (hremove : 0 < removeLen) :
    trimBlocks len removeLen pos =
      (pos, min removeLen (len - pos)) :: trimBlocks len removeLen (pos + removeLen) := by
  rw [trimBlocks, if_pos ⟨hpos, hremove⟩]

theorem trimBlocks_nil {len removeLen pos : ℕ} (hpos : ¬ pos < len) :
    trimBlocks len removeLen pos = [] := by
  rw [trimBlocks, if_neg fun h => hpos h.1]

theorem le_trimLimit (lenP2 : U32) : 4 ≤ trimLimit lenP2 := by
  rw [trimLimit, toNat_maxU32]
  exact Nat.le_max_right _ _

theorem trimBlockRounds_append {len limit removeLen : ℕ} (hlimit : limit ≤ removeLen)
    (hremove : 0 < removeLen) :
    trimBlockRounds len limit removeLen =
      trimBlocks len removeLen removeLen ++ trimBlockRounds len limit (removeLen / 2) := by
  rw [trimBlockRounds, if_pos ⟨hlimit, hremove⟩]

theorem trimBlockRounds_nil {len limit removeLen : ℕ} (hlimit : ¬ limit ≤ removeLen) :
    trimBlockRounds len limit removeLen = [] := by
  rw [trimBlockRounds, if_neg fun h => hlimit h.1]

/-- The candidate is the first block ahead. -/
theorem Progress.step {inp : TrimInput} {s c : TrimLoop} {first : Option TrimEvent}
    {rest : List (ℕ × ℕ)} (h : Progress inp s first
      (trimBlocks s.len.toNat c.removeLen.toNat c.removePos.toNat ++ rest) c)
    (hround : InRound c) (hpos : c.removePos < c.len) (habort : c.aborted = false) :
    (c.data = s.data ∧ c.len = s.len ∧ c.lenP2 = s.lenP2 ∧ c.needsWrite = false ∧
        first = if inp.aborts c.execs c.candidate then some .aborted
          else if inp.accepts c.execs c.candidate then some .accepted
          else firstEvent inp s.data (c.execs + 1) (trimBlocks s.len.toNat c.removeLen.toNat
            (c.removePos.toNat + c.removeLen.toNat) ++ rest)) ∨
      c.len.toNat < s.len.toNat ∧ c.needsWrite = true ∧ first = some .accepted := by
  rcases h with ⟨hdata, hlen, hp2, hno, -, hevent⟩ | ⟨-, -, -, hleft, -⟩ | ⟨hless, hyes, hevent⟩
  · refine Or.inl ⟨hdata, hlen, hp2, hno, ?_⟩
    have hpos' : c.removePos.toNat < s.len.toNat := hlen ▸ hpos
    have hremove := hround.removeLen_ge
    rw [hevent, trimBlocks_cons hpos' (by omega), List.cons_append, firstEvent, TrimLoop.candidate,
      TrimLoop.avail, hdata, hlen]
  · rw [habort] at hleft
    cases hleft
  · exact Or.inr ⟨hless, hyes, hevent⟩

/-- The end of the loops in terms of the first event. -/
theorem trimRounds_progress {inp : TrimInput} {fuel : ℕ} {s t : TrimLoop}
    (hrun : trimRounds inp fuel s = some t) (hfits : TrimFits s) (hwrite : s.needsWrite = false)
    (habort : s.aborted = false) (hexecs : s.execs = 0) :
    Progress inp s (firstEvent inp s.data 0 (trimBlockRounds s.len.toNat (trimLimit s.lenP2)
      s.removeLen.toNat)) [] t := by
  obtain ⟨first, hfirst⟩ : ∃ first, firstEvent inp s.data 0
      (trimBlockRounds s.len.toNat (trimLimit s.lenP2) s.removeLen.toNat) = first := ⟨_, rfl⟩
  rw [hfirst]
  have hstart : Progress inp s first
      (trimBlockRounds s.len.toNat (trimLimit s.lenP2) s.removeLen.toNat) s :=
    .quiet rfl rfl rfl hwrite habort (by rw [← hfirst, hexecs])
  obtain ⟨hend, -, hdone⟩ := trimRounds_invariant
    (fun c => Progress inp s first
      (trimBlockRounds s.len.toNat (trimLimit s.lenP2) c.removeLen.toNat) c)
    (fun c => Progress inp s first
      (trimBlocks s.len.toNat c.removeLen.toNat c.removePos.toNat ++
        trimBlockRounds s.len.toNat (trimLimit s.lenP2) (c.removeLen.toNat / 2)) c)
    hrun hfits hstart
    (fun c hP hrunning hge => by
      rcases hP with ⟨hdata, hlen, hp2, hno, -, hevent⟩ | ⟨-, -, -, hleft, -⟩ |
        ⟨hless, hyes, hevent⟩
      · have hlimit : trimLimit s.lenP2 ≤ c.removeLen.toNat := hp2 ▸ hge
        have hfour := le_trimLimit s.lenP2
        rw [trimBlockRounds_append hlimit (by omega)] at hevent
        exact .quiet hdata hlen hp2 hno hrunning hevent
      · rw [hrunning] at hleft
        cases hleft
      · exact .accepted hless hyes hevent)
    (fun c hround hpos hrunning hQ habort => by
      obtain ⟨hdata, hlen, -, hno, hevent⟩ | ⟨hless, hyes, hevent⟩ := hQ.step hround hpos hrunning
      · rw [if_pos habort] at hevent
        exact .aborted hdata hlen hno rfl hevent
      · exact .accepted hless hyes hevent)
    (fun c hround hpos hrunning hQ habort haccept => by
      have hlen' : (c.removed inp).len.toNat = c.len.toNat - c.avail := InRound.removed_len hpos
      have havail := hround.avail_pos hpos
      have hpos' : c.removePos.toNat < c.len.toNat := hpos
      obtain ⟨-, hlen, -, -, hevent⟩ | ⟨hless, -, hevent⟩ := hQ.step hround hpos hrunning
      · rw [if_neg (by simp [habort]), if_pos haccept] at hevent
        refine .accepted ?_ rfl hevent
        rw [hlen', ← hlen]
        omega
      · refine .accepted ?_ rfl hevent
        rw [hlen']
        omega)
    (fun c hround hpos hrunning hQ habort haccept => by
      obtain ⟨hdata, hlen, hp2, hno, hevent⟩ | ⟨hless, hyes, hevent⟩ :=
        hQ.step hround hpos hrunning
      · rw [if_neg (by simp [habort]), if_neg (by simp [haccept])] at hevent
        refine .quiet hdata hlen hp2 hno hrunning ?_
        rw [hround.skipped_removePos hpos]
        exact hevent
      · exact .accepted hless hyes hevent)
    (fun c hround hpos hrunning hQ => by
      rcases hQ with ⟨hdata, hlen, hp2, hno, -, hevent⟩ | ⟨-, -, -, hleft, -⟩ |
        ⟨hless, hyes, hevent⟩
      · have hpos' : ¬ c.removePos.toNat < s.len.toNat := hlen ▸ hpos
        rw [trimBlocks_nil hpos', List.nil_append] at hevent
        refine .quiet hdata hlen hp2 hno hrunning ?_
        rw [toNat_half]
        exact hevent
      · rw [hrunning] at hleft
        cases hleft
      · exact .accepted hless hyes hevent)
    (fun c hleft hQ => by
      rcases hQ with ⟨-, -, -, -, hrunning, -⟩ | ⟨hdata, hlen, hno, -, hevent⟩ |
        ⟨hless, hyes, hevent⟩
      · rw [hrunning] at hleft
        cases hleft
      · exact .aborted hdata hlen hno hleft hevent
      · exact .accepted hless hyes hevent)
  rcases hend with ⟨hdata, hlen, hp2, hno, hrunning, hevent⟩ | ⟨hdata, hlen, hno, hleft, hevent⟩ |
    ⟨hless, hyes, hevent⟩
  · have hlimit : ¬ trimLimit s.lenP2 ≤ t.removeLen.toNat := hp2 ▸ hdone hrunning
    rw [trimBlockRounds_nil hlimit] at hevent
    exact .quiet hdata hlen hp2 hno hrunning hevent
  · exact .aborted hdata hlen hno hleft hevent
  · exact .accepted hless hyes hevent

/-! ### The entry on return -/

/-- The length and the cached copy are those of the file. -/
structure Consistent (e : CacheEntry) : Prop where
  len : e.len.toNat = e.file.length
  cached : ∀ buf ∈ e.testcaseBuf, buf.take e.file.length = e.file

/-- Entry `q` and its contents `inBuf` as they are given to `trim_case`. -/
structure TrimStarts (s : TestcaseCache) (q : ℕ) (inBuf : List Byte) (inPlace : Bool) : Prop
    extends Consistent (s.entries q) where
  len_le : (s.entries q).file.length ≤ maxFileLen
  contents : inBuf.take (s.entries q).file.length = (s.entries q).file
  inPlace : inPlace = true → (s.entries q).testcaseBuf = some inBuf

theorem TestcaseCache.modify_entries (s : TestcaseCache) (q : ℕ) (f : CacheEntry → CacheEntry) :
    (s.modify q f).entries q = f (s.entries q) :=
  Function.update_self ..

theorem customUnsuccessful_outBuf {m : CustomTrim} {c v : CustomLoop}
    (h : customUnsuccessful m c = some v) : v.outBuf = c.outBuf := by
  unfold customUnsuccessful at h
  split at h
  · cases h
  · obtain rfl := Option.some.inj h
    rfl

/-- The buffer that is kept is one that has been run. -/
theorem customStep_outBuf {inp : TrimInput} {m : CustomTrim} {c v : CustomLoop}
    (h : customStep inp m c = some v) :
    v.outBuf = c.outBuf ∨ ∃ retbuf, v.outBuf = some (m.sent retbuf) := by
  obtain ⟨retbuf, -, hstep⟩ := Option.bind_eq_some_iff.mp h
  by_cases hnil : retbuf = []
  · dsimp only at hstep
    rw [if_pos hnil, if_pos rfl] at hstep
    exact Or.inl (customUnsuccessful_outBuf hstep)
  · dsimp only at hstep
    rw [if_neg hnil] at hstep
    split at hstep
    · exact Or.inl (customUnsuccessful_outBuf hstep)
    · split at hstep
      · obtain rfl := Option.some.inj hstep
        exact Or.inl rfl
      · split at hstep
        · obtain rfl := Option.some.inj hstep
          exact Or.inr ⟨retbuf, rfl⟩
        · exact Or.inl ((customUnsuccessful_outBuf hstep).trans rfl)

/-- A custom trimmer changes the length with the file. -/
theorem trimCaseCustom_len {inp : TrimInput} {fuel q : ℕ} {m : CustomTrim} {r r' : TrimResult}
    (hrun : trimCaseCustom inp fuel q m r = some r')
    (hlen : (r.cache.entries q).len.toNat = (r.cache.entries q).file.length) :
    (r'.cache.entries q).len.toNat = (r'.cache.entries q).file.length := by
  obtain ⟨c, hc, rfl⟩ := Option.map_eq_some_iff.mp hrun
  obtain ⟨hout, -⟩ := whileLoop_invariant
    (fun c : CustomLoop => ∀ out, c.outBuf = some out → out.length < 2 ^ 32) hc nofun
    fun u v hu _ hstep out hmem => by
      obtain hsame | ⟨retbuf, hsent⟩ := customStep_outBuf hstep
      · exact hu out (hsame.symm.trans hmem)
      · rw [hsent] at hmem
        rw [← Option.some.inj hmem]
        exact m.sent_lt retbuf
  dsimp only
  split
  · rename_i hsome
    rw [TestcaseCache.modify_entries]
    change (BitVec.ofNat 32 _).toNat = _
    rw [BitVec.toNat_ofNat, Nat.mod_eq_of_lt (hout _ hsome)]
    rfl
  · exact hlen

theorem queueTestcaseRetake_consistent {s : TestcaseCache} {q : ℕ} {oldLen : U32}
    (hlen : (s.entries q).len.toNat = (s.entries q).file.length) :
    Consistent ((s.queueTestcaseRetake q oldLen).entries q) := by
  have hread : s.readFile q = (s.entries q).file := by
    rw [TestcaseCache.readFile, hlen, List.take_length]
  unfold TestcaseCache.queueTestcaseRetake
  split
  · rename_i hnone
    refine ⟨hlen, fun buf hbuf => ?_⟩
    rw [hnone] at hbuf
    cases hbuf
  · dsimp only
    split
    · change Consistent (Function.update s.entries q _ q)
      rw [Function.update_self, hread]
      refine ⟨hlen, fun buf hbuf => ?_⟩
      obtain rfl := Option.some.inj hbuf
      exact List.take_length
    · rw [TestcaseCache.modify_entries, hread]
      refine ⟨hlen, fun buf hbuf => ?_⟩
      obtain rfl := Option.some.inj hbuf
      exact List.take_left

/-- Trimming by custom mutators leaves the entry consistent, however it ends. -/
theorem trimCase_custom_consistent {inp : TrimInput} {fuel : ℕ} {s : TestcaseCache} {q : ℕ}
    {inBuf : List Byte} {inPlace : Bool} {r : TrimResult}
    (htrims : (inp.customMutators.filterMap CustomMutator.trim).isEmpty = false)
    (hlen : (s.entries q).len.toNat = (s.entries q).file.length)
    (hrun : trimCase inp fuel s q inBuf inPlace = some r) : Consistent (r.cache.entries q) := by
  unfold trimCase at hrun
  dsimp only at hrun
  rw [htrims, if_pos (by rfl)] at hrun
  obtain ⟨r', hr', rfl⟩ := Option.map_eq_some_iff.mp hrun
  have hall : ∀ (ms : List CustomTrim) (r r' : TrimResult),
      (r.cache.entries q).len.toNat = (r.cache.entries q).file.length →
      ms.foldlM (fun r m => trimCaseCustom inp fuel q m r) r = some r' →
        (r'.cache.entries q).len.toNat = (r'.cache.entries q).file.length := by
    intro ms
    induction ms with
    | nil =>
      intro r r' hlen hfold
      obtain rfl := Option.some.inj hfold
      exact hlen
    | cons m ms ih =>
      intro r r' hlen hfold
      rw [List.foldlM_cons] at hfold
      obtain ⟨u, hu, hfold⟩ := Option.bind_eq_some_iff.mp hfold
      exact ih u r' (trimCaseCustom_len hu hlen) hfold
  exact queueTestcaseRetake_consistent (hall _ _ r' hlen hr')

/-- The first state of the loops. -/
theorem TrimStarts.fits {s : TestcaseCache} {q : ℕ} {inBuf : List Byte} {inPlace : Bool}
    (h : TrimStarts s q inBuf inPlace) : TrimFits (trimStart (s.entries q).len inBuf) := by
  have hlen := congrArg List.length h.contents
  rw [List.length_take] at hlen
  refine ⟨?_, ?_, ?_⟩
  · change (s.entries q).len.toNat ≤ inBuf.length
    rw [h.len]
    omega
  · exact h.len.trans_le h.len_le
  · have hp2 := (lenPow2 (s.entries q).len).isLt
    have hdiv : (lenPow2 (s.entries q).len / trimStartSteps).toNat =
        (lenPow2 (s.entries q).len).toNat / 16 := BitVec.toNat_udiv
    change (maxU32 _ trimMinBytes).toNat < _
    rw [toNat_maxU32, hdiv]
    refine Nat.max_lt.mpr ⟨?_, by decide⟩
    omega

theorem TrimStarts.data {s : TestcaseCache} {q : ℕ} {inBuf : List Byte} {inPlace : Bool}
    (h : TrimStarts s q inBuf inPlace) :
    (trimStart (s.entries q).len inBuf).data = (s.entries q).file := by
  change inBuf.take (s.entries q).len.toNat = _
  rw [h.len]
  exact h.contents

/-- After an abort the entry is consistent when a custom mutator has done the trimming, otherwise
if the abort comes before the first block of the original test case without effect on the trace. -/
theorem trimCase_consistent_iff {inp : TrimInput} {fuel : ℕ} {s : TestcaseCache} {q : ℕ}
    {inBuf : List Byte} {inPlace : Bool} {r : TrimResult} (hstart : TrimStarts s q inBuf inPlace)
    (hrun : trimCase inp fuel s q inBuf inPlace = some r) (habort : r.aborted = true) :
    Consistent (r.cache.entries q) ↔
      (∃ m ∈ inp.customMutators, m.trim.isSome = true) ∨
        firstEvent inp (s.entries q).file 0 (trimSchedule (s.entries q).len) = some .aborted := by
  cases htrims : (inp.customMutators.filterMap CustomMutator.trim).isEmpty with
  | false =>
    refine iff_of_true (trimCase_custom_consistent htrims hstart.len hrun) (Or.inl ?_)
    obtain ⟨t, ht⟩ := List.exists_mem_of_ne_nil _ (List.isEmpty_eq_false_iff.mp htrims)
    obtain ⟨m, hm, hmt⟩ := List.mem_filterMap.mp ht
    exact ⟨m, hm, by rw [hmt]; rfl⟩
  | true =>
    have hnone : ¬ ∃ m ∈ inp.customMutators, m.trim.isSome = true := by
      rintro ⟨m, hm, hsome⟩
      obtain ⟨t, ht⟩ := Option.isSome_iff_exists.mp hsome
      have hmem := List.mem_filterMap.mpr ⟨m, hm, ht⟩
      rw [List.isEmpty_iff.mp htrims] at hmem
      cases hmem
    rw [or_iff_right hnone]
    unfold trimCase at hrun
    dsimp only at hrun
    rw [htrims, if_neg (by simp)] at hrun
    split at hrun
    · cases hrun
      cases habort
    · obtain ⟨c, hc, hrun⟩ := Option.bind_eq_some_iff.mp hrun
      have hprogress := trimRounds_progress hc hstart.fits rfl rfl rfl
      rw [hstart.data] at hprogress
      split at hrun
      · obtain rfl := Option.some.inj hrun
        dsimp only at habort ⊢
        rw [TestcaseCache.modify_entries]
        rcases hprogress with ⟨-, -, -, -, hrunning, -⟩ | ⟨hdata, hlen, -, -, hevent⟩ |
          ⟨hless, -, hevent⟩
        · rw [hrunning] at habort
          cases habort
        · refine iff_of_true ⟨(congrArg BitVec.toNat hlen).trans hstart.len, ?_⟩ hevent
          intro buf hbuf
          dsimp only at hbuf ⊢
          cases inPlace with
          | false => exact hstart.cached buf hbuf
          | true =>
            obtain rfl := Option.some.inj hbuf
            rw [TrimLoop.data, hstart.data, hlen] at hdata
            rw [← hstart.len]
            exact hdata
        · refine iff_of_false (fun hcons => ?_) ?_
          · have hlen : c.len.toNat = (s.entries q).file.length := hcons.len
            have hold := hstart.len
            change c.len.toNat < (s.entries q).len.toNat at hless
            omega
          · intro habort'
            rw [trimSchedule] at habort'
            cases hevent.symm.trans habort'
      · rename_i hgoon
        obtain ⟨cache, -, rfl⟩ := Option.map_eq_some_iff.mp hrun
        have habort' : c.aborted = true := habort
        exact absurd (by rw [habort']; rfl) hgoon

/-- A cached entry of twelve bytes. -/
def twelveBytes : TestcaseCache where
  entries := fun _ =>
    { len := 12, belowAverage := false, file := List.replicate 12 7,
      testcaseBuf := some (List.replicate 12 7) }
  queuedItems := 1
  queueCur := some 0
  maxCacheSize := 1000
  maxCacheEntries := 10
  cacheSize := 12
  maxCacheCount := 1
  cacheCount := 1
  smallestFree := 1
  evictions := 0
  cache := fun tid => if tid = 0 then some 0 else none
  allocated := 11
  doOnce := false

/-- A target with the same trace for all test cases; `stop_soon` is set during execution `k`. -/
def stopDuring (k : ℕ) : TrimInput where
  hash64 := fun _ => 0
  mapSize := 64
  execCksum := 0
  run := fun _ _ => (.ok, fun _ => 0)
  stopSoon := fun i => i = k

theorem twelveBytes_starts : TrimStarts twelveBytes 0 (List.replicate 12 7) true where
  len := rfl
  cached := fun buf hbuf => by
    obtain rfl := Option.some.inj hbuf
    rfl
  len_le := by decide
  contents := rfl
  inPlace := fun _ => rfl

/-- Stopped during the first execution. -/
theorem trimCase_consistent_twelveBytes :
    ∃ r, trimCase (stopDuring 0) 5 twelveBytes 0 (List.replicate 12 7) true = some r ∧
      r.aborted = true ∧ Consistent (r.cache.entries 0) := by
  have hrun : trimCase (stopDuring 0) 5 twelveBytes 0 (List.replicate 12 7) true = some _ := rfl
  refine ⟨_, hrun, rfl, (trimCase_consistent_iff twelveBytes_starts hrun rfl).mpr (Or.inr ?_)⟩
  have hschedule : trimSchedule 12 = trimBlockRounds 12 4 4 := rfl
  change firstEvent _ _ 0 (trimSchedule 12) = _
  rw [hschedule, trimBlockRounds_append (by decide) (by decide),
    trimBlocks_cons (by decide) (by decide)]
  rfl

/-- Stopped during the second execution, after a block was removed. -/
theorem trimCase_inconsistent_twelveBytes :
    ∃ r, trimCase (stopDuring 1) 5 twelveBytes 0 (List.replicate 12 7) true = some r ∧
      r.aborted = true ∧ ¬ Consistent (r.cache.entries 0) :=
  ⟨_, rfl, rfl, fun h => absurd h.len (by decide)⟩

end AflPlusPlus
