import AflPlusPlus.Coverage.NewBits

/-!
# Accumulated coverage

`has_new_bits` walks whole words of the real map. Here its result is described byte by byte, without
mentioning the word size, and from that what a sequence of calls leaves in the virgin map: the
traces are taken out of it one after the other, so their order does not matter.
-/

namespace AflPlusPlus.Coverage
open Lib

/-- The trace hits byte `j`, which no trace has hit before. -/
def NewTupleAt (virgin trace : Bytes) (j : ℕ) : Prop := trace j ≠ 0 ∧ virgin j = 0xff

/-- The trace has a bit at byte `j` that is still set in the virgin map. -/
def NewCountAt (virgin trace : Bytes) (j : ℕ) : Prop := trace j &&& virgin j ≠ 0

/-- The virgin map without the bits that the trace has in its first `n` bytes. -/
def clearFirst (n : ℕ) (virgin trace : Bytes) : Bytes := fun j =>
  if j < n then virgin j &&& ~~~ trace j else virgin j

/-- What the return value says about the first `n` bytes. -/
structure Reports (virgin trace : Bytes) (n : ℕ) (ret : Byte) : Prop where
  two : ret = 2 ↔ ∃ j, j < n ∧ NewTupleAt virgin trace j
  zero : ret = 0 ↔ ¬ ∃ j, j < n ∧ NewCountAt virgin trace j
  le_two : ret ≤ 2

theorem NewTupleAt.newCountAt {virgin trace : Bytes} {j : ℕ} (h : NewTupleAt virgin trace j) :
    NewCountAt virgin trace j := by
  obtain ⟨htrace, hvirgin⟩ := h
  rw [NewCountAt, hvirgin, show (0xff : Byte) = BitVec.allOnes 8 from rfl, BitVec.and_allOnes]
  exact htrace

theorem Reports.one {virgin trace : Bytes} {n : ℕ} {ret : Byte} (h : Reports virgin trace n ret) :
    ret = 1 ↔ (¬ ∃ j, j < n ∧ NewTupleAt virgin trace j) ∧
      ∃ j, j < n ∧ NewCountAt virgin trace j := by
  have hcases : ∀ r : Byte, r ≤ 2 → (r = 1 ↔ r ≠ 2 ∧ r ≠ 0) := by decide
  rw [hcases ret h.le_two, ← h.two, ne_eq, ne_eq, h.zero, not_not]

/-- The three cases leave only one possible return value. -/
theorem Reports.unique {virgin trace : Bytes} {n : ℕ} {ret ret' : Byte}
    (h : Reports virgin trace n ret) (h' : Reports virgin trace n ret') : ret = ret' := by
  have hcases : ∀ r : Byte, r ≤ 2 → r = 0 ∨ r = 1 ∨ r = 2 := by decide
  rcases hcases ret h.le_two with h0 | h1 | h2
  · rw [h0, h'.zero.mpr (h.zero.mp h0)]
  · rw [h1, h'.one.mpr (h.one.mp h1)]
  · rw [h2, h'.two.mpr (h.two.mp h2)]

/-! ### One word -/

/-- The bytes up to block `k` of size `n` and those of the block. -/
theorem exists_lt_succ_mul_iff {n : ℕ} (k : ℕ) (p : ℕ → Prop) :
    (∃ j, j < (k + 1) * n ∧ p j) ↔
      (∃ j, j < k * n ∧ p j) ∨ ∃ b, b < n ∧ p (k * n + b) := by
  have hsucc : (k + 1) * n = k * n + n := Nat.succ_mul _ _
  constructor
  · rintro ⟨j, hj, hp⟩
    by_cases hlt : j < k * n
    · exact Or.inl ⟨j, hlt, hp⟩
    · refine Or.inr ⟨j - k * n, by omega, ?_⟩
      rwa [Nat.add_sub_cancel' (by omega)]
  · rintro (⟨j, hj, hp⟩ | ⟨b, hb, hp⟩)
    · exact ⟨j, by omega, hp⟩
    · exact ⟨k * n + b, by omega, hp⟩

/-- An address is its block and its offset in it. -/
theorem mul_add_mod_of_div_eq {j n k : ℕ} (h : j / n = k) : k * n + j % n = j := by
  rw [← h, Nat.mul_comm]
  exact Nat.div_add_mod _ _

/-- One block more is cleared. -/
theorem clearFirst_succ {n : ℕ} (hpos : 0 < n) (trace virgin : Bytes) (k : ℕ) :
    clearFirst ((k + 1) * n) virgin trace = fun j =>
      if j / n = k then clearFirst (k * n) virgin trace j &&& ~~~ trace j
      else clearFirst (k * n) virgin trace j := by
  funext j
  have hlow : j < k * n ↔ j / n < k := (Nat.div_lt_iff_lt_mul hpos).symm
  have hhigh : j < (k + 1) * n ↔ j / n < k + 1 := (Nat.div_lt_iff_lt_mul hpos).symm
  simp only [clearFirst, hlow, hhigh]
  rcases Nat.lt_trichotomy (j / n) k with h | h | h
  · simp [h, Nat.lt_succ_of_lt h, Nat.ne_of_lt h]
  · simp [h]
  · simp [Nat.not_lt_of_lt h, Nat.ne_of_gt h, show ¬ j / n < k + 1 by omega]

theorem and_not_of_and_eq_zero {n : ℕ} {x y : BitVec n} (h : y &&& x = 0#n) : x &&& ~~~ y = x := by
  ext i hi
  have hbit := congrArg (fun z : BitVec n => z.getLsbD i) h
  simp only [BitVec.getLsbD_and, BitVec.getLsbD_zero] at hbit
  rw [BitVec.getElem_and, BitVec.getElem_not, ← BitVec.getLsbD_eq_getElem,
    ← BitVec.getLsbD_eq_getElem]
  cases hx : x.getLsbD i <;> cases hy : y.getLsbD i <;> simp_all

section Words

variable {w : ℕ} (hw : 8 ∣ w)
include hw

/-- The word test of `discover_word` looks for a bit that is still virgin. -/
theorem word_and_ne_zero_iff (trace virgin : Bytes) (k : ℕ) :
    word w trace k &&& word w virgin k ≠ 0#w ↔
      ∃ b, b < w / 8 ∧ NewCountAt virgin trace (k * (w / 8) + b) := by
  rw [ne_zero_iff_wordByte hw]
  refine exists_congr fun b => and_congr_right fun hb => ?_
  rw [wordByte_and, wordByte_word hw _ _ hb, wordByte_word hw _ _ hb]
  rfl

/-- The unrolled byte tests of `discover_word` look for a pristine byte. -/
theorem any_pristine_iff (trace virgin : Bytes) (k : ℕ) :
    ((List.range (w / 8)).any fun b =>
      wordByte (word w trace k) b ≠ 0 && wordByte (word w virgin k) b == 0xff) = true ↔
      ∃ b, b < w / 8 ∧ NewTupleAt virgin trace (k * (w / 8) + b) := by
  simp only [List.any_eq_true, List.mem_range]
  refine exists_congr fun b => and_congr_right fun hb => ?_
  rw [wordByte_word hw _ _ hb, wordByte_word hw _ _ hb]
  simp [NewTupleAt]

/-- `*virgin &= ~*current` takes the trace out of the bytes of one word. -/
theorem setWord_and_not (hpos : 0 < w / 8) (trace virgin : Bytes) (k : ℕ) :
    setWord w virgin k (word w virgin k &&& ~~~ word w trace k) = fun j =>
      if j / (w / 8) = k then virgin j &&& ~~~ trace j else virgin j := by
  funext j
  rw [setWord]
  by_cases hblock : j / (w / 8) = k
  · have hb : j % (w / 8) < w / 8 := Nat.mod_lt _ hpos
    have hj := mul_add_mod_of_div_eq hblock
    have hbyte := wordByte_and (word w virgin k) (~~~ word w trace k) (j % (w / 8))
    rw [wordByte_not hw _ hb, wordByte_word hw _ _ hb, wordByte_word hw _ _ hb, hj] at hbyte
    rw [if_pos hblock, if_pos hblock]
    exact hbyte
  · rw [if_neg hblock, if_neg hblock]

/-- The words not walked yet are those of the virgin map. -/
theorem word_clearFirst (trace virgin : Bytes) (k : ℕ) :
    word w (clearFirst (k * (w / 8)) virgin trace) k = word w virgin k := by
  apply eq_of_wordByte hw
  intro b hb
  rw [wordByte_word hw _ _ hb, wordByte_word hw _ _ hb, clearFirst, if_neg (by omega)]

/-- One iteration of the loop, for the value: it is raised by what the word's bytes show. -/
theorem Reports.discoverWordW {trace virgin : Bytes} {k : ℕ} {ret : Byte}
    (h : Reports virgin trace (k * (w / 8)) ret) :
    Reports virgin trace ((k + 1) * (w / 8))
      (discoverWordW w k trace (ret, clearFirst (k * (w / 8)) virgin trace)).1 := by
  have htuple := exists_lt_succ_mul_iff (n := w / 8) k (NewTupleAt virgin trace)
  have hcount := exists_lt_succ_mul_iff (n := w / 8) k (NewCountAt virgin trace)
  simp only [Coverage.discoverWordW, word_clearFirst hw]
  by_cases hword : word w trace k &&& word w virgin k ≠ 0#w
  · rw [if_pos hword]
    have hnew := (word_and_ne_zero_iff hw trace virgin k).mp hword
    by_cases hlt : ret < 2
    · have hnot2 : ret ≠ 2 := fun h2 => absurd hlt (by rw [h2]; decide)
      simp only [if_pos hlt]
      by_cases hany : ∃ b, b < w / 8 ∧ NewTupleAt virgin trace (k * (w / 8) + b)
      · rw [if_pos ((any_pristine_iff hw trace virgin k).mpr hany)]
        exact ⟨iff_of_true rfl (htuple.mpr (Or.inr hany)),
          iff_of_false (by decide) (not_not.mpr (hcount.mpr (Or.inr hnew))), by decide⟩
      · rw [if_neg (fun hc => hany ((any_pristine_iff hw trace virgin k).mp hc))]
        refine ⟨iff_of_false (by decide) ?_,
          iff_of_false (by decide) (not_not.mpr (hcount.mpr (Or.inr hnew))), by decide⟩
        rw [htuple, ← h.two]
        exact not_or.mpr ⟨hnot2, hany⟩
    · -- the result is 2 already and is not upgraded any more
      have h2 : ret = 2 := by
        have hle := h.le_two
        exact BitVec.le_antisymm hle (BitVec.not_lt.mp hlt)
      simp only [if_neg hlt]
      refine ⟨iff_of_true h2 (htuple.mpr (Or.inl (h.two.mp h2))),
        iff_of_false (by rw [h2]; decide) (not_not.mpr (hcount.mpr (Or.inr hnew))), h.le_two⟩
  · have hnone : ¬ ∃ b, b < w / 8 ∧ NewCountAt virgin trace (k * (w / 8) + b) := fun hb =>
      hword ((word_and_ne_zero_iff hw trace virgin k).mpr hb)
    have hnoTuple : ¬ ∃ b, b < w / 8 ∧ NewTupleAt virgin trace (k * (w / 8) + b) := by
      rintro ⟨b, hb, hp⟩
      exact hnone ⟨b, hb, hp.newCountAt⟩
    rw [if_neg hword]
    exact ⟨by rw [htuple, or_iff_left hnoTuple, h.two], by rw [hcount, or_iff_left hnone, h.zero],
      h.le_two⟩

/-- One iteration of the loop, for the map. -/
theorem discoverWordW_map (hpos : 0 < w / 8) (trace virgin : Bytes) (k : ℕ) (ret : Byte) :
    (discoverWordW w k trace (ret, clearFirst (k * (w / 8)) virgin trace)).2 =
      clearFirst ((k + 1) * (w / 8)) virgin trace := by
  rw [clearFirst_succ hpos, Coverage.discoverWordW]
  by_cases hword : word w trace k &&& word w (clearFirst (k * (w / 8)) virgin trace) k ≠ 0#w
  · simp only [if_pos hword]
    exact setWord_and_not hw hpos trace _ k
  · simp only [if_neg hword]
    -- the word has no virgin bit of the trace, so clearing would change nothing
    funext j
    split
    · rename_i hblock
      have hb : j % (w / 8) < w / 8 := Nat.mod_lt _ hpos
      have hj := mul_add_mod_of_div_eq hblock
      rw [word_and_ne_zero_iff hw] at hword
      push Not at hword
      have hzero := hword _ hb
      rw [hj, NewCountAt, not_not] at hzero
      exact (and_not_of_and_eq_zero hzero).symm
    · rfl

/-- The whole loop, over the `words` words it walks. -/
theorem newBitsLoopW_spec (hpos : 0 < w / 8) (realMapSize : ℕ) (trace virgin : Bytes) :
    let walked := (realMapSize + (w / 8 - 1)) / (w / 8) * (w / 8)
    Reports virgin trace walked (newBitsLoopW w realMapSize trace virgin).1 ∧
      (newBitsLoopW w realMapSize trace virgin).2 = clearFirst walked virgin trace := by
  refine forLoop_induct (fun k (st : Byte × Bytes) => Reports virgin trace (k * (w / 8)) st.1 ∧
    st.2 = clearFirst (k * (w / 8)) virgin trace) ?_ ?_
  · rw [Nat.zero_mul]
    exact ⟨⟨by simp, by simp, show (0 : Byte) ≤ 2 by decide⟩, by funext j; simp [clearFirst]⟩
  · rintro k ⟨ret, map⟩ _ ⟨hret, hmap⟩
    simp only at hret hmap
    subst hmap
    have hbody := And.intro (Reports.discoverWordW hw hret)
      (discoverWordW_map hw hpos trace virgin k ret)
    by_cases hzero : word w trace k = 0#w
    · -- the caller skips zero words, on which `discover_word` would do nothing
      have hskip : discoverWordW w k trace (ret, clearFirst (k * (w / 8)) virgin trace) =
          (ret, clearFirst (k * (w / 8)) virgin trace) := by
        simp [discoverWordW, hzero]
      rw [hskip] at hbody
      simpa [hzero] using hbody
    · simpa [hzero] using hbody

end Words

/-! ### One call and a sequence of calls -/

/-- The trace is zero behind the real map. -/
def ZeroTail (s : Maps) (trace : Bytes) : Prop :=
  ∀ j, s.realMapSize ≤ j → j < s.mapSize → trace j = 0

/-- The calls of `has_new_bits` on the traces in the given order: the values returned and the maps
left behind. -/
def Build.accumulate (b : Build) : List Bytes → Maps → List Byte × Maps
  | [], s => ([], s)
  | t :: ts, s =>
    let r := b.hasNewBits { s with traceBits := t }
    let rest := b.accumulate ts r.2
    (r.1 :: rest.1, rest.2)

/-- The OR of all traces at byte `j`. -/
def unionAt (traces : List Bytes) (j : ℕ) : Byte := traces.foldr (fun t acc => t j ||| acc) 0

theorem Build.width_div_pos (b : Build) : 0 < b.width / 8 := by cases b <;> decide

/-- The words walked end inside the map. -/
theorem Build.walked_le (b : Build) (s : Maps) :
    s.realMapSize ≤ (s.realMapSize + (b.width / 8 - 1)) / (b.width / 8) * (b.width / 8) ∧
      (s.realMapSize + (b.width / 8 - 1)) / (b.width / 8) * (b.width / 8) ≤ s.mapSize := by
  have hreal := s.real_le
  obtain ⟨n, hn⟩ := s.aligned
  have hbytes : b.width / 8 = 8 ∨ b.width / 8 = 4 := by cases b <;> decide
  rcases hbytes with hb | hb <;> rw [hb] <;> omega

/-- One call, described on the bytes of the map and without its word size. -/
theorem Build.hasNewBits_spec (b : Build) {s : Maps} (h : ZeroTail s s.traceBits) :
    Reports s.virginMap s.traceBits s.mapSize (b.hasNewBits s).1 ∧
      (b.hasNewBits s).2 = { s with
        virginMap := clearFirst s.mapSize s.virginMap s.traceBits
        bitmapChanged := if (b.hasNewBits s).1 ≠ 0 && s.isVirginBits then true
          else s.bitmapChanged } := by
  obtain ⟨hret, hmap⟩ := newBitsLoopW_spec b.width_dvd b.width_div_pos s.realMapSize s.traceBits
    s.virginMap
  obtain ⟨hlow, hhigh⟩ := b.walked_le s
  -- between the end of the real map and the end of the map the trace is zero
  have hzero : ∀ j, (s.realMapSize + (b.width / 8 - 1)) / (b.width / 8) * (b.width / 8) ≤ j →
      j < s.mapSize → s.traceBits j = 0 := fun j hj => h j (Nat.le_trans hlow hj)
  constructor
  · have hextend : ∀ p : ℕ → Prop, (∀ j, p j → s.traceBits j ≠ 0) →
        ((∃ j, j < (s.realMapSize + (b.width / 8 - 1)) / (b.width / 8) * (b.width / 8) ∧ p j) ↔
          ∃ j, j < s.mapSize ∧ p j) := by
      intro p hp
      constructor
      · rintro ⟨j, hj, hpj⟩
        exact ⟨j, Nat.lt_of_lt_of_le hj hhigh, hpj⟩
      · rintro ⟨j, hj, hpj⟩
        refine ⟨j, ?_, hpj⟩
        by_contra hge
        exact hp j hpj (hzero j (Nat.le_of_not_lt hge) hj)
    have htuple := hextend (NewTupleAt s.virginMap s.traceBits) fun j hj => hj.1
    have hcount := hextend (NewCountAt s.virginMap s.traceBits) fun j hj h0 => hj (by simp [h0])
    exact ⟨hret.two.trans htuple, hret.zero.trans (not_congr hcount), hret.le_two⟩
  · simp only [Build.hasNewBits, hasNewBitsW, hmap]
    congr 1
    funext j
    simp only [clearFirst]
    split
    · rw [if_pos (by omega)]
    · split
      · have h0 := hzero j (by omega) (by assumption)
        exact (and_not_of_and_eq_zero (by rw [h0]; exact BitVec.zero_and)).symm
      · rfl

/-- A call on a trace without a virgin bit returns 0 and changes nothing. -/
theorem Build.hasNewBits_of_seen (b : Build) {s : Maps} (h : ZeroTail s s.traceBits)
    (hseen : ∀ j, j < s.mapSize → s.traceBits j &&& s.virginMap j = 0) :
    b.hasNewBits s = (0, s) := by
  obtain ⟨hret, hmaps⟩ := b.hasNewBits_spec h
  have h0 : (b.hasNewBits s).1 = 0 := hret.zero.mpr fun ⟨j, hj, hnew⟩ => hnew (hseen j hj)
  have hclear : clearFirst s.mapSize s.virginMap s.traceBits = s.virginMap := by
    funext j
    simp only [clearFirst]
    split
    · exact and_not_of_and_eq_zero (hseen j (by assumption))
    · rfl
  refine Prod.ext h0 ?_
  rw [hmaps, hclear, h0]
  rfl

theorem Build.accumulate_append (b : Build) (xs ys : List Bytes) (s : Maps) :
    b.accumulate (xs ++ ys) s =
      ((b.accumulate xs s).1 ++ (b.accumulate ys (b.accumulate xs s).2).1,
        (b.accumulate ys (b.accumulate xs s).2).2) := by
  induction xs generalizing s with
  | nil => rfl
  | cons t ts ih =>
    rw [List.cons_append, accumulate, ih]
    rfl

theorem Build.accumulate_length (b : Build) (ts : List Bytes) (s : Maps) :
    (b.accumulate ts s).1.length = ts.length := by
  induction ts generalizing s with
  | nil => rfl
  | cons t ts ih => exact congrArg Nat.succ (ih _)

/-- The calls keep the sizes, so what is assumed of a trace stays true. -/
theorem Build.accumulate_sizes (b : Build) (ts : List Bytes) (s : Maps) :
    (b.accumulate ts s).2.mapSize = s.mapSize ∧
      (b.accumulate ts s).2.realMapSize = s.realMapSize := by
  induction ts generalizing s with
  | nil => exact ⟨rfl, rfl⟩
  | cons t ts ih => exact ih _

theorem ZeroTail.accumulate {s : Maps} {t : Bytes} (h : ZeroTail s t) (b : Build)
    (ts : List Bytes) : ZeroTail (b.accumulate ts s).2 t := by
  obtain ⟨hmap, hreal⟩ := b.accumulate_sizes ts s
  rw [ZeroTail, hmap, hreal]
  exact h

/-- What a sequence of calls leaves in the virgin map. -/
theorem Build.accumulate_virginMap (b : Build) (ts : List Bytes) (s : Maps)
    (h : ∀ t ∈ ts, ZeroTail s t) {j : ℕ} (hj : j < s.mapSize) :
    (b.accumulate ts s).2.virginMap j = s.virginMap j &&& ~~~ unionAt ts j := by
  induction ts generalizing s with
  | nil =>
    rw [unionAt, List.foldr_nil, show ~~~ (0 : Byte) = BitVec.allOnes 8 from rfl,
      BitVec.and_allOnes]
    rfl
  | cons t ts ih =>
    have hcall := (b.hasNewBits_spec (s := { s with traceBits := t })
      (h t List.mem_cons_self)).2
    rw [accumulate]
    simp only
    rw [ih (b.hasNewBits { s with traceBits := t }).2
      (fun u hu => h u (List.mem_cons_of_mem t hu)) hj, hcall]
    simp only [clearFirst, if_pos hj, unionAt, List.foldr_cons]
    rw [BitVec.not_or, BitVec.and_assoc]

/-- The OR of the traces does not depend on their order. -/
theorem unionAt_perm {xs ys : List Bytes} (h : xs.Perm ys) (j : ℕ) :
    unionAt xs j = unionAt ys j := by
  induction h with
  | nil => rfl
  | cons t _ ih => exact congrArg (t j ||| ·) ih
  | swap t u ts =>
    simp only [unionAt, List.foldr_cons]
    rw [← BitVec.or_assoc, BitVec.or_comm (u j), BitVec.or_assoc]
  | trans _ _ ih ih' => exact ih.trans ih'

/-- A trace of the list has no bit left after the union is cleared. -/
theorem and_not_unionAt {ts : List Bytes} {t : Bytes} (ht : t ∈ ts) (x : Byte) (j : ℕ) :
    t j &&& (x &&& ~~~ unionAt ts j) = 0 := by
  have hle : t j &&& ~~~ unionAt ts j = 0 := by
    induction ts with
    | nil => exact absurd ht List.not_mem_nil
    | cons u us ih =>
      rw [unionAt, List.foldr_cons, BitVec.not_or]
      rcases List.mem_cons.mp ht with rfl | hmem
      · rw [← BitVec.and_assoc, BitVec.and_not_self]
        exact BitVec.zero_and
      · rw [BitVec.and_comm (~~~ u j), ← BitVec.and_assoc]
        have := ih hmem
        rw [unionAt] at this
        rw [this]
        exact BitVec.zero_and
  rw [← BitVec.and_assoc, BitVec.and_comm (t j), BitVec.and_assoc, hle]
  exact BitVec.and_zero

/-- All builds do the same on every sequence of traces. -/
theorem Build.accumulate_agree (b b' : Build) (ts : List Bytes) (s : Maps)
    (h : ∀ t ∈ ts, ZeroTail s t) : b'.accumulate ts s = b.accumulate ts s := by
  induction ts generalizing s with
  | nil => rfl
  | cons t ts ih =>
    have ht : ZeroTail { s with traceBits := t } t := h t List.mem_cons_self
    obtain ⟨hret, hmaps⟩ := b.hasNewBits_spec ht
    obtain ⟨hret', hmaps'⟩ := b'.hasNewBits_spec ht
    have hvalue := hret'.unique hret
    have hcall : b'.hasNewBits { s with traceBits := t } = b.hasNewBits { s with traceBits := t } :=
      Prod.ext hvalue (by rw [hmaps', hmaps, hvalue])
    rw [accumulate, accumulate, hcall]
    rw [ih (b.hasNewBits { s with traceBits := t }).2 fun u hu => h u (List.mem_cons_of_mem t hu)]

/-- Whatever the order in which the traces come, the virgin map ends up without exactly the bits of
their union, every call reports what its trace shows against the map as it was, a trace seen
before is reported as 0 and changes nothing, and no build differs in any of this. -/
theorem accumulate_any_order (b : Build) (s : Maps) (traces : List Bytes)
    (h : ∀ t ∈ traces, ZeroTail s t) (order : List Bytes) (hperm : order.Perm traces) :
    let final := (b.accumulate order s).2
    (∀ j, j < s.mapSize → final.virginMap j = s.virginMap j &&& ~~~ unionAt traces j) ∧
      (∀ pre t post, order = pre ++ t :: post →
        let before := (b.accumulate pre s).2
        let call := b.hasNewBits { before with traceBits := t }
        (b.accumulate order s).1[pre.length]? = some call.1 ∧
          (call.1 = 2 ↔ ∃ j, j < s.mapSize ∧ NewTupleAt before.virginMap t j) ∧
          (call.1 = 1 ↔ (¬ ∃ j, j < s.mapSize ∧ NewTupleAt before.virginMap t j) ∧
            ∃ j, j < s.mapSize ∧ NewCountAt before.virginMap t j) ∧
          (call.1 = 0 ↔ (¬ ∃ j, j < s.mapSize ∧ NewTupleAt before.virginMap t j) ∧
            ¬ ∃ j, j < s.mapSize ∧ NewCountAt before.virginMap t j) ∧
          b.hasNewBits call.2 = (0, call.2)) ∧
      (∀ t ∈ traces, b.hasNewBits { final with traceBits := t } =
        (0, { final with traceBits := t })) ∧
      ∀ b' : Build, b'.accumulate order s = b.accumulate order s := by
  intro final
  have horder : ∀ t ∈ order, ZeroTail s t := fun t ht => h t (hperm.mem_iff.mp ht)
  have hfinal : ∀ j, j < s.mapSize →
      final.virginMap j = s.virginMap j &&& ~~~ unionAt traces j := by
    intro j hj
    rw [← unionAt_perm hperm j]
    exact b.accumulate_virginMap order s horder hj
  refine ⟨hfinal, ?_, ?_, fun b' => b.accumulate_agree b' order s horder⟩
  · intro pre t post hsplit before call
    have ht : t ∈ order := hsplit ▸ List.mem_append_right pre List.mem_cons_self
    have hzero : ZeroTail before t := (horder t ht).accumulate b pre
    have hsize : before.mapSize = s.mapSize := (b.accumulate_sizes pre s).1
    obtain ⟨hret, hmaps⟩ := b.hasNewBits_spec (s := { before with traceBits := t }) hzero
    have htwo := hret.two
    have hone := hret.one
    have h0 := hret.zero
    simp only [hsize] at htwo hone h0
    have hnoTuple : (¬ ∃ j, j < s.mapSize ∧ NewCountAt before.virginMap t j) →
        ¬ ∃ j, j < s.mapSize ∧ NewTupleAt before.virginMap t j := by
      rintro hn ⟨j, hj, hp⟩
      exact hn ⟨j, hj, hp.newCountAt⟩
    refine ⟨?_, htwo, hone, h0.trans ⟨fun hn => ⟨hnoTuple hn, hn⟩, And.right⟩, ?_⟩
    · rw [hsplit, b.accumulate_append, List.getElem?_append_right (b.accumulate_length pre s).le,
        b.accumulate_length, Nat.sub_self]
      rfl
    · -- the call has just cleared the bits of its own trace
      have hrepeat : call.2.virginMap = clearFirst before.mapSize before.virginMap t := by
        rw [hmaps]
      refine b.hasNewBits_of_seen (s := call.2) hzero fun j hj => ?_
      have hbefore : j < before.mapSize := hj
      have hself := and_not_unionAt (List.mem_singleton.mpr rfl : t ∈ [t]) (before.virginMap j) j
      rw [unionAt, List.foldr_cons, List.foldr_nil] at hself
      rw [hrepeat, clearFirst, if_pos hbefore]
      exact (congrArg (fun u : Byte =>
        t j &&& (before.virginMap j &&& ~~~ u)) BitVec.or_zero).symm.trans
        hself
  · intro t ht
    have hzero : ZeroTail final t := (h t ht).accumulate b order
    refine b.hasNewBits_of_seen (s := { final with traceBits := t }) hzero fun j hj => ?_
    have hsize : final.mapSize = s.mapSize := (b.accumulate_sizes order s).1
    rw [hfinal j (hsize ▸ hj)]
    exact and_not_unionAt ht _ j

/-- A map of one block of which three bytes are real, untouched so far. -/
def untouchedMaps : Maps where
  mapSize := 64
  realMapSize := 3
  traceBits := fun _ => 0
  virginMap := fun _ => 0xff
  isVirginBits := true
  bitmapChanged := false
  aligned := ⟨1, rfl⟩
  real_le := by decide

/-- Two traces that overlap in byte 0, taken in the order opposite to their list. -/
theorem accumulate_two_overlapping_traces :
    let t1 : Bytes := fun j => if j = 0 then 1 else 0
    let t2 : Bytes := fun j => if j = 0 then 3 else if j = 2 then 8 else 0
    (Build.word64.accumulate [t2, t1] untouchedMaps).2.virginMap 0 = 0xfc ∧
      (Build.word64.accumulate [t2, t1] untouchedMaps).2.virginMap 2 = 0xf7 := by
  intro t1 t2
  have hzero : ∀ t ∈ [t1, t2], ZeroTail untouchedMaps t := by
    intro t ht j hj _
    have hj3 : 3 ≤ j := hj
    have h0 : j ≠ 0 := by omega
    have h2 : j ≠ 2 := by omega
    simp only [List.mem_cons, List.not_mem_nil, or_false] at ht
    rcases ht with rfl | rfl
    · exact if_neg h0
    · simp only [t2, if_neg h0, if_neg h2]
  obtain ⟨hfinal, -⟩ := accumulate_any_order .word64 untouchedMaps [t1, t2] hzero [t2, t1]
    (List.Perm.swap t1 t2 [])
  exact ⟨(hfinal 0 (by decide)).trans (by decide), (hfinal 2 (by decide)).trans (by decide)⟩

end AflPlusPlus.Coverage
