import AflPlusPlus.Lib.Loop
import AflPlusPlus.Mutation.Values

/-!
# Splicing

When the other stages have found nothing, `fuzz_one_original` glues the current input to another
entry of the queue, at a point between the first and the last byte in which they differ, and hands
the result to the havoc stage. What it copies behind that point is the beginning of the other entry.
-/

namespace AflPlusPlus.Mutation
open Lib

def spliceCycles : ℕ := 15

/-- The first and the last offset at which the buffers differ, or `-1`. -/
def locateDiffs (ptr1 ptr2 : Bytes) (len : ℕ) : ℤ × ℤ :=
  forLoop len (fun pos (fLoc, lLoc) =>
    if ptr1 pos ≠ ptr2 pos then (if fLoc = -1 then (pos : ℤ) else fLoc, (pos : ℤ))
    else (fLoc, lLoc)) (-1, -1)

/-- A test case in memory. -/
structure TestCase where
  buf : Bytes
  len : ℕ

/-- `out_buf` and its length on the way to the havoc stage, and the point chosen on the way. -/
structure SpliceResult where
  outBuf : Bytes
  len : ℕ
  splitAt : ℕ

/-- From `locate_diffs` to the copy to `out_buf`; `none` is `goto retry_splicing`. `scratch` and
`out` are the old contents of the buffers. -/
def spliceWith (scratch out : Bytes) (cur target : TestCase) : Rand (Option SpliceResult) := do
  let (fDiff, lDiff) := locateDiffs cur.buf target.buf (min cur.len target.len)
  if fDiff < 0 ∨ lDiff < 2 ∨ fDiff = lDiff then return none
  let splitAt := fDiff.toNat + (← randBelow (lDiff - fDiff).toNat)
  let len := target.len
  let inBuf := copyBlock scratch 0 cur.buf 0 splitAt
  let inBuf := copyBlock inBuf splitAt target.buf 0 (len - splitAt)
  return some { outBuf := copyBlock out 0 inBuf 0 len, len, splitAt }

/-- What the block reads of the fuzzer. -/
structure SpliceQueue where
  useSplicing : Bool
  readyForSplicingCount : ℕ
  queuedItems : ℕ
  currentEntry : ℕ
  queueBuf : ℕ → TestCase

/-- The loop around `rand_below`; at most `fuel` times. -/
def pickTarget (afl : SpliceQueue) : ℕ → Rand ℕ
  | 0 => fun _ => none
  | fuel + 1 => do
    let tid ← randBelow afl.queuedItems
    if tid = afl.currentEntry ∨ (afl.queueBuf tid).len < 4 then pickTarget afl fuel else pure tid

/-- From `retry_splicing` on, with `cycles` left of `SPLICE_CYCLES`. `modified` says that `in_buf`
is not `orig_in`, and `len` is what the stages before have left in the variable. `none`: the block
is not entered. -/
def retrySplicing (afl : SpliceQueue) (scratch out origIn : Bytes) :
    ℕ → Bool → ℕ → Rand (Option SpliceResult)
  | 0, _, _ => pure none
  | cycles + 1, modified, len => do
    let curLen := (afl.queueBuf afl.currentEntry).len
    if afl.useSplicing ∧ afl.readyForSplicingCount > 1 ∧ curLen ≥ 4 then
      let len := if modified then curLen else len
      let draws ← get
      let tid ← pickTarget afl (draws.length + 1)
      match ← spliceWith scratch out ⟨origIn, len⟩ (afl.queueBuf tid) with
      | none => retrySplicing afl scratch out origIn cycles false len
      | some r => return some r
    else return none

/-- The block, in a state in which `splice_cycle` counts the splices so far. -/
def splicing (afl : SpliceQueue) (scratch out origIn : Bytes) (spliceCycle : ℕ) (modified : Bool)
    (len : ℕ) : Rand (Option SpliceResult) :=
  retrySplicing afl scratch out origIn (spliceCycles - spliceCycle) modified len

/-- The two differ at `pos`. -/
def DifferAt (cur target : TestCase) (pos : ℕ) : Prop :=
  pos < min cur.len target.len ∧ cur.buf pos ≠ target.buf pos

structure FirstDiff (cur target : TestCase) (pos : ℕ) : Prop where
  differ : DifferAt cur target pos
  le : ∀ i, DifferAt cur target i → pos ≤ i

structure LastDiff (cur target : TestCase) (pos : ℕ) : Prop where
  differ : DifferAt cur target pos
  le : ∀ i, DifferAt cur target i → i ≤ pos

/-- What is right about a splice: its length, the place of its split point, and its head. -/
structure SpliceHead (cur target : TestCase) (r : SpliceResult) : Prop where
  len : r.len = target.len
  between : ∃ first last, FirstDiff cur target first ∧ LastDiff cur target last ∧
    first ≤ r.splitAt ∧ r.splitAt < last
  head : ∀ i, i < r.splitAt → r.outBuf i = cur.buf i

/-- A splice of the two. -/
structure Spliced (cur target : TestCase) (r : SpliceResult) : Prop
    extends SpliceHead cur target r where
  tail : ∀ i, r.splitAt ≤ i → i < r.len → r.outBuf i = target.buf i

/-! ### The differences -/

/-- What the scan has found before position `pos`. -/
structure Scanned (ptr1 ptr2 : Bytes) (pos : ℕ) (s : ℤ × ℤ) : Prop where
  none : s.1 = -1 → s.2 = -1 ∧ ∀ i, i < pos → ptr1 i = ptr2 i
  some : s.1 ≠ -1 → ∃ first last : ℕ, s = ((first : ℤ), (last : ℤ)) ∧ first ≤ last ∧ last < pos ∧
    ptr1 first ≠ ptr2 first ∧ ptr1 last ≠ ptr2 last ∧
    ∀ i, i < pos → ptr1 i ≠ ptr2 i → first ≤ i ∧ i ≤ last

theorem locateDiffs_scanned (ptr1 ptr2 : Bytes) (len : ℕ) :
    Scanned ptr1 ptr2 len (locateDiffs ptr1 ptr2 len) := by
  refine forLoop_induct (Scanned ptr1 ptr2) ?_ ?_
  · exact ⟨fun _ => ⟨rfl, fun i hi => absurd hi (Nat.not_lt_zero i)⟩, fun h => absurd rfl h⟩
  rintro pos ⟨fLoc, lLoc⟩ hpos ⟨hnone, hsome⟩
  dsimp only
  by_cases hdiff : ptr1 pos = ptr2 pos
  · rw [if_neg (not_not.mpr hdiff)]
    refine ⟨fun h => ⟨(hnone h).1, fun i hi => ?_⟩, fun h => ?_⟩
    · obtain hi | rfl := Nat.lt_succ_iff_lt_or_eq.mp hi
      · exact (hnone h).2 i hi
      · exact hdiff
    · obtain ⟨first, last, hs, hle, hlt, hfirst, hlast, hall⟩ := hsome h
      refine ⟨first, last, hs, hle, by omega, hfirst, hlast, fun i hi hne => hall i ?_ hne⟩
      obtain hi | rfl := Nat.lt_succ_iff_lt_or_eq.mp hi
      · exact hi
      · exact absurd hdiff hne
  · rw [if_pos hdiff]
    by_cases hfirst : fLoc = -1
    · rw [if_pos hfirst]
      refine ⟨fun h => absurd h (by change (pos : ℤ) ≠ -1; omega), fun _ => ?_⟩
      refine ⟨pos, pos, rfl, Nat.le_refl _, Nat.lt_succ_self _, hdiff, hdiff, fun i hi hne => ?_⟩
      have hge : ¬ i < pos := fun hlt => hne ((hnone hfirst).2 i hlt)
      omega
    · rw [if_neg hfirst]
      refine ⟨fun h => absurd h hfirst, fun _ => ?_⟩
      obtain ⟨first, last, hs, hle, hlt, hf, hl, hall⟩ := hsome hfirst
      refine ⟨first, pos, ?_, by omega, Nat.lt_succ_self _, hf, hdiff, fun i hi hne => ?_⟩
      · rw [(Prod.mk.inj hs).1]
      · obtain hi | rfl := Nat.lt_succ_iff_lt_or_eq.mp hi
        · have := hall i hi hne
          omega
        · omega

variable {cur target : TestCase}

theorem locateDiffs_eq {first last : ℕ} (hfirst : FirstDiff cur target first)
    (hlast : LastDiff cur target last) :
    locateDiffs cur.buf target.buf (min cur.len target.len) = ((first : ℤ), (last : ℤ)) := by
  obtain ⟨hnone, hsome⟩ := locateDiffs_scanned cur.buf target.buf (min cur.len target.len)
  have hfound : (locateDiffs cur.buf target.buf (min cur.len target.len)).1 ≠ -1 := fun h =>
    hfirst.differ.2 ((hnone h).2 first hfirst.differ.1)
  obtain ⟨f, l, hs, hle, hlt, hf, hl, hall⟩ := hsome hfound
  have hfl : f < min cur.len target.len := by omega
  have h1 := hall first hfirst.differ.1 hfirst.differ.2
  have h2 := hall last hlast.differ.1 hlast.differ.2
  have h3 := hfirst.le f ⟨hfl, hf⟩
  have h4 := hlast.le l ⟨hlt, hl⟩
  rw [hs, show f = first by omega, show l = last by omega]

/-- The differences are those found by the scan, when it finds two. -/
theorem diffs_of_locateDiffs
    (h : 0 ≤ (locateDiffs cur.buf target.buf (min cur.len target.len)).1) :
    ∃ first last, FirstDiff cur target first ∧ LastDiff cur target last := by
  obtain ⟨first, last, -, hle, hlt, hf, hl, hall⟩ :=
    (locateDiffs_scanned cur.buf target.buf (min cur.len target.len)).some (by omega)
  exact ⟨first, last, ⟨⟨by omega, hf⟩, fun i hi => (hall i hi.1 hi.2).1⟩,
    ⟨⟨hlt, hl⟩, fun i hi => (hall i hi.1 hi.2).2⟩⟩

/-! ### The copies -/

/-- What `spliceWith` builds at the split point `splitAt`. -/
def gluedAt (scratch out : Bytes) (cur target : TestCase) (splitAt : ℕ) : SpliceResult where
  outBuf := copyBlock out 0
    (copyBlock (copyBlock scratch 0 cur.buf 0 splitAt) splitAt target.buf 0 (target.len - splitAt))
    0 target.len
  len := target.len
  splitAt := splitAt

theorem spliceWith_eq (scratch out : Bytes) {first last : ℕ} (hfirst : FirstDiff cur target first)
    (hlast : LastDiff cur target last) (hne : first ≠ last) (htwo : 2 ≤ last) :
    spliceWith scratch out cur target = do
      let k ← randBelow (last - first)
      return some (gluedAt scratch out cur target (first + k)) := by
  have hlimit : ((last : ℤ) - first).toNat = last - first := by omega
  unfold spliceWith
  rw [locateDiffs_eq hfirst hlast]
  dsimp only
  rw [if_neg (by omega), hlimit]
  rfl

theorem gluedAt_outBuf (scratch out : Bytes) {splitAt i : ℕ} (hi : i < target.len) :
    (gluedAt scratch out cur target splitAt).outBuf i =
      if i < splitAt then cur.buf i else target.buf (i - splitAt) := by
  change copyBlock out 0 _ 0 target.len i = _
  rw [copyBlock, if_pos ⟨Nat.zero_le i, by omega⟩, Nat.sub_zero, Nat.zero_add]
  by_cases hsplit : i < splitAt
  · rw [if_pos hsplit, copyBlock, if_neg (by omega), copyBlock, if_pos (by omega), Nat.sub_zero,
      Nat.zero_add]
  · rw [if_neg hsplit, copyBlock, if_pos (by omega), Nat.zero_add]

theorem gluedAt_head (scratch out : Bytes) {first last splitAt : ℕ}
    (hfirst : FirstDiff cur target first) (hlast : LastDiff cur target last)
    (hge : first ≤ splitAt) (hlt : splitAt < last) :
    SpliceHead cur target (gluedAt scratch out cur target splitAt) := by
  refine ⟨rfl, ⟨first, last, hfirst, hlast, hge, hlt⟩, fun i hi => ?_⟩
  have hsplit : i < splitAt := hi
  have := hlast.differ.1
  rw [gluedAt_outBuf scratch out (by omega), if_pos hsplit]

/-- Whatever the draw, a splice has the right length, split point and head. -/
theorem spliceWith_head (scratch out : Bytes) (cur target : TestCase) :
    Returns (spliceWith scratch out cur target) fun r => ∀ s ∈ r, SpliceHead cur target s := by
  by_cases hgo : (locateDiffs cur.buf target.buf (min cur.len target.len)).1 < 0 ∨
      (locateDiffs cur.buf target.buf (min cur.len target.len)).2 < 2 ∨
      (locateDiffs cur.buf target.buf (min cur.len target.len)).1 =
        (locateDiffs cur.buf target.buf (min cur.len target.len)).2
  · have heq : spliceWith scratch out cur target = pure none := by
      unfold spliceWith
      exact if_pos hgo
    rw [heq]
    exact .pure fun s hs => nomatch hs
  · have hfound : 0 ≤ (locateDiffs cur.buf target.buf (min cur.len target.len)).1 := by omega
    obtain ⟨first, last, hfirst, hlast⟩ := diffs_of_locateDiffs hfound
    rw [locateDiffs_eq hfirst hlast] at hgo
    dsimp only at hgo
    have hlt : first < last := by
      have := hfirst.le last hlast.differ
      omega
    rw [spliceWith_eq scratch out hfirst hlast (by omega) (by omega)]
    refine (randBelow_lt (by omega)).bind fun k hk => .pure fun s hs => ?_
    obtain rfl := Option.some.inj hs
    exact gluedAt_head scratch out hfirst hlast (Nat.le_add_right _ _) (by omega)

theorem pickTarget_spec (afl : SpliceQueue) (fuel : ℕ) :
    Returns (pickTarget afl fuel) fun tid =>
      tid ≠ afl.currentEntry ∧ 4 ≤ (afl.queueBuf tid).len := by
  induction fuel with
  | zero => exact fun _ _ _ h => nomatch h
  | succ fuel ih =>
    refine Returns.after fun tid => Returns.ite (fun _ => ih) fun h => .pure ?_
    rw [not_or, Nat.not_lt] at h
    exact h

theorem retrySplicing_head (afl : SpliceQueue) (scratch out origIn : Bytes) (cycles : ℕ)
    (modified : Bool) (len : ℕ) :
    Returns (retrySplicing afl scratch out origIn cycles modified len) fun r => ∀ s ∈ r,
      ∃ tid curLen, tid ≠ afl.currentEntry ∧ SpliceHead ⟨origIn, curLen⟩ (afl.queueBuf tid) s := by
  induction cycles generalizing modified len with
  | zero => exact .pure fun s hs => nomatch hs
  | succ cycles ih =>
    refine Returns.ite (fun _ => Returns.after fun draws => ?_) fun _ =>
      .pure fun s hs => nomatch hs
    refine (pickTarget_spec afl _).bind fun tid htid =>
      (spliceWith_head scratch out ⟨origIn, _⟩ (afl.queueBuf tid)).bind fun r hr => ?_
    cases r with
    | none => exact ih false _
    | some s =>
      refine .pure fun t ht => ?_
      obtain rfl := Option.some.inj ht
      exact ⟨tid, _, htid.1, hr s rfl⟩

/-- The whole block: what it hands on begins like the current input, and has the length of another
entry of the queue. -/
theorem splicing_head (afl : SpliceQueue) (scratch out origIn : Bytes) (spliceCycle : ℕ)
    (modified : Bool) (len : ℕ) :
    Returns (splicing afl scratch out origIn spliceCycle modified len) fun r => ∀ s ∈ r,
      ∃ tid curLen, tid ≠ afl.currentEntry ∧ SpliceHead ⟨origIn, curLen⟩ (afl.queueBuf tid) s :=
  retrySplicing_head afl scratch out origIn _ modified len

/-! ### The tail -/

/-- For a pair that can be spliced, and the number `k` drawn for it, a splice comes out exactly when
the target repeats itself with the distance of the split point. -/
theorem spliceWith_spliced_iff (scratch out : Bytes) {first last : ℕ}
    (hfirst : FirstDiff cur target first) (hlast : LastDiff cur target last) (hne : first ≠ last)
    (htwo : 2 ≤ last) {k : ℕ} {draws rest : Draws}
    (hdraw : randBelow (last - first) draws = some (k, rest)) :
    (∃ r, spliceWith scratch out cur target draws = some (some r, rest) ∧ Spliced cur target r) ↔
      ∀ i, i + (first + k) < target.len → target.buf i = target.buf (i + (first + k)) := by
  have hlt : first < last := by
    have := hfirst.le last hlast.differ
    omega
  have hk : k < last - first := randBelow_lt (by omega) draws k rest hdraw
  have hresult : spliceWith scratch out cur target draws =
      some (some (gluedAt scratch out cur target (first + k)), rest) := by
    rw [spliceWith_eq scratch out hfirst hlast hne htwo]
    change (randBelow (last - first) draws).bind _ = _
    rw [hdraw]
    rfl
  have hhead := gluedAt_head scratch out hfirst hlast (Nat.le_add_right first k) (by omega)
  rw [hresult]
  constructor
  · rintro ⟨r, hr, hspliced⟩ i hi
    obtain rfl : gluedAt scratch out cur target (first + k) = r := by
      simpa using hr
    have htail := hspliced.tail (i + (first + k)) (Nat.le_add_left _ _) hi
    rwa [gluedAt_outBuf scratch out hi, if_neg (by omega), Nat.add_sub_cancel] at htail
  · refine fun hrepeat => ⟨_, rfl, hhead, fun i hge hi => ?_⟩
    have hge' : first + k ≤ i := hge
    have hi' : i < target.len := hi
    rw [gluedAt_outBuf scratch out hi', if_neg (by omega), hrepeat (i - (first + k)) (by omega),
      Nat.sub_add_cancel hge']

/-- The two differ at 1 and at 3. -/
def nineTwo : TestCase := ⟨fun i => [9, 2, 3, 4].getD i 0, 4⟩

def nineOne : TestCase := ⟨fun i => [9, 1, 3, 5].getD i 0, 4⟩

theorem nineTwo_firstDiff : FirstDiff nineTwo nineOne 1 := by
  refine ⟨⟨by decide, by decide⟩, fun i hi => Nat.pos_of_ne_zero ?_⟩
  rintro rfl
  exact hi.2 rfl

theorem nineTwo_lastDiff : LastDiff nineTwo nineOne 3 :=
  ⟨⟨by decide, by decide⟩, fun _ hi => Nat.le_of_lt_succ hi.1⟩

theorem spliceWith_spliced_nineTwo :
    (∃ r, spliceWith (fun _ => 0) (fun _ => 0) nineTwo nineOne [1] = some (some r, []) ∧
        Spliced nineTwo nineOne r) ↔
      ∀ i, i + (1 + 1) < nineOne.len → nineOne.buf i = nineOne.buf (i + (1 + 1)) :=
  spliceWith_spliced_iff _ _ nineTwo_firstDiff nineTwo_lastDiff (by decide) (by decide) rfl

/-- With the split point 2, the havoc stage gets 9, 2, 9, 1 in the place of 9, 2, 3, 5. -/
theorem spliceWith_not_spliced :
    FirstDiff nineTwo nineOne 1 ∧ LastDiff nineTwo nineOne 3 ∧
      ∃ r, spliceWith (fun _ => 0) (fun _ => 0) nineTwo nineOne [1] = some (some r, []) ∧
        r.splitAt = 2 ∧ contents r.outBuf r.len = [9, 2, 9, 1] ∧ ¬ Spliced nineTwo nineOne r :=
  ⟨nineTwo_firstDiff, nineTwo_lastDiff, gluedAt (fun _ => 0) (fun _ => 0) nineTwo nineOne 2, rfl,
    rfl, by decide, fun h => absurd (h.tail 2 (by decide) (by decide)) (by decide)⟩

end AflPlusPlus.Mutation
