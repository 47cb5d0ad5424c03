import AflPlusPlus.Queue.AliasTable
import AflPlusPlus.Queue.PerfScore

/-!
# The weights of the entries

The first part of `create_alias_table` gives every enabled entry a weight or, under the schedules
`RARE` and `SEEK`, a score, and divides by the sum of all, so that the vector `P` behind it adds up
to the number of entries. Under `MMOPT` the newest entries are favoured when the sum has already
been taken. Doubles are read as exact rationals, and the logarithms are parameters.
-/

namespace AflPlusPlus
open Lib Finset

/-- The functions `log`, `log10` and `log2` for integer arguments. -/
structure Logarithms where
  log : U32 → ℚ
  log10 : U32 → ℚ
  log2 : U32 → ℚ

/-- A quotient of doubles. Divided by zero it is infinite or undefined, and neither is below
anything. -/
def quotient (a b : ℚ) : Option ℚ := if b = 0 then none else some (a / b)

/-- One `else if` with the factor behind it. -/
structure Rung where
  bound : ℚ
  factor : ℚ
  /-- The test is `<` rather than `<=`. -/
  strict : Bool := false

def Rung.test (r : Rung) (t : Option ℚ) : Bool :=
  t.any fun x => if r.strict then x < r.bound else x ≤ r.bound

/-- The factor behind the first test that succeeds, or behind the last `else`. -/
def ladder (rungs : List Rung) (last : ℚ) (t : Option ℚ) : ℚ :=
  ((rungs.find? fun r => r.test t).map Rung.factor).getD last

/-- By `q->exec_us / avg_exec_us`. -/
def execRungs : List Rung :=
  [⟨1 / 10, 1, true⟩, ⟨1 / 4, 95 / 100, false⟩, ⟨1 / 2, 1, false⟩, ⟨3 / 4, 105 / 100, false⟩,
    ⟨1, 11 / 10, false⟩, ⟨5 / 4, 2 / 10, true⟩, ⟨3 / 2, 1, false⟩, ⟨2, 11 / 10, false⟩,
    ⟨5 / 2, 1, false⟩, ⟨5, 115 / 100, false⟩, ⟨20, 11 / 10, false⟩]

/-- By `q->len / avg_len`. -/
def lenRungs : List Rung :=
  [⟨1 / 10, 1 / 2, true⟩, ⟨1 / 2, 1, false⟩, ⟨5 / 4, 105 / 100, false⟩, ⟨7 / 4, 1, false⟩,
    ⟨2, 95 / 100, false⟩, ⟨5, 1, false⟩, ⟨10, 105 / 100, false⟩]

/-- By `q->bitmap_size / avg_bitmap_size`. -/
def bitmapRungs : List Rung :=
  [⟨1 / 10, 1 / 100, true⟩, ⟨1 / 4, 55 / 100, false⟩, ⟨1 / 2, 1, false⟩, ⟨3 / 4, 12 / 10, false⟩,
    ⟨5 / 4, 13 / 10, false⟩, ⟨7 / 4, 125 / 100, false⟩, ⟨2, 1, false⟩, ⟨5 / 2, 13 / 10, false⟩]

/-- `queued_items`, the length of the vectors. -/
def AflState.slotCount (s : AflState) : U32 := BitVec.ofNat 32 s.queuedItems

/-- The sums over the enabled entries, and then their averages. -/
structure WeightAverages where
  execUs : ℚ := 0
  bitmapSize : ℚ := 0
  len : ℚ := 0
  active : ℕ := 0

def weightAverages (logs : Logarithms) (s : ScoreState) : WeightAverages :=
  let sums := forLoop s.slotCount.toNat (fun i (r : WeightAverages) =>
    let q := s.queueBuf i
    if !q.disabled then
      { execUs := r.execUs + q.execUs.toNat
        bitmapSize := r.bitmapSize + logs.log q.bitmapSize
        len := r.len + q.len.toNat
        active := r.active + 1 }
    else r) {}
  { sums with
    execUs := sums.execUs / sums.active
    bitmapSize := sums.bitmapSize / sums.active
    len := sums.len / sums.active }

/-- The weight of an enabled entry, for the schedules below `RARE`. -/
def entryWeight (logs : Logarithms) (avg : WeightAverages) (s : ScoreState) (q : ℕ) : ℚ :=
  let e := s.queueBuf q
  let weight : ℚ := 1
  let weight :=
    if s.schedule.countsPaths && s.hitCount q ≠ 0 then weight / (logs.log10 (s.hitCount q) + 1)
    else weight
  let weight := weight * ladder execRungs 1 (quotient e.execUs.toNat avg.execUs)
  let weight := weight * ladder lenRungs (115 / 100) (quotient e.len.toNat avg.len)
  let weight :=
    weight * ladder bitmapRungs (75 / 100) (quotient e.bitmapSize.toNat avg.bitmapSize)
  let weight := if !e.wasFuzzed then weight * (5 / 2) else weight
  if e.fsRedundant then weight * (3 / 4) else weight

/-- `q->perf_score = calculate_score(afl, q)`. -/
def scoreEntry (logs : Logarithms) (q : ℕ) (s : ScoreState) : Except ScoreExit ScoreState :=
  (calculateScore logs.log2 s q).map fun r =>
    r.afl.modifyEntry q fun e => { e with perfScore := r.score.toNat }

/-- The body of the loop for the schedules below `RARE`. -/
def weighEntry (logs : Logarithms) (avg : WeightAverages) (q : ℕ) (s : ScoreState) :
    Except ScoreExit ScoreState :=
  let weight := entryWeight logs avg s q
  scoreEntry logs q (s.modifyEntry q fun e => { e with weight := weight })

/-- The value that is summed up. -/
def ScoreState.entryValue (s : ScoreState) (q : ℕ) : ℚ :=
  if s.schedule.toNat < Schedule.rare.toNat then (s.queueBuf q).weight
  else (s.queueBuf q).perfScore

/-- The loop over the enabled entries, with the sum of their values. -/
def visitEntries (visit : ℕ → ScoreState → Except ScoreExit ScoreState) (s : ScoreState) :
    Except ScoreExit (ScoreState × ℚ) :=
  forLoop s.slotCount.toNat (fun i r => r.bind fun r =>
    if !(r.1.queueBuf i).disabled then
      (visit i r.1).map fun t => (t, r.2 + t.entryValue i)
    else .ok r) (.ok (s, 0))

/-- Where the loop for the newest entries starts: `n - cnt`. -/
def ScoreState.discoveredStart (s : ScoreState) : U32 :=
  s.slotCount - (if s.queuedDiscovered ≥ 5 then 5 else s.queuedDiscovered)

/-- `if (unlikely(afl->schedule == MMOPT) && afl->queued_discovered)`. -/
def boostDiscovered (s : ScoreState) : ScoreState :=
  if s.schedule = .mmopt && s.queuedDiscovered ≠ 0 then
    let start := s.discoveredStart.toNat
    forLoop (s.slotCount.toNat - start) (fun k s =>
      if !(s.queueBuf (start + k)).disabled then
        s.modifyEntry (start + k) fun e => { e with weight := e.weight * 2 }
      else s) s
  else s

/-- The state and the vector `P` before the table is built. -/
def collectWeights (logs : Logarithms) (s : ScoreState) :
    Except ScoreExit (ScoreState × (ℕ → ℚ)) :=
  let visited :=
    if s.schedule.toNat < Schedule.rare.toNat then
      (visitEntries (weighEntry logs (weightAverages logs s)) s).map fun r =>
        (boostDiscovered r.1, r.2)
    else visitEntries (scoreEntry logs) s
  visited.map fun r =>
    (r.1, fun i =>
      if (r.1.queueBuf i).disabled then 0
      else r.1.entryValue i * r.1.slotCount.toNat / r.2)

/-- The value of an entry for the selection. "weight is always 0 for disabled entries". -/
def ScoreState.finalWeight (s : ScoreState) (q : ℕ) : ℚ :=
  if (s.queueBuf q).disabled then 0 else s.entryValue q

/-- The vector adds up to the number of entries and is proportional to the final weights. -/
structure Normalised (P : ℕ → ℚ) (s : ScoreState) : Prop where
  sum : ∑ i ∈ range s.slotCount.toNat, P i = s.slotCount.toNat
  proportional : ∃ c, 0 < c ∧ ∀ i < s.slotCount.toNat, P i = c * s.finalWeight i

/-- Some of the newest entries are enabled, and `MMOPT` favours them. -/
def ScoreState.Boosts (s : ScoreState) : Prop :=
  s.schedule = .mmopt ∧ s.queuedDiscovered ≠ 0 ∧
    ∃ i, s.discoveredStart.toNat ≤ i ∧ i < s.slotCount.toNat ∧ (s.queueBuf i).disabled = false

/-! ### What the loops leave alone -/

/-- `t` differs from `s` only in the weights, scores and handicaps of the entries. -/
structure WeighFrame (s t : ScoreState) : Prop where
  rest : t = { s with queueBuf := t.queueBuf }
  entry : ∀ i, t.queueBuf i = { s.queueBuf i with
    weight := (t.queueBuf i).weight
    perfScore := (t.queueBuf i).perfScore
    handicap := (t.queueBuf i).handicap }

section Frame

variable {logs : Logarithms} {s t u : ScoreState} {q : ℕ}

theorem WeighFrame.refl (s : ScoreState) : WeighFrame s s := ⟨rfl, fun _ => rfl⟩

theorem WeighFrame.trans (h : WeighFrame s t) (h' : WeighFrame t u) : WeighFrame s u := by
  refine ⟨?_, fun i => ?_⟩
  · rw [h'.rest, h.rest]
  · rw [h'.entry i, h.entry i]

theorem WeighFrame.slotCount (h : WeighFrame s t) : t.slotCount = s.slotCount := by
  rw [h.rest]
  rfl

theorem WeighFrame.schedule (h : WeighFrame s t) : t.schedule = s.schedule := by
  rw [h.rest]

theorem WeighFrame.discoveredStart (h : WeighFrame s t) :
    t.discoveredStart = s.discoveredStart := by
  rw [h.rest]
  rfl

theorem WeighFrame.disabled (h : WeighFrame s t) (i : ℕ) :
    (t.queueBuf i).disabled = (s.queueBuf i).disabled := by
  rw [h.entry i]

theorem WeighFrame.modifyEntry (s : ScoreState) (q : ℕ) {f : QueueEntry → QueueEntry}
    (h : ∀ e, f e = { e with
      weight := (f e).weight
      perfScore := (f e).perfScore
      handicap := (f e).handicap }) : WeighFrame s (s.modifyEntry q f) := by
  refine ⟨rfl, fun i => ?_⟩
  by_cases hi : i = q
  · rw [hi, ScoreState.modifyEntry_queueBuf_self]
    exact h _
  · rw [ScoreState.modifyEntry_queueBuf_ne _ _ hi]

/-- What a visit of an entry does: the other entries stay as they are. -/
structure Visited (q : ℕ) (s t : ScoreState) : Prop extends WeighFrame s t where
  others : ∀ i, i ≠ q → t.queueBuf i = s.queueBuf i

theorem Visited.trans (h : Visited q s t) (h' : Visited q t u) : Visited q s u :=
  ⟨h.toWeighFrame.trans h'.toWeighFrame, fun i hi => (h'.others i hi).trans (h.others i hi)⟩

theorem Visited.modifyEntry (s : ScoreState) (q : ℕ) {f : QueueEntry → QueueEntry}
    (h : ∀ e, f e = { e with
      weight := (f e).weight
      perfScore := (f e).perfScore
      handicap := (f e).handicap }) : Visited q s (s.modifyEntry q f) :=
  ⟨.modifyEntry s q h, fun _ hi => ScoreState.modifyEntry_queueBuf_ne s f hi⟩

theorem map_eq_ok {α β : Type} {f : α → β} {x : Except ScoreExit α} {b : β} :
    x.map f = .ok b ↔ ∃ a, x = .ok a ∧ f a = b := by
  cases x with
  | error e => exact iff_of_false nofun nofun
  | ok a =>
    constructor
    · exact fun h => ⟨a, rfl, Except.ok.inj h⟩
    · rintro ⟨a', ha, rfl⟩
      cases ha
      rfl

/-- The score is a number of 32 bits, and the weight stays as it is. -/
theorem scoreEntry_visited (h : scoreEntry logs q s = .ok t) :
    Visited q s t ∧ 0 ≤ (t.queueBuf q).perfScore ∧
      (t.queueBuf q).weight = (s.queueBuf q).weight := by
  obtain ⟨r, hr, rfl⟩ := map_eq_ok.mp h
  obtain ⟨handicap, hafl⟩ := calculateScore_afl hr
  refine ⟨?_, ?_, ?_⟩
  · rw [hafl]
    exact (Visited.modifyEntry s q fun _ => rfl).trans (Visited.modifyEntry _ q fun _ => rfl)
  · rw [ScoreState.modifyEntry_queueBuf_self]
    exact Nat.cast_nonneg _
  · rw [ScoreState.modifyEntry_queueBuf_self, hafl, ScoreState.modifyEntry_queueBuf_self]

theorem weighEntry_visited {avg : WeightAverages} (h : weighEntry logs avg q s = .ok t) :
    Visited q s t ∧ (t.queueBuf q).weight = entryWeight logs avg s q := by
  obtain ⟨hvisited, -, hweight⟩ := scoreEntry_visited h
  refine ⟨(Visited.modifyEntry s q fun _ => rfl).trans hvisited, ?_⟩
  rw [hweight, ScoreState.modifyEntry_queueBuf_self]

end Frame

/-! ### The sums -/

section Sums

variable {logs : Logarithms} {s t : ScoreState} {sum : ℚ}
  {visit : ℕ → ScoreState → Except ScoreExit ScoreState} {good : QueueEntry → Prop}

/-- What the loop has done before entry `k`. -/
structure Collected (good : QueueEntry → Prop) (s : ScoreState) (k : ℕ) (r : ScoreState × ℚ) :
    Prop extends WeighFrame s r.1 where
  sum : r.2 = ∑ i ∈ range k, r.1.finalWeight i
  good : ∀ i < k, (r.1.queueBuf i).disabled = false → good (r.1.queueBuf i)

theorem finalWeight_congr (hsched : t.schedule = s.schedule) {i : ℕ}
    (hentry : t.queueBuf i = s.queueBuf i) : t.finalWeight i = s.finalWeight i := by
  unfold ScoreState.finalWeight ScoreState.entryValue
  rw [hsched, hentry]

theorem Collected.add {k : ℕ} {r : ScoreState × ℚ} (h : Collected good s k r)
    (hvisited : Visited k r.1 t) (henabled : (r.1.queueBuf k).disabled = false)
    (hgood : good (t.queueBuf k)) : Collected good s (k + 1) (t, r.2 + t.entryValue k) := by
  have hframe := hvisited.toWeighFrame
  refine ⟨h.toWeighFrame.trans hframe, ?_, fun i hi hi' => ?_⟩
  · have hold : ∀ i ∈ range k, t.finalWeight i = r.1.finalWeight i := fun i hi =>
      finalWeight_congr hframe.schedule (hvisited.others i (mem_range.mp hi).ne)
    have hnew : t.finalWeight k = t.entryValue k := by
      rw [ScoreState.finalWeight, hframe.disabled, henabled, if_neg Bool.false_ne_true]
    rw [sum_range_succ, sum_congr rfl hold, hnew, h.sum]
  · -- the new entry, or one that was visited before
    by_cases hik : i = k
    · rw [hik]
      exact hgood
    · rw [hframe.disabled] at hi'
      rw [hvisited.others i hik]
      exact h.good i (by omega) hi'

theorem Collected.skip {k : ℕ} {r : ScoreState × ℚ} (h : Collected good s k r)
    (hdisabled : (r.1.queueBuf k).disabled = true) : Collected good s (k + 1) r := by
  refine ⟨h.toWeighFrame, ?_, fun i hi hi' => ?_⟩
  · rw [sum_range_succ, ← h.sum, ScoreState.finalWeight, if_pos hdisabled, add_zero]
  · refine h.good i ((Nat.lt_succ_iff_lt_or_eq.mp hi).resolve_right ?_) hi'
    rintro rfl
    rw [hdisabled] at hi'
    cases hi'

/-- The loop over the entries sums up what it leaves behind. -/
theorem visitEntries_collected (good : QueueEntry → Prop)
    (hvisit : ∀ k u v, visit k u = .ok v → Visited k u v ∧ good (v.queueBuf k))
    (h : visitEntries visit s = .ok (t, sum)) :
    Collected good s s.slotCount.toNat (t, sum) := by
  suffices hloop : ∀ r, visitEntries visit s = .ok r → Collected good s s.slotCount.toNat r from
    hloop _ h
  refine forLoop_induct (fun k (x : Except ScoreExit (ScoreState × ℚ)) =>
    ∀ r, x = .ok r → Collected good s k r) ?_ ?_
  · rintro r hr
    cases hr
    exact ⟨.refl s, sum_range_zero _ |>.symm, fun i hi => absurd hi (Nat.not_lt_zero i)⟩
  · intro k x _ ih r hr
    cases x with
    | error e => cases hr
    | ok r₀ =>
      have hbefore := ih r₀ rfl
      dsimp only [Except.bind] at hr
      split at hr
      · rename_i henabled
        rw [Bool.not_eq_true'] at henabled
        obtain ⟨v, hv, rfl⟩ := map_eq_ok.mp hr
        obtain ⟨hvisited, hgood⟩ := hvisit k r₀.1 v hv
        exact hbefore.add hvisited henabled hgood
      · rename_i hdisabled
        rw [Bool.not_eq_true, Bool.not_eq_false'] at hdisabled
        cases hr
        exact hbefore.skip hdisabled

theorem ladder_pos (rungs : List Rung) (last : ℚ) (h : ∀ r ∈ rungs, 0 < r.factor) (hlast : 0 < last)
    (t : Option ℚ) : 0 < ladder rungs last t := by
  unfold ladder
  cases hr : rungs.find? fun r => r.test t with
  | none => exact hlast
  | some r => exact h r (List.mem_of_find?_eq_some hr)

/-- Weights are positive, since the logarithm of a hit count is not negative. -/
theorem entryWeight_pos (hlog : ∀ hits, hits ≠ 0 → 0 ≤ logs.log10 hits) (avg : WeightAverages)
    (s : ScoreState) (q : ℕ) : 0 < entryWeight logs avg s q := by
  have hstart : ∀ {b : Bool}, (b = true → s.hitCount q ≠ 0) →
      (0 : ℚ) < if b then 1 / (logs.log10 (s.hitCount q) + 1) else 1 := by
    intro b hb
    split
    · rename_i htrue
      have := hlog _ (hb htrue)
      positivity
    · exact zero_lt_one
  have hexec := ladder_pos execRungs 1 (by simp [execRungs]) zero_lt_one
  have hlen := ladder_pos lenRungs (115 / 100) (by simp [lenRungs]) (by norm_num)
  have hbitmap := ladder_pos bitmapRungs (75 / 100) (by simp [bitmapRungs]) (by norm_num)
  have hfactor : ∀ {w c : ℚ} (b : Bool), 0 < w → 0 < c → 0 < if b then w * c else w := by
    intro w c b hw hc
    split
    · exact mul_pos hw hc
    · exact hw
  unfold entryWeight
  refine hfactor _ (hfactor _ ?_ (by norm_num)) (by norm_num)
  exact mul_pos (mul_pos (mul_pos (hstart (by simp)) (hexec _)) (hlen _)) (hbitmap _)

end Sums

/-! ### The newest entries under `MMOPT` -/

/-- The entries whose weight is doubled. -/
def ScoreState.Boosted (s : ScoreState) (i : ℕ) : Prop :=
  s.schedule = .mmopt ∧ s.queuedDiscovered ≠ 0 ∧ s.discoveredStart.toNat ≤ i ∧
    i < s.slotCount.toNat ∧ (s.queueBuf i).disabled = false

instance (s : ScoreState) (i : ℕ) : Decidable (s.Boosted i) :=
  inferInstanceAs (Decidable (_ ∧ _))

theorem boosts_iff {s : ScoreState} : s.Boosts ↔ ∃ i, s.Boosted i :=
  ⟨fun ⟨hsched, hcount, i, hi⟩ => ⟨i, hsched, hcount, hi⟩,
    fun ⟨i, hsched, hcount, hi⟩ => ⟨hsched, hcount, i, hi⟩⟩

section Boost

variable {s t : ScoreState}

/-- The loop has come to entry `m`. -/
structure BoostedBelow (s : ScoreState) (m : ℕ) (t : ScoreState) : Prop extends WeighFrame s t where
  weight : ∀ i, (t.queueBuf i).weight =
    if s.Boosted i ∧ i < m then (s.queueBuf i).weight * 2 else (s.queueBuf i).weight

theorem BoostedBelow.next {m : ℕ} (h : BoostedBelow s m t) (hsched : s.schedule = .mmopt)
    (hcount : s.queuedDiscovered ≠ 0) (hm : s.discoveredStart.toNat ≤ m)
    (hm' : m < s.slotCount.toNat) :
    BoostedBelow s (m + 1) (if !(t.queueBuf m).disabled then
      t.modifyEntry m fun e => { e with weight := e.weight * 2 } else t) := by
  have hothers : ∀ i, i ≠ m → (s.Boosted i ∧ i < m + 1 ↔ s.Boosted i ∧ i < m) := fun i hi =>
    and_congr_right fun _ => by omega
  have hframe := h.toWeighFrame
  split
  · rename_i henabled
    rw [Bool.not_eq_true', hframe.disabled] at henabled
    refine ⟨hframe.trans (.modifyEntry t m fun _ => rfl), fun i => ?_⟩
    -- the entry the loop has come to, or another one
    by_cases hi : i = m
    · have hboosted : s.Boosted m := ⟨hsched, hcount, hm, hm', henabled⟩
      rw [hi, ScoreState.modifyEntry_queueBuf_self, if_pos ⟨hboosted, Nat.lt_succ_self m⟩]
      change (t.queueBuf m).weight * 2 = _
      rw [h.weight, if_neg fun hlt => lt_irrefl m hlt.2]
    · rw [ScoreState.modifyEntry_queueBuf_ne _ _ hi, h.weight]
      simp only [hothers i hi]
  · rename_i hdisabled
    rw [Bool.not_eq_true, Bool.not_eq_false', hframe.disabled] at hdisabled
    refine ⟨hframe, fun i => ?_⟩
    rw [h.weight]
    by_cases hi : i = m
    · have hnot : ¬ s.Boosted i := by
        rintro ⟨-, -, -, -, henabled⟩
        rw [hi, hdisabled] at henabled
        cases henabled
      rw [if_neg fun h => hnot h.1, if_neg fun h => hnot h.1]
    · simp only [hothers i hi]

theorem boostDiscovered_weight (s : ScoreState) :
    WeighFrame s (boostDiscovered s) ∧
      ∀ i, ((boostDiscovered s).queueBuf i).weight =
        if s.Boosted i then (s.queueBuf i).weight * 2 else (s.queueBuf i).weight := by
  unfold boostDiscovered
  split
  · rename_i hboost
    simp only [Bool.and_eq_true, decide_eq_true_eq] at hboost
    have hloop : BoostedBelow s (s.discoveredStart.toNat +
        (s.slotCount.toNat - s.discoveredStart.toNat)) _ :=
      forLoop_induct (fun k t => BoostedBelow s (s.discoveredStart.toNat + k) t)
        ⟨.refl s, fun i => (if_neg fun h => absurd h.1.2.2.1 (by omega)).symm⟩
        fun k t hk ht => ht.next hboost.1 hboost.2 (Nat.le_add_right _ _) (by omega)
    refine ⟨hloop.toWeighFrame, fun i => ?_⟩
    have hall : s.Boosted i ∧ i < s.discoveredStart.toNat +
        (s.slotCount.toNat - s.discoveredStart.toNat) ↔ s.Boosted i :=
      and_iff_left_of_imp fun h => by
        have := h.2.2.1
        have := h.2.2.2.1
        omega
    rw [hloop.weight]
    simp only [hall]
  · rename_i hboost
    simp only [Bool.and_eq_true, decide_eq_true_eq] at hboost
    exact ⟨.refl s, fun i => (if_neg fun h => hboost ⟨h.1, h.2.1⟩).symm⟩

/-- A boosted entry counts twice. -/
theorem boostDiscovered_finalWeight (hsched : s.schedule.toNat < Schedule.rare.toNat) (i : ℕ) :
    (boostDiscovered s).finalWeight i =
      s.finalWeight i + if s.Boosted i then s.finalWeight i else 0 := by
  obtain ⟨hframe, hweight⟩ := boostDiscovered_weight s
  unfold ScoreState.finalWeight ScoreState.entryValue
  rw [hframe.disabled, hframe.schedule, hweight, if_pos hsched, if_pos hsched]
  by_cases hboosted : s.Boosted i
  · simp only [hboosted.2.2.2.2, Bool.false_eq_true, if_false, if_pos hboosted, mul_two]
  · simp only [if_neg hboosted, add_zero]

end Boost

/-! ### Normalisation -/

/-- The vector divides by the sum of the values `w`, which are the final weights but for the boosted
entries. -/
structure Summed (s t : ScoreState) (P w : ℕ → ℚ) : Prop where
  frame : WeighFrame s t
  nonneg : ∀ i < s.slotCount.toNat, 0 ≤ w i
  final : ∀ i, t.finalWeight i = w i + if s.Boosted i then w i else 0
  boosted : ∀ i, s.Boosted i → 0 < w i
  vector : ∀ i, P i = t.finalWeight i * s.slotCount.toNat / ∑ j ∈ range s.slotCount.toNat, w j

theorem WeighFrame.boosted {s t : ScoreState} (h : WeighFrame s t) (i : ℕ) :
    t.Boosted i ↔ s.Boosted i := by
  unfold ScoreState.Boosted
  rw [h.schedule, h.discoveredStart, h.slotCount, h.disabled]
  rw [h.rest]

section Normalise

variable {logs : Logarithms} {s t : ScoreState} {P w : ℕ → ℚ}

theorem vector_eq (t : ScoreState) (n sum : ℚ) (i : ℕ) :
    (if (t.queueBuf i).disabled then 0 else t.entryValue i * n / sum) =
      t.finalWeight i * n / sum := by
  unfold ScoreState.finalWeight
  split
  · rw [zero_mul, zero_div]
  · rfl

theorem finalWeight_enabled {i : ℕ} (h : (t.queueBuf i).disabled = false) :
    t.finalWeight i = t.entryValue i := by
  rw [ScoreState.finalWeight, h, if_neg Bool.false_ne_true]

theorem finalWeight_nonneg {i : ℕ} (h : (t.queueBuf i).disabled = false → 0 ≤ t.entryValue i) :
    0 ≤ t.finalWeight i := by
  unfold ScoreState.finalWeight
  split
  · exact le_refl _
  · rename_i henabled
    exact h (Bool.eq_false_iff.mpr henabled)

theorem collectWeights_summed (hlog : ∀ hits, hits ≠ 0 → 0 ≤ logs.log10 hits)
    (h : collectWeights logs s = .ok (t, P)) : ∃ w, Summed s t P w := by
  obtain ⟨⟨t', sum⟩, hvisited, heq⟩ := map_eq_ok.mp h
  obtain ⟨rfl, rfl⟩ := Prod.mk.inj heq
  clear h heq
  split at hvisited
  · rename_i hsched
    -- the weights are summed up, and then some of them may be doubled
    obtain ⟨⟨u, sum'⟩, hu, heq⟩ := map_eq_ok.mp hvisited
    obtain ⟨rfl, rfl⟩ := Prod.mk.inj heq
    have hcollected := visitEntries_collected (fun e => 0 < e.weight)
      (fun k v v' hv => by
        obtain ⟨hvisited, hweight⟩ := weighEntry_visited hv
        refine ⟨hvisited, ?_⟩
        rw [hweight]
        exact entryWeight_pos hlog _ v k) hu
    have hframe : WeighFrame s u := hcollected.toWeighFrame
    have hframe' := (boostDiscovered_weight u).1
    have husched : u.schedule.toNat < Schedule.rare.toNat := by
      rw [hframe.schedule]
      exact hsched
    have hpos : ∀ i < s.slotCount.toNat, (u.queueBuf i).disabled = false → 0 < u.entryValue i := by
      intro i hi henabled
      rw [ScoreState.entryValue, if_pos husched]
      exact hcollected.good i hi henabled
    refine ⟨u.finalWeight, hframe.trans hframe', fun i hi => ?_, fun i => ?_, fun i hi => ?_,
      fun i => ?_⟩
    · exact finalWeight_nonneg fun henabled => (hpos i hi henabled).le
    · rw [boostDiscovered_finalWeight husched]
      simp only [hframe.boosted]
    · have henabled : (u.queueBuf i).disabled = false := by
        rw [hframe.disabled]
        exact hi.2.2.2.2
      rw [finalWeight_enabled henabled]
      exact hpos i hi.2.2.2.1 henabled
    · rw [vector_eq, hframe'.slotCount, hframe.slotCount, ← hcollected.sum]
  · rename_i hsched
    -- the scores are summed up and stay what they are
    have hcollected := visitEntries_collected (fun e => 0 ≤ e.perfScore)
      (fun k v v' hv => ⟨(scoreEntry_visited hv).1, (scoreEntry_visited hv).2.1⟩) hvisited
    have hframe : WeighFrame s t' := hcollected.toWeighFrame
    have hnot : ∀ i, ¬ s.Boosted i := by
      intro i hi
      rw [hi.1] at hsched
      exact hsched (by decide)
    refine ⟨t'.finalWeight, hframe, fun i hi => ?_, fun i => ?_, fun i hi => absurd hi (hnot i),
      fun i => ?_⟩
    · refine finalWeight_nonneg fun henabled => ?_
      rw [ScoreState.entryValue, hframe.schedule, if_neg hsched]
      exact hcollected.good i hi henabled
    · rw [if_neg (hnot i), add_zero]
    · rw [vector_eq, hframe.slotCount, ← hcollected.sum]

/-- The sum that is divided by is positive. -/
theorem Summed.sum_pos (h : Summed s t P w) (hpos : ∃ i < s.slotCount.toNat, 0 < t.finalWeight i) :
    0 < ∑ i ∈ range s.slotCount.toNat, w i := by
  obtain ⟨i, hi, hfinal⟩ := hpos
  refine sum_pos' (fun j hj => h.nonneg j (mem_range.mp hj)) ⟨i, mem_range.mpr hi, ?_⟩
  -- an entry that counts in the end counted in the sum
  refine lt_of_le_of_ne (h.nonneg i hi) fun hzero => ?_
  rw [h.final, ← hzero, ite_self, add_zero] at hfinal
  exact lt_irrefl _ hfinal

/-- All final weights together are more than what was summed up just when an entry was boosted. -/
theorem Summed.sum_eq_iff (h : Summed s t P w) :
    ∑ i ∈ range s.slotCount.toNat, t.finalWeight i = ∑ i ∈ range s.slotCount.toNat, w i ↔
      ¬ s.Boosts := by
  have hextra : ∀ i ∈ range s.slotCount.toNat, 0 ≤ if s.Boosted i then w i else 0 := by
    intro i hi
    split
    · exact h.nonneg i (mem_range.mp hi)
    · exact le_refl _
  -- a boosted entry counts once more than in the sum
  simp only [h.final, sum_add_distrib]
  rw [add_eq_left, sum_eq_zero_iff_of_nonneg hextra, boosts_iff]
  constructor
  · rintro hzero ⟨i, hi⟩
    have hnone := hzero i (mem_range.mpr hi.2.2.2.1)
    rw [if_pos hi] at hnone
    exact (h.boosted i hi).ne' hnone
  · exact fun hnone i _ => if_neg fun hi => hnone ⟨i, hi⟩

theorem Summed.vector_sum (h : Summed s t P w) :
    ∑ i ∈ range s.slotCount.toNat, P i =
      (∑ i ∈ range s.slotCount.toNat, t.finalWeight i) * s.slotCount.toNat /
        ∑ i ∈ range s.slotCount.toNat, w i := by
  rw [sum_congr rfl fun i _ => h.vector i, ← sum_div, ← sum_mul]

theorem Summed.normalised_iff (h : Summed s t P w)
    (hpos : ∃ i < s.slotCount.toNat, 0 < t.finalWeight i) : Normalised P t ↔ ¬ s.Boosts := by
  have hsum := h.sum_pos hpos
  have hn : (0 : ℚ) < s.slotCount.toNat := by
    obtain ⟨i, hi, -⟩ := hpos
    exact_mod_cast Nat.zero_lt_of_lt hi
  have hslots := h.frame.slotCount
  rw [← h.sum_eq_iff]
  constructor
  · intro hnorm
    have htotal := hnorm.sum
    rw [hslots, h.vector_sum, div_eq_iff hsum.ne', mul_comm] at htotal
    exact mul_left_cancel₀ hn.ne' htotal
  · intro heq
    refine ⟨?_, s.slotCount.toNat / ∑ j ∈ range s.slotCount.toNat, w j, div_pos hn hsum,
      fun i _ => ?_⟩
    · rw [hslots, h.vector_sum, heq, mul_comm, mul_div_assoc, div_self hsum.ne', mul_one]
    · rw [h.vector, div_mul_eq_mul_div, mul_comm]

/-- Without boosted entries the table selects every entry in proportion to its final weight. -/
theorem Summed.selects (h : Summed s t P w)
    (hpos : ∃ i < s.slotCount.toNat, 0 < t.finalWeight i) (hboosts : ¬ s.Boosts)
    (hn : s.slotCount.toNat ≤ 2 ^ 31) :
    ∃ table, createAliasTable s.slotCount P = some table ∧ ∀ i < s.slotCount.toNat,
      table.selectionProbability s.slotCount i =
        ((t.finalWeight i / ∑ j ∈ range s.slotCount.toNat, t.finalWeight j : ℚ) : ℝ) := by
  have hnorm := (h.normalised_iff hpos).mpr hboosts
  have hsum := h.sum_pos hpos
  have heq := h.sum_eq_iff.mpr hboosts
  have hslots : s.slotCount ≠ 0 := by
    rintro hzero
    obtain ⟨i, hi, -⟩ := hpos
    rw [hzero] at hi
    exact Nat.not_lt_zero i hi
  have hcount : (s.slotCount.toNat : ℚ) ≠ 0 := by
    rw [Nat.cast_ne_zero]
    exact fun hzero => hslots (BitVec.eq_of_toNat_eq hzero)
  have hnonneg : ∀ i < s.slotCount.toNat, 0 ≤ P i := by
    intro i hi
    have hfinal : 0 ≤ t.finalWeight i := by
      rw [h.final]
      have := h.nonneg i hi
      split <;> linarith
    rw [h.vector]
    positivity
  have htotal := hnorm.sum
  rw [h.frame.slotCount] at htotal
  obtain ⟨table, htable, hexact⟩ := createAliasTable_exact hslots hn hnonneg htotal
  refine ⟨table, htable, fun i hi => ?_⟩
  have hshare : P i / s.slotCount.toNat =
      t.finalWeight i / ∑ j ∈ range s.slotCount.toNat, t.finalWeight j := by
    rw [h.vector, heq, div_right_comm, mul_div_assoc, div_self hcount, mul_one]
  rw [hexact.selected i hi, ← hshare, Rat.cast_div, Rat.cast_natCast]

/-- The vector is normalised unless some of the newest entries are enabled and `MMOPT` favours
them. When it is, the table selects every entry in proportion to its final weight. -/
theorem normalised_iff_not_boosts (hlog : ∀ hits, hits ≠ 0 → 0 ≤ logs.log10 hits)
    (h : collectWeights logs s = .ok (t, P))
    (hpos : ∃ i < s.slotCount.toNat, 0 < t.finalWeight i) :
    (Normalised P t ↔ ¬ s.Boosts) ∧
      (¬ s.Boosts → s.slotCount.toNat ≤ 2 ^ 31 →
        ∃ table, createAliasTable s.slotCount P = some table ∧ ∀ i < s.slotCount.toNat,
          table.selectionProbability s.slotCount i =
            ((t.finalWeight i / ∑ j ∈ range s.slotCount.toNat, t.finalWeight j : ℚ) : ℝ)) := by
  obtain ⟨w, hsummed⟩ := collectWeights_summed hlog h
  exact ⟨hsummed.normalised_iff hpos, hsummed.selects hpos⟩

end Normalise

/-- The logarithms where they are zero. -/
def logsOfOne : Logarithms := ⟨fun _ => 0, fun _ => 0, fun _ => 0⟩

/-- Two equal entries, the second of them discovered. -/
def weighState (sched : Schedule) : ScoreState where
  schedule := sched
  mapSize := .block
  queueBuf := fun _ => { execUs := 1, bitmapSize := 1, len := 1 }
  queuedItems := 2
  queuedDiscovered := 1

/-- Under the default schedule the two entries are selected equally often. -/
theorem normalised_iff_not_boosts_explore :
    ∃ t P, collectWeights logsOfOne (weighState .explore) = .ok (t, P) ∧ Normalised P t := by
  have hrun : ((collectWeights logsOfOne (weighState .explore)).toOption.any fun r =>
      0 < r.1.finalWeight 0) = true := by decide +kernel
  cases h : collectWeights logsOfOne (weighState .explore) with
  | error e =>
    rw [h] at hrun
    cases hrun
  | ok r =>
    obtain ⟨t, P⟩ := r
    rw [h] at hrun
    have hpos : ∃ i < (weighState .explore).slotCount.toNat, 0 < t.finalWeight i :=
      ⟨0, by decide, of_decide_eq_true hrun⟩
    refine ⟨t, P, rfl, (normalised_iff_not_boosts (fun _ _ => le_refl _) h hpos).1.mpr ?_⟩
    exact fun hboosts => absurd hboosts.1 (by decide)

/-- Under `MMOPT` the vector is (1, 2), which adds up to three. -/
theorem not_normalised_mmopt :
    ∃ t P, collectWeights logsOfOne (weighState .mmopt) = .ok (t, P) ∧
      P 0 = 1 ∧ P 1 = 2 ∧ (∃ i < t.slotCount.toNat, 0 < t.finalWeight i) ∧ ¬ Normalised P t := by
  have hrun : ((collectWeights logsOfOne (weighState .mmopt)).toOption.any fun r =>
      r.2 0 = 1 && r.2 1 = 2 && r.1.slotCount = 2 && 0 < r.1.finalWeight 0) = true := by
    decide +kernel
  cases h : collectWeights logsOfOne (weighState .mmopt) with
  | error e =>
    rw [h] at hrun
    cases hrun
  | ok r =>
    obtain ⟨t, P⟩ := r
    rw [h] at hrun
    simp only [Except.toOption, Option.any_some, Bool.and_eq_true, decide_eq_true_eq] at hrun
    obtain ⟨⟨⟨h0, h1⟩, hslots⟩, hpos⟩ := hrun
    refine ⟨t, P, rfl, h0, h1, ⟨0, by rw [hslots]; decide, hpos⟩, fun hnorm => ?_⟩
    have hsum := hnorm.sum
    rw [hslots] at hsum
    change ∑ i ∈ range 2, P i = ((2 : ℕ) : ℚ) at hsum
    rw [sum_range_succ, sum_range_one, h0, h1] at hsum
    norm_num at hsum

end AflPlusPlus
