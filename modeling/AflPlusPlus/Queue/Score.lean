import AflPlusPlus.Alloc.Growth
import AflPlusPlus.Queue.State
import AflPlusPlus.Lib.Tally

/-!
# Scoring: who owns a slot of `top_rated`

`update_bitmap_score` and `update_bitmap_rescore` contain the same comparison and the same transfer
of a slot; they differ in which slots they look at. The transfer is `transferSlot`, and everything
the two functions can do is said by `contendSlot_cases`: leave the state alone or transfer one slot.
-/

namespace AflPlusPlus
open Lib

/-- `minimize_bits`: one bit of `dst` per non-zero byte of `src`. -/
def minimizeBits (mapSize : ℕ) (dst src : Bytes) : Bytes :=
  forLoop mapSize (fun i dst =>
    if src i ≠ 0#8 then Function.update dst (i >>> 3) (dst (i >>> 3) ||| (1#8 <<< (i &&& 7)))
    else dst) dst

/-- A freshly allocated mini trace of the current `trace_bits`. -/
def AflState.miniTrace (s : AflState) : Bytes :=
  minimizeBits s.mapSize.val (fun _ => 0) s.traceBits

/-- The `fuzz_p2` of an entry under the current schedule. -/
def AflState.fuzzP2 (s : AflState) (q : ℕ) : U64 :=
  if s.schedule.toNat ≥ Schedule.fast.toNat && s.schedule.toNat < Schedule.rare.toNat then 0
  else if s.schedule = .rare then
    Alloc.nextPow2 ((s.nFuzz (s.queueBuf q).nFuzzEntry.toNat).setWidth 64)
  else (s.queueBuf q).fuzzLevel.setWidth 64

/-- The `fav_factor` of an entry. `len << 2` is a 32-bit shift, the product is a 64-bit one. -/
def AflState.favFactor (s : AflState) (q : ℕ) : U64 :=
  if s.schedule.toNat ≥ Schedule.rare.toNat || s.fixedSeed then
    ((s.queueBuf q).len <<< 2).setWidth 64
  else (s.queueBuf q).execUs * (s.queueBuf q).len.setWidth 64

/-- `if (!--p->tc_ref) { ck_free(p->trace_mini); p->trace_mini = NULL; }`. -/
def releaseSlot (s : AflState) (p : ℕ) : AflState :=
  { s.modify p fun e =>
      { e with
        tcRef := e.tcRef - 1
        traceMini := if e.tcRef - 1 = 0 then none else e.traceMini } with
    tcUnderflow := s.tcUnderflow || (s.queueBuf p).tcRef == 0 }

/-- Insert `q` as the new winner of slot `i`. -/
def winSlot (s : AflState) (q i : ℕ) : AflState :=
  { s.modify q fun e =>
      { e with
        tcRef := e.tcRef + 1
        traceMini := some (e.traceMini.getD s.miniTrace) } with
    topRated := Function.update s.topRated i (some q)
    scoreChanged := true }

/-- `q` takes slot `i` from whoever owns it. -/
def transferSlot (s : AflState) (q i : ℕ) : AflState :=
  match s.topRated i with
  | some p => winSlot (releaseSlot s p) q i
  | none => winSlot s q i

/-- `q`, with its two factors, against the current owner of slot `i`. -/
def contendSlot (s : AflState) (q : ℕ) (fuzzP2 favFactor : U64) (i : ℕ) : AflState :=
  match s.topRated i with
  | some p =>
    -- a tie goes to the newcomer, also when `q` meets itself
    if fuzzP2 > s.fuzzP2 p then s
    else if favFactor > s.favFactor p then s
    else transferSlot s q i
  | none => transferSlot s q i

def updateBitmapScore (s : AflState) (q : ℕ) (haveTrace : Bool) : AflState :=
  if (s.queueBuf q).disabled then s
  else
    let fuzzP2 := s.fuzzP2 q
    let favFactor := s.favFactor q
    if haveTrace then
      forLoop s.mapSize.val (fun i s =>
        if s.traceBits i ≠ 0#8 then contendSlot s q fuzzP2 favFactor i else s) s
    else s

def updateBitmapRescore (s : AflState) (q index : ℕ) : AflState :=
  if (s.queueBuf q).disabled then s
  else contendSlot s q (s.fuzzP2 q) (s.favFactor q) index

/-- One iteration of the first loop of `recalculate_all_scores`: execute entry `i`, which leaves
`trace` in `trace_bits`, and enter it in the candidate list of every index it hits. -/
def enrollCandidate (s : AflState) (i : ℕ) (trace : Bytes) : AflState :=
  let s :=
    if !(s.queueBuf i).disabled then
      { s with
        traceBits := trace
        topRatedCandidates := forLoop s.mapSize.val (fun j cand =>
          if trace j ≠ 0#8 then Function.update cand j (cand j ++ [(s.queueBuf i).id]) else cand)
          s.topRatedCandidates }
    else s
  { s with lastScoredIdx := i }

/-- The first loop of `recalculate_all_scores`; `run i` is the trace that executing entry `i`
leaves behind. -/
def enrollCandidates (s : AflState) (run : ℕ → Bytes) : AflState :=
  let start := (s.lastScoredIdx + 1).toNat
  forLoop (s.queuedItems - start) (fun k s => enrollCandidate s (start + k) (run (start + k))) s

/-- One iteration of the second loop of `recalculate_all_scores`. -/
def rescoreIndex (i : ℕ) (s : AflState) : AflState :=
  (s.topRatedCandidates i).foldl (fun s id => updateBitmapRescore s id i) s

/-- The second loop of `recalculate_all_scores`. -/
def rescoreCandidates (s : AflState) : AflState := forLoop s.mapSize.val rescoreIndex s

def recalculateAllScores (s : AflState) (run : ℕ → Bytes) : AflState :=
  rescoreCandidates (enrollCandidates s run)

/-! ### The mini trace -/

theorem getLsbD_one_shiftLeft (a : ℕ) {b : ℕ} (hb : b < 8) :
    (1#8 <<< a).getLsbD b = decide (a = b) := by
  rw [BitVec.getLsbD_shiftLeft, BitVec.getLsbD_one]
  by_cases heq : a = b
  · simp [heq, hb]
  · by_cases hlt : b < a
    · simp [hlt, heq]
    · have : b - a ≠ 0 := by omega
      simp [heq, this]

/-- The bits of a mini trace are the non-zero bytes of the trace. -/
theorem bitAt_minimizeBits (mapSize : ℕ) (src : Bytes) (j : ℕ) :
    bitAt (minimizeBits mapSize (fun _ => 0) src) j = (decide (j < mapSize) && src j != 0#8) := by
  refine forLoop_induct (fun n dst => ∀ j, bitAt dst j = (decide (j < n) && src j != 0#8)) ?_ ?_ j
  · intro j
    simp [bitAt]
  · intro i dst _ ih j
    have hsplit : ∀ k : ℕ, k >>> 3 = k / 8 ∧ k &&& 7 = k % 8 := fun k =>
      ⟨by rw [Nat.shiftRight_eq_div_pow], Nat.and_two_pow_sub_one_eq_mod k 3⟩
    obtain ⟨hi3, hi7⟩ := hsplit i
    obtain ⟨hj3, hj7⟩ := hsplit j
    have hih := ih j
    have hbit : (1#8 <<< (i % 8)).getLsbD (j % 8) = decide (i % 8 = j % 8) :=
      getLsbD_one_shiftLeft (i % 8) (Nat.mod_lt _ (by decide))
    by_cases hij : j = i
    · subst hij
      split
      · rename_i hs
        simp [bitAt, hj3, hj7, hbit, hs]
      · rename_i hs
        simp only [not_not] at hs
        rw [hih, hs]
        simp
    · -- setting bit `i` leaves the other bits of its byte alone
      have hlt : j < i + 1 ↔ j < i := by omega
      simp only [hlt]
      rw [← hih]
      split
      · simp only [bitAt, hi3, hi7, hj3, hj7]
        by_cases hbyte : j / 8 = i / 8
        · have hne : i % 8 ≠ j % 8 := by omega
          rw [hbyte, Function.update_self, BitVec.getLsbD_or, hbit]
          simp [hne]
        · rw [Function.update_of_ne hbyte]
      · rfl

/-! ### What scoring can change -/

/-- `s'` differs from `s` only in what scoring writes: slot owners, reference counts, mini traces
and the change flag. -/
structure ScoreFrame (s s' : AflState) : Prop where
  rest : s' = { s with
    queueBuf := s'.queueBuf
    topRated := s'.topRated
    scoreChanged := s'.scoreChanged
    tcUnderflow := s'.tcUnderflow }
  entry : ∀ r, s'.queueBuf r = { s.queueBuf r with
    tcRef := (s'.queueBuf r).tcRef
    traceMini := (s'.queueBuf r).traceMini }

theorem ScoreFrame.refl (s : AflState) : ScoreFrame s s := ⟨rfl, fun _ => rfl⟩

theorem ScoreFrame.trans {s t u : AflState} (h : ScoreFrame s t) (h' : ScoreFrame t u) :
    ScoreFrame s u := by
  refine ⟨?_, fun r => ?_⟩
  · rw [h'.rest, h.rest]
  · rw [h'.entry r, h.entry r]

theorem ScoreFrame.mapSize {s t : AflState} (h : ScoreFrame s t) : t.mapSize = s.mapSize := by
  rw [h.rest]

theorem ScoreFrame.queuedItems {s t : AflState} (h : ScoreFrame s t) :
    t.queuedItems = s.queuedItems := by
  rw [h.rest]

theorem ScoreFrame.traceBits {s t : AflState} (h : ScoreFrame s t) : t.traceBits = s.traceBits := by
  rw [h.rest]

theorem ScoreFrame.miniTrace {s t : AflState} (h : ScoreFrame s t) : t.miniTrace = s.miniTrace := by
  unfold AflState.miniTrace
  rw [h.mapSize, h.traceBits]

theorem releaseSlot_frame (s : AflState) (p : ℕ) : ScoreFrame s (releaseSlot s p) := by
  refine ⟨rfl, fun r => ?_⟩
  by_cases hr : r = p
  · subst hr
    simp [releaseSlot]
  · simp [releaseSlot, AflState.modify_queueBuf_ne _ _ hr]

theorem winSlot_frame (s : AflState) (q i : ℕ) : ScoreFrame s (winSlot s q i) := by
  refine ⟨rfl, fun r => ?_⟩
  by_cases hr : r = q
  · subst hr
    simp [winSlot]
  · simp [winSlot, AflState.modify_queueBuf_ne _ _ hr]

theorem transferSlot_frame (s : AflState) (q i : ℕ) : ScoreFrame s (transferSlot s q i) := by
  unfold transferSlot
  split
  · exact (releaseSlot_frame s _).trans (winSlot_frame _ q i)
  · exact winSlot_frame s q i

/-- The two outcomes of a comparison. -/
theorem contendSlot_cases (s : AflState) (q : ℕ) (fuzzP2 favFactor : U64) (i : ℕ) :
    contendSlot s q fuzzP2 favFactor i = s ∨
      contendSlot s q fuzzP2 favFactor i = transferSlot s q i := by
  unfold contendSlot
  split
  · split
    · exact Or.inl rfl
    · split
      · exact Or.inl rfl
      · exact Or.inr rfl
  · exact Or.inr rfl

/-- What every slot transfer keeps, with `q` enabled and hitting the slot, a whole
`update_bitmap_score` keeps. -/
theorem updateBitmapScore_induct {P : AflState → Prop} {s : AflState} {q : ℕ} (haveTrace : Bool)
    (h0 : P s)
    (hs : ∀ t i, ScoreFrame s t → P t → i < s.mapSize.val → s.traceBits i ≠ 0#8 →
      (s.queueBuf q).disabled = false → P (transferSlot t q i)) :
    P (updateBitmapScore s q haveTrace) := by
  have hboth : ScoreFrame s (updateBitmapScore s q haveTrace) ∧
      P (updateBitmapScore s q haveTrace) := by
    unfold updateBitmapScore
    split
    · exact ⟨.refl s, h0⟩
    · rename_i hd
      simp only [Bool.not_eq_true] at hd
      split
      · refine forLoop_invariant (fun t => ScoreFrame s t ∧ P t) ⟨.refl s, h0⟩ ?_
        rintro i t hi ⟨hf, hp⟩
        split
        · rename_i htr
          rcases contendSlot_cases t q (s.fuzzP2 q) (s.favFactor q) i with h | h
          · rw [h]
            exact ⟨hf, hp⟩
          · have htr' : s.traceBits i ≠ 0#8 := hf.traceBits ▸ htr
            rw [h]
            exact ⟨hf.trans (transferSlot_frame t q i), hs t i hf hp hi htr' hd⟩
        · exact ⟨hf, hp⟩
      · exact ⟨.refl s, h0⟩
  exact hboth.2

theorem updateBitmapScore_frame (s : AflState) (q : ℕ) (haveTrace : Bool) :
    ScoreFrame s (updateBitmapScore s q haveTrace) :=
  updateBitmapScore_induct haveTrace (.refl s) fun t i hf _ _ _ _ =>
    hf.trans (transferSlot_frame t q i)

/-- The two outcomes of `update_bitmap_rescore`. -/
theorem updateBitmapRescore_cases (s : AflState) (q i : ℕ) :
    updateBitmapRescore s q i = s ∨
      (s.queueBuf q).disabled = false ∧ updateBitmapRescore s q i = transferSlot s q i := by
  unfold updateBitmapRescore
  split
  · exact Or.inl rfl
  · rename_i hd
    simp only [Bool.not_eq_true] at hd
    rcases contendSlot_cases s q (s.fuzzP2 q) (s.favFactor q) i with h | h
    · exact Or.inl h
    · exact Or.inr ⟨hd, h⟩

theorem transferSlot_topRated (s : AflState) (q i : ℕ) :
    (transferSlot s q i).topRated = Function.update s.topRated i (some q) := by
  unfold transferSlot
  split <;> rfl

/-- The state in which `q` is entered as the new owner of slot `i`. -/
def AflState.released (s : AflState) (i : ℕ) : AflState :=
  match s.topRated i with
  | some p => releaseSlot s p
  | none => s

theorem transferSlot_eq (s : AflState) (q i : ℕ) :
    transferSlot s q i = winSlot (s.released i) q i := by
  unfold transferSlot AflState.released
  split <;> rfl

theorem released_traceMini {s : AflState} {i r : ℕ} {m : Bytes}
    (h : ((s.released i).queueBuf r).traceMini = some m) : (s.queueBuf r).traceMini = some m := by
  unfold AflState.released at h
  split at h
  · rename_i p _
    by_cases hr : r = p
    · subst hr
      simp only [releaseSlot, AflState.modify_queueBuf_self] at h
      split at h
      · cases h
      · exact h
    · simpa only [releaseSlot, AflState.modify_queueBuf_ne _ _ hr] using h
  · exact h

/-- A mini trace after a transfer was there before, or is the new owner's, which had none left, and
was made from the trace buffer. -/
theorem transferSlot_traceMini {s : AflState} {q i r : ℕ} {m : Bytes}
    (h : ((transferSlot s q i).queueBuf r).traceMini = some m) :
    (s.queueBuf r).traceMini = some m ∨
      r = q ∧ m = s.miniTrace ∧ ((s.released i).queueBuf q).traceMini = none := by
  have hmini : (s.released i).miniTrace = s.miniTrace := by
    unfold AflState.released
    split <;> rfl
  rw [transferSlot_eq] at h
  by_cases hr : r = q
  · subst hr
    simp only [winSlot, AflState.modify_queueBuf_self, Option.some.injEq] at h
    cases ho : ((s.released i).queueBuf r).traceMini with
    | none => exact Or.inr ⟨rfl, by rw [← h, ho, Option.getD_none, hmini], rfl⟩
    | some m' =>
      refine Or.inl (released_traceMini (ho.trans ?_))
      rw [← h, ho, Option.getD_some]
  · simp only [winSlot, AflState.modify_queueBuf_ne _ _ hr] at h
    exact Or.inl (released_traceMini h)

/-! ### Recalculation of all scores -/

/-- Enrolling changes only the trace buffer, the candidate lists and the position reached. -/
structure EnrollFrame (s s' : AflState) : Prop where
  rest : s' = { s with
    traceBits := s'.traceBits
    topRatedCandidates := s'.topRatedCandidates
    lastScoredIdx := s'.lastScoredIdx }

theorem EnrollFrame.trans {s t u : AflState} (h : EnrollFrame s t) (h' : EnrollFrame t u) :
    EnrollFrame s u := ⟨by rw [h'.rest, h.rest]⟩

theorem enrollCandidate_frame (s : AflState) (i : ℕ) (trace : Bytes) :
    EnrollFrame s (enrollCandidate s i trace) := by
  unfold enrollCandidate
  dsimp only
  split <;> exact ⟨rfl⟩

/-- A candidate of an index was one before, or is the entry just executed, which hits the index. -/
theorem mem_enrollCandidate {s : AflState} {i j id : ℕ} {trace : Bytes}
    (h : id ∈ (enrollCandidate s i trace).topRatedCandidates j) :
    id ∈ s.topRatedCandidates j ∨
      (s.queueBuf i).disabled = false ∧ id = (s.queueBuf i).id ∧ trace j ≠ 0#8 := by
  unfold enrollCandidate at h
  dsimp only at h
  split at h
  · rename_i hd
    refine forLoop_invariant (fun cand : ℕ → List ℕ => ∀ j, id ∈ cand j →
      id ∈ s.topRatedCandidates j ∨
        (s.queueBuf i).disabled = false ∧ id = (s.queueBuf i).id ∧ trace j ≠ 0#8)
      (fun _ => Or.inl) ?_ j h
    intro k cand _ ih j hj
    split at hj
    · rename_i htr
      by_cases hjk : j = k
      · subst hjk
        rw [Function.update_self, List.mem_append, List.mem_singleton] at hj
        rcases hj with hj | hj
        · exact ih j hj
        · exact Or.inr ⟨by simpa using hd, hj, htr⟩
      · rw [Function.update_of_ne hjk] at hj
        exact ih j hj
    · exact ih j hj
  · exact Or.inl h

/-- What enrolling one entry keeps, enrolling all entries from `last_scored_idx + 1` on keeps. -/
theorem enrollCandidates_induct {P : AflState → Prop} {s : AflState} (run : ℕ → Bytes) (h0 : P s)
    (hs : ∀ t i, EnrollFrame s t → P t → i < s.queuedItems → P (enrollCandidate t i (run i))) :
    EnrollFrame s (enrollCandidates s run) ∧ P (enrollCandidates s run) := by
  unfold enrollCandidates
  refine forLoop_invariant (fun t => EnrollFrame s t ∧ P t) ⟨⟨rfl⟩, h0⟩ ?_
  rintro k t hk ⟨hf, hp⟩
  exact ⟨hf.trans (enrollCandidate_frame t _ _), hs t _ hf hp (by omega)⟩

/-- The state in which `recalculate_all_scores` rescores the candidate of index `i` that comes
after those in `done`. -/
def AflState.beforeRescore (s : AflState) (i : ℕ) (done : List ℕ) : AflState :=
  done.foldl (fun s id => updateBitmapRescore s id i) (forLoop i rescoreIndex s)

theorem updateBitmapRescore_frame (s : AflState) (q i : ℕ) :
    ScoreFrame s (updateBitmapRescore s q i) := by
  rcases updateBitmapRescore_cases s q i with h | ⟨_, h⟩
  · rw [h]
    exact .refl s
  · rw [h]
    exact transferSlot_frame s q i

/-- What holds once all candidates are enrolled and survives every rescoring of a candidate holds
after `recalculate_all_scores`. -/
theorem rescoreCandidates_induct {P : AflState → Prop} {s : AflState} (h0 : P s)
    (hs : ∀ i done q rest, i < s.mapSize.val → s.topRatedCandidates i = done ++ q :: rest →
      ScoreFrame s (s.beforeRescore i done) → P (s.beforeRescore i done) →
      P (updateBitmapRescore (s.beforeRescore i done) q i)) : P (rescoreCandidates s) := by
  -- all candidates of one index, by induction on those still to come
  have hfold : ∀ i, i < s.mapSize.val → ∀ rest done, s.topRatedCandidates i = done ++ rest →
      ScoreFrame s (s.beforeRescore i done) → P (s.beforeRescore i done) →
      ScoreFrame s (s.beforeRescore i (s.topRatedCandidates i)) ∧
        P (s.beforeRescore i (s.topRatedCandidates i)) := by
    intro i hi rest
    induction rest with
    | nil =>
      intro done heq hf hp
      rw [heq, List.append_nil]
      exact ⟨hf, hp⟩
    | cons q rest ih =>
      intro done heq hf hp
      have hnext : s.beforeRescore i (done ++ [q]) =
          updateBitmapRescore (s.beforeRescore i done) q i := by
        simp only [AflState.beforeRescore, List.foldl_append, List.foldl_cons, List.foldl_nil]
      refine ih (done ++ [q]) (by rw [heq, List.append_assoc]; rfl) ?_ ?_
      · rw [hnext]
        exact hf.trans (updateBitmapRescore_frame _ q i)
      · rw [hnext]
        exact hs i done q rest hi heq hf hp
  have hloop : ∀ n, n ≤ s.mapSize.val →
      ScoreFrame s (forLoop n rescoreIndex s) ∧ P (forLoop n rescoreIndex s) := by
    intro n
    induction n with
    | zero => exact fun _ => ⟨.refl s, h0⟩
    | succ n ih =>
      intro hn
      obtain ⟨hf, hp⟩ := ih (Nat.le_of_succ_le hn)
      have hcand : (forLoop n rescoreIndex s).topRatedCandidates = s.topRatedCandidates := by
        rw [hf.rest]
      have hiter : forLoop (n + 1) rescoreIndex s =
          s.beforeRescore n (s.topRatedCandidates n) := by
        rw [forLoop_succ, rescoreIndex, hcand]
        rfl
      rw [hiter]
      exact hfold n hn _ [] rfl hf hp
  exact (hloop s.mapSize.val (Nat.le_refl _)).2

end AflPlusPlus
