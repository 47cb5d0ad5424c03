import AflPlusPlus.Queue.Runs

/-!
# Whose trace a mini trace is

`update_bitmap_score` makes the mini trace of an entry right after executing it.
`recalculate_all_scores` executes all entries first and makes mini traces afterwards, from what the
last execution left in the shared buffer. As long as that buffer holds a trace of the entry whose
mini trace is made, every mini trace is a trace of its entry and every slot is owned by an entry
that hits it.
-/

namespace AflPlusPlus
open Lib

/-- Whether the comparison of `update_bitmap_rescore` goes in favor of `q`. -/
def AflState.winsSlot (s : AflState) (q i : ℕ) : Bool :=
  match s.topRated i with
  | some p => !decide (s.fuzzP2 q > s.fuzzP2 p) && !decide (s.favFactor q > s.favFactor p)
  | none => true

/-- Whether `update_bitmap_rescore` finds that `q` wins slot `i` and has no mini trace, so that it
makes one from the trace buffer. -/
def AflState.makesMini (s : AflState) (q i : ℕ) : Bool :=
  !(s.queueBuf q).disabled && s.winsSlot q i && ((s.released i).queueBuf q).traceMini.isNone

theorem contendSlot_eq (s : AflState) (q i : ℕ) :
    contendSlot s q (s.fuzzP2 q) (s.favFactor q) i =
      if s.winsSlot q i then transferSlot s q i else s := by
  unfold contendSlot AflState.winsSlot
  cases s.topRated i with
  | none => rfl
  | some p =>
    by_cases hz : s.fuzzP2 q > s.fuzzP2 p
    · simp [hz]
    · by_cases hv : s.favFactor q > s.favFactor p
      · simp [hv]
      · simp [hz, hv]

theorem updateBitmapRescore_eq (s : AflState) (q i : ℕ) :
    updateBitmapRescore s q i =
      if !(s.queueBuf q).disabled && s.winsSlot q i then transferSlot s q i else s := by
  rw [updateBitmapRescore, contendSlot_eq]
  cases (s.queueBuf q).disabled <;> rfl

/-- Some execution of `q` hits index `i`. -/
def Target.Hits (target : Target) (q i : ℕ) : Prop := ∃ k, target q k i ≠ 0#8

/-- Some execution of `q` leaves `trace`. -/
def Target.Leaves (target : Target) (q : ℕ) (trace : Bytes) : Prop := ∃ k, trace = target q k

/-- The steps that make mini traces only from a trace of the entry itself. Rescoring happens only
within `recalculate_all_scores`. -/
def TraceSound (target : Target) (s : AflState) : Op → Prop
  | .rescore _ _ => False
  | .recalculate k =>
    let e := enrollCandidates s fun q => target q (k q)
    ∀ i done q rest, i < e.mapSize.val → e.topRatedCandidates i = done ++ q :: rest →
      (e.beforeRescore i done).makesMini q i = true → target.Leaves q e.traceBits
  | _ => True

/-- Mini traces are traces of their entries, and slots and candidate lists name entries that hit
their index. -/
structure TraceInv (target : Target) (s : AflState) : Prop where
  queue : QueueInv s
  mini : ∀ q m, q < s.queuedItems → (s.queueBuf q).traceMini = some m →
    ∃ k, m = minimizeBits s.mapSize.val (fun _ => 0) (target q k)
  slot : ∀ i q, s.topRated i = some q → target.Hits q i
  candidate : ∀ i q, q ∈ s.topRatedCandidates i → target.Hits q i

variable {target : Target} {s t : AflState}

theorem AflState.Fresh.traceInv (h : s.Fresh) : TraceInv target s := by
  refine ⟨h.queueInv, fun q m hq _ => ?_, fun i q hq => ?_, fun i q hq => ?_⟩
  · rw [h.queuedItems] at hq
    exact absurd hq (Nat.not_lt_zero q)
  · rw [h.topRated i] at hq
    cases hq
  · rw [h.candidates i] at hq
    cases hq

/-- Steps that make no mini trace and move no slot keep the invariant. -/
theorem TraceInv.congr (h : TraceInv target s) (hq : QueueInv t) (hsize : t.mapSize = s.mapSize)
    (hitems : t.queuedItems = s.queuedItems) (htop : t.topRated = s.topRated)
    (hcand : t.topRatedCandidates = s.topRatedCandidates)
    (hmini : ∀ q m, (t.queueBuf q).traceMini = some m → (s.queueBuf q).traceMini = some m) :
    TraceInv target t := by
  refine ⟨hq, fun q m hlt hm => ?_, fun i q => ?_, fun i q => ?_⟩
  · rw [hsize]
    exact h.mini q m (hitems ▸ hlt) (hmini q m hm)
  · rw [htop]
    exact h.slot i q
  · rw [hcand]
    exact h.candidate i q

theorem TraceInv.cullFrame (h : TraceInv target s) (hf : CullFrame s t)
    (hmini : ∀ q m, (t.queueBuf q).traceMini = some m → (s.queueBuf q).traceMini = some m) :
    TraceInv target t := by
  refine h.congr (h.queue.cullFrame hf) ?_ ?_ ?_ ?_ hmini <;> rw [hf.rest]

/-- A transfer to an entry that hits the slot, where a mini trace made on the way is its own. -/
theorem TraceInv.transferSlot (h : TraceInv target s) {q i : ℕ} (hi : i < s.mapSize.val)
    (hq : q < s.queuedItems) (hhit : target.Hits q i)
    (hown : ((s.released i).queueBuf q).traceMini = none → target.Leaves q s.traceBits) :
    TraceInv target (transferSlot s q i) := by
  have hf := transferSlot_frame s q i
  refine ⟨h.queue.transferSlot hi hq, fun r m hr hm => ?_, fun j r hr => ?_, fun j r hr => ?_⟩
  · rw [hf.mapSize]
    rcases transferSlot_traceMini hm with hold | ⟨rfl, rfl, hnone⟩
    · exact h.mini r m (hf.queuedItems ▸ hr) hold
    · obtain ⟨k, hk⟩ := hown hnone
      exact ⟨k, by rw [AflState.miniTrace, hk]⟩
  · rw [transferSlot_topRated] at hr
    by_cases hj : j = i
    · subst hj
      rw [Function.update_self, Option.some.injEq] at hr
      exact hr ▸ hhit
    · rw [Function.update_of_ne hj] at hr
      exact h.slot j r hr
  · rw [hf.rest] at hr
    exact h.candidate j r hr

theorem TraceInv.addToQueue (h : TraceInv target s) (len : U32) (passedDet : Bool) :
    TraceInv target (addToQueue s len passedDet) := by
  refine ⟨h.queue.addToQueue len passedDet, fun q m hq hm => ?_, h.slot, h.candidate⟩
  change (Function.update s.queueBuf s.queuedItems _ q).traceMini = some m at hm
  by_cases hqn : q = s.queuedItems
  · subst hqn
    rw [Function.update_self] at hm
    cases hm
  · rw [Function.update_of_ne hqn] at hm
    have hlt : q < s.queuedItems + 1 := hq
    exact h.mini q m (by omega) hm

theorem TraceInv.enrollCandidates (h : TraceInv target s) (k : ℕ → ℕ) :
    TraceInv target (enrollCandidates s fun q => target q (k q)) := by
  refine (enrollCandidates_induct _ h fun u i hf hu hi => ?_).2
  have hi' : i < u.queuedItems := by
    rw [hf.rest]
    exact hi
  have hfe := enrollCandidate_frame u i (target i (k i))
  refine ⟨hu.queue.enrollCandidate hi' _, fun q m hq hm => ?_, fun j q hq => ?_, fun j q hq => ?_⟩
  · rw [hfe.rest] at hq hm ⊢
    exact hu.mini q m hq hm
  · rw [hfe.rest] at hq
    exact hu.slot j q hq
  · rcases mem_enrollCandidate hq with hold | ⟨_, hid, htr⟩
    · exact hu.candidate j q hold
    · rw [hu.queue.id i hi'] at hid
      exact ⟨k i, hid ▸ htr⟩

theorem TraceInv.updateBitmapRescore (h : TraceInv target s) {q i : ℕ} (hi : i < s.mapSize.val)
    (hq : q < s.queuedItems) (hhit : target.Hits q i)
    (hown : s.makesMini q i = true → target.Leaves q s.traceBits) :
    TraceInv target (updateBitmapRescore s q i) := by
  rw [updateBitmapRescore_eq]
  split
  · rename_i hwin
    refine h.transferSlot hi hq hhit fun hnone => hown ?_
    rw [AflState.makesMini, hwin, hnone]
    rfl
  · exact h

theorem TraceInv.recalculate (h : TraceInv target s) {k : ℕ → ℕ}
    (hok : TraceSound target s (.recalculate k)) :
    TraceInv target (recalculateAllScores s fun q => target q (k q)) := by
  have he := h.enrollCandidates k
  refine rescoreCandidates_induct he fun i done q rest hi hsplit hf ht => ?_
  have hmem : q ∈ (AflPlusPlus.enrollCandidates s fun q => target q (k q)).topRatedCandidates i :=
    hsplit ▸ List.mem_append_right done List.mem_cons_self
  refine ht.updateBitmapRescore (hf.mapSize.symm ▸ hi)
    (hf.queuedItems.symm ▸ he.queue.candidate i q hmem) (he.candidate i q hmem) fun hmake => ?_
  rw [hf.traceBits]
  exact hok i done q rest hi hsplit hmake

theorem TraceInv.step {op : Op} (h : TraceInv target s) (hok : TraceSound target s op)
    (hstep : queueStep target s op = some t) : TraceInv target t := by
  have hqueue := h.queue.step hstep
  cases op with
  | addToQueue len passedDet =>
    simp only [queueStep, Option.some.injEq] at hstep
    subst hstep
    exact h.addToQueue len passedDet
  | execute trace =>
    simp only [queueStep, Option.some.injEq] at hstep
    subst hstep
    exact h.congr hqueue rfl rfl rfl rfl fun _ _ => id
  | annotate schedule nFuzz notes maps =>
    simp only [queueStep, Option.some.injEq] at hstep
    subst hstep
    exact h.congr hqueue rfl rfl rfl rfl fun _ _ => id
  | score q k execUs len execCksum =>
    simp only [queueStep, Option.ite_none_right_eq_some, Option.some.injEq] at hstep
    obtain ⟨hq, rfl⟩ := hstep
    have hm : TraceInv target (s.measured q (target q k) execUs len execCksum) := by
      refine h.congr (h.queue.measured ..) rfl rfl rfl rfl fun r m hm => ?_
      rwa [s.measured_frame q r (·.traceMini) fun _ _ _ _ => rfl] at hm
    refine updateBitmapScore_induct true hm fun u i hf hu hi htr _ => ?_
    -- the buffer holds the execution that is being scored
    refine hu.transferSlot (hf.mapSize.symm ▸ hi) (hf.queuedItems.symm ▸ hq) ⟨k, htr⟩ fun _ => ?_
    exact ⟨k, hf.traceBits⟩
  | rescore q index => exact hok.elim
  | recalculate k =>
    simp only [queueStep, Option.some.injEq] at hstep
    subst hstep
    exact h.recalculate hok
  | cull =>
    simp only [queueStep, Option.some.injEq] at hstep
    subst hstep
    exact h.cullFrame (cullQueue_frame s) fun _ _ => cullQueue_traceMini
  | markAsRedundant q state =>
    simp only [queueStep, Option.ite_none_right_eq_some, Option.some.injEq] at hstep
    obtain ⟨_, rfl⟩ := hstep
    exact h.cullFrame (markAsRedundant_frame s q state) fun _ _ => markAsRedundant_traceMini
  | dedup =>
    simp only [queueStep, Option.some.injEq] at hstep
    subst hstep
    refine dedupQueue_induct (P := TraceInv target) (fun u _ q _ hu => ?_) h fun u hu => ?_
    · have hf := disableDuplicate_frame u q
      refine hu.congr (hu.queue.disableFrame hf) ?_ ?_ ?_ ?_ fun r m hm => ?_
      · rw [hf.rest]
      · rw [hf.rest]
      · rw [hf.rest]
      · rw [hf.rest]
      · rwa [hf.entry r] at hm
    · exact hu.congr (hu.queue.congr rfl rfl rfl rfl fun _ => rfl) rfl rfl rfl rfl fun _ _ => id

/-- The bits that `cull_queue` removes with a mini trace of an execution are hit by it. -/
theorem hits_of_removeBits {mapSize : MapSize} {trace v : Bytes} {j : ℕ} (hj : j < mapSize.val)
    (hbefore : bitAt v j = true)
    (hafter : bitAt (removeBits (mapSize.val >>> 3)
      (minimizeBits mapSize.val (fun _ => 0) trace) v) j = false) : trace j ≠ 0#8 := by
  have hlen : j < 8 * (mapSize.val >>> 3) := by
    have haligned := mapSize.aligned
    rw [Nat.shiftRight_eq_div_pow]
    omega
  rw [bitAt_removeBits _ _ hlen, hbefore, bitAt_minimizeBits] at hafter
  simpa [hj] using hafter

/-- In a run that makes mini traces only while the buffer holds a trace of their entry, every mini
trace is that of an execution of its entry, and `cull_queue` removes with it only what the entry
hits. -/
theorem traceMini_of_own_execution (h0 : s.Fresh)
    (hrun : Reaches (queueStep target) (TraceSound target) s t) {q : ℕ} {m : Bytes}
    (hq : q < t.queuedItems) (hm : (t.queueBuf q).traceMini = some m) :
    (∃ k, m = minimizeBits t.mapSize.val (fun _ => 0) (target q k)) ∧
      ∀ v j, j < t.mapSize.val → bitAt v j = true →
        bitAt (removeBits (t.mapSize.val >>> 3) m v) j = false → target.Hits q j := by
  have hinv : TraceInv target t :=
    hrun.invariant h0.traceInv fun u op v hu hok hstep => hu.step hok hstep
  obtain ⟨k, rfl⟩ := hinv.mini q m hq hm
  exact ⟨⟨k, rfl⟩, fun v j hj hbefore hafter => ⟨k, hits_of_removeBits hj hbefore hafter⟩⟩

/-- The buffer holds the trace of the last entry that was executed. -/
theorem enrollCandidates_traceBits (run : ℕ → Bytes) {n : ℕ} (hitems : s.queuedItems = n + 1)
    (hstart : (s.lastScoredIdx + 1).toNat ≤ n) (henabled : (s.queueBuf n).disabled = false) :
    (enrollCandidates s run).traceBits = run n := by
  obtain ⟨d, hd⟩ := Nat.exists_eq_add_of_le hstart
  have hcount : s.queuedItems - (s.lastScoredIdx + 1).toNat = d + 1 := by omega
  let earlier := forLoop d (fun k t => enrollCandidate t
    ((s.lastScoredIdx + 1).toNat + k) (run ((s.lastScoredIdx + 1).toNat + k))) s
  have hearlier : EnrollFrame s earlier := forLoop_invariant (EnrollFrame s) ⟨rfl⟩
    fun _ t _ ht => ht.trans (enrollCandidate_frame t _ _)
  have hnow : (earlier.queueBuf n).disabled = false := by rw [hearlier.rest, henabled]
  rw [enrollCandidates, hcount, forLoop_succ, ← hd]
  change (enrollCandidate earlier n (run n)).traceBits = run n
  rw [enrollCandidate, hnow]
  rfl

theorem queueStep_score {q k : ℕ} {execUs execCksum : U64} {len : U32} (s : AflState)
    (hq : q < s.queuedItems) : queueStep target s (.score q k execUs len execCksum) =
      some (updateBitmapScore (s.measured q (target q k) execUs len execCksum) q true) :=
  if_pos hq

/-- Entry 0 hits two indices, entry 1 a third one. -/
def twoTraces : Target := fun q _ => hits (if q = 0 then [0, 2] else [1])

/-- Two entries of which entry 0 is scored. -/
def scoredOne : AflState :=
  let s := addToQueue (addToQueue (.init .block) 1 false) 1 false
  updateBitmapScore (s.measured 0 (twoTraces 0 0) 1 1 1) 0 true

def scoredTwo : AflState :=
  updateBitmapScore (scoredOne.measured 1 (twoTraces 1 0) 1 1 2) 1 true

theorem scoredTwo_reached :
    Reaches (queueStep twoTraces) (TraceSound twoTraces) (AflState.init .block) scoredTwo := by
  have hadded : Reaches (queueStep twoTraces) (TraceSound twoTraces) (AflState.init .block)
      (addToQueue (addToQueue (.init .block) 1 false) 1 false) :=
    (Reaches.refl.tail (a := .addToQueue 1 false) trivial rfl).tail (a := .addToQueue 1 false)
      trivial rfl
  have hfirst : Reaches (queueStep twoTraces) (TraceSound twoTraces) (AflState.init .block)
      scoredOne := hadded.tail (a := .score 0 0 1 1 1) trivial (queueStep_score _ (by decide))
  exact hfirst.tail (a := .score 1 0 1 1 2) trivial (queueStep_score _ (by decide +kernel))

/-- Rescoring candidates like those of the two entries: entry 0 keeps its mini trace while one of
its indices is rescored, and entry 1 gets a new one from the buffer, which holds its own trace. -/
theorem makesMini_own {e : AflState} {i q : ℕ} {done rest : List ℕ}
    (htrace : e.traceBits = twoTraces 1 0)
    (hcands : ((List.range e.mapSize.val).all fun i => e.topRatedCandidates i ==
      if i = 0 ∨ i = 2 then [0] else if i = 1 then [1] else []) = true)
    (hkept : (e.beforeRescore 0 []).makesMini 0 0 = false ∧
      (e.beforeRescore 2 []).makesMini 0 2 = false)
    (hi : i < e.mapSize.val) (hsplit : e.topRatedCandidates i = done ++ q :: rest)
    (hmakes : (e.beforeRescore i done).makesMini q i = true) :
    twoTraces.Leaves q e.traceBits := by
  have honly : ∀ x, [x] = done ++ q :: rest → done = [] ∧ x = q := by
    intro x hx
    rcases List.singleton_eq_append_iff.mp hx with ⟨hdone, hq⟩ | ⟨-, hq⟩
    · exact ⟨hdone, (List.cons.inj hq).1.symm⟩
    · cases hq
  rw [eq_of_beq (List.all_eq_true.mp hcands i (List.mem_range.mpr hi))] at hsplit
  split_ifs at hsplit with hzero hone
  · obtain ⟨rfl, rfl⟩ := honly 0 hsplit
    rcases hzero with rfl | rfl
    · rw [hkept.1] at hmakes
      exact absurd hmakes Bool.false_ne_true
    · rw [hkept.2] at hmakes
      exact absurd hmakes Bool.false_ne_true
  · obtain ⟨-, rfl⟩ := honly 1 hsplit
    exact ⟨0, htrace⟩
  · exact absurd hsplit (by simp)

/-- Both entries are executed again before they are rescored, entry 1 last. -/
theorem traceMini_of_own_execution_two :
    ∃ t m, Reaches (queueStep twoTraces) (TraceSound twoTraces) (AflState.init .block) t ∧
      (t.queueBuf 1).traceMini = some m ∧
      ∃ k : ℕ, m = minimizeBits t.mapSize.val (fun _ => 0) (twoTraces 1 k) := by
  have htrace : (enrollCandidates scoredTwo fun q => twoTraces q 0).traceBits = twoTraces 1 0 :=
    enrollCandidates_traceBits (n := 1) _ (by decide +kernel) (by decide +kernel)
      (by decide +kernel)
  have hsound : TraceSound twoTraces scoredTwo (.recalculate fun _ => 0) :=
    fun _ _ _ _ hi hsplit hmakes =>
      makesMini_own htrace (by decide +kernel) (by decide +kernel) hi hsplit hmakes
  have hrun : Reaches (queueStep twoTraces) (TraceSound twoTraces) (AflState.init .block)
      (recalculateAllScores scoredTwo fun q => twoTraces q 0) := scoredTwo_reached.tail hsound rfl
  have hview : ((recalculateAllScores scoredTwo fun q => twoTraces q 0).queuedItems,
      ((recalculateAllScores scoredTwo fun q => twoTraces q 0).queueBuf 1).traceMini.isSome) =
        (2, true) := by decide +kernel
  obtain ⟨hitems, hmini⟩ := Prod.mk.inj hview
  obtain ⟨m, hm⟩ := Option.isSome_iff_exists.mp hmini
  exact ⟨_, m, hrun, hm,
    (traceMini_of_own_execution (AflState.init_fresh .block) hrun (by omega) hm).1⟩

/-- Two entries that hit one index each are scored, and all scores are recalculated. Entry 0 wins
its slot again, drops its mini trace with the last reference, and gets that of entry 1. -/
theorem recalculate_makes_foreign_mini :
    ∃ t m, exec (queueStep fun q _ => hits [q]) (fun _ _ => True) (AflState.init .block)
        [.addToQueue 1 false, .addToQueue 1 false, .score 0 0 1 1 1, .score 1 0 1 1 2,
          .recalculate fun _ => 0] = some t ∧
      0 < t.queuedItems ∧ (t.queueBuf 0).traceMini = some m ∧
      ∀ k : ℕ,
        m ≠ minimizeBits t.mapSize.val (fun _ => 0) ((fun q _ => hits [q] : Target) 0 k) := by
  have hview : (exec (queueStep fun q _ => hits [q]) (fun _ _ => True) (AflState.init .block)
      [.addToQueue 1 false, .addToQueue 1 false, .score 0 0 1 1 1, .score 1 0 1 1 2,
        .recalculate fun _ => 0]).map (fun t => (t.queuedItems, (t.queueBuf 0).traceMini.map
          fun m => bitAt m 1)) = some (2, some true) := by decide +kernel
  obtain ⟨t, ht, hview⟩ := Option.map_eq_some_iff.mp hview
  obtain ⟨hitems, hmini⟩ := Prod.mk.inj hview
  obtain ⟨m, hm, hbit⟩ := Option.map_eq_some_iff.mp hmini
  refine ⟨t, m, ht, by omega, hm, fun _ heq => ?_⟩
  rw [heq, bitAt_minimizeBits] at hbit
  simp [hits] at hbit

end AflPlusPlus
