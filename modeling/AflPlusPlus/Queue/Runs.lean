import AflPlusPlus.Lib.Reach
import AflPlusPlus.Queue.Cull
import AflPlusPlus.Queue.DryRun

/-!
# Runs of the scheduling operations

The scoring, culling and de-duplication functions as the operations of one step system. A target is
given by the trace that the `k`-th execution of an entry leaves in `trace_bits`, so that the traces
of an entry may differ from one execution to the next.
-/

namespace AflPlusPlus
open Lib

/-- `target q k` is the trace of the `k`-th execution of entry `q`. -/
abbrev Target := ℕ → ℕ → Bytes

structure CoverageMaps where
  virginBits : Bytes
  virginTmout : Bytes
  virginCrash : Bytes
  varBytes : Bytes

/-- New metadata, except for what only scoring, culling and de-duplication write. -/
def QueueEntry.annotated (e : QueueEntry) (notes : QueueMeta) : QueueEntry :=
  { e with toQueueMeta := { notes with
      favored := e.favored
      fsRedundant := e.fsRedundant
      disabled := e.disabled
      tcRef := e.tcRef } }

inductive Op
  | addToQueue (len : U32) (passedDet : Bool)
  /-- Some other input, such as a mutant, is executed. -/
  | execute (trace : Bytes)
  /-- What the rest of the fuzzer writes between two of these calls. -/
  | annotate (schedule : Schedule) (nFuzz : ℕ → U32) (notes : ℕ → QueueMeta) (maps : CoverageMaps)
  /-- Entry `q` has been executed and measured, and is scored. -/
  | score (q k : ℕ) (execUs : U64) (len : U32) (execCksum : U64)
  | rescore (q index : ℕ)
  | recalculate (k : ℕ → ℕ)
  | cull
  | markAsRedundant (q : ℕ) (state : Bool)
  | dedup

/-- The state in which `update_bitmap_score` is called for an execution of `q`. -/
def AflState.measured (s : AflState) (q : ℕ) (trace : Bytes) (execUs : U64) (len : U32)
    (execCksum : U64) : AflState :=
  { s.modify q fun e => { e with execUs := execUs, len := len, execCksum := execCksum } with
    traceBits := trace }

/-- A component of an entry that the measurement does not write. -/
theorem AflState.measured_frame {β : Type*} (s : AflState) {trace : Bytes} {execUs : U64}
    {len : U32}
    {execCksum : U64} (q r : ℕ) (g : QueueEntry → β)
    (h : ∀ e a b c, g { e with execUs := a, len := b, execCksum := c } = g e) :
    g ((s.measured q trace execUs len execCksum).queueBuf r) = g (s.queueBuf r) :=
  s.modify_queueBuf_frame q r _ g fun e => h e execUs len execCksum

/-- One operation. It is undefined on pointers and indices outside the arrays. -/
def queueStep (target : Target) (s : AflState) : Op → Option AflState
  | .addToQueue len passedDet => some (addToQueue s len passedDet)
  | .execute trace => some { s with traceBits := trace }
  | .annotate schedule nFuzz notes maps =>
    some { s with
      schedule := schedule
      nFuzz := nFuzz
      virginBits := maps.virginBits
      virginTmout := maps.virginTmout
      virginCrash := maps.virginCrash
      varBytes := maps.varBytes
      queueBuf := fun q => (s.queueBuf q).annotated (notes q) }
  | .score q k execUs len execCksum =>
    if q < s.queuedItems then
      some (updateBitmapScore (s.measured q (target q k) execUs len execCksum) q true)
    else none
  | .rescore q index =>
    if q < s.queuedItems ∧ index < s.mapSize.val then some (updateBitmapRescore s q index) else none
  | .recalculate k => some (recalculateAllScores s fun q => target q (k q))
  | .cull => some (cullQueue s)
  | .markAsRedundant q state =>
    if q < s.queuedItems then some (markAsRedundant s q state) else none
  | .dedup => some (dedupQueue s)

/-- An empty queue, under any settings and with any trace in the buffer. -/
structure AflState.Fresh (s : AflState) : Prop where
  queuedItems : s.queuedItems = 0
  topRated : ∀ i, s.topRated i = none
  candidates : ∀ i, s.topRatedCandidates i = []
  scoreChanged : s.scoreChanged = false
  tcUnderflow : s.tcUnderflow = false

theorem AflState.init_fresh (mapSize : MapSize) : (AflState.init mapSize).Fresh :=
  ⟨rfl, fun _ => rfl, fun _ => rfl, rfl, rfl⟩

/-- Pointers stored in the state point into the queue. -/
structure QueueInv (s : AflState) : Prop where
  slot : ∀ i q, s.topRated i = some q → i < s.mapSize.val ∧ q < s.queuedItems
  candidate : ∀ i q, q ∈ s.topRatedCandidates i → q < s.queuedItems
  id : ∀ q, q < s.queuedItems → (s.queueBuf q).id = q

theorem AflState.Fresh.queueInv {s : AflState} (h : s.Fresh) : QueueInv s := by
  refine ⟨fun i q hq => ?_, fun i q hq => ?_, fun q hq => ?_⟩
  · rw [h.topRated i] at hq
    cases hq
  · rw [h.candidates i] at hq
    cases hq
  · rw [h.queuedItems] at hq
    exact absurd hq (Nat.not_lt_zero q)

theorem QueueInv.transferSlot {s : AflState} (h : QueueInv s) {q i : ℕ} (hi : i < s.mapSize.val)
    (hq : q < s.queuedItems) : QueueInv (transferSlot s q i) := by
  have hf := transferSlot_frame s q i
  have hsize := hf.mapSize
  have hitems := hf.queuedItems
  refine ⟨fun j r hr => ?_, fun j r hr => ?_, fun r hr => ?_⟩
  · rw [hsize, hitems]
    rw [transferSlot_topRated] at hr
    by_cases hj : j = i
    · subst hj
      rw [Function.update_self, Option.some.injEq] at hr
      exact ⟨hi, hr ▸ hq⟩
    · rw [Function.update_of_ne hj] at hr
      exact h.slot j r hr
  · rw [hitems]
    rw [hf.rest] at hr
    exact h.candidate j r hr
  · rw [hf.entry r]
    rw [hitems] at hr
    exact h.id r hr

theorem QueueInv.updateBitmapRescore {s : AflState} (h : QueueInv s) {q i : ℕ}
    (hi : i < s.mapSize.val) (hq : q < s.queuedItems) : QueueInv (updateBitmapRescore s q i) := by
  rcases updateBitmapRescore_cases s q i with he | ⟨_, he⟩
  · rw [he]
    exact h
  · rw [he]
    exact h.transferSlot hi hq

/-- The invariant speaks only of these components. -/
theorem QueueInv.congr {s t : AflState} (h : QueueInv s) (hsize : t.mapSize = s.mapSize)
    (hitems : t.queuedItems = s.queuedItems) (htop : t.topRated = s.topRated)
    (hcand : t.topRatedCandidates = s.topRatedCandidates)
    (hid : ∀ q, (t.queueBuf q).id = (s.queueBuf q).id) : QueueInv t := by
  refine ⟨fun i q hq => ?_, fun i q hq => ?_, fun q hq => ?_⟩
  · rw [htop] at hq
    rw [hsize, hitems]
    exact h.slot i q hq
  · rw [hcand] at hq
    rw [hitems]
    exact h.candidate i q hq
  · rw [hitems] at hq
    rw [hid]
    exact h.id q hq

theorem QueueInv.measured {s : AflState} (h : QueueInv s) (q : ℕ) (trace : Bytes) (execUs : U64)
    (len : U32) (execCksum : U64) : QueueInv (s.measured q trace execUs len execCksum) :=
  h.congr rfl rfl rfl rfl fun r => s.measured_frame q r (·.id) fun _ _ _ _ => rfl

theorem QueueInv.cullFrame {s t : AflState} (h : QueueInv s) (hf : CullFrame s t) :
    QueueInv t := by
  refine h.congr ?_ ?_ ?_ ?_ fun q => ?_
  · rw [hf.rest]
  · rw [hf.rest]
  · rw [hf.rest]
  · rw [hf.rest]
  · rw [hf.entry q]

theorem QueueInv.disableFrame {s t : AflState} (h : QueueInv s) (hf : DisableFrame s t) :
    QueueInv t := by
  refine h.congr ?_ ?_ ?_ ?_ fun q => ?_
  · rw [hf.rest]
  · rw [hf.rest]
  · rw [hf.rest]
  · rw [hf.rest]
  · rw [hf.entry q]

theorem QueueInv.addToQueue {s : AflState} (h : QueueInv s) (len : U32) (passedDet : Bool) :
    QueueInv (addToQueue s len passedDet) := by
  refine ⟨fun i q hq => ?_, fun i q hq => ?_, fun q hq => ?_⟩
  · obtain ⟨h1, h2⟩ := h.slot i q hq
    exact ⟨h1, Nat.lt_succ_of_lt h2⟩
  · exact Nat.lt_succ_of_lt (h.candidate i q hq)
  · change (Function.update s.queueBuf s.queuedItems _ q).id = q
    by_cases hqn : q = s.queuedItems
    · subst hqn
      rw [Function.update_self]
    · rw [Function.update_of_ne hqn]
      have hlt : q < s.queuedItems + 1 := hq
      exact h.id q (by omega)

theorem QueueInv.enrollCandidate {s : AflState} (h : QueueInv s) {i : ℕ} (hi : i < s.queuedItems)
    (trace : Bytes) : QueueInv (enrollCandidate s i trace) := by
  have hf := enrollCandidate_frame s i trace
  have hitems : (AflPlusPlus.enrollCandidate s i trace).queuedItems = s.queuedItems := by
    rw [hf.rest]
  refine ⟨fun j q hq => ?_, fun j q hq => ?_, fun q hq => ?_⟩
  · rw [hf.rest] at hq ⊢
    exact h.slot j q hq
  · rw [hitems]
    rcases mem_enrollCandidate hq with hq | ⟨_, hq, _⟩
    · exact h.candidate j q hq
    · rw [hq, h.id i hi]
      exact hi
  · rw [hf.rest]
    exact h.id q (hitems ▸ hq)

/-- The candidate lists before the second loop of a recalculation are sound. -/
theorem QueueInv.enrollCandidates {s : AflState} (h : QueueInv s) (run : ℕ → Bytes) :
    QueueInv (enrollCandidates s run) := by
  refine (enrollCandidates_induct run h fun t i hf ht hi => ?_).2
  have hitems : t.queuedItems = s.queuedItems := by rw [hf.rest]
  exact ht.enrollCandidate (hitems.symm ▸ hi) (run i)

theorem QueueInv.step {target : Target} {s s' : AflState} {op : Op} (h : QueueInv s)
    (hstep : queueStep target s op = some s') : QueueInv s' := by
  cases op with
  | addToQueue len passedDet =>
    simp only [queueStep, Option.some.injEq] at hstep
    subst hstep
    exact h.addToQueue len passedDet
  | execute trace =>
    simp only [queueStep, Option.some.injEq] at hstep
    subst hstep
    exact h.congr rfl rfl rfl rfl fun _ => rfl
  | annotate schedule nFuzz notes maps =>
    simp only [queueStep, Option.some.injEq] at hstep
    subst hstep
    exact h.congr rfl rfl rfl rfl fun _ => rfl
  | score q k execUs len execCksum =>
    simp only [queueStep, Option.ite_none_right_eq_some, Option.some.injEq] at hstep
    obtain ⟨hq, rfl⟩ := hstep
    refine updateBitmapScore_induct true (h.measured ..) fun t i hf ht hi _ _ => ?_
    exact ht.transferSlot (hf.mapSize.symm ▸ hi) (hf.queuedItems.symm ▸ hq)
  | rescore q index =>
    simp only [queueStep, Option.ite_none_right_eq_some, Option.some.injEq] at hstep
    obtain ⟨⟨hq, hi⟩, rfl⟩ := hstep
    exact h.updateBitmapRescore hi hq
  | recalculate k =>
    simp only [queueStep, Option.some.injEq] at hstep
    subst hstep
    have he := h.enrollCandidates fun q => target q (k q)
    refine rescoreCandidates_induct he fun i done q rest hi hsplit hf ht => ?_
    have hq := he.candidate i q (hsplit ▸ List.mem_append_right done List.mem_cons_self)
    exact ht.updateBitmapRescore (hf.mapSize.symm ▸ hi) (hf.queuedItems.symm ▸ hq)
  | cull =>
    simp only [queueStep, Option.some.injEq] at hstep
    subst hstep
    exact h.cullFrame (cullQueue_frame s)
  | markAsRedundant q state =>
    simp only [queueStep, Option.ite_none_right_eq_some, Option.some.injEq] at hstep
    obtain ⟨_, rfl⟩ := hstep
    exact h.cullFrame (markAsRedundant_frame s q state)
  | dedup =>
    simp only [queueStep, Option.some.injEq] at hstep
    subst hstep
    refine dedupQueue_induct (fun t _ q _ ht => ?_) h fun t ht => ?_
    · exact ht.disableFrame (disableDuplicate_frame t q)
    · exact ht.congr rfl rfl rfl rfl fun _ => rfl

/-! ### Steps that move no slot -/

/-- From `s` to `t` no slot changes its owner, no mini trace is made and no score change is
noted. -/
structure Quiet (s t : AflState) : Prop where
  mapSize : t.mapSize = s.mapSize
  queuedItems : t.queuedItems = s.queuedItems
  topRated : t.topRated = s.topRated
  tcUnderflow : t.tcUnderflow = s.tcUnderflow
  tcRef : ∀ q, (t.queueBuf q).tcRef = (s.queueBuf q).tcRef
  mini : ∀ q m, (t.queueBuf q).traceMini = some m → (s.queueBuf q).traceMini = some m
  scoreChanged : t.scoreChanged = true → s.scoreChanged = true

theorem Quiet.refl (s : AflState) : Quiet s s :=
  ⟨rfl, rfl, rfl, rfl, fun _ => rfl, fun _ _ => id, id⟩

theorem Quiet.trans {s t u : AflState} (h : Quiet s t) (h' : Quiet t u) : Quiet s u where
  mapSize := h'.mapSize.trans h.mapSize
  queuedItems := h'.queuedItems.trans h.queuedItems
  topRated := h'.topRated.trans h.topRated
  tcUnderflow := h'.tcUnderflow.trans h.tcUnderflow
  tcRef q := (h'.tcRef q).trans (h.tcRef q)
  mini q m hm := h.mini q m (h'.mini q m hm)
  scoreChanged hc := h.scoreChanged (h'.scoreChanged hc)

theorem EnrollFrame.quiet {s t : AflState} (h : EnrollFrame s t) : Quiet s t := by
  rw [h.rest]
  exact ⟨rfl, rfl, rfl, rfl, fun _ => rfl, fun _ _ => id, id⟩

theorem measured_quiet (s : AflState) (q : ℕ) (trace : Bytes) (execUs : U64) (len : U32)
    (execCksum : U64) : Quiet s (s.measured q trace execUs len execCksum) := by
  refine ⟨rfl, rfl, rfl, rfl, fun r => ?_, fun r m hm => ?_, id⟩
  · exact s.measured_frame q r (·.tcRef) fun _ _ _ _ => rfl
  · rwa [s.measured_frame q r (·.traceMini) fun _ _ _ _ => rfl] at hm

theorem CullFrame.quiet {s t : AflState} (h : CullFrame s t)
    (hmini : ∀ q m, (t.queueBuf q).traceMini = some m → (s.queueBuf q).traceMini = some m)
    (hscore : t.scoreChanged = true → s.scoreChanged = true) : Quiet s t := by
  refine ⟨?_, ?_, ?_, ?_, fun q => ?_, hmini, hscore⟩
  · rw [h.rest]
  · rw [h.rest]
  · rw [h.rest]
  · rw [h.rest]
  · rw [h.entry q]

theorem cullQueue_quiet (s : AflState) : Quiet s (cullQueue s) := by
  refine (cullQueue_frame s).quiet (fun q m => cullQueue_traceMini) fun hc => ?_
  cases hact : s.cullActive with
  | false => rwa [cullQueue_of_inactive hact] at hc
  | true =>
    rw [AflState.cullActive, Bool.and_eq_true] at hact
    exact hact.1

theorem markAsRedundant_quiet (s : AflState) (q : ℕ) (state : Bool) :
    Quiet s (markAsRedundant s q state) := by
  refine (markAsRedundant_frame s q state).quiet (fun r m => markAsRedundant_traceMini) ?_
  unfold markAsRedundant
  split <;> exact id

theorem dedupQueue_quiet (s : AflState) : Quiet s (dedupQueue s) := by
  refine dedupQueue_induct (P := Quiet s) (fun t _ q _ ht => ht.trans ?_) (.refl s)
    fun t ht => ht.trans ⟨rfl, rfl, rfl, rfl, fun _ => rfl, fun _ _ => id, id⟩
  have hf := disableDuplicate_frame t q
  refine ⟨?_, ?_, ?_, ?_, fun r => ?_, fun r m hm => ?_, fun hc => ?_⟩
  · rw [hf.rest]
  · rw [hf.rest]
  · rw [hf.rest]
  · rw [hf.rest]
  · rw [hf.entry r]
  · rwa [hf.entry r] at hm
  · rwa [hf.rest] at hc

/-- What survives quiet steps, new entries and slot transfers survives every operation. -/
theorem queueStep_induct {P : AflState → Prop} {target : Target} {s t : AflState} {op : Op}
    (hquiet : ∀ u v, P u → Quiet u v → P v)
    (hadd : ∀ u len passedDet, QueueInv u → P u → P (addToQueue u len passedDet))
    (htransfer : ∀ u q i, QueueInv u → P u → i < u.mapSize.val → q < u.queuedItems →
      P (transferSlot u q i))
    (hinv : QueueInv s) (h : P s) (hstep : queueStep target s op = some t) : P t := by
  have hrescore : ∀ u q i, QueueInv u → P u → i < u.mapSize.val → q < u.queuedItems →
      P (updateBitmapRescore u q i) := by
    intro u q i hu hp hi hq
    rcases updateBitmapRescore_cases u q i with he | ⟨_, he⟩
    · rw [he]
      exact hp
    · rw [he]
      exact htransfer u q i hu hp hi hq
  cases op with
  | addToQueue len passedDet =>
    simp only [queueStep, Option.some.injEq] at hstep
    subst hstep
    exact hadd s len passedDet hinv h
  | execute trace =>
    simp only [queueStep, Option.some.injEq] at hstep
    subst hstep
    exact hquiet s _ h ⟨rfl, rfl, rfl, rfl, fun _ => rfl, fun _ _ => id, id⟩
  | annotate schedule nFuzz notes maps =>
    simp only [queueStep, Option.some.injEq] at hstep
    subst hstep
    exact hquiet s _ h ⟨rfl, rfl, rfl, rfl, fun _ => rfl, fun _ _ => id, id⟩
  | score q k execUs len execCksum =>
    simp only [queueStep, Option.ite_none_right_eq_some, Option.some.injEq] at hstep
    obtain ⟨hq, rfl⟩ := hstep
    -- the measurement is quiet, the loop over the map is a sequence of transfers
    have hm := hquiet s _ h (measured_quiet s q (target q k) execUs len execCksum)
    refine (updateBitmapScore_induct (P := fun u => QueueInv u ∧ P u) true ⟨hinv.measured .., hm⟩
      fun u i hf hu hi _ _ => ?_).2
    have hi' := hf.mapSize.symm ▸ hi
    have hq' := hf.queuedItems.symm ▸ hq
    exact ⟨hu.1.transferSlot hi' hq', htransfer u q i hu.1 hu.2 hi' hq'⟩
  | rescore q index =>
    simp only [queueStep, Option.ite_none_right_eq_some, Option.some.injEq] at hstep
    obtain ⟨⟨hq, hi⟩, rfl⟩ := hstep
    exact hrescore s q index hinv h hi hq
  | recalculate k =>
    simp only [queueStep, Option.some.injEq] at hstep
    subst hstep
    have hqe := hinv.enrollCandidates fun q => target q (k q)
    -- the executions of the first loop touch no slot; the second loop rescores the candidates
    have hfe := (enrollCandidates_induct (P := fun _ => True) (fun q => target q (k q)) trivial
      fun _ _ _ _ _ => trivial : EnrollFrame s _ ∧ _).1
    refine (rescoreCandidates_induct (P := fun u => QueueInv u ∧ P u)
      ⟨hqe, hquiet s _ h hfe.quiet⟩ fun i done q rest hi hsplit hf hu => ?_).2
    have hq := hqe.candidate i q (hsplit ▸ List.mem_append_right done List.mem_cons_self)
    have hi' := hf.mapSize.symm ▸ hi
    have hq' := hf.queuedItems.symm ▸ hq
    exact ⟨hu.1.updateBitmapRescore hi' hq', hrescore _ q i hu.1 hu.2 hi' hq'⟩
  | cull =>
    simp only [queueStep, Option.some.injEq] at hstep
    subst hstep
    exact hquiet s _ h (cullQueue_quiet s)
  | markAsRedundant q state =>
    simp only [queueStep, Option.ite_none_right_eq_some, Option.some.injEq] at hstep
    obtain ⟨_, rfl⟩ := hstep
    exact hquiet s _ h (markAsRedundant_quiet s q state)
  | dedup =>
    simp only [queueStep, Option.some.injEq] at hstep
    subst hstep
    exact hquiet s _ h (dedupQueue_quiet s)

end AflPlusPlus
