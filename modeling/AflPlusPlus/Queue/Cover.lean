import AflPlusPlus.Queue.Traces

/-!
# The favored entries cover every owned slot

A `cull_queue` that finds the owner of every slot enabled and with its mini trace favors, for every
owned index, an enabled entry that hits it. Marking an entry as redundant frees its mini trace also
when it still owns slots, and then a later `cull_queue` passes over these slots.
-/

namespace AflPlusPlus
open Lib

variable {target : Target} {s t : AflState}

/-- For every owned index some enabled favored entry hits it. -/
def Covered (target : Target) (s : AflState) : Prop :=
  ∀ i q, s.topRated i = some q → ∃ r, r < s.queuedItems ∧ (s.queueBuf r).favored = true ∧
    (s.queueBuf r).disabled = false ∧ target.Hits r i

/-- The owner of every slot is enabled and has its mini trace. -/
def AflState.OwnersReady (s : AflState) : Prop :=
  ∀ i, i < s.mapSize.val → (s.topRated i).all (fun q =>
    !(s.queueBuf q).disabled && (s.queueBuf q).traceMini.isSome) = true

instance (s : AflState) : Decidable s.OwnersReady :=
  inferInstanceAs (Decidable (∀ i, i < s.mapSize.val → _))

/-- New entries, executions, scoring, culling and the de-duplication of the dry run. Entries are
marked as redundant only by `cull_queue`. -/
def Op.isScheduling : Op → Bool
  | .rescore .. => false
  | .recalculate .. => false
  | .markAsRedundant .. => false
  | _ => true

theorem traceSound_of_isScheduling {op : Op} (h : op.isScheduling = true) :
    TraceSound target s op := by
  cases op <;> trivial

theorem AflState.OwnersReady.owner (h : s.OwnersReady) {i q : ℕ} (hi : i < s.mapSize.val)
    (hq : s.topRated i = some q) :
    (s.queueBuf q).disabled = false ∧ ∃ m, (s.queueBuf q).traceMini = some m := by
  have hall := h i hi
  rw [hq, Option.all_some, Bool.and_eq_true, Bool.not_eq_true'] at hall
  exact ⟨hall.1, Option.isSome_iff_exists.mp hall.2⟩

/-- The owner of a picked slot is favored after the cull, and stays enabled. -/
theorem cullQueue_of_picked (hinv : QueueInv s) (hact : s.cullActive = true) {k q : ℕ}
    (hpick : Picked s.candidate k) (hq : s.topRated k = some q)
    (hen : (s.queueBuf q).disabled = false) :
    ((cullQueue s).queueBuf q).favored = true ∧ ((cullQueue s).queueBuf q).disabled = false := by
  obtain ⟨hk, hlt⟩ := hinv.slot k q hq
  have hfav : ((cullSelect s).queueBuf q).favored = true :=
    (cullSelect_favored s hlt).mpr ⟨hen, k, hk, hpick, hq⟩
  have hen' : ((cullSelect s).queueBuf q).disabled = false := by
    rw [(cullSelect_frame s).entry q]
    exact hen
  rw [cullQueue_entry hact hlt]
  exact QueueEntry.marked_of_favored _ hfav hen'

/-- One cull: the greedy cover over the mini traces, read back through `TraceInv`. -/
theorem TraceInv.covered (h : TraceInv target s) (hact : s.cullActive = true)
    (hready : s.OwnersReady) : Covered target (cullQueue s) := by
  have hf := cullQueue_frame s
  have htop : (cullQueue s).topRated = s.topRated := by rw [hf.rest]
  have hitems : (cullQueue s).queuedItems = s.queuedItems := by rw [hf.rest]
  intro i q hq
  rw [htop] at hq
  rw [hitems]
  obtain ⟨hi, hlt⟩ := h.queue.slot i q hq
  obtain ⟨hen, m, hm⟩ := hready.owner hi hq
  have hcand : (s.candidate i).isSome := by simp [AflState.candidate, hq, hm]
  rcases picked_or_covered hcand with hpick | ⟨j, hji, hpick, C, hC, hiC⟩
  · obtain ⟨hfav, hen'⟩ := cullQueue_of_picked h.queue hact hpick hq hen
    exact ⟨q, hlt, hfav, hen', h.slot i q hq⟩
  · -- a slot picked earlier contains `i`: its owner hits `i` in the trace of its mini trace
    obtain ⟨p, hp, hmap⟩ := Option.bind_eq_some_iff.mp hC
    obtain ⟨mp, hmp, rfl⟩ := Option.map_eq_some_iff.mp hmap
    obtain ⟨hj, hplt⟩ := h.queue.slot j p hp
    obtain ⟨hpen, _⟩ := hready.owner hj hp
    obtain ⟨hfav, hen'⟩ := cullQueue_of_picked h.queue hact hpick hp hpen
    obtain ⟨k, rfl⟩ := h.mini p mp hplt hmp
    have hbit : bitAt (minimizeBits s.mapSize.val (fun _ => 0) (target p k)) i = true := hiC
    rw [bitAt_minimizeBits, Bool.and_eq_true, bne_iff_ne] at hbit
    exact ⟨p, hplt, hfav, hen', k, hbit.2⟩

/-- After any number of scheduling steps, a `cull_queue` that acts and finds every slot owner ready
leaves the owned indices covered. -/
theorem cullQueue_covered (h0 : s.Fresh)
    (hrun : Reaches (queueStep target) (fun _ op => op.isScheduling = true) s t)
    (hchanged : t.scoreChanged = true) (hinst : t.nonInstrumentedMode = false)
    (hready : t.OwnersReady) : Covered target (cullQueue t) := by
  have hinv : TraceInv target t :=
    hrun.invariant h0.traceInv fun u op v hu hok hstep =>
      hu.step (traceSound_of_isScheduling hok) hstep
  refine hinv.covered ?_ hready
  simp [AflState.cullActive, hchanged, hinst]

/-- Entries 0, 1 and 2 hit the indices 0 and 1, only 1, and only 0. -/
def overlapTarget : Target := fun q _ =>
  match q with
  | 0 => hits [0, 1]
  | 1 => hits [1]
  | _ => hits [0]

/-- Before the first cull every owner has its mini trace. -/
theorem cullQueue_covered_first_cull :
    ∃ t, exec (queueStep overlapTarget) (fun _ op => op.isScheduling = true) (AflState.init .block)
        [.addToQueue 9 false, .addToQueue 1 false, .score 0 0 9 9 1, .score 1 0 1 1 2] = some t ∧
      t.topRated 1 = some 1 ∧ Covered overlapTarget (cullQueue t) := by
  have hview : (exec (queueStep overlapTarget) (fun _ op => op.isScheduling = true)
      (AflState.init .block)
      [.addToQueue 9 false, .addToQueue 1 false, .score 0 0 9 9 1, .score 1 0 1 1 2]).map
        (fun t => (t.topRated 1, t.scoreChanged, t.nonInstrumentedMode, decide t.OwnersReady)) =
      some (some 1, true, false, true) := by decide +kernel
  obtain ⟨t, ht, hview⟩ := Option.map_eq_some_iff.mp hview
  simp only [Prod.mk.injEq, decide_eq_true_eq] at hview
  obtain ⟨htop, hchanged, hinst, hready⟩ := hview
  exact ⟨t, ht, htop, cullQueue_covered (AflState.init_fresh .block) (reaches_of_exec .refl ht)
    hchanged hinst hready⟩

/-- The first cull favors entry 0, which hits both indices, and frees the mini trace of entry 1.
Then entry 2 takes index 0 from entry 0, and the second cull passes over index 1. -/
theorem cullQueue_leaves_index_uncovered :
    ∃ t, exec (queueStep overlapTarget) (fun _ op => op.isScheduling = true) (AflState.init .block)
        [.addToQueue 9 false, .addToQueue 1 false, .addToQueue 1 false, .score 0 0 9 9 1,
          .score 1 0 1 1 2, .cull, .score 2 0 1 1 3] = some t ∧
      t.scoreChanged = true ∧ ¬ Covered overlapTarget (cullQueue t) := by
  have hview : (exec (queueStep overlapTarget) (fun _ op => op.isScheduling = true)
      (AflState.init .block)
      [.addToQueue 9 false, .addToQueue 1 false, .addToQueue 1 false, .score 0 0 9 9 1,
        .score 1 0 1 1 2, .cull, .score 2 0 1 1 3]).map (fun t => (t.scoreChanged,
          (cullQueue t).topRated 1, (cullQueue t).queuedItems,
          ((cullQueue t).queueBuf 0).favored, ((cullQueue t).queueBuf 1).favored)) =
      some (true, some 1, 3, false, false) := by decide +kernel
  obtain ⟨t, ht, hview⟩ := Option.map_eq_some_iff.mp hview
  simp only [Prod.mk.injEq] at hview
  obtain ⟨hchanged, htop, hitems, hfav0, hfav1⟩ := hview
  refine ⟨t, ht, hchanged, fun hcov => ?_⟩
  obtain ⟨r, hr, hfav, _, _, hhit⟩ := hcov 1 1 htop
  rw [hitems] at hr
  interval_cases r
  · rw [hfav0] at hfav
    cases hfav
  · rw [hfav1] at hfav
    cases hfav
  · exact hhit rfl

end AflPlusPlus
