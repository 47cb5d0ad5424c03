import AflPlusPlus.Lib.Reach
import AflPlusPlus.Lib.Tally
import Mathlib.Algebra.GroupWithZero.Nat
import Mathlib.Data.List.Induction
import Mathlib.Data.List.Nodup

/-!
# Worker pools

Workers take batches of jobs from one queue, keep a state of their own and send a message for every
job; the queue ends in one sentinel for each of them. A collector receives as many messages as there
are jobs, in any order, and then the workers' final states. Whatever the interleaving, the jobs are
dealt out once each and every worker's state is that of a run over the jobs it handled.
-/

namespace Lib

variable {J S M : Type*}

/-- The state after a list of jobs, and the messages sent on the way. -/
def runJobs (f : S → J → S × M) (s : S) : List J → S × List M
  | [] => (s, [])
  | j :: js => ((runJobs f (f s j).1 js).1, (f s j).2 :: (runJobs f (f s j).1 js).2)

theorem runJobs_append (f : S → J → S × M) (s : S) (js ks : List J) :
    runJobs f s (js ++ ks) = ((runJobs f (runJobs f s js).1 ks).1,
      (runJobs f s js).2 ++ (runJobs f (runJobs f s js).1 ks).2) := by
  induction js generalizing s with
  | nil => rfl
  | cons j js ih => simp only [List.cons_append, runJobs, ih]

theorem length_runJobs (f : S → J → S × M) (s : S) (js : List J) :
    (runJobs f s js).2.length = js.length := by
  induction js generalizing s with
  | nil => rfl
  | cons j js ih => rw [runJobs, List.length_cons, List.length_cons, ih]

/-- A worker; `handled` and `sent` are its history. -/
structure Worker (J S M : Type*) where
  state : S
  pending : List J
  running : Bool
  handled : List J
  sent : List M

/-- A pool, with the collector's share of it: messages received and workers collected. -/
structure Pool (J S M : Type*) where
  queue : List (Option (List J))
  workers : ℕ → Worker J S M
  inFlight : List M
  received : List M
  collected : List ℕ

namespace Pool

inductive Action
  | take (w : ℕ)
  | work (w : ℕ)
  | receive (k : ℕ)
  | collect (w : ℕ)

/-- The pool in front of the first step. -/
def start (W : ℕ) (init : S) (batches : List (List J)) : Pool J S M where
  queue := batches.map some ++ List.replicate W none
  workers := fun _ => ⟨init, [], true, [], []⟩
  inFlight := []
  received := []
  collected := []

variable (W n : ℕ) (f : ℕ → S → J → S × M)

def setWorker (p : Pool J S M) (w : ℕ) (k : Worker J S M) : Pool J S M :=
  { p with workers := Function.update p.workers w k }

/-- `W` workers, `n` messages to receive. -/
def step (p : Pool J S M) : Action → Option (Pool J S M)
  | .take w =>
    if w < W ∧ (p.workers w).running = true ∧ (p.workers w).pending = [] then
      match p.queue with
      | [] => none
      | some b :: rest =>
        some ({ p with queue := rest }.setWorker w { p.workers w with pending := b })
      | none :: rest =>
        some ({ p with queue := rest }.setWorker w { p.workers w with running := false })
    else none
  | .work w =>
    if w < W then
      match (p.workers w).pending with
      | [] => none
      | j :: js =>
        let r := f w (p.workers w).state j
        some ({ p with inFlight := p.inFlight ++ [r.2] }.setWorker w
          { p.workers w with
            state := r.1, pending := js, handled := (p.workers w).handled ++ [j],
            sent := (p.workers w).sent ++ [r.2] })
    else none
  | .receive k =>
    if p.received.length < n then
      match p.inFlight[k]? with
      | none => none
      | some m =>
        some { p with received := p.received ++ [m], inFlight := p.inFlight.eraseIdx k }
    else none
  | .collect w =>
    if w < W ∧ p.received.length = n ∧ (p.workers w).running = false ∧ w ∉ p.collected then
      some { p with collected := p.collected ++ [w] }
    else none

/-- All that a step can do. -/
inductive Stepped (p : Pool J S M) : Pool J S M → Prop
  | batch {w : ℕ} {b : List J} {rest : List (Option (List J))} : w < W →
      (p.workers w).running = true → (p.workers w).pending = [] → p.queue = some b :: rest →
      Stepped p ({ p with queue := rest }.setWorker w { p.workers w with pending := b })
  | sentinel {w : ℕ} {rest : List (Option (List J))} : w < W →
      (p.workers w).running = true → (p.workers w).pending = [] → p.queue = none :: rest →
      Stepped p ({ p with queue := rest }.setWorker w { p.workers w with running := false })
  | job {w : ℕ} {j : J} {js : List J} {s : S} {m : M} : w < W → (p.workers w).pending = j :: js →
      f w (p.workers w).state j = (s, m) →
      Stepped p ({ p with inFlight := p.inFlight ++ [m] }.setWorker w
        { p.workers w with
          state := s, pending := js, handled := (p.workers w).handled ++ [j],
          sent := (p.workers w).sent ++ [m] })
  | receive {k : ℕ} {m : M} : p.received.length < n → p.inFlight[k]? = some m →
      Stepped p { p with received := p.received ++ [m], inFlight := p.inFlight.eraseIdx k }
  | collect {w : ℕ} : w < W → p.received.length = n → (p.workers w).running = false →
      w ∉ p.collected → Stepped p { p with collected := p.collected ++ [w] }

variable {W n f} {p p' : Pool J S M}

theorem stepped_of_step {a : Action} (h : step W n f p a = some p') : Stepped W n f p p' := by
  cases a with
  | take w =>
    rw [step] at h
    split_ifs at h with hw
    obtain ⟨hlt, hrun, hpending⟩ := hw
    split at h
    · cases h
    · rename_i hqueue
      cases h
      exact .batch hlt hrun hpending hqueue
    · rename_i hqueue
      cases h
      exact .sentinel hlt hrun hpending hqueue
  | work w =>
    rw [step] at h
    split_ifs at h with hw
    split at h
    · cases h
    · rename_i hpending
      cases h
      exact .job hw hpending rfl
  | receive k =>
    rw [step] at h
    split_ifs at h with hlt
    split at h
    · cases h
    · rename_i hk
      cases h
      exact .receive hlt hk
  | collect w =>
    rw [step] at h
    split_ifs at h with hw
    cases h
    exact .collect hw.1 hw.2.1 hw.2.2.1 hw.2.2.2

/-! ### The invariant -/

/-- The sum of a weight over a list; with the weights 1 and `if a = b then 1 else 0` it is the
length and the number of occurrences. -/
def weigh {α : Type*} (g : α → ℕ) (l : List α) : ℕ := (l.map g).sum

@[simp]
theorem weigh_nil {α : Type*} (g : α → ℕ) : weigh g [] = 0 := rfl

@[simp]
theorem weigh_cons {α : Type*} (g : α → ℕ) (a : α) (l : List α) :
    weigh g (a :: l) = g a + weigh g l := List.sum_cons

@[simp]
theorem weigh_append {α : Type*} (g : α → ℕ) (l l' : List α) :
    weigh g (l ++ l') = weigh g l + weigh g l' := by
  rw [weigh, List.map_append, List.sum_append, weigh, weigh]

theorem weigh_eraseIdx {α : Type*} (g : α → ℕ) {l : List α} {k : ℕ} {a : α} (h : l[k]? = some a) :
    weigh g (l.eraseIdx k) + g a = weigh g l := by
  induction l generalizing k with
  | nil => simp at h
  | cons b l ih =>
    cases k with
    | zero =>
      obtain rfl : b = a := by simpa using h
      rw [List.eraseIdx_cons_zero, weigh_cons, Nat.add_comm]
    | succ k =>
      rw [List.eraseIdx_cons_succ, weigh_cons, weigh_cons, Nat.add_assoc, ih (by simpa using h)]

theorem weigh_one {α : Type*} (l : List α) : weigh (fun _ => 1) l = l.length := by
  induction l with
  | nil => rfl
  | cons a l ih => rw [weigh_cons, List.length_cons, ih, Nat.add_comm]

/-- The jobs of the batches still queued. -/
def queued (p : Pool J S M) : List J := p.queue.flatMap fun q => q.getD []

structure Inv (W n : ℕ) (f : ℕ → S → J → S × M) (init : S) (jobs : List J) (p : Pool J S M) :
    Prop where
  jobs : ∀ g, total W (fun k => weigh g k.handled + weigh g k.pending) p.workers +
    weigh g p.queued = weigh g jobs
  run : ∀ w, runJobs (f w) init (p.workers w).handled = ((p.workers w).state, (p.workers w).sent)
  messages : ∀ g, weigh g p.received + weigh g p.inFlight =
    total W (fun k => weigh g k.sent) p.workers
  sentinels : ∃ bs : List (List J), p.queue =
    bs.map some ++ List.replicate (tally W (fun k => k.running = true) p.workers) none
  stopped : ∀ w, w < W → (p.workers w).running = false →
    (p.workers w).pending = [] ∧ p.queued = []
  received_le : p.received.length ≤ n
  collected_nodup : p.collected.Nodup
  collected_stopped : ∀ w ∈ p.collected, w < W ∧ (p.workers w).running = false
  collected_received : p.collected ≠ [] → p.received.length = n

variable {init : S} {jobs : List J} {batches : List (List J)}

theorem inv_start (hjobs : batches.flatten = jobs) :
    Inv W n f init jobs (start W init batches) := by
  have hall : tally W (fun k : Worker J S M => k.running = true)
      (start W init batches : Pool J S M).workers = W := by
    rw [tally, Finset.filter_true_of_mem (by intros; rfl), Finset.card_range]
  have hqueued : (start W init batches : Pool J S M).queued = jobs := by
    rw [queued, start, List.flatMap_append, ← hjobs]
    have hnone : (List.replicate W (none : Option (List J))).flatMap (fun q => q.getD []) = [] := by
      rw [List.flatMap_eq_nil_iff]
      intro q hq
      rw [List.eq_of_mem_replicate hq]
      rfl
    rw [hnone, List.append_nil, List.flatMap_map]
    exact List.flatMap_id'
  refine ⟨fun g => ?_, fun _ => rfl, fun g => ?_, ⟨batches, by rw [hall]; rfl⟩, ?_,
    Nat.zero_le _, List.nodup_nil, by simp [start], by simp [start]⟩
  · rw [hqueued]
    simp [total, start]
  · simp [total, start]
  · intro w _ hrun
    cases hrun

theorem queued_cons {q : Option (List J)} {rest : List (Option (List J))}
    (h : p.queue = q :: rest) :
    p.queued = q.getD [] ++ ({ p with queue := rest } : Pool J S M).queued := by
  rw [queued, h]
  rfl

/-- A queue that has started to give out sentinels holds nothing else. -/
theorem Inv.queue_cases (h : Inv W n f init jobs p) {q : Option (List J)}
    {rest : List (Option (List J))} (hqueue : p.queue = q :: rest) :
    (∃ (b : List J) (bs : List (List J)), q = some b ∧ rest = bs.map some ++
        List.replicate (tally W (fun k => k.running = true) p.workers) none) ∨
      q = none ∧ rest =
        List.replicate (tally W (fun k => k.running = true) p.workers - 1) none := by
  obtain ⟨bs, hbs⟩ := h.sentinels
  rw [hqueue] at hbs
  cases bs with
  | cons b bs =>
    obtain ⟨rfl, rfl⟩ := List.cons.inj hbs
    exact Or.inl ⟨b, bs, rfl, rfl⟩
  | nil =>
    rw [List.map_nil, List.nil_append] at hbs
    obtain ⟨m, hm⟩ : ∃ m, tally W (fun k => k.running = true) p.workers = m + 1 :=
      Nat.exists_eq_succ_of_ne_zero fun hzero => by
        rw [hzero] at hbs
        cases hbs
    rw [hm, List.replicate_succ] at hbs
    obtain ⟨rfl, rfl⟩ := List.cons.inj hbs
    exact Or.inr ⟨rfl, by rw [hm, Nat.add_sub_cancel]⟩

theorem queued_replicate {k : ℕ} (h : p.queue = List.replicate k none) : p.queued = [] := by
  rw [queued, h, List.flatMap_eq_nil_iff]
  intro q hq
  rw [List.eq_of_mem_replicate hq]
  rfl

/-- A step that changes one worker keeps the invariant when it moves jobs and messages only. -/
theorem Inv.setWorker (h : Inv W n f init jobs p) {w : ℕ} {k : Worker J S M} {q : Pool J S M}
    (hw : w < W)
    (hjobs : ∀ g, weigh g k.handled + weigh g k.pending + weigh g q.queued =
      weigh g (p.workers w).handled + weigh g (p.workers w).pending + weigh g p.queued)
    (hrun : runJobs (f w) init k.handled = (k.state, k.sent))
    (hsent : ∀ g, weigh g q.inFlight + weigh g (p.workers w).sent =
      weigh g p.inFlight + weigh g k.sent)
    (hsentinels : ∃ bs : List (List J), q.queue = bs.map some ++ List.replicate
      (tally W (fun k => k.running = true) (Function.update p.workers w k)) none)
    (hstopped : k.running = false → k.pending = [] ∧ q.queued = [])
    (hqueued : p.queued = [] → q.queued = [])
    (hstays : (p.workers w).running = false → k.running = false) :
    Inv W n f init jobs
      ⟨q.queue, Function.update p.workers w k, q.inFlight, p.received, p.collected⟩ := by
  refine ⟨fun g => ?_, fun v => ?_, fun g => ?_, hsentinels, fun v hv hstop => ?_, h.received_le,
    h.collected_nodup, fun v hv => ⟨(h.collected_stopped v hv).1, ?_⟩, h.collected_received⟩
  · have hbefore := h.jobs g
    have hnow := hjobs g
    have htotal := total_update (fun k : Worker J S M => weigh g k.handled + weigh g k.pending)
      p.workers k hw
    change _ + weigh g q.queued = _
    dsimp only at htotal ⊢
    omega
  · dsimp only
    by_cases hvw : v = w
    · rw [hvw, Function.update_self]
      exact hrun
    · rw [Function.update_of_ne hvw]
      exact h.run v
  · have hbefore := h.messages g
    have hnow := hsent g
    have htotal := total_update (fun k : Worker J S M => weigh g k.sent) p.workers k hw
    dsimp only at htotal ⊢
    omega
  · dsimp only at hstop ⊢
    by_cases hvw : v = w
    · rw [hvw, Function.update_self] at hstop ⊢
      exact hstopped hstop
    · rw [Function.update_of_ne hvw] at hstop ⊢
      exact ⟨(h.stopped v hv hstop).1, hqueued (h.stopped v hv hstop).2⟩
  · dsimp only
    by_cases hvw : v = w
    · rw [hvw, Function.update_self]
      exact hstays (hvw ▸ (h.collected_stopped v hv).2)
    · rw [Function.update_of_ne hvw]
      exact (h.collected_stopped v hv).2

/-- The number of running workers after one of them was replaced. -/
theorem tally_setWorker {w : ℕ} (hw : w < W) (k : Worker J S M) :
    tally W (fun k => k.running = true) (Function.update p.workers w k) +
        (if (p.workers w).running = true then 1 else 0) =
      tally W (fun k => k.running = true) p.workers + if k.running = true then 1 else 0 :=
  tally_update p.workers k hw

theorem Inv.step (h : Inv W n f init jobs p) (hstep : Stepped W n f p p') :
    Inv W n f init jobs p' := by
  cases hstep with
  | @batch w b rest hw hrun hpending hqueue =>
    have hsplit := queued_cons hqueue
    have htally := tally_setWorker (p := p) hw { p.workers w with pending := b }
    refine h.setWorker (q := { p with queue := rest }) hw (fun g => ?_) (h.run w) (fun _ => rfl) ?_
      (fun hstop => ?_) (fun hnil => ?_) id
    · rw [hsplit, weigh_append, hpending, weigh_nil, Option.getD_some]
      dsimp only
      omega
    · obtain ⟨b', bs, -, hrest⟩ | ⟨hnone, -⟩ := h.queue_cases hqueue
      · exact ⟨bs, by rw [Nat.add_right_cancel htally]; exact hrest⟩
      · cases hnone
    · exact absurd hrun (Bool.eq_false_iff.mp hstop)
    · rw [hsplit] at hnil
      exact (List.append_eq_nil_iff.mp hnil).2
  | @sentinel w rest hw hrun hpending hqueue =>
    obtain ⟨b, bs, hsome, -⟩ | ⟨-, hrest⟩ := h.queue_cases hqueue
    · cases hsome
    have hnil : ({ p with queue := rest } : Pool J S M).queued = [] := queued_replicate hrest
    have hsplit := queued_cons hqueue
    rw [hnil] at hsplit
    have htally := tally_setWorker (p := p) hw { p.workers w with running := false }
    rw [if_pos hrun, if_neg Bool.false_ne_true] at htally
    refine h.setWorker (q := { p with queue := rest }) hw (fun g => ?_) (h.run w) (fun _ => rfl)
      ⟨[], ?_⟩ (fun _ => ⟨hpending, hnil⟩) (fun _ => hnil) fun _ => rfl
    · rw [hsplit, hnil]
      rfl
    · rw [List.map_nil, List.nil_append, ← Nat.sub_eq_of_eq_add htally.symm]
      exact hrest
  | @job w j js s m hw hpending hf =>
    have hrunning : (p.workers w).running ≠ false := fun hstop => by
      rw [(h.stopped w hw hstop).1] at hpending
      cases hpending
    refine h.setWorker (q := { p with inFlight := p.inFlight ++ [m] }) hw (fun g => ?_) ?_
      (fun g => ?_) ?_ (fun hstop => absurd hstop hrunning) id id
    · change _ + _ + weigh g p.queued = _
      simp only [hpending, weigh_append, weigh_cons, weigh_nil]
      omega
    · simp only [runJobs_append, h.run w, runJobs, hf]
    · simp only [weigh_append, weigh_cons, weigh_nil]
      omega
    · obtain ⟨bs, hbs⟩ := h.sentinels
      have htally := tally_setWorker (p := p) hw { p.workers w with
        state := s, pending := js, handled := (p.workers w).handled ++ [j],
        sent := (p.workers w).sent ++ [m] }
      exact ⟨bs, by rw [Nat.add_right_cancel htally]; exact hbs⟩
  | @receive k m hlt hk =>
    refine ⟨h.jobs, h.run, fun g => ?_, h.sentinels, h.stopped, ?_, h.collected_nodup,
      h.collected_stopped, fun hne => absurd (h.collected_received hne) (Nat.ne_of_lt hlt)⟩
    · have hmessages := h.messages g
      have herase := weigh_eraseIdx g hk
      dsimp only
      rw [weigh_append, weigh_cons, weigh_nil]
      omega
    · rw [List.length_append]
      exact hlt
  | @collect w hw hreceived hstop hnew =>
    refine ⟨h.jobs, h.run, h.messages, h.sentinels, h.stopped, h.received_le, ?_, ?_,
      fun _ => hreceived⟩
    · rw [List.nodup_append]
      refine ⟨h.collected_nodup, List.nodup_singleton w, ?_⟩
      intro a ha b hb
      rw [List.mem_singleton.mp hb]
      rintro rfl
      exact hnew ha
    · intro v hv
      obtain hv | hv := List.mem_append.mp hv
      · exact h.collected_stopped v hv
      · rw [List.mem_singleton.mp hv]
        exact ⟨hw, hstop⟩

theorem inv_of_reaches (hrun : Reaches (step W n f) (fun _ _ => True) (start W init batches) p) :
    Inv W n f init batches.flatten p :=
  hrun.invariant (inv_start rfl) fun _ _ _ h _ hstep => h.step (stepped_of_step hstep)

/-! ### The end of a run -/

theorem Inv.length_collected_le (h : Inv W n f init jobs p) : p.collected.length ≤ W := by
  rw [← List.toFinset_card_of_nodup h.collected_nodup]
  have hsub : p.collected.toFinset ⊆ Finset.range W := fun w hw =>
    Finset.mem_range.mpr (h.collected_stopped w (List.mem_toFinset.mp hw)).1
  exact (Finset.card_le_card hsub).trans (Finset.card_range W).le

theorem Inv.mem_collected (h : Inv W n f init jobs p) (hall : p.collected.length = W) {w : ℕ}
    (hw : w < W) : w ∈ p.collected := by
  have hsub : p.collected.toFinset ⊆ Finset.range W := fun w hw =>
    Finset.mem_range.mpr (h.collected_stopped w (List.mem_toFinset.mp hw)).1
  have heq := Finset.eq_of_subset_of_card_le hsub <| by
    rw [List.toFinset_card_of_nodup h.collected_nodup, hall, Finset.card_range]
  exact List.mem_toFinset.mp (heq ▸ Finset.mem_range.mpr hw)

theorem Inv.total_sent (h : Inv W n f init jobs p) :
    total W (fun k => weigh (fun _ => 1) k.sent) p.workers =
      total W (fun k => weigh (fun _ => 1) k.handled) p.workers := by
  refine Finset.sum_congr rfl fun w _ => ?_
  have hlen := length_runJobs (f w) init (p.workers w).handled
  rw [h.run w] at hlen
  dsimp only at hlen ⊢
  rw [weigh_one, weigh_one, hlen]

/-- Once no worker runs, every job has been handled. -/
theorem Inv.handled_of_stopped (h : Inv W n f init jobs p) (hW : 0 < W)
    (hstopped : ∀ w, w < W → (p.workers w).running = false) (g : J → ℕ) :
    total W (fun k => weigh g k.handled) p.workers = weigh g jobs := by
  have hjobs := h.jobs g
  rw [(h.stopped 0 hW (hstopped 0 hW)).2, weigh_nil, Nat.add_zero] at hjobs
  rw [← hjobs]
  refine Finset.sum_congr rfl fun w hw => ?_
  rw [Finset.mem_range] at hw
  dsimp only
  rw [(h.stopped w hw (hstopped w hw)).1, weigh_nil, Nat.add_zero]

/-- When all workers are collected, the jobs have been dealt out once each, every worker's result
is that of its jobs, and all messages have been received. -/
theorem Inv.stopped_of_collected (h : Inv W n f init jobs p) (hall : p.collected.length = W)
    (w : ℕ) (hw : w < W) : (p.workers w).running = false :=
  (h.collected_stopped w (h.mem_collected hall hw)).2

/-- When all workers are collected, every job was answered and every answer has arrived. -/
theorem Inv.delivered (h : Inv W n f init jobs p) (hW : 0 < W) (hn : n = jobs.length)
    (hall : p.collected.length = W) : p.received.length = n ∧ p.inFlight = [] := by
  have hreceived : p.received.length = n :=
    h.collected_received (List.ne_nil_of_mem (h.mem_collected hall hW))
  have hmessages := h.messages fun _ => 1
  rw [h.total_sent, h.handled_of_stopped hW (h.stopped_of_collected hall), weigh_one, weigh_one,
    weigh_one] at hmessages
  exact ⟨hreceived, List.eq_nil_of_length_eq_zero (by omega)⟩

theorem final_of_reaches (hW : 0 < W) (hn : n = batches.flatten.length)
    (hrun : Reaches (step W n f) (fun _ _ => True) (start W init batches) p)
    (hall : p.collected.length = W) :
    (∀ w, runJobs (f w) init (p.workers w).handled = ((p.workers w).state, (p.workers w).sent)) ∧
      (∀ g, total W (fun k => weigh g k.handled) p.workers = weigh g batches.flatten) ∧
      (∀ g, weigh g p.received = total W (fun k => weigh g k.sent) p.workers) ∧
      p.collected.Perm (List.range W) := by
  have h := inv_of_reaches hrun
  have hhandled := h.handled_of_stopped hW (h.stopped_of_collected hall)
  obtain ⟨-, hnone⟩ := h.delivered hW hn hall
  refine ⟨h.run, hhandled, fun g => ?_, ?_⟩
  · have hmessages := h.messages g
    rwa [hnone, weigh_nil, Nat.add_zero] at hmessages
  · refine (List.perm_ext_iff_of_nodup h.collected_nodup List.nodup_range).mpr fun w => ?_
    rw [List.mem_range]
    exact ⟨fun hw => (h.collected_stopped w hw).1, h.mem_collected hall⟩

/-- Lists of equal weights have the same members. -/
theorem mem_iff_of_weigh {α : Type*} {part : Worker J S M → List α} {l : List α}
    (h : ∀ g, total W (fun k => weigh g (part k)) p.workers = weigh g l) (a : α) :
    a ∈ l ↔ ∃ w, w < W ∧ a ∈ part (p.workers w) := by
  classical
  have hpos (l : List α) : 0 < weigh (fun b => if b = a then 1 else 0) l ↔ a ∈ l := by
    induction l with
    | nil => simp
    | cons b l ih =>
      rw [weigh_cons, List.mem_cons, ← ih]
      split_ifs with hab
      · exact iff_of_true (by omega) (Or.inl hab.symm)
      · rw [Nat.zero_add, or_iff_right (Ne.symm hab)]
  rw [← hpos, ← h, total]
  constructor
  · intro hsum
    obtain ⟨w, hw, hne⟩ := Finset.exists_ne_zero_of_sum_ne_zero (Nat.ne_of_gt hsum)
    exact ⟨w, Finset.mem_range.mp hw, (hpos _).mp (Nat.pos_of_ne_zero hne)⟩
  · rintro ⟨w, hw, hmem⟩
    exact ((hpos _).mpr hmem).trans_le (Finset.single_le_sum
      (f := fun w => weigh (fun b => if b = a then 1 else 0) (part (p.workers w)))
      (fun _ _ => Nat.zero_le _) (Finset.mem_range.mpr hw))

/-- What is left to do. -/
def remaining (W : ℕ) (p : Pool J S M) : ℕ :=
  p.queue.length + 2 * p.queued.length + total W (fun k => 2 * k.pending.length) p.workers +
    p.inFlight.length + (W - p.collected.length)

theorem Inv.remaining_lt (h : Inv W n f init jobs p) (hstep : Stepped W n f p p') :
    remaining W p' < remaining W p := by
  have h' := h.step hstep
  have hupdate (w : ℕ) (k : Worker J S M) (hw : w < W) :=
    total_update (fun k : Worker J S M => 2 * k.pending.length) p.workers k hw
  cases hstep with
  | @batch w b rest hw hrun hpending hqueue =>
    have htotal := hupdate w { p.workers w with pending := b } hw
    have hsplit := congrArg List.length (queued_cons hqueue)
    have hlen := congrArg List.length hqueue
    rw [List.length_append, Option.getD_some] at hsplit
    rw [List.length_cons] at hlen
    rw [hpending, List.length_nil] at htotal
    change rest.length + 2 * ({ p with queue := rest } : Pool J S M).queued.length +
      total W _ (Function.update p.workers w _) + p.inFlight.length +
      (W - p.collected.length) < _
    rw [remaining]
    dsimp only at htotal ⊢
    omega
  | @sentinel w rest hw hrun hpending hqueue =>
    have htotal := hupdate w { p.workers w with running := false } hw
    have hsplit := congrArg List.length (queued_cons hqueue)
    have hlen := congrArg List.length hqueue
    rw [List.length_append, Option.getD_none, List.length_nil] at hsplit
    rw [List.length_cons] at hlen
    change rest.length + 2 * ({ p with queue := rest } : Pool J S M).queued.length +
      total W _ (Function.update p.workers w _) + p.inFlight.length +
      (W - p.collected.length) < _
    rw [remaining]
    dsimp only at htotal ⊢
    omega
  | @job w j js s m hw hpending hf =>
    have htotal := hupdate w { p.workers w with
      state := s, pending := js, handled := (p.workers w).handled ++ [j],
      sent := (p.workers w).sent ++ [m] } hw
    rw [hpending, List.length_cons] at htotal
    change p.queue.length + 2 * p.queued.length + total W _ (Function.update p.workers w _) +
      (p.inFlight ++ [m]).length + (W - p.collected.length) < _
    rw [remaining, List.length_append, List.length_singleton]
    dsimp only at htotal ⊢
    omega
  | @receive k m hlt hk =>
    have hlen := List.length_eraseIdx_add_one (List.getElem?_eq_some_iff.mp hk).1
    change p.queue.length + 2 * p.queued.length + total W _ p.workers +
      (p.inFlight.eraseIdx k).length + (W - p.collected.length) < _
    rw [remaining]
    omega
  | @collect w hw hreceived hstop hnew =>
    have hle := h'.length_collected_le
    change p.queue.length + 2 * p.queued.length + total W _ p.workers + p.inFlight.length +
      (W - (p.collected ++ [w]).length) < _
    rw [List.length_append, List.length_singleton] at hle ⊢
    rw [remaining]
    omega

/-- While a worker is not collected, some step is possible. -/
theorem Inv.exists_step (h : Inv W n f init jobs p) (hW : 0 < W) (hn : n = jobs.length)
    (hnot : p.collected.length ≠ W) : ∃ a, Pool.step W n f p a ≠ none := by
  by_cases hbusy : ∃ w, w < W ∧ (p.workers w).pending ≠ []
  · obtain ⟨w, hw, hne⟩ := hbusy
    obtain ⟨j, js, hpending⟩ := List.exists_cons_of_ne_nil hne
    refine ⟨.work w, ?_⟩
    rw [Pool.step, if_pos hw, hpending]
    exact Option.some_ne_none _
  push Not at hbusy
  by_cases hidle : ∃ w, w < W ∧ (p.workers w).running = true
  · obtain ⟨w, hw, hrun⟩ := hidle
    obtain ⟨bs, hbs⟩ := h.sentinels
    have hpos : 0 < tally W (fun k => k.running = true) p.workers := tally_pos hw hrun
    have hne : p.queue ≠ [] := fun hnil => by
      rw [hnil, eq_comm, List.append_eq_nil_iff] at hbs
      have := congrArg List.length hbs.2
      rw [List.length_replicate, List.length_nil] at this
      omega
    obtain ⟨q, rest, hqueue⟩ := List.exists_cons_of_ne_nil hne
    refine ⟨.take w, ?_⟩
    rw [Pool.step, if_pos ⟨hw, hrun, hbusy w hw⟩, hqueue]
    cases q <;> exact Option.some_ne_none _
  push Not at hidle
  have hstopped (w : ℕ) (hw : w < W) : (p.workers w).running = false :=
    Bool.eq_false_iff.mpr (hidle w hw)
  obtain hlt | heq := Nat.lt_or_eq_of_le h.received_le
  · have hmessages := h.messages fun _ => 1
    rw [h.total_sent, h.handled_of_stopped hW hstopped, weigh_one, weigh_one, weigh_one]
      at hmessages
    obtain ⟨m, rest, hflight⟩ := List.exists_cons_of_ne_nil fun hnil : p.inFlight = [] => by
      rw [hnil, List.length_nil] at hmessages
      omega
    refine ⟨.receive 0, ?_⟩
    rw [Pool.step, if_pos hlt, hflight]
    exact Option.some_ne_none _
  · obtain ⟨w, hw, hnew⟩ : ∃ w, w < W ∧ w ∉ p.collected := by
      by_contra hall
      push Not at hall
      have hsub : (List.range W) ⊆ p.collected := fun w hw => hall w (List.mem_range.mp hw)
      have := (List.subperm_of_subset List.nodup_range hsub).length_le
      rw [List.length_range] at this
      have := h.length_collected_le
      omega
    refine ⟨.collect w, ?_⟩
    rw [Pool.step, if_pos ⟨hw, heq, hstopped w hw, hnew⟩]
    exact Option.some_ne_none _

/-- No run goes on for ever, and a run that cannot go on has collected every worker. -/
theorem run_finishes (hW : 0 < W) (hn : n = batches.flatten.length) :
    ¬ RunsForever (step W n f) (fun _ _ => True) (start W init batches) ∧
      ∀ p, Reaches (step W n f) (fun _ _ => True) (start W init batches) p →
        (∀ a, step W n f p a = none) →
          p.collected.length = W ∧ p.received.length = n ∧ p.inFlight = [] := by
  constructor
  · refine not_runsForever (P := Inv W n f init batches.flatten) (remaining W) (inv_start rfl) ?_
    intro p a p' h _ hstep
    exact ⟨h.step (stepped_of_step hstep), h.remaining_lt (stepped_of_step hstep)⟩
  · intro p hrun hstuck
    have h := inv_of_reaches hrun
    have hall : p.collected.length = W := by
      by_contra hnot
      obtain ⟨a, ha⟩ := h.exists_step hW hn hnot
      exact ha (hstuck a)
    exact ⟨hall, h.delivered hW hn hall⟩

end Pool
end Lib
