import AflPlusPlus.Sync.Pass

/-!
# No lost imports

Between restarts of the peer the cursor is a count of handled files, so that a pass that takes up
the peer's files handles whatever is there. The count survives a restart of the peer unless a pass
falls into the second in which the peer started: the time stamp that should tell the last visit is
renewed before it is compared.
-/

namespace AflPlusPlus
open Lib SyncState

variable {syncId : Name} {s t u s₀ : SyncState}

/-- The file has been executed, or its name says that it comes from us. -/
def Handled (syncId : Name) (s : SyncState) (incarnation : ℕ) (name : Name) : Prop :=
  (incarnation, name) ∈ s.executed ∨ isKnownCase syncId name = true

/-- The cursor counts files of an earlier incarnation of the peer. -/
def SyncState.Stale (s : SyncState) : Prop := s.minAccept ≠ 0 ∧ s.cursorFor ≠ s.incarnation

instance (s : SyncState) : Decidable s.Stale := inferInstanceAs (Decidable (_ ∧ _))

/-- A stale cursor leaves out only files that are known to be ours. -/
def SyncState.CursorFits (syncId : Name) (s : SyncState) : Prop :=
  s.Stale → s.minAccept < 10 ^ 6 ∧
    (s.queue.take s.minAccept).all (fun f => isKnownCase syncId f.name) = true

instance (s : SyncState) : Decidable (s.CursorFits syncId) :=
  inferInstanceAs (Decidable (_ → _ ∧ _))

/-- The condition on a step. Files that the peer adds are of a size that is imported, unless they
come from us. When a pass takes up the peer's files, their ids have six digits and the cursor fits.
No more than two passes in a row leave out the peer while a file is waiting. -/
def StepOk (syncId : Name) (s : SyncState) : SyncOp → Prop
  | .peerAdd description size =>
    PeerFile.Importable ⟨peerName s.queue.length description, size⟩ ∨
      isKnownCase syncId (peerName s.queue.length description) = true
  | .pass before _ =>
    (s.takesUp before = true → s.queue.length ≤ 10 ^ 6 ∧ s.CursorFits syncId) ∧
      (s.takesUp before = false → s.someWaiting syncId = true → s.leftOut < 2)
  | _ => True

instance (s : SyncState) : (op : SyncOp) → Decidable (StepOk syncId s op)
  | .peerAdd _ _ => inferInstanceAs (Decidable (_ ∨ _))
  | .pass before _ => inferInstanceAs (Decidable (
    (s.takesUp before = true → s.queue.length ≤ 10 ^ 6 ∧ s.CursorFits syncId) ∧
      (s.takesUp before = false → s.someWaiting syncId = true → s.leftOut < 2)))
  | .tick | .peerRestart | .peerElected _ => .isTrue trivial

structure SyncState.Fresh (s : SyncState) : Prop where
  queue : s.queue = []
  minAccept : s.minAccept = 0
  cursorFor : s.cursorFor ≤ s.incarnation
  leftOut : s.leftOut = 0

structure SyncInv (syncId : Name) (s : SyncState) : Prop where
  numbered : Numbered s.queue
  importable : ∀ f ∈ s.queue, f.Importable ∨ isKnownCase syncId f.name = true
  leftOut_le : s.leftOut ≤ 2
  cursorFor_le : s.cursorFor ≤ s.incarnation
  cursor_le : ¬ s.Stale → min s.minAccept (10 ^ 6) ≤ s.queue.length
  handled : ¬ s.Stale → ∀ i f, s.queue[i]? = some f → i < s.minAccept → i < 10 ^ 6 →
    Handled syncId s s.incarnation f.name

theorem SyncState.Fresh.syncInv (h : s.Fresh) : SyncInv syncId s where
  numbered := fun i f hi => by simp [h.queue] at hi
  importable := fun f hf => by simp [h.queue] at hf
  leftOut_le := by simp [h.leftOut]
  cursorFor_le := h.cursorFor
  cursor_le := fun _ => by simp [h.minAccept]
  handled := fun _ i f hi => by simp [h.queue] at hi

/-! ### One pass -/

theorem dropMaxStart_frame (s : SyncState) :
    s.dropMaxStart = { s with maxStartId := s.dropMaxStart.maxStartId } := by
  unfold dropMaxStart
  split
  · split <;> rfl
  · rfl

/-- A visit that notices a restart resets the cursor and does nothing else. -/
theorem syncPeer_of_detectsRestart (h : s.touchLast.detectsRestart = true) :
    s.syncPeer syncId = { s.touchLast with minAccept := 0, cursorFor := s.incarnation } := if_pos h

/-- Any other visit takes up the pending files. -/
theorem syncPeer_of_not_detectsRestart (h : s.touchLast.detectsRestart = false) :
    s.syncPeer syncId = { s.touchLast with
      maxStartId := s.touchLast.dropMaxStart.maxStartId
      minAccept := s.minAccept + s.pending.length
      cursorFor := if s.pending = [] then s.cursorFor else s.incarnation
      executed := s.executed ++ (importFiles syncId (s.maxStartId.getD 0) s.minAccept s.pending).map
        fun name => (s.incarnation, name) } := by
  have hpending : s.touchLast.dropMaxStart.pending = s.pending := by
    rw [dropMaxStart_frame]
    rfl
  rw [syncPeer, if_neg (by simp [h]), importPending, hpending, dropMaxStart_frame]
  by_cases hnone : s.pending = []
  · rw [if_pos hnone, if_pos hnone, hnone]
    simp [importFiles, touchLast]
  · rw [if_neg hnone, if_neg hnone]
    rfl

/-- A pass that takes up the peer's files. -/
structure TakenUp (syncId : Name) (s t : SyncState) : Prop where
  incarnation : t.incarnation = s.incarnation
  queue : t.queue = s.queue
  minAccept : t.minAccept = s.minAccept + s.pending.length
  cursorFor : t.cursorFor = if s.pending = [] then s.cursorFor else s.incarnation
  executed : t.executed = s.executed ++ (importFiles syncId (s.maxStartId.getD 0) s.minAccept
    s.pending).map fun name => (s.incarnation, name)
  leftOut : t.leftOut = 0

/-- A pass that leaves the peer out, or resets the cursor. -/
structure LeftOut (syncId : Name) (s t : SyncState) : Prop where
  incarnation : t.incarnation = s.incarnation
  queue : t.queue = s.queue
  cursor : t.minAccept = s.minAccept ∧ t.cursorFor = s.cursorFor ∨
    t.minAccept = 0 ∧ t.cursorFor = s.incarnation
  executed : t.executed = s.executed
  leftOut : t.leftOut = if s.someWaiting syncId = true then s.leftOut + 1 else 0

/-- The two kinds of a pass. -/
theorem syncStep_pass {before after : List Bool}
    (hstep : syncStep syncId s (.pass before after) = some t) :
    s.takesUp before = true ∧ TakenUp syncId s t ∨
      s.takesUp before = false ∧ LeftOut syncId s t := by
  obtain rfl := Option.some.inj hstep
  have hleft : s.leftOutAfter syncId before =
      if s.takesUp before = false ∧ s.someWaiting syncId = true then s.leftOut + 1 else 0 := by
    simp [leftOutAfter]
  by_cases hno : s.node.noSync = true
  · have htakes : s.takesUp before = false := by simp [takesUp, visits, hno]
    have hsame : s.syncFuzzers syncId before after = s := by rw [syncFuzzers, if_pos hno]
    refine .inr ⟨htakes, ?_⟩
    rw [hsame, hleft]
    exact ⟨rfl, rfl, .inl ⟨rfl, rfl⟩, rfl, by simp [htakes]⟩
  · have hpass : s.syncFuzzers syncId before after =
        { if s.visits before then s.syncPeer syncId else s with
          node := s.nodeAfter before after } := by rw [syncFuzzers, if_neg hno]
    rw [hpass, hleft]
    cases hvisit : s.visits before with
    | false =>
      have htakes : s.takesUp before = false := by simp [takesUp, hvisit]
      refine .inr ⟨htakes, ?_⟩
      rw [if_neg Bool.false_ne_true]
      exact ⟨rfl, rfl, .inl ⟨rfl, rfl⟩, rfl, by simp [htakes]⟩
    | true =>
      rw [if_pos rfl]
      cases hdetects : s.touchLast.detectsRestart with
      | true =>
        have htakes : s.takesUp before = false := by simp [takesUp, hdetects]
        refine .inr ⟨htakes, ?_⟩
        rw [syncPeer_of_detectsRestart hdetects]
        exact ⟨rfl, rfl, .inr ⟨rfl, rfl⟩, rfl, by simp [htakes]⟩
      | false =>
        have htakes : s.takesUp before = true := by simp [takesUp, hvisit, hdetects]
        refine .inl ⟨htakes, ?_⟩
        rw [syncPeer_of_not_detectsRestart hdetects]
        exact ⟨rfl, rfl, rfl, rfl, rfl, by simp [htakes]⟩

/-- A file below the cursor is handled where the cursor fits. -/
theorem SyncInv.handled_below (hinv : SyncInv syncId s) (hfits : s.CursorFits syncId)
    (hlen : s.queue.length ≤ 10 ^ 6) {i : ℕ} {f : PeerFile} (hi : s.queue[i]? = some f)
    (hcursor : i < s.minAccept) : Handled syncId s s.incarnation f.name := by
  by_cases hstale : s.Stale
  · right
    obtain ⟨hlt, hf⟩ := List.getElem?_eq_some_iff.mp hi
    have hmem : f ∈ s.queue.take s.minAccept := by
      rw [← hf]
      exact List.mem_take_iff_getElem.mpr ⟨i, by omega, rfl⟩
    exact List.all_eq_true.mp (hfits hstale).2 f hmem
  · have hlt := (List.getElem?_eq_some_iff.mp hi).1
    exact hinv.handled hstale i f hi hcursor (by omega)

/-- A pass that takes up the peer's files leaves none of the queue behind. -/
theorem SyncInv.takenUp_handles (hinv : SyncInv syncId s) (hlen : s.queue.length ≤ 10 ^ 6)
    (hfits : s.CursorFits syncId) (htaken : TakenUp syncId s t) {f : PeerFile} (hf : f ∈ s.queue) :
    Handled syncId t s.incarnation f.name := by
  obtain ⟨i, hi, rfl⟩ := List.mem_iff_getElem.mp hf
  have hat := List.getElem?_eq_getElem hi
  have hexecuted := htaken.executed
  rw [Handled, hexecuted]
  by_cases hcursor : i < s.minAccept
  · -- below the cursor: handled by an earlier pass, and `executed` only grows
    exact (hinv.handled_below hfits hlen hat hcursor).imp_left (List.mem_append_left _)
  · have hpending : s.queue[i] ∈ s.pending := by
      have hat : (s.queue.drop s.minAccept)[i - s.minAccept]? = some s.queue[i] := by
        rw [List.getElem?_drop, Nat.add_sub_of_le (Nat.le_of_not_lt hcursor), hat]
      rw [pending_eq hinv.numbered hlen (by omega)]
      exact List.mem_of_getElem? hat
    have himported : s.queue[i].name ∈
        SyncState.importFiles syncId (s.maxStartId.getD 0) s.minAccept s.pending ∨
          isKnownCase syncId s.queue[i].name = true :=
      mem_importFiles hpending (hinv.importable _ (List.getElem_mem hi))
    obtain hex | hknown := himported
    · exact .inl (List.mem_append_right _ (List.mem_map.mpr ⟨_, hex, rfl⟩))
    · exact .inr hknown

theorem SyncInv.takenUp (hinv : SyncInv syncId s) (hlen : s.queue.length ≤ 10 ^ 6)
    (hfits : s.CursorFits syncId) (htaken : TakenUp syncId s t) : SyncInv syncId t := by
  have hcur := htaken.cursorFor
  have hall :
      ∀ (i : ℕ) (f : PeerFile), t.queue[i]? = some f → Handled syncId t t.incarnation f.name := by
    intro i f hi
    rw [htaken.queue] at hi
    rw [htaken.incarnation]
    exact hinv.takenUp_handles hlen hfits htaken (List.mem_of_getElem? hi)
  refine ⟨by rw [htaken.queue]; exact hinv.numbered, by rw [htaken.queue]; exact hinv.importable,
    by rw [htaken.leftOut]; exact Nat.zero_le 2, ?_, fun hst => ?_, fun _ i f hi _ _ => hall i f hi⟩
  · rw [hcur, htaken.incarnation]
    split
    · exact hinv.cursorFor_le
    · exact le_rfl
  · rw [htaken.queue, htaken.minAccept]
    by_cases hnone : s.pending = []
    · -- the cursor stays, and it counts files of this incarnation
      have hfresh : ¬ s.Stale := by
        rw [SyncState.Stale, htaken.minAccept, hcur, hnone, if_pos rfl, htaken.incarnation] at hst
        exact hst
      rw [hnone]
      exact hinv.cursor_le hfresh
    · have hlow : s.minAccept < 10 ^ 6 ∨ min s.minAccept (10 ^ 6) ≤ s.queue.length := by
        by_cases hstale : s.Stale
        · exact .inl (hfits hstale).1
        · exact .inr (hinv.cursor_le hstale)
      by_cases hc : s.minAccept < 10 ^ 6
      · have hpos := List.length_pos_of_ne_nil hnone
        rw [pending_eq hinv.numbered hlen hc, List.length_drop] at hpos ⊢
        omega
      · omega

theorem SyncInv.leftOut (hinv : SyncInv syncId s)
    (hok : s.someWaiting syncId = true → s.leftOut < 2) (hleft : LeftOut syncId s t) :
    SyncInv syncId t := by
  have hqueue := hleft.queue
  have hinc := hleft.incarnation
  have hleftOut : t.leftOut ≤ 2 := by
    rw [hleft.leftOut]
    split
    · rename_i hwaiting
      exact hok hwaiting
    · exact Nat.zero_le 2
  obtain ⟨hmin, hcur⟩ | ⟨hmin, hcur⟩ := hleft.cursor
  · have hstale : t.Stale ↔ s.Stale := by
      rw [SyncState.Stale, SyncState.Stale, hmin, hcur, hinc]
    refine ⟨by rw [hqueue]; exact hinv.numbered, by rw [hqueue]; exact hinv.importable, hleftOut,
      by rw [hcur, hinc]; exact hinv.cursorFor_le, fun hst => ?_, fun hst i f hi hlt hid => ?_⟩
    · rw [hqueue, hmin]
      exact hinv.cursor_le (fun hs => hst (hstale.mpr hs))
    · rw [hqueue] at hi
      rw [hmin] at hlt
      have hdone := hinv.handled (fun hs => hst (hstale.mpr hs)) i f hi hlt hid
      rw [Handled, hleft.executed, hinc]
      exact hdone
  · -- the cursor is 0 again, so that nothing counts as handled
    refine ⟨by rw [hqueue]; exact hinv.numbered, by rw [hqueue]; exact hinv.importable, hleftOut,
      by rw [hcur, hinc], fun _ => ?_, fun _ i f _ hlt => ?_⟩
    · rw [hmin]
      exact Nat.zero_le _
    · rw [hmin] at hlt
      exact absurd hlt (Nat.not_lt_zero i)

/-! ### Runs -/

theorem SyncInv.peerAdd (hinv : SyncInv syncId s) {f : PeerFile}
    (hname : ∃ d, f.name = peerName s.queue.length d)
    (hf : f.Importable ∨ isKnownCase syncId f.name = true) :
    SyncInv syncId { s with queue := s.queue ++ [f] } := by
  have hat : ∀ i g, (s.queue ++ [f])[i]? = some g →
      s.queue[i]? = some g ∨ (i = s.queue.length ∧ g = f) := by
    intro i g hi
    obtain hlt | hge := Nat.lt_or_ge i s.queue.length
    · rw [List.getElem?_append_left hlt] at hi
      exact .inl hi
    · rw [List.getElem?_append_right hge, List.getElem?_singleton] at hi
      split at hi
      · exact .inr ⟨by omega, (Option.some.inj hi).symm⟩
      · cases hi
  refine ⟨fun i g hi => ?_, fun g hg => ?_, hinv.leftOut_le, hinv.cursorFor_le, fun hst => ?_,
    fun hst i g hi hcur hid => ?_⟩
  · obtain hold | ⟨rfl, rfl⟩ := hat i g hi
    · exact hinv.numbered i g hold
    · exact hname
  · rcases List.mem_append.mp hg with hold | hnew
    · exact hinv.importable g hold
    · rw [List.mem_singleton.mp hnew]
      exact hf
  · have hle := hinv.cursor_le hst
    show min s.minAccept (10 ^ 6) ≤ (s.queue ++ [_]).length
    rw [List.length_append]
    omega
  · obtain hold | ⟨heq, -⟩ := hat i g hi
    · exact hinv.handled hst i g hold hcur hid
    · have hle := hinv.cursor_le hst
      have hcur : i < s.minAccept := hcur
      omega

theorem SyncInv.peerRestart (hinv : SyncInv syncId s) :
    SyncInv syncId { s with
      incarnation := s.incarnation + 1, queue := [], cmdline := some s.now, leftOut := 0 } := by
  have hle := hinv.cursorFor_le
  refine ⟨fun i f hi => ?_, fun f hf => ?_, Nat.zero_le 2, Nat.le_succ_of_le hle, fun hst => ?_,
    fun _ i f hi => ?_⟩
  · cases hi
  · cases hf
  · -- The cursor was not written for the new incarnation, so it is zero.
    have hzero : s.minAccept = 0 := by
      by_contra hne
      exact hst ⟨hne, Nat.ne_of_lt (Nat.lt_succ_of_le hle)⟩
    show min s.minAccept (10 ^ 6) ≤ 0
    rw [hzero]
    exact Nat.zero_le _
  · cases hi

theorem SyncInv.step (hinv : SyncInv syncId s) {op : SyncOp} (hok : StepOk syncId s op)
    (hstep : syncStep syncId s op = some t) : SyncInv syncId t := by
  cases op with
  | tick =>
    cases hstep
    exact ⟨hinv.numbered, hinv.importable, hinv.leftOut_le, hinv.cursorFor_le, hinv.cursor_le,
      hinv.handled⟩
  | peerAdd description size =>
    cases hstep
    exact hinv.peerAdd ⟨description, rfl⟩ hok
  | peerRestart =>
    cases hstep
    exact hinv.peerRestart
  | peerElected main =>
    cases hstep
    exact ⟨hinv.numbered, hinv.importable, hinv.leftOut_le, hinv.cursorFor_le, hinv.cursor_le,
      hinv.handled⟩
  | pass before after =>
    obtain ⟨htakes, htaken⟩ | ⟨htakes, hleft⟩ := syncStep_pass hstep
    · obtain ⟨hlen, hfits⟩ := hok.1 htakes
      exact hinv.takenUp hlen hfits htaken
    · exact hinv.leftOut (hok.2 htakes) hleft

/-- A file of the peer's current incarnation is handled, or `n` passes have left it out since. -/
structure Expected (syncId : Name) (number : ℕ) (f : PeerFile) (n : ℕ) (s : SyncState) : Prop where
  incarnation : s.incarnation = number
  queue : f ∈ s.queue
  handled : Handled syncId s number f.name ∨ n ≤ s.leftOut

/-- A file that is not handled is waiting. -/
theorem someWaiting_of_mem {f : PeerFile} (hf : f ∈ s.queue)
    (hnot : ¬ Handled syncId s s.incarnation f.name) : s.someWaiting syncId = true := by
  rw [Handled, not_or, Bool.not_eq_true] at hnot
  refine List.any_eq_true.mpr ⟨f, hf, ?_⟩
  rw [hnot.2, Bool.not_false, Bool.true_and, Bool.not_eq_true', ← Bool.not_eq_true]
  exact fun hex => hnot.1 (List.contains_iff_mem.mp hex)

/-- How many passes there are. -/
def passes : List SyncOp → ℕ
  | [] => 0
  | .pass _ _ :: ops => passes ops + 1
  | _ :: ops => passes ops

/-- One step of waiting for a file to be handled. -/
theorem Expected.step {number n : ℕ} {f : PeerFile} (h : Expected syncId number f n s)
    (hinv : SyncInv syncId s) {op : SyncOp} (hok : StepOk syncId s op) (hop : op ≠ .peerRestart)
    (hstep : syncStep syncId s op = some t) : Expected syncId number f (n + passes [op]) t := by
  cases op with
  | tick =>
    cases hstep
    exact ⟨h.incarnation, h.queue, h.handled⟩
  | peerAdd description size =>
    cases hstep
    exact ⟨h.incarnation, List.mem_append_left _ h.queue, h.handled⟩
  | peerRestart => exact absurd rfl hop
  | peerElected main =>
    cases hstep
    exact ⟨h.incarnation, h.queue, h.handled⟩
  | pass before after =>
    obtain ⟨htakes, htaken⟩ | ⟨htakes, hleft⟩ := syncStep_pass hstep
    · obtain ⟨hlen, hfits⟩ := hok.1 htakes
      refine ⟨htaken.incarnation.trans h.incarnation, by rw [htaken.queue]; exact h.queue, .inl ?_⟩
      rw [← h.incarnation]
      exact hinv.takenUp_handles hlen hfits htaken h.queue
    · refine ⟨hleft.incarnation.trans h.incarnation, by rw [hleft.queue]; exact h.queue, ?_⟩
      have hsame : Handled syncId t number f.name ↔ Handled syncId s number f.name := by
        rw [Handled, Handled, hleft.executed]
      by_cases hdone : Handled syncId s number f.name
      · exact .inl (hsame.mpr hdone)
      · right
        have hwaiting := someWaiting_of_mem h.queue (by rw [h.incarnation]; exact hdone)
        rw [hleft.leftOut, if_pos hwaiting]
        exact Nat.succ_le_succ (h.handled.resolve_left hdone)

theorem Expected.exec {number n : ℕ} {f : PeerFile} {ops : List SyncOp}
    (h : Expected syncId number f n s) (hinv : SyncInv syncId s) (hno : .peerRestart ∉ ops)
    (hexec : exec (syncStep syncId) (StepOk syncId) s ops = some t) :
    SyncInv syncId t ∧ Expected syncId number f (n + passes ops) t := by
  induction ops generalizing s n with
  | nil =>
    cases hexec
    exact ⟨hinv, h⟩
  | cons op ops ih =>
    rw [Lib.exec, Option.ite_none_right_eq_some] at hexec
    obtain ⟨hok, hbind⟩ := hexec
    obtain ⟨u, hu, hrest⟩ := Option.bind_eq_some_iff.mp hbind
    rw [List.mem_cons, not_or] at hno
    have hnext := ih (h.step hinv hok (Ne.symm hno.1) hu) (hinv.step hok hu) hno.2 hrest
    have hcount : passes (op :: ops) = passes [op] + passes ops := by
      cases op <;> simp [passes, Nat.add_comm]
    rw [hcount, ← Nat.add_assoc]
    exact hnext

/-- Every file that is in the peer's queue when a pass starts has been executed, or is known to be
ours, after two further passes at the latest, unless the peer is restarted meanwhile. -/
theorem syncFuzzers_loses_no_import (h0 : s₀.Fresh)
    (hrun : Reaches (syncStep syncId) (StepOk syncId) s₀ s) {before after : List Bool}
    {ops : List SyncOp}
    (hexec : exec (syncStep syncId) (StepOk syncId) s (.pass before after :: ops) = some t)
    (hno : .peerRestart ∉ ops) (hpasses : 2 ≤ passes ops) :
    ∀ f ∈ s.queue, Handled syncId t s.incarnation f.name := by
  intro f hf
  have hinv : SyncInv syncId s :=
    hrun.invariant h0.syncInv fun _ _ _ h hok hstep => h.step hok hstep
  have hstart : Expected syncId s.incarnation f 0 s := ⟨rfl, hf, .inr (Nat.zero_le _)⟩
  obtain ⟨hinv', hend⟩ := hstart.exec hinv (by simpa using hno) hexec
  -- three passes in a row cannot all have left the peer out
  have hle := hinv'.leftOut_le
  refine hend.handled.resolve_right fun hmany => ?_
  rw [passes] at hmany
  omega

/-- A peer that has just been started and that we have never looked at. -/
def SyncState.init : SyncState where
  now := 1
  incarnation := 0
  queue := []
  cmdline := some 1
  peerMain := true
  node := ⟨false, true, false⟩
  minAccept := 0
  maxStartId := none
  lastMtime := none
  executed := []
  cursorFor := 0
  leftOut := 0

theorem SyncState.init_fresh : SyncState.init.Fresh where
  queue := rfl
  minAccept := rfl
  cursorFor := le_rfl
  leftOut := rfl

/-- The peer is restarted, and we look at it in the same second. -/
def noticedRestart : List SyncOp :=
  [.peerAdd (ascii "time:0,execs:0,orig:a") 1, .tick, .pass [] [], .tick, .peerRestart,
    .pass [] [false], .peerAdd (ascii "time:0,execs:0,orig:b") 1,
    .peerAdd (ascii "src:000000,time:9,execs:8,op:flip1") 1]

/-- The first pass still falls into that second, and in the second one the peer is not a main
node. -/
def laterPasses : List SyncOp :=
  [.tick, .peerElected false, .pass [true] [], .peerElected true, .pass [] []]

theorem syncFuzzers_loses_no_import_after_restart :
    ∃ s t, exec (syncStep (ascii "fuzzer02")) (StepOk (ascii "fuzzer02")) .init noticedRestart =
        some s ∧
      exec (syncStep (ascii "fuzzer02")) (StepOk (ascii "fuzzer02")) s
        (.pass [] [] :: laterPasses) = some t ∧
      s.queue.length = 2 ∧ s.incarnation = 1 ∧
      ∀ f ∈ s.queue, Handled (ascii "fuzzer02") t s.incarnation f.name := by
  have hsome : (exec (syncStep (ascii "fuzzer02")) (StepOk (ascii "fuzzer02")) .init
      noticedRestart).any (fun s => s.queue.length = 2 ∧ s.incarnation = 1 ∧
        (exec (syncStep (ascii "fuzzer02")) (StepOk (ascii "fuzzer02")) s
          (.pass [] [] :: laterPasses)).isSome) = true := by
    decide +kernel
  obtain ⟨s, hs, hprop⟩ := (Option.any_eq_true _ _).mp hsome
  obtain ⟨hlen, hinc, hmore⟩ := of_decide_eq_true hprop
  obtain ⟨t, ht⟩ := Option.isSome_iff_exists.mp hmore
  exact ⟨s, t, hs, ht, hlen, hinc, syncFuzzers_loses_no_import SyncState.init_fresh
    (reaches_of_exec .refl hs) ht (by decide) (by decide)⟩

/-- The peer is restarted after two of its files were imported. Later passes take its first file for
an old one. -/
def unnoticedRestart : List SyncOp :=
  [.peerAdd (ascii "time:0,execs:0,orig:a") 1, .peerAdd (ascii "time:0,execs:0,orig:b") 1, .tick,
    .pass [] [], .tick, .peerRestart, .tick, .peerAdd (ascii "time:0,execs:0,orig:c") 1]

theorem syncFuzzers_loses_import_after_restart :
    ∃ s t, exec (syncStep (ascii "fuzzer02")) (fun _ _ => True) .init unnoticedRestart = some s ∧
      exec (syncStep (ascii "fuzzer02")) (fun _ _ => True) s
        [.pass [] [], .tick, .pass [] [], .tick, .pass [] []] = some t ∧
      ¬ ∀ f ∈ s.queue, Handled (ascii "fuzzer02") t s.incarnation f.name := by
  have hsome : (exec (syncStep (ascii "fuzzer02")) (fun _ _ => True) .init unnoticedRestart).any
      (fun s => s.incarnation = 1 ∧ s.queue = [⟨peerName 0 (ascii "time:0,execs:0,orig:c"), 1⟩] ∧
        (exec (syncStep (ascii "fuzzer02")) (fun _ _ => True) s
          [.pass [] [], .tick, .pass [] [], .tick, .pass [] []]).any fun t =>
            ∀ x ∈ t.executed, x.1 = 0) = true := by
    decide +kernel
  obtain ⟨s, hs, hprop⟩ := (Option.any_eq_true _ _).mp hsome
  obtain ⟨hinc, hqueue, hmore⟩ := of_decide_eq_true hprop
  obtain ⟨t, ht, hex⟩ := (Option.any_eq_true _ _).mp hmore
  refine ⟨s, t, hs, ht, fun hall => ?_⟩
  have hfile := hall ⟨peerName 0 (ascii "time:0,execs:0,orig:c"), 1⟩
    (by rw [hqueue]; exact List.mem_singleton_self _)
  obtain hmem | hknown := hfile
  · have hzero := of_decide_eq_true hex _ hmem
    rw [hinc] at hzero
    cases hzero
  · revert hknown
    decide

end AflPlusPlus
