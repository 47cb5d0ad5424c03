import AflPlusPlus.Tmin.Minimize

/-!
# What is minimal about a minimized test case

Each change makes the data shorter or turns bytes into the character `0`, so that the passes come to
an end. The last pass has tried to delete every byte. It has not tried the characters again: what is
known of them is what the last character stage has tried, on the data as it was then.
-/

namespace AflPlusPlus.Tmin
open Lib

/-- The number of bytes, and of those that are not the character `0`. -/
def weight (inData : List Byte) : ℕ := inData.length + inData.countP (· ≠ chr '0')

/-- A part of a pass, on the data and on `changed_any`: the data stays accepted, and whenever it
changes, it gets smaller and this is noted. -/
structure Progress (t : Target) (s s' : List Byte × Bool) : Prop where
  accepted : t.verdict s'.1 = true
  length_le : s'.1.length ≤ s.1.length
  change : s' = s ∨ s'.2 = true ∧ weight s'.1 < weight s.1

section Progress

variable {t : Target} {s s' s'' : List Byte × Bool}

theorem Progress.refl (h : t.verdict s.1 = true) : Progress t s s := ⟨h, Nat.le_refl _, .inl rfl⟩

theorem Progress.trans (h : Progress t s s') (h' : Progress t s' s'') : Progress t s s'' where
  accepted := h'.accepted
  length_le := h'.length_le.trans h.length_le
  change := by
    rcases h'.change with rfl | ⟨hnoted, hlt⟩
    · exact h.change
    · rcases h.change with rfl | ⟨-, hlt'⟩
      · exact .inr ⟨hnoted, hlt⟩
      · exact .inr ⟨hnoted, hlt.trans hlt'⟩

theorem Progress.eq_of_unnoted (h : Progress t s s') (hnot : s'.2 = false) : s' = s :=
  h.change.resolve_right fun hchange => Bool.false_ne_true (hnot.symm.trans hchange.1)

end Progress

/-! ### Deletion -/

section Deletion

variable {t : Target} {delLen : ℕ}

/-- To delete either of two equal neighbours is the same. -/
theorem eraseIdx_succ_eq {α : Type} {l : List α} {i : ℕ}
    (h : (l.drop i).take 1 = (l.drop (i + 1)).take 1) : l.eraseIdx (i + 1) = l.eraseIdx i := by
  induction l generalizing i with
  | nil => rfl
  | cons a l ih =>
    cases i with
    | zero =>
      cases l with
      | nil => cases h
      | cons b l =>
        obtain rfl : a = b := (List.cons.inj h).1
        rfl
    | succ i => exact congrArg (List.cons a) (ih h)

theorem tmpBuf_eq (inData : List Byte) (delPos delLen : ℕ) :
    inData.take delPos ++
        (inData.drop (delPos + delLen)).take (inData.length - delPos - delLen) =
      inData.take delPos ++ inData.drop (delPos + delLen) := by
  congr 1
  refine List.take_of_length_le ?_
  rw [List.length_drop]
  omega

theorem weight_tmpBuf {inData : List Byte} {delPos : ℕ} (hpos : delPos < inData.length)
    (hlen : 0 < delLen) :
    (inData.take delPos ++ inData.drop (delPos + delLen)).length < inData.length ∧
      weight (inData.take delPos ++ inData.drop (delPos + delLen)) < weight inData := by
  have hlength : (inData.take delPos ++ inData.drop (delPos + delLen)).length < inData.length := by
    rw [List.length_append, List.length_take, List.length_drop]
    omega
  have hsublist : (inData.take delPos ++ inData.drop (delPos + delLen)).Sublist inData := by
    have hdrop : (inData.drop (delPos + delLen)).Sublist (inData.drop delPos) := by
      rw [← List.drop_drop]
      exact List.drop_sublist _ _
    have happend := (List.Sublist.refl (inData.take delPos)).append hdrop
    rwa [List.take_append_drop] at happend
  have hcount := hsublist.countP_le (p := fun c => decide (c ≠ chr '0'))
  exact ⟨hlength, by unfold weight; omega⟩

theorem deleteStep_progress (hlen : 0 < delLen) {s : Deletion} (haccept : t.verdict s.inData = true)
    (hpos : s.delPos < s.inData.length) :
    ∃ s', deleteStep t delLen s = some s' ∧
      Progress t (s.inData, s.changedAny) (s'.inData, s'.changedAny) ∧
      s'.inData.length - s'.delPos < s.inData.length - s.delPos := by
  unfold deleteStep
  dsimp only
  rw [tmpBuf_eq]
  obtain ⟨hlt, hweight⟩ := weight_tmpBuf hpos hlen
  split
  · exact ⟨_, rfl, .refl haccept, by dsimp only; omega⟩
  · split
    · refine ⟨_, rfl, ⟨‹_›, Nat.le_of_lt hlt, .inr ⟨rfl, hweight⟩⟩, ?_⟩
      dsimp only
      omega
    · exact ⟨_, rfl, .refl haccept, by dsimp only; omega⟩

/-- All deletions of a byte before the position are rejected. -/
structure Rejected (t : Target) (s : Deletion) : Prop where
  pos : s.prevDel = false → 0 < s.delPos
  rejected : ∀ j, j < s.delPos → j < s.inData.length → t.verdict (s.inData.eraseIdx j) = false

/-- One byte: it was tried, or it is the same as the one before. -/
theorem deleteStep_rejected {s s' : Deletion} (hstep : deleteStep t 1 s = some s')
    (h : s.changedAny = false → Rejected t s) (hnot : s'.changedAny = false) : Rejected t s' := by
  unfold deleteStep at hstep
  dsimp only at hstep
  rw [tmpBuf_eq, ← List.eraseIdx_eq_take_drop_succ] at hstep
  have hnext : ∀ {d : List Byte} {p j : ℕ}, (∀ j, j < p → j < d.length →
      t.verdict (d.eraseIdx j) = false) → t.verdict (d.eraseIdx p) = false → j < p + 1 →
      j < d.length → t.verdict (d.eraseIdx j) = false := by
    intro d p j hbefore hat hj hlt
    obtain hj | rfl := Nat.lt_succ_iff_lt_or_eq.mp hj
    · exact hbefore j hj hlt
    · exact hat
  split at hstep
  · rename_i hskip
    obtain rfl := Option.some.inj hstep
    obtain ⟨hpos, hrejected⟩ := h hnot
    have hprev : 0 < s.delPos := hpos (by simpa using hskip.1)
    refine ⟨fun _ => Nat.succ_pos _, fun j hj hlt => hnext hrejected ?_ hj hlt⟩
    by_cases hend : s.delPos < s.inData.length
    · have hsame := hskip.2.2
      obtain ⟨p, hp⟩ : ∃ p, s.delPos = p + 1 := ⟨s.delPos - 1, by omega⟩
      rw [hp, Nat.add_sub_cancel] at hsame
      rw [hp, eraseIdx_succ_eq hsame]
      exact hrejected p (by omega) (by omega)
    · exact absurd hskip.2.1 (by omega)
  · split at hstep
    · obtain rfl := Option.some.inj hstep
      cases hnot
    · rename_i hno
      obtain rfl := Option.some.inj hstep
      exact ⟨fun _ => Nat.succ_pos _, fun j hj hlt =>
        hnext (h hnot).rejected (by simpa using hno) hj hlt⟩

theorem deleteBlocks_spec (hlen : 0 < delLen) {inData : List Byte} (changedAny : Bool)
    (haccept : t.verdict inData = true) :
    ∃ s, deleteBlocks t delLen inData changedAny = some s ∧
      Progress t (inData, changedAny) (s.inData, s.changedAny) ∧
      (delLen = 1 → s.changedAny = false →
        ∀ j, j < s.inData.length → t.verdict (s.inData.eraseIdx j) = false) := by
  have hloop : ∃ s, deleteBlocks t delLen inData changedAny = some s ∧
      (Progress t (inData, changedAny) (s.inData, s.changedAny) ∧
        (delLen = 1 → s.changedAny = false → Rejected t s)) ∧
      decide (s.delPos < s.inData.length) = false := by
    refine whileLoop_total _ _ _ (fun s => s.inData.length - s.delPos) ?_ (Nat.lt_succ_self _)
      fun s hinv hcond => ?_
    · exact ⟨.refl haccept, fun _ _ =>
        ⟨fun h => absurd h.symm Bool.false_ne_true, fun j hj => absurd hj (Nat.not_lt_zero j)⟩⟩
    · obtain ⟨s', hs', hprogress, hlt⟩ :=
        deleteStep_progress hlen hinv.1.accepted (of_decide_eq_true hcond)
      refine ⟨s', hs', ⟨hinv.1.trans hprogress, ?_⟩, hlt⟩
      rintro rfl
      exact deleteStep_rejected hs' (hinv.2 rfl)
  obtain ⟨s, hs, ⟨hprogress, hrejected⟩, hdone⟩ := hloop
  refine ⟨s, hs, hprogress, fun hone hnot j hj => (hrejected hone hnot).rejected j ?_ hj⟩
  have := of_decide_eq_false hdone
  omega

theorem nextDelBlksize_spec {fuel : ℕ} {inData : List Byte} {changedAny : Bool}
    (hfuel : max 1 delLen ≤ fuel) (haccept : t.verdict inData = true) :
    ∃ r, nextDelBlksize t 1 fuel delLen inData changedAny = some r ∧
      Progress t (inData, changedAny) r ∧
      (r.2 = false → ∀ j, j < r.1.length → t.verdict (r.1.eraseIdx j) = false) := by
  induction fuel generalizing delLen inData changedAny with
  | zero => omega
  | succ fuel ih =>
    rw [nextDelBlksize]
    obtain ⟨n, hn⟩ : ∃ n, (if delLen = 0 then 1 else delLen) = n := ⟨_, rfl⟩
    have hpos : 0 < n ∧ n = max 1 delLen := by
      rw [← hn]
      split <;> omega
    rw [hn]
    obtain ⟨s, hs, hprogress, hrejected⟩ := deleteBlocks_spec hpos.1 changedAny haccept
    rw [hs, Option.bind_some]
    split
    · have hhalf : max 1 (n / 2) ≤ fuel := by omega
      obtain ⟨r, hr, hrest, hfinal⟩ := ih hhalf hprogress.accepted
      exact ⟨r, hr, hprogress.trans hrest, hfinal⟩
    · rename_i hlast
      refine ⟨_, rfl, hprogress, fun hnot j hj => ?_⟩
      have hj' : j < s.inData.length := hj
      exact hrejected (by omega) hnot j hj

end Deletion

/-! ### Normalization and symbols -/

section Symbols

variable {t : Target}

theorem blockNormalization_spec {inData : List Byte} (haccept : t.verdict inData = true) :
    ∃ r, blockNormalization t inData = some r ∧ t.verdict r = true ∧ r.length = inData.length := by
  unfold blockNormalization
  dsimp only
  obtain ⟨setLen, hset⟩ : ∃ n, (if pow2From (inData.length / tminSetSteps) < tminSetMinSize then
      tminSetMinSize else pow2From (inData.length / tminSetSteps)) = n := ⟨_, rfl⟩
  have hpos : 0 < setLen := by
    rw [← hset]
    split
    · decide
    · have : 0 < tminSetMinSize := by decide
      omega
  rw [hset]
  have hloop : ∃ s, whileLoop (fun s : List Byte × ℕ => s.2 < s.1.length) (blockStep t setLen)
      (inData.length + 1) (inData, 0) = some s ∧
      (t.verdict s.1 = true ∧ s.1.length = inData.length) ∧
      decide (s.2 < s.1.length) = false := by
    refine whileLoop_total _ _
      (fun s : List Byte × ℕ => t.verdict s.1 = true ∧ s.1.length = inData.length)
      (fun s => s.1.length - s.2) ⟨haccept, rfl⟩ (Nat.lt_succ_self _) fun s hinv hcond => ?_
    have hlt : s.2 < s.1.length := of_decide_eq_true hcond
    have hlength : (s.1.take s.2 ++ List.replicate (min setLen (s.1.length - s.2)) (chr '0') ++
        s.1.drop (s.2 + min setLen (s.1.length - s.2))).length = s.1.length := by
      rw [List.length_append, List.length_append, List.length_take, List.length_replicate,
        List.length_drop]
      omega
    unfold blockStep
    dsimp only
    split
    · exact ⟨_, rfl, hinv, by dsimp only; omega⟩
    · split
      · refine ⟨_, rfl, ⟨‹_›, hlength.trans hinv.2⟩, ?_⟩
        dsimp only
        rw [hlength]
        omega
      · exact ⟨_, rfl, hinv, by dsimp only; omega⟩
  obtain ⟨s, hs, hinv, -⟩ := hloop
  exact ⟨s.1, congrArg (Option.map Prod.fst) hs, hinv⟩

/-- All occurrences of `c` replaced. -/
def replaced (c : Byte) (inData : List Byte) : List Byte :=
  inData.map fun d => if d = c then chr '0' else d

theorem count_replaced {c v : Byte} (hv : v ≠ chr '0') (hne : v ≠ c) (inData : List Byte) :
    (replaced c inData).count v = inData.count v := by
  induction inData with
  | nil => rfl
  | cons d inData ih =>
    change ((if d = c then chr '0' else d) :: replaced c inData).count v = _
    rw [List.count_cons, List.count_cons, ih]
    by_cases hd : d = c
    · rw [if_pos hd, hd]
      simp [hv.symm, hne.symm]
    · rw [if_neg hd]

theorem countP_replaced_le (c : Byte) (inData : List Byte) :
    (replaced c inData).countP (· ≠ chr '0') ≤ inData.countP (· ≠ chr '0') := by
  rw [replaced, List.countP_map]
  refine List.countP_mono_left fun d _ hd => ?_
  by_cases hc : d = c
  · simp [hc] at hd
  · simpa [hc] using hd

theorem weight_replaced {c : Byte} (hc : c ≠ chr '0') {inData : List Byte} (hmem : c ∈ inData) :
    weight (replaced c inData) < weight inData := by
  have hlength : ∀ l : List Byte, (replaced c l).length = l.length := fun l => List.length_map _
  have hcount : (replaced c inData).countP (· ≠ chr '0') < inData.countP (· ≠ chr '0') := by
    induction inData with
    | nil => cases hmem
    | cons d inData ih =>
      change ((if d = c then chr '0' else d) :: replaced c inData).countP _ < _
      rw [List.countP_cons, List.countP_cons]
      by_cases hd : d = c
      · have hle := countP_replaced_le c inData
        have hzero : decide (chr '0' ≠ chr '0') = false := by decide
        rw [if_pos hd, hd, hzero, decide_eq_true hc, if_neg Bool.false_ne_true, if_pos rfl]
        omega
      · have hlt := ih ((List.mem_cons.mp hmem).resolve_left fun h => hd h.symm)
        rw [if_neg hd]
        omega
  rw [weight, weight, hlength]
  omega

theorem alphabetMinimization_progress {s : List Byte × Bool} (haccept : t.verdict s.1 = true) :
    Progress t s (alphabetMinimization t s) := by
  refine (forLoop_induct (fun i (s' : List Byte × Bool) => Progress t s s' ∧
    ∀ v, i ≤ v → v < 256 → BitVec.ofNat 8 v ≠ chr '0' →
      s'.1.count (BitVec.ofNat 8 v) = s.1.count (BitVec.ofNat 8 v)) ?_ ?_).1
  · exact ⟨.refl haccept, fun _ _ _ _ => rfl⟩
  rintro i ⟨inData, changedAny⟩ hi ⟨hprogress, hcount⟩
  have hrest : ∀ v, i + 1 ≤ v → v < 256 → BitVec.ofNat 8 v ≠ chr '0' →
      inData.count (BitVec.ofNat 8 v) = s.1.count (BitVec.ofNat 8 v) := fun v hv =>
    hcount v (by omega)
  unfold symbolStep
  dsimp only
  split
  · exact ⟨hprogress, hrest⟩
  · rename_i hgo
    rw [not_or] at hgo
    split
    · -- the symbol is still there, since the ones before were others
      have hmem : BitVec.ofNat 8 i ∈ inData := by
        have hsame := hcount i (Nat.le_refl i) hi hgo.1
        exact List.count_pos_iff.mp (by rw [hsame]; omega)
      refine ⟨hprogress.trans ⟨‹_›, Nat.le_of_eq (List.length_map _),
        .inr ⟨rfl, weight_replaced hgo.1 hmem⟩⟩, fun v hv hlt hne => ?_⟩
      have hother : BitVec.ofNat 8 v ≠ BitVec.ofNat 8 i := fun h => by bv_omega
      exact (count_replaced hne hother inData).trans (hrest v hv hlt hne)
    · exact ⟨hprogress, hrest⟩

end Symbols

/-! ### Characters -/

section Characters

variable {t : Target} {w : List Byte} {changedAny : Bool}

/-- The state of stage 3 before position `i`, where `w` is the data before the stage. Each byte that
is left was tried, with the bytes behind it as in `w`. -/
structure Tried (t : Target) (w : List Byte) (changedAny : Bool) (i : ℕ) (s : Characters) :
    Prop where
  tmpBuf : s.tmpBuf = s.inData
  length : s.inData.length = w.length
  rest : s.inData.drop i = w.drop i
  progress : Progress t (w, changedAny) (s.inData, s.changedAny)
  same : ∀ j : ℕ, s.inData[j]? = w[j]? ∨ s.inData[j]? = some (chr '0')
  rejected : ∀ j : ℕ, j < i → s.inData[j]? ≠ some (chr '0') →
    t.verdict (s.inData.take j ++ chr '0' :: w.drop (j + 1)) = false

theorem weight_set {inData : List Byte} {i : ℕ} (hi : i < inData.length)
    (hne : inData[i] ≠ chr '0') : weight (inData.set i (chr '0')) < weight inData := by
  have hcount := List.boole_getElem_le_countP (p := fun c => decide (c ≠ chr '0')) hi
  have hzero : decide (chr '0' ≠ chr '0') = false := by decide
  rw [decide_eq_true hne, if_pos rfl] at hcount
  rw [weight, weight, List.length_set, List.countP_set hi, hzero, decide_eq_true hne, if_pos rfl,
    if_neg Bool.false_ne_true]
  omega

theorem Tried.step {i : ℕ} {s : Characters} (hi : i < w.length) (h : Tried t w changedAny i s) :
    Tried t w changedAny (i + 1) (characterStep t i s) := by
  obtain ⟨inData, tmpBuf, noted⟩ := s
  obtain ⟨htmp, hlength, hrest, hprogress, hsame, hrejected⟩ := h
  obtain rfl : tmpBuf = inData := htmp
  have hi' : i < tmpBuf.length := by
    rw [show tmpBuf.length = w.length from hlength]
    exact hi
  have hnext : tmpBuf.drop (i + 1) = w.drop (i + 1) := by
    rw [← List.drop_drop, ← List.drop_drop, show tmpBuf.drop i = w.drop i from hrest]
  have hget : tmpBuf.getD i 0 = tmpBuf[i] := by
    rw [List.getD_eq_getElem?_getD, List.getElem?_eq_getElem hi', Option.getD_some]
  have htry : tmpBuf.set i (chr '0') = tmpBuf.take i ++ chr '0' :: w.drop (i + 1) := by
    rw [List.set_eq_take_append_cons_drop, if_pos hi', hnext]
  unfold characterStep
  dsimp only
  rw [hget]
  split
  · -- the character is there already
    rename_i horig
    refine ⟨rfl, hlength, hnext, hprogress, hsame, fun j hj hne => ?_⟩
    obtain hj | rfl := Nat.lt_succ_iff_lt_or_eq.mp hj
    · exact hrejected j hj hne
    · exact absurd ((List.getElem?_eq_getElem hi').trans (congrArg some horig)) hne
  · rename_i horig
    split
    · -- accepted
      refine ⟨rfl, (List.length_set ..).trans hlength, ?_, hprogress.trans ⟨‹_›, ?_, ?_⟩,
        fun j => ?_, fun j hj hne => ?_⟩
      · exact (List.drop_set_of_lt (Nat.lt_succ_self i)).trans hnext
      · exact Nat.le_of_eq (List.length_set ..)
      · exact .inr ⟨rfl, weight_set hi' horig⟩
      · by_cases hj : i = j
        · rw [← hj]
          exact .inr (List.getElem?_set_self hi')
        · have hkeep : (tmpBuf.set i (chr '0'))[j]? = tmpBuf[j]? := List.getElem?_set_ne hj
          dsimp only
          rw [hkeep]
          exact hsame j
      · dsimp only at hne ⊢
        obtain hj | rfl := Nat.lt_succ_iff_lt_or_eq.mp hj
        · rw [List.getElem?_set_ne (by omega)] at hne
          rw [List.take_set_of_le (by omega)]
          exact hrejected j hj hne
        · exact absurd (List.getElem?_set_self hi') hne
    · -- rejected: the buffer is put back
      rename_i hno
      have hback : (tmpBuf.set i (chr '0')).set i tmpBuf[i] = tmpBuf := by
        rw [List.set_set, List.set_getElem_self]
      refine ⟨hback, hlength, hnext, hprogress, hsame, fun j hj hne => ?_⟩
      obtain hj | rfl := Nat.lt_succ_iff_lt_or_eq.mp hj
      · exact hrejected j hj hne
      · rw [← htry]
        simpa using hno

theorem characterMinimization_tried (haccept : t.verdict w = true) (changedAny : Bool) :
    Tried t w changedAny w.length
      (forLoop w.length (characterStep t) ⟨w, w, changedAny⟩) := by
  refine forLoop_induct (Tried t w changedAny) ?_ fun i s hi h => h.step hi
  exact ⟨rfl, rfl, rfl, .refl haccept, fun _ => .inl rfl, fun j hj => absurd hj (Nat.not_lt_zero j)⟩

theorem characterMinimization_progress {s : List Byte × Bool} (haccept : t.verdict s.1 = true) :
    Progress t s (characterMinimization t s) :=
  (characterMinimization_tried haccept s.2).progress

end Characters

/-! ### The passes -/

section Passes

variable {t : Target}

/-- The data comes out of a character stage that had accepted data before it. -/
def AfterCharacters (t : Target) (r : List Byte) : Prop :=
  ∃ s : List Byte × Bool, t.verdict s.1 = true ∧ (characterMinimization t s).1 = r

theorem nextPass_spec {fuel curPass : ℕ} {inData : List Byte} (hfuel : weight inData < fuel)
    (haccept : t.verdict inData = true) (hchars : curPass = 0 ∨ AfterCharacters t inData) :
    ∃ r, nextPass t 1 fuel curPass inData = some r ∧ t.verdict r = true ∧
      r.length ≤ inData.length ∧ (∀ j, j < r.length → t.verdict (r.eraseIdx j) = false) ∧
      AfterCharacters t r := by
  induction fuel generalizing curPass inData with
  | zero => omega
  | succ fuel ih =>
    obtain ⟨s, hs, hdelete, hrejected⟩ : ∃ s, blockDeletion t 1 inData = some s ∧
        Progress t (inData, false) s ∧
        (s.2 = false → ∀ j, j < s.1.length → t.verdict (s.1.eraseIdx j) = false) :=
      nextDelBlksize_spec (by omega) haccept
    rw [nextPass]
    dsimp only
    rw [hs, Option.bind_some]
    split
    · -- nothing was deleted: this is the data of the last character stage
      rename_i hlast
      have hnot : s.2 = false := by simpa using hlast.2
      obtain rfl := hdelete.eq_of_unnoted hnot
      exact ⟨inData, rfl, haccept, Nat.le_refl _, hrejected rfl,
        hchars.resolve_left (by omega)⟩
    · have hsymbols := alphabetMinimization_progress hdelete.accepted
      have hcharacters := characterMinimization_progress hsymbols.accepted
      have hafter : AfterCharacters t
          (characterMinimization t (alphabetMinimization t s)).1 := ⟨_, hsymbols.accepted, rfl⟩
      have hpass := (hdelete.trans hsymbols).trans hcharacters
      generalize characterMinimization t (alphabetMinimization t s) = s' at *
      split
      · rename_i hchanged
        have hsmaller : weight s'.1 < weight inData := by
          rcases hpass.change with rfl | ⟨-, hlt⟩
          · cases hchanged
          · exact hlt
        obtain ⟨r, hr, haccept', hle, herase, hfinal⟩ :=
          ih (by omega) hpass.accepted (.inr hafter)
        exact ⟨r, hr, haccept', hle.trans hpass.length_le, herase, hfinal⟩
      · -- the first pass, and nothing was changed
        rename_i hunchanged
        have hnot : s'.2 = false := by simpa using hunchanged
        obtain rfl := (hsymbols.trans hcharacters).eq_of_unnoted hnot
        exact ⟨s'.1, rfl, hpass.accepted, hpass.length_le, hrejected hnot, hafter⟩

/-- What holds of a minimized test case. `w` is the data before the last character stage; every byte
that is not the character `0` was tried there, with the bytes of `w` behind it. -/
structure Minimized (t : Target) (inData r : List Byte) : Prop where
  accepted : t.verdict r = true
  length_le : r.length ≤ inData.length
  deletion : ∀ j, j < r.length → t.verdict (r.eraseIdx j) = false
  replacement : ∃ (w : List Byte) (changedAny : Bool), t.verdict w = true ∧
    (characterMinimization t (w, changedAny)).1 = r ∧ r.length = w.length ∧
    (∀ j : ℕ, r[j]? = w[j]? ∨ r[j]? = some (chr '0')) ∧
    ∀ j : ℕ, j < r.length → r[j]? ≠ some (chr '0') →
      t.verdict (r.take j ++ chr '0' :: w.drop (j + 1)) = false

/-- A byte behind which the last character stage has replaced nothing cannot be replaced. -/
theorem Minimized.replacement_last {inData r : List Byte} (h : Minimized t inData r) {j : ℕ}
    (hj : j < r.length) (hbehind : ∀ i : ℕ, j ≤ i → r[i]? ≠ some (chr '0')) :
    t.verdict (r.set j (chr '0')) = false := by
  obtain ⟨w, -, -, -, -, hsame, htried⟩ := h.replacement
  have hdrop : r.drop (j + 1) = w.drop (j + 1) := by
    refine List.ext_getElem? fun i => ?_
    rw [List.getElem?_drop, List.getElem?_drop]
    exact (hsame (j + 1 + i)).resolve_right (hbehind _ (by omega))
  rw [List.set_eq_take_append_cons_drop, if_pos hj, hdrop]
  exact htried j hj (hbehind j (Nat.le_refl j))

theorem minimize_minimized (t : Target) {inData : List Byte} (hlen : 2 ≤ inData.length)
    (haccept : t.verdict inData = true) :
    ∃ r, minimize t 1 inData = some r ∧ Minimized t inData r := by
  obtain ⟨d, hd, haccept', hlength⟩ := blockNormalization_spec haccept
  have hweight : weight d < 2 * d.length + 1 := by
    have := List.countP_le_length (p := fun c => decide (c ≠ chr '0')) (l := d)
    unfold weight
    omega
  obtain ⟨r, hr, hresult, hle, herase, ⟨w, changedAny⟩, hw, rfl⟩ :=
    nextPass_spec hweight haccept' (.inl rfl)
  refine ⟨_, ?_, hresult, hle.trans (Nat.le_of_eq hlength), herase, w, changedAny, hw, rfl, ?_⟩
  · rw [minimize, if_neg (by omega), hd, Option.bind_some, hr]
  · have htried := characterMinimization_tried hw changedAny
    exact ⟨htried.length, htried.same, fun j hj hne =>
      htried.rejected j (by rw [← htried.length]; exact hj) hne⟩

end Passes

/-- "abb", and what may become of it. -/
def hanging : List (List Byte) :=
  [[chr 'a', chr 'b', chr 'b'], [chr 'a', chr '0', chr 'b'], [chr '0', chr '0', chr 'b']]

/-- A target that hangs on these test cases, in the mode that looks for hangs. -/
def hangingTarget : Target where
  modes := { hangMode := true, mapSize := 64, hash64 := fun _ => 0 }
  run := fun _ mem => { ret := if mem ∈ hanging then .tmout else .ok, traceBits := fun _ => 0 }
  verdict := fun mem => mem ∈ hanging
  verdict_eq := by
    intro n mem
    by_cases h : mem ∈ hanging <;> simp [tminRunTarget, h]

theorem minimize_minimized_abb :
    ∃ r, minimize hangingTarget 1 [chr 'a', chr 'b', chr 'b'] = some r ∧
      Minimized hangingTarget [chr 'a', chr 'b', chr 'b'] r :=
  minimize_minimized hangingTarget (by decide) (by decide)

/-- The `b` was replaced after the `a` was tried. The next pass deletes nothing and is the last one;
the `a` could be replaced now. -/
theorem minimize_replaceable_abb :
    hangingTarget.verdict [chr 'a', chr 'b', chr 'b'] = true ∧
      minimize hangingTarget 1 [chr 'a', chr 'b', chr 'b'] = some [chr 'a', chr '0', chr 'b'] ∧
      hangingTarget.verdict ([chr 'a', chr '0', chr 'b'].set 0 (chr '0')) = true := by
  refine ⟨by decide, by decide +kernel, by decide⟩

end AflPlusPlus.Tmin
