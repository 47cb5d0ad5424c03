import AflPlusPlus.Cmplog.Solve

/-!
# The recursion of the solver

A call changes the attribute to one of the internal ones, from which no further change is possible,
or it swaps the bytes of its operands and forbids another swap. The depth of a call counts both, so
that the recursion ends. On the way every patch of the buffer is put back, and lies in it.
-/

namespace AflPlusPlus.Cmplog
open Lib Lib.Stopping

/-- The attributes that the solver itself gives. -/
def IsInternal (attr : BitVec 8) : Prop := attr = isFpMod ∨ attr = isIntMod ∨ attr = isTransform

instance (attr : BitVec 8) : Decidable (IsInternal attr) := inferInstanceAs (Decidable (_ ∨ _ ∨ _))

/-- How deep the calls below a call can be nested, itself included. -/
def CmpArgs.depth {w : ℕ} (a : CmpArgs w) : ℕ :=
  (if IsInternal a.attr then 0 else 2) + (if a.doReverse then 1 else 0) + 1

theorem CmpArgs.depth_pos {w : ℕ} (a : CmpArgs w) : 0 < a.depth := Nat.succ_pos _

theorem CmpArgs.depth_le {w : ℕ} (a : CmpArgs w) : a.depth ≤ 4 := by
  rw [depth]
  split <;> split <;> omega

/-- A call with an internal attribute is nested less deeply than one with another attribute. -/
theorem CmpArgs.depth_lt_of_internal {w : ℕ} {a b : CmpArgs w} (ha : ¬ IsInternal a.attr)
    (hb : IsInternal b.attr) : b.depth < a.depth := by
  rw [depth, depth, if_neg ha, if_pos hb]
  split <;> split <;> omega

theorem CmpArgs.depth_swapped_lt {w : ℕ} {a : CmpArgs w} (swap : BitVec w → BitVec w)
    (ha : a.doReverse = true) : (a.swapped swap).depth < a.depth := by
  have hswapped : (a.swapped swap).depth = (if IsInternal a.attr then 0 else 2) + 0 + 1 := rfl
  rw [hswapped, depth, if_pos ha]
  omega

/-! ### What a call leaves behind -/

def SameBuf (s s' : Solver) : Prop := s'.buf = s.buf

theorem isFrame_sameBuf : IsFrame SameBuf :=
  ⟨fun _ => rfl, fun h h' => Eq.trans h' h⟩

/-- The buffer is restored on return, and the call stops because it is asked to, or because the
recursion is too deep if that is possible. -/
abbrev Harmless (deep : Prop) (m : Solve Unit) : Prop :=
  Obeys SameBuf (fun e => e = Stop.stopped ∨ (e = Stop.fuel ∧ deep)) m

section Harmless

variable {deep : Prop}

theorem Harmless.mono {deep' : Prop} {m : Solve Unit} (h : Harmless deep m) (himp : deep → deep') :
    Harmless deep' m := by
  intro s
  have hs := h s
  rw [ObeysAt] at hs ⊢
  split
  · rename_i heq
    rw [heq] at hs
    exact hs
  · rename_i heq
    rw [heq] at hs
    exact hs.imp id fun hfuel => ⟨hfuel.1, himp hfuel.2⟩

theorem Harmless.pure : Harmless deep (Pure.pure ()) := Obeys.pure isFrame_sameBuf ()

theorem Harmless.seq {m : Solve Unit} {f : Unit → Solve Unit} (hm : Harmless deep m)
    (hf : Harmless deep (f ())) : Harmless deep (m >>= f) :=
  Obeys.bind isFrame_sameBuf hm fun _ => hf

theorem Harmless.read {f : Solver → Solve Unit} (hf : ∀ s, Harmless deep (f s)) :
    Harmless deep (get >>= f) := Obeys.get_bind fun s => hf s s

theorem Harmless.onlyIf {p : Prop} [Decidable p] {m : Solve Unit} (hm : p → Harmless deep m) :
    Harmless deep (Stopping.onlyIf p m) := Obeys.onlyIf isFrame_sameBuf hm

/-- A change beside the buffer. -/
theorem Harmless.aside {f : Solver → Solver} (hf : ∀ s, (f s).buf = s.buf) :
    Harmless deep (modify f) := Obeys.modify hf

theorem harmless_itsFuzz (t : Target) (data : List Byte) : Harmless deep (itsFuzz t data) := by
  refine Harmless.seq (Harmless.aside fun _ => rfl) (Harmless.read fun s => ?_)
  cases t.outcome s.runs with
  | stop => exact Obeys.stop (Or.inl rfl)
  | newFind => exact Harmless.aside fun _ => rfl
  | nothing => exact Harmless.aside fun _ => rfl

theorem writeBuf_apply {t : Target} {a n : ℕ} (h : n = 0 ∨ a + n ≤ t.len) (src : Bytes)
    (s : Solver) :
    writeBuf t a n src s = (.ok (), { s with buf := copyBlock s.buf a src 0 n }) := by
  rw [writeBuf, if_pos h]
  rfl

/-- Putting back what was read before the patch. -/
theorem copyBlock_restore (m src : Bytes) (a n : ℕ) :
    copyBlock (copyBlock m a src 0 n) a (fun i => m (a + i)) 0 n = m := by
  funext i
  simp only [copyBlock]
  split
  · rename_i h
    rw [show a + (0 + (i - a)) = i by omega]
  · rfl

theorem harmless_runPatched (t : Target) (idx n : ℕ) (src : Bytes) :
    Harmless deep (runPatched t idx n src) :=
  Harmless.read fun _ => Harmless.seq (harmless_itsFuzz t _) (Harmless.read fun _ =>
    Harmless.onlyIf fun _ => Harmless.aside fun _ => rfl)

theorem tryBytes_apply {t : Target} {idx n : ℕ} (h : n = 0 ∨ idx + n ≤ t.len) (src : Bytes)
    (s : Solver) :
    tryBytes t idx n src s = (runPatched t idx n src >>= fun _ =>
      writeBuf t idx n fun i => s.buf (idx + i)) { s with buf := copyBlock s.buf idx src 0 n } := by
  rw [tryBytes, get_bind_apply, bind_of_ok (writeBuf_apply h src s)]

theorem harmless_tryBytes (t : Target) {idx n : ℕ} (h : n = 0 ∨ idx + n ≤ t.len) (src : Bytes) :
    Harmless deep (tryBytes t idx n src) := by
  intro s
  have hpatched : Harmless deep (runPatched t idx n src) := harmless_runPatched t idx n src
  have hmid := hpatched { s with buf := copyBlock s.buf idx src 0 n }
  rw [ObeysAt, tryBytes_apply h]
  rcases hrun :
      runPatched t idx n src { s with buf := copyBlock s.buf idx src 0 n } with ⟨e | u, s'⟩
  · rw [bind_of_error hrun]
    exact hmid.stops hrun
  · have hbuf : s'.buf = copyBlock s.buf idx src 0 n := hmid.returns hrun
    have hrestored : copyBlock s'.buf idx (fun i => s.buf (idx + i)) 0 n = s.buf := by
      rw [hbuf, copyBlock_restore]
    rw [bind_of_ok hrun, writeBuf_apply h]
    exact hrestored

theorem harmless_placeNumber (t : Target) (idx : ℕ) (found : Option (ℕ × List Byte)) :
    Harmless deep (placeNumber t idx found) := by
  rcases found with _ | ⟨oldLen, new⟩
  · exact Harmless.pure
  · exact Harmless.seq (Harmless.aside fun _ => rfl) (Harmless.read fun _ => harmless_itsFuzz t _)

theorem harmless_solveNumber (t : Target) (a : CmpArgs 64) : Harmless deep (solveNumber t a) :=
  Harmless.read fun _ => Harmless.seq (Harmless.aside fun _ => rfl) (harmless_placeNumber t _ _)

/-! ### The parts that call the function again -/

section Calls

variable {self : CmpArgs 64 → Solve Unit} {t : Target} {a : CmpArgs 64}
  (hself : ∀ b : CmpArgs 64, b.depth < a.depth → Harmless deep (self b))
include hself

theorem harmless_solveTransform (bytes : ℕ) (ha : ¬ IsInternal a.attr) :
    Harmless deep (solveTransform self t a bytes) := by
  have hagain : ∀ newRepl, Harmless deep (self { a with
      repl := newRepl, changedVal := a.repl, attr := isTransform, doReverse := true }) :=
    fun _ => hself _ (CmpArgs.depth_lt_of_internal ha (Or.inr (Or.inr rfl)))
  refine Harmless.read fun s => Harmless.seq (Harmless.onlyIf fun _ => hagain _) ?_
  refine Harmless.read fun _ => Harmless.seq (Harmless.onlyIf fun _ =>
    Harmless.onlyIf fun _ => hagain _) ?_
  refine Harmless.read fun _ => Harmless.seq (Harmless.onlyIf fun _ =>
    Harmless.onlyIf fun _ => hagain _) ?_
  refine Harmless.read fun _ => Harmless.seq (Harmless.onlyIf fun _ =>
    Harmless.onlyIf fun _ => hagain _) ?_
  exact Harmless.aside fun _ => rfl

theorem harmless_solveWidth {itsLen : ℕ} (hlen : a.idx + itsLen ≤ t.len) (w : ℕ)
    (swap : BitVec 64 → BitVec 64) : Harmless deep (solveWidth self t a itsLen w swap) := by
  refine Harmless.read fun s => Harmless.onlyIf fun _ => Harmless.seq (Harmless.onlyIf fun hfit =>
    harmless_tryBytes t (by omega) _) (Harmless.read fun _ => Harmless.onlyIf fun hrev => ?_)
  exact hself _ (CmpArgs.depth_swapped_lt swap hrev.1)

theorem harmless_solveFloat (attr : BitVec 8) (itsLen : ℕ) (ha : ¬ IsInternal a.attr) :
    Harmless deep (solveFloat self t a attr itsLen) := by
  have hagain : ∀ newRepl, Harmless deep (self { a with
      repl := newRepl, changedVal := newRepl, attr := isFpMod, doReverse := true }) :=
    fun _ => hself _ (CmpArgs.depth_lt_of_internal ha (Or.inl rfl))
  refine Harmless.read fun s => ?_
  rcases floatNeighbour t.floats (attr &&& isGreater ≠ 0) s.hshape itsLen a.repl with _ | replNew
  · exact Harmless.pure
  · refine Harmless.seq (hagain _) (Harmless.read fun _ => Harmless.onlyIf fun _ =>
      Harmless.seq (Harmless.aside fun _ => rfl) ?_)
    exact Obeys.restoring (hagain _) fun _ _ h => h

theorem harmless_solveArith (itsLen : ℕ) : Harmless deep (solveArith self t a itsLen) := by
  refine Harmless.read fun s => Obeys.ite (fun _ => Harmless.pure) fun hlevel =>
    Obeys.ite (fun _ => Harmless.pure) fun hattr => ?_
  have ha : ¬ IsInternal a.attr := by
    rintro (h | h | h)
    · exact hattr (Or.inl (by rw [h]; decide))
    · exact hattr (Or.inl (by rw [h]; decide))
    · exact hlevel (Or.inr (Or.inr h))
  refine Obeys.ite (fun _ => harmless_solveFloat hself _ itsLen ha) fun _ =>
    Harmless.onlyIf fun _ => ?_
  exact hself _ (CmpArgs.depth_lt_of_internal ha (Or.inr (Or.inl rfl)))

theorem harmless_solveBody : Harmless deep (solveBody self t a) := by
  refine Harmless.read fun s => Obeys.ite (fun _ => Harmless.pure) fun hbytes => ?_
  have hlen : a.idx + min (t.len - a.idx) a.taintLen ≤ t.len := by omega
  refine Harmless.seq (Harmless.onlyIf fun _ => Harmless.seq (harmless_solveNumber t a)
    (Harmless.onlyIf fun hmagic => harmless_solveTransform hself _ ?_))
    (Harmless.onlyIf fun _ => Harmless.seq (Harmless.onlyIf fun _ => ?_) ?_)
  · rintro (h | h | h)
    all_goals
      rw [h] at hmagic
      exact absurd hmagic.2.2 (by decide)
  · exact Harmless.seq (harmless_solveWidth hself hlen _ _) (Harmless.seq
      (harmless_solveWidth hself hlen _ _) (harmless_solveWidth hself hlen _ _))
  · refine Harmless.seq (Harmless.onlyIf fun _ => Harmless.onlyIf fun hfit =>
      harmless_tryBytes t (by omega) _) (harmless_solveArith hself _)

end Calls

theorem harmless_solveScaleN (t : Target) (a : CmpArgs 128) :
    Harmless deep (solveScaleN t a (min (t.len - a.idx) a.taintLen)) := by
  refine Harmless.onlyIf fun _ => ?_
  rcases scaleCodeN a.repl with _ | ⟨ilen, newVal⟩
  · exact Harmless.pure
  · exact Harmless.onlyIf fun hfit => harmless_tryBytes t (by omega) _

theorem harmless_solveBodyN {self : CmpArgs 128 → Solve Unit} {t : Target} {a : CmpArgs 128}
    (hself : ∀ b : CmpArgs 128, b.depth < a.depth → Harmless deep (self b)) :
    Harmless deep (solveBodyN self t a) := by
  refine Harmless.read fun s => Harmless.onlyIf fun hfit => Harmless.seq ?_
    (Harmless.read fun _ => Harmless.seq (Harmless.onlyIf fun hrev => ?_) ?_)
  · exact Harmless.read fun _ => Harmless.onlyIf fun _ => harmless_tryBytes t (by omega) _
  · exact hself _ (CmpArgs.depth_swapped_lt _ hrev.1)
  · exact harmless_solveScaleN t a

end Harmless

/-! ### Main results -/

theorem harmless_cmpExtendEncoding (t : Target) (fuel : ℕ) (a : CmpArgs 64) :
    Harmless (fuel < a.depth) (cmpExtendEncoding t fuel a) := by
  induction fuel generalizing a with
  | zero => exact Obeys.stop (Or.inr ⟨rfl, a.depth_pos⟩)
  | succ fuel ih => exact harmless_solveBody fun b hb => (ih b).mono fun h => by omega

theorem harmless_cmpExtendEncodingN (t : Target) (fuel : ℕ) (a : CmpArgs 128) :
    Harmless (fuel < a.depth) (cmpExtendEncodingN t fuel a) := by
  induction fuel generalizing a with
  | zero => exact Obeys.stop (Or.inr ⟨rfl, a.depth_pos⟩)
  | succ fuel ih => exact harmless_solveBodyN fun b hb => (ih b).mono fun h => by omega

/-- Four nested calls are enough, for all arguments and whatever the executed tests do. -/
theorem cmpExtendEncoding_ends (t : Target) (s : Solver) (a : CmpArgs 64) (b : CmpArgs 128)
    (fuel : ℕ) :
    (cmpExtendEncoding t (fuel + 4) a s).1 ≠ .error .fuel ∧
      (cmpExtendEncodingN t (fuel + 4) b s).1 ≠ .error .fuel := by
  have ha := a.depth_le
  have hb := b.depth_le
  constructor
  · intro h
    rcases (harmless_cmpExtendEncoding t (fuel + 4) a s).stops (Prod.ext h rfl) with
      hstop | ⟨_, hdeep⟩
    · exact absurd hstop (by decide)
    · omega
  · intro h
    rcases (harmless_cmpExtendEncodingN t (fuel + 4) b s).stops (Prod.ext h rfl) with
      hstop | ⟨_, hdeep⟩
    · exact absurd hstop (by decide)
    · omega

end AflPlusPlus.Cmplog
