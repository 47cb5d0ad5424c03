import AflPlusPlus.Cmplog.RtnRestore
import AflPlusPlus.Mutation.WriteTestcase

/-!
# When solving leaves the buffer as it was

The function for the arguments of routines puts its buffer back, whatever the executed tests do,
just when no test of its transformations leaves a trace. That this is needed is shown with targets
in which nothing is found up to some test, and every later one is a find: up to that test the run is
the one in which nothing is found at all.
-/

namespace AflPlusPlus.Cmplog
open Lib Lib.Stopping Mutation

/-! ### Targets with other outcomes -/

abbrev Outcomes : Type := List (List Byte) → Outcome

def Target.answering (t : Target) (o : Outcomes) : Target := { t with outcome := o }

def RtnTarget.answering (t : RtnTarget) (o : Outcomes) : RtnTarget := { t with outcome := o }

section
variable (t : Target) (r : RtnTarget) (o : Outcomes)

@[simp] theorem answering_len : (t.answering o).len = t.len := rfl

@[simp] theorem answering_origBuf : (t.answering o).origBuf = t.origBuf := rfl

@[simp] theorem answering_outcome : (t.answering o).outcome = o := rfl

@[simp] theorem answering_toTarget : (r.answering o).toTarget = r.toTarget.answering o := rfl

@[simp] theorem answering_enableXtreme : (r.answering o).enableXtreme = r.enableXtreme := rfl

theorem RtnLocals.Counted.answering {r : RtnTarget} {a : RtnArgs} {b : Bytes} {i : ℕ}
    {v : RtnLocals} (h : v.Counted r a b i) (o : Outcomes) : v.Counted (r.answering o) a b i :=
  ⟨h.xor, h.arith, h.tolower, h.toupper, h.tohex, h.fromhex, h.tob64, h.fromb64, h.from0,
    h.fromSlash, h.fromx, h.to0, h.toSlash, h.tox, h.xorVal, h.arithVal⟩

end

/-- How many test cases have been executed. -/
def asked (s : Solver) : ℕ := s.runs.length

section Causal

variable (t : Target) (r : RtnTarget) (a : RtnArgs) (save : Bytes) (itsLen i : ℕ) (v : RtnLocals)

theorem causal_itsFuzz (data : List Byte) : Causal asked fun o => itsFuzz (t.answering o) data := by
  have hruns (o : Outcomes) (s : Solver) :
      (itsFuzz (t.answering o) data s).2.runs = s.runs ++ [data] := by
    by_cases hstop : (t.answering o).outcome (s.runs ++ [data]) = .stop
    · rw [itsFuzz_of_stop hstop]
    · rw [itsFuzz_of_ne_stop hstop]
  refine ⟨fun o s => ?_, fun o o' s hagree => ?_⟩
  · rw [asked, asked, hruns]
    simp
  · have hsame : o' (s.runs ++ [data]) = o (s.runs ++ [data]) := hagree _ (by rw [asked, hruns])
    rw [itsFuzz, itsFuzz, modify_bind_apply, modify_bind_apply, get_bind_apply, get_bind_apply]
    simp only [Target.answering, hsame]

theorem causal_writeBuf (idx n : ℕ) (src : Bytes) :
    Causal asked fun o => writeBuf (t.answering o) idx n src := by
  refine Causal.of_const (m := writeBuf t idx n src) fun s => ?_
  by_cases hfit : n = 0 ∨ idx + n ≤ t.len
  · rw [writeBuf_apply hfit]
    exact Nat.le_refl _
  · rw [writeBuf, if_neg hfit]
    exact Nat.le_refl _

theorem causal_place (idx n : ℕ) (src : Bytes) :
    Causal asked fun o => place (t.answering o) idx n src := by
  simp only [place, answering_len]
  exact (causal_writeBuf t idx n src).bind fun _ => Causal.get_bind fun _ => causal_itsFuzz t _

theorem causal_directLoop (idx n i : ℕ) :
    Causal asked fun o => directLoop (t.answering o) a idx n i := by
  induction n generalizing i with
  | zero => exact Causal.pure i
  | succ n ih =>
    simp only [directLoop, answering_len, answering_origBuf]
    refine Causal.get_bind fun s => Causal.cond (Causal.pure i) ?_
    refine (causal_writeBuf t _ _ _).bind fun _ => Causal.get_bind fun s' => ?_
    refine (causal_itsFuzz t _).bind fun _ => Causal.get_bind fun s'' => ?_
    refine Causal.bind (Causal.onlyIf (Causal.modify ?_)) fun _ => ih (i + 1)
    exact fun _ => rfl

theorem causal_directTurns (maxTo n pre : ℕ) :
    Causal asked fun o => directTurns (t.answering o) a save maxTo itsLen n pre := by
  induction n generalizing pre with
  | zero => exact Causal.pure ()
  | succ n ih =>
    refine Causal.bind (Causal.get_bind fun s => Causal.onlyIf ?_) fun _ => ih (pre + 1)
    exact (causal_directLoop t a _ _ _).bind fun i => causal_writeBuf t _ i _

theorem causal_fromB64Loop (n hlen : ℕ) (tmp : Bytes) :
    Causal asked fun o => fromB64Loop (r.answering o) a n hlen tmp := by
  induction n generalizing hlen tmp with
  | zero => exact Causal.pure tmp
  | succ n ih =>
    simp only [fromB64Loop, answering_len, answering_toTarget]
    refine Causal.cond ?_ (Causal.pure tmp)
    exact (Causal.onlyIf (causal_place r.toTarget _ _ _)).bind fun _ => ih _ _

theorem causal_tryFromB64 : Causal asked fun o => tryFromB64 (r.answering o) a itsLen i v := by
  simp only [tryFromB64, answering_enableXtreme]
  exact Causal.cond ((causal_fromB64Loop r a _ _ _).bind fun _ => Causal.pure _) (Causal.pure v)

theorem causal_tryToB64 : Causal asked fun o => tryToB64 (r.answering o) a i v := by
  simp only [tryToB64, answering_toTarget, answering_enableXtreme]
  exact Causal.cond ((causal_place r.toTarget _ _ _).bind fun _ => Causal.pure _) (Causal.pure v)

theorem causal_tryToHex : Causal asked fun o => tryToHex (r.answering o) a i v := by
  simp only [tryToHex, answering_toTarget, answering_enableXtreme]
  exact Causal.cond ((causal_place r.toTarget _ _ _).bind fun _ => Causal.pure _) (Causal.pure v)

theorem causal_fromHexTurn (off toUp hlen : ℕ) (tmp : Bytes) :
    Causal asked fun o => fromHexTurn (r.answering o) a save off toUp hlen tmp := by
  simp only [fromHexTurn, answering_len, answering_toTarget]
  exact Causal.cond ((causal_place r.toTarget _ _ _).bind fun _ =>
    (causal_writeBuf r.toTarget _ _ _).bind fun _ => Causal.pure _) (Causal.pure tmp)

theorem causal_tryFromHex : Causal asked fun o => tryFromHex (r.answering o) a save i v := by
  simp only [tryFromHex, answering_enableXtreme]
  exact Causal.cond ((causal_fromHexTurn r a save _ _ _ _).bind fun _ =>
    (causal_fromHexTurn r a save _ _ _ _).bind fun _ => Causal.pure _) (Causal.pure v)

theorem causal_tryAlways : Causal asked fun o => tryAlways (r.answering o) a save itsLen i v :=
  (causal_tryFromB64 r a itsLen i v).bind fun _ => (causal_tryToB64 r a i _).bind fun _ =>
    (causal_tryToHex r a i _).bind fun _ => (causal_tryFromHex r a save i _).bind fun _ =>
      Causal.bind (Causal.onlyIf (causal_place r.toTarget _ _ _)) fun _ => Causal.pure _

theorem causal_tryUnlessFound (count : ℕ) (src : Bytes) :
    Causal asked fun o => tryUnlessFound (r.answering o) a i count src :=
  Causal.get_bind fun _ => Causal.onlyIf (causal_place r.toTarget _ _ _)

end Causal

/-! ### The condition is needed -/

/-- Nothing is ever found. -/
def calm : Outcomes := fun _ => .nothing

/-- Every test after the first `n` is a find. -/
def findAfter (n : ℕ) : Outcomes := fun h => if h.length ≤ n then .nothing else .newFind

theorem agreeUpTo_findAfter (n : ℕ) : AgreeUpTo n calm (findAfter n) := fun _ hh => if_pos hh

theorem findAfter_of_lt {n : ℕ} {h : List (List Byte)} (hlen : n < h.length) :
    findAfter n h = .newFind := if_neg (Nat.not_le.mpr hlen)

theorem findAfter_ne_stop (n : ℕ) (h : List (List Byte)) : findAfter n h ≠ .stop := by
  rw [findAfter]
  split <;> simp

/-- The buffer is `b` in the end, whatever the tests from now on do. -/
abbrev EndsWith (b : Bytes) (m : Outcomes → Solve Unit) (s : Solver) : Prop :=
  Henceforth asked calm (fun e => e = Stop.stopped) m s fun _ s' => s'.buf = b

section Needed

variable {t : RtnTarget} {a : RtnArgs} {b save : Bytes} {itsLen i : ℕ} {v : RtnLocals} {s : Solver}

/-- Without a fault and a target that asks to stop, the tests are all made. -/
theorem Tests.made {α : Type} {t : Target} {idx : ℕ} {ws : List (ℕ × Bytes)} {m : Solve α}
    {f : α → Solve Unit} {mid : α → Prop} {post : Unit → Solver → Prop}
    (hm : Tests t idx i ws m s mid) (hnever : ∀ runs, t.outcome runs ≠ .stop)
    (h : Ensures (fun e => e = Stop.stopped) (m >>= f) s post) :
    ∃ r s', m s = (.ok r, s') ∧ Effect t idx i ws s s' ∧ mid r ∧
      Ensures (fun e => e = Stop.stopped) (f r) s' post := by
  rcases hrun : m s with ⟨e | r, s'⟩
  · rcases hm.stops hrun with ⟨-, runs, hstop⟩ | ⟨hfault, -⟩
    · exact absurd hstop (hnever runs)
    · have hstopped : e = .stopped := h.stops (bind_of_error hrun)
      rw [hfault] at hstopped
      cases hstopped
  · obtain ⟨heffect, hmid⟩ := hm.returns hrun
    exact ⟨r, s', rfl, heffect, hmid, (ensures_bind_iff hrun).mp h⟩

/-- A find among the tests ends the search, so that what they write has to be what was there. The
search goes on when nothing is found. -/
theorem EndsWith.tests {α : Type} {ws : List (ℕ × Bytes)} {m : Outcomes → Solve α}
    {f : Outcomes → α → Solve Unit} {mid : α → Prop} (h : EndsWith b (fun o => m o >>= f o) s)
    (hm : Causal asked m)
    (htests : ∀ o, Tests (t.toTarget.answering o) a.idx i ws (m o) s mid)
    (hfound : ∀ o r s', s'.status = 1 →
      Ensures (fun e => e = Stop.stopped) (f o r) s' (fun _ s'' => s''.buf = b) →
      ∀ k, a.idx + i ≤ k → s'.buf k = b k)
    (hstatus : s.status ≠ 1) :
    (ws ≠ [] → ∀ k, a.idx + i ≤ k → patched a.idx ws s.buf k = b k) ∧
      ∃ r s', Effect (t.toTarget.answering calm) a.idx i ws s s' ∧ mid r ∧ s'.status ≠ 1 ∧
        EndsWith b (fun o => f o r) s' := by
  constructor
  · intro hws k hk
    obtain ⟨r, s', -, heffect, -, hrest⟩ :=
      (htests (findAfter (asked s))).made (findAfter_ne_stop _) (h _ (agreeUpTo_findAfter _))
    have htested := heffect.tested
    rw [if_neg hws] at htested
    have hfind : findAfter (asked s) s'.runs = .newFind := findAfter_of_lt htested.1
    have hone : s'.status = 1 := by
      rw [htested.2, answering_outcome, hfind]
      rfl
    rw [← heffect.buf k (.inr hk)]
    exact hfound _ r s' hone hrest k hk
  · obtain ⟨r, s', hrun, heffect, hmid, -⟩ :=
      (htests calm).made (fun _ => by simp [calm]) (h calm fun _ _ => rfl)
    have htested := heffect.tested
    refine ⟨r, s', heffect, hmid, ?_, h.rest hm hrun⟩
    by_cases hws : ws = []
    · rw [if_pos hws] at htested
      rwa [htested.2]
    · rw [if_neg hws] at htested
      rw [htested.2]
      simp [calm, statusOf]

/-! ### What follows a test -/

/-- What is left to do in the loop behind the tests at an index, and the last copy. -/
def afterTests (t : RtnTarget) (a : RtnArgs) (save : Bytes) (itsLen n i : ℕ) (v : RtnLocals) :
    Solve Unit := do
  onlyIf ((← get).status = 1) do
    modify fun s => { s with cbuf := copyBlock s.cbuf a.idx s.buf a.idx (i + 1) }
  let s ← get
  (if v.idle t i ∨ a.repl i ≠ a.changedVal i ∨ s.status = 1 then pure i
    else transformLoop t a save itsLen n (i + 1) v) >>= fun j => writeBuf t.toTarget a.idx j save

theorem transformLoop_succ (n : ℕ) :
    (transformLoop t a save itsLen (n + 1) i v >>= fun j => writeBuf t.toTarget a.idx j save) =
      (do
        let s ← get
        let v ← tryAlways t a save itsLen i (v.scan t a s.buf i)
        tryArith t a i v
        tryUpper t a i v
        tryLower t a i v
        afterTests t a save itsLen n i v) := by
  simp only [transformLoop, transformTurn, afterTests, bind_assoc]
  rfl

/-- A find leaves the loop, and only the bytes before the index are put back. -/
theorem same_of_found {n : ℕ} (hroom : a.idx + i ≤ t.len) (hfound : s.status = 1)
    (h : Ensures (fun e => e = Stop.stopped) (afterTests t a save itsLen n i v) s
      fun _ s' => s'.buf = b) (k : ℕ) (hk : a.idx + i ≤ k) : s.buf k = b k := by
  let s' : Solver := { s with cbuf := copyBlock s.cbuf a.idx s.buf a.idx (i + 1) }
  have hrun : afterTests t a save itsLen n i v s = writeBuf t.toTarget a.idx i save s' := by
    rw [afterTests, get_bind_apply, onlyIf, if_pos hfound, modify_bind_apply, get_bind_apply,
      if_pos (.inr (.inr hfound))]
    rfl
  rw [writeBuf_apply (.inr hroom)] at hrun
  have hbuf : copyBlock s.buf a.idx save 0 i = b := h.returns hrun
  rw [← hbuf, copyBlock, if_neg (by omega)]

theorem afterTests_of_unfound {n : ℕ} (hfound : s.status ≠ 1) (hidle : v.idle t i = false)
    (hrepl : a.repl i = a.changedVal i) :
    afterTests t a save itsLen n i v s =
      (transformLoop t a save itsLen n (i + 1) v >>= fun j => writeBuf t.toTarget a.idx j save)
        s := by
  rw [afterTests, get_bind_apply, bind_of_ok (onlyIf_of_not hfound _ s), get_bind_apply,
    if_neg (by simp [hidle, hrepl, hfound])]

theorem tryUnlessFound_of_found {count : ℕ} {src : Bytes} (hfound : s.status = 1) :
    tryUnlessFound t a i count src s = (.ok (), s) := by
  rw [tryUnlessFound, get_bind_apply, onlyIf_of_not fun hc => hc.2 hfound]

/-- A test that is not made after a find puts the byte there that was there. -/
theorem EndsWith.unlessFound {count : ℕ} {src : Bytes} {f : Outcomes → Solve Unit}
    (h : EndsWith b (fun o => tryUnlessFound (t.answering o) a i count src >>= fun _ => f o) s)
    (hfound : ∀ o s', s'.status = 1 →
      Ensures (fun e => e = Stop.stopped) (f o) s' (fun _ s'' => s''.buf = b) →
      ∀ k, a.idx + i ≤ k → s'.buf k = b k)
    (hstatus : s.status ≠ 1) (hbuf : SameBut a.idx i s.buf b) :
    (count > i → src i = b (a.idx + i)) ∧
      ∃ s', SameBut a.idx i s'.buf b ∧ s'.status ≠ 1 ∧ EndsWith b f s' := by
  obtain ⟨hwrites, -, s', heffect, -, hstatus', hrest⟩ := h.tests (causal_tryUnlessFound t a i _ _)
    (fun o => tests_tryUnlessFound (t := t.answering o) (a := a)) (fun o _ => hfound o) hstatus
  have hbyte (hcount : count > i) : src i = b (a.idx + i) := by
    have hc : count > i ∧ s.status ≠ 1 := ⟨hcount, hstatus⟩
    rw [if_pos hc] at hwrites
    have hlast := hwrites (List.cons_ne_nil _ _) (a.idx + i) (Nat.le_refl _)
    rwa [patched_single (Nat.le_refl _), if_pos rfl] at hlast
  exact ⟨hbyte, s', heffect.sameBut (fun hc => hbyte hc.1) hbuf, hstatus', hrest⟩

/-- The loop from an index on, and the last copy. -/
abbrev fromIndex (t : RtnTarget) (a : RtnArgs) (save : Bytes) (itsLen n i : ℕ) (v : RtnLocals) :
    Solve Unit :=
  transformLoop t a save itsLen n i v >>= fun j => writeBuf t.toTarget a.idx j save

/-- No test at the index leaves a trace, and the buffer is the same behind them. -/
theorem EndsWith.keeps {n : ℕ} (hsmall : itsLen < 2 ^ 16) (hroom : a.idx + itsLen ≤ t.len)
    (hi : i < itsLen) (hv : v.Counted t a b i) (hbuf : SameBut a.idx i s.buf b)
    (hstatus : s.status ≠ 1)
    (h : EndsWith b (fun o => fromIndex (t.answering o) a save itsLen (n + 1) i v) s) :
    a.Keeps t b itsLen i save ∧ ∃ v' s', v'.Counted t a b (i + 1) ∧ SameBut a.idx i s'.buf b ∧
      s'.status ≠ 1 ∧ EndsWith b (fun o => afterTests (t.answering o) a save itsLen n i v') s' := by
  have hscan := hv.scan (hbuf (a.idx + i) (by omega))
  have hbody : EndsWith b (fun o => tryAlways (t.answering o) a save itsLen i (v.scan t a s.buf i)
      >>= fun v => tryArith (t.answering o) a i v >>= fun _ => tryUpper (t.answering o) a i v
      >>= fun _ => tryLower (t.answering o) a i v
      >>= fun _ => afterTests (t.answering o) a save itsLen n i v) s := by
    intro o ho
    have hend : Ensures (fun e => e = Stop.stopped)
        (fromIndex (t.answering o) a save itsLen (n + 1) i v) s fun _ s' => s'.buf = b := h o ho
    rw [fromIndex, transformLoop_succ] at hend
    exact (ensures_iff_of_eq (get_bind_apply _ s)).mp hend
  have htests (o : Outcomes) : Tests (t.toTarget.answering o) a.idx i (a.writes t b itsLen i save)
      (tryAlways (t.answering o) a save itsLen i (v.scan t a s.buf i)) s
      fun v' => v'.Counted t a b (i + 1) :=
    (tests_tryAlways (hscan.answering o) hsmall hi).mono fun _ hv' => hv'.answering t.outcome
  have hskip {o : Outcomes} {s : Solver} {count : ℕ} {src : Bytes} {f : Unit → Solve Unit}
      (hfound : s.status = 1) (hend : Ensures (fun e => e = Stop.stopped)
        (tryUnlessFound (t.answering o) a i count src >>= f) s fun _ s' => s'.buf = b) :=
    (ensures_bind_iff (tryUnlessFound_of_found hfound)).mp hend
  have hleave (o : Outcomes) (v : RtnLocals) (s : Solver) (hfound : s.status = 1)
      (hend : Ensures (fun e => e = Stop.stopped) (afterTests (t.answering o) a save itsLen n i v) s
        fun _ s' => s'.buf = b) : ∀ k, a.idx + i ≤ k → s.buf k = b k :=
    same_of_found (t := t.answering o) (Nat.le_trans (by omega) hroom) hfound hend
  obtain ⟨halways, v₁, s₁, heffect, hv₁, hstatus₁, h₁⟩ := hbody.tests
    (causal_tryAlways t a save itsLen i _) htests
    (fun o v s hfound hend => hleave o v s hfound (hskip hfound (hskip hfound (hskip hfound hend))))
    hstatus
  have hpatched (k : ℕ) (hk : a.idx + i ≤ k) :
      patched a.idx (a.writes t b itsLen i save) b k = b k := by
    by_cases hws : a.writes t b itsLen i save = []
    · rw [hws]
      rfl
    · rw [← hbuf.patched _ k (.inr hk)]
      exact halways hws k hk
  have hbuf₁ := heffect.sameBut_of_patched hpatched hbuf
  obtain ⟨hadds, s₂, hbuf₂, hstatus₂, h₂⟩ := h₁.unlessFound
    (fun o s hfound hend => hleave o v₁ s hfound (hskip hfound (hskip hfound hend))) hstatus₁ hbuf₁
  obtain ⟨huppers, s₃, hbuf₃, hstatus₃, h₃⟩ := h₂.unlessFound
    (fun o s hfound hend => hleave o v₁ s hfound (hskip hfound hend)) hstatus₂ hbuf₂
  obtain ⟨hlowers, s₄, hbuf₄, hstatus₄, h₄⟩ := h₃.unlessFound
    (fun o s hfound hend => hleave o v₁ s hfound hend) hstatus₃ hbuf₃
  refine ⟨⟨heffect.fits, hpatched, fun hall => ?_, fun hall => huppers (hv₁.upper_iff.mpr hall),
    fun hall => hlowers (hv₁.lower_iff.mpr hall)⟩, v₁, s₄, hv₁, hbuf₄, hstatus₄, h₄⟩
  rw [← hv₁.arithVal i (Nat.lt_succ_self i)]
  exact hadds (hv₁.arith_iff.mpr hall)

/-- No test at an index of the loop leaves a trace. -/
theorem EndsWith.keeps_from {n : ℕ} (hsmall : itsLen < 2 ^ 16) (hroom : a.idx + itsLen ≤ t.len)
    (hrepl : ∀ k, k < itsLen → a.changedVal k = a.repl k) (hn : i + n = itsLen)
    (hv : v.Counted t a b i) (hbuf : SameBut a.idx i s.buf b) (hstatus : s.status ≠ 1)
    (h : EndsWith b (fun o => fromIndex (t.answering o) a save itsLen n i v) s) {j : ℕ}
    (hij : i ≤ j) (hj : j < itsLen) : a.Keeps t b itsLen j save := by
  induction n generalizing i v s with
  | zero => omega
  | succ n ih =>
    obtain ⟨hkeeps, v', s', hv', hbuf', hstatus', h'⟩ :=
      h.keeps hsmall hroom (by omega) hv hbuf hstatus
    rcases Nat.eq_or_lt_of_le hij with rfl | hlt
    · exact hkeeps
    · by_cases hidle : v'.idle t i = true
      · have hidles : a.writes t b itsLen j save = [] ∧ ¬ a.Adds t b j ∧ ¬ a.Uppers t b j ∧
            ¬ a.Lowers t b j := hv'.none_of_idle hidle hlt
        obtain ⟨hnone, hadds, huppers, hlowers⟩ := hidles
        refine ⟨?_, ?_, fun hall => absurd hall hadds, fun hall => absurd hall huppers,
          fun hall => absurd hall hlowers⟩
        · rw [hnone]
          exact fun w hw => absurd hw List.not_mem_nil
        · rw [hnone]
          exact fun _ _ => rfl
      · refine ih (by omega) hv' (hbuf'.mono (Nat.le_succ i)) hstatus' (fun o ho => ?_) hlt
        refine (ensures_iff_of_eq ?_).mp (h' o ho)
        exact afterTests_of_unfound hstatus' (eq_false_of_ne_true hidle) (hrepl i (by omega)).symm

end Needed

/-! ### The whole function -/

theorem RtnArgs.lmax_lt (a : RtnArgs) (hshape : ℕ) : a.lmax hshape < 2 ^ 16 := by
  have hmax (x y : Byte) : max x.toNat y.toNat < 2 ^ 16 := by
    have := x.isLt
    have := y.isLt
    omega
  have hite {c : Prop} [Decidable c] {x y : ℕ} (hx : x < 2 ^ 16) (hy : y < 2 ^ 16) :
      (if c then x else y) < 2 ^ 16 := by
    split
    · exact hx
    · exact hy
  by_cases hentry : a.entry = 0
  · simp only [lmax, if_pos hentry]
    exact hite (by omega) (hmax _ _)
  · simp only [lmax, if_neg hentry]
    exact hite (by omega) (hmax _ _)

theorem RtnArgs.itsLen_lt (t : Target) (a : RtnArgs) (hshape : ℕ) :
    a.itsLen t hshape < 2 ^ 16 := by
  have := a.lmax_lt hshape
  rw [itsLen]
  omega

theorem RtnArgs.room {t : Target} {a : RtnArgs} {hshape : ℕ} (h : 1 < a.itsLen t hshape) :
    a.idx + a.itsLen t hshape ≤ t.len := by
  rw [itsLen] at h ⊢
  omega

theorem RtnArgs.maxTo_le (a : RtnArgs) : a.maxTo ≤ a.idx := by
  rw [maxTo]
  split <;> omega

theorem RtnArgs.firstPre_le (a : RtnArgs) : a.firstPre ≤ a.maxTo + 1 := by
  rw [firstPre]
  split <;> omega

/-- What is saved first: the operand's place in the buffer, and some bytes before it. -/
def RtnArgs.firstSave (t : RtnTarget) (a : RtnArgs) (s : Solver) : Bytes :=
  copyBlock t.save 0 s.buf (a.idx - a.maxTo) (a.itsLen t.toTarget s.hshape + a.maxTo)

/-- What `save` holds in the stage of the transformations. -/
def RtnArgs.stageSave (t : RtnTarget) (a : RtnArgs) (s : Solver) : Bytes :=
  copyBlock (a.firstSave t s) 0 s.buf a.idx (a.itsLen t.toTarget s.hshape)

/-- The function gets to the transformations unless a test before has been a find. -/
structure RtnArgs.GetsToTransforms (t : RtnTarget) (a : RtnArgs) (s : Solver) : Prop where
  long : 1 < a.itsLen t.toTarget s.hshape
  unchanged : ∀ k, k < a.itsLen t.toTarget s.hshape → a.changedVal k = a.repl k
  unfound : s.status ≠ 1
  enabled : t.enableTransform = true
  level : a.lvl &&& lvl3 ≠ 0

/-- No test of a transformation leaves a trace. -/
def RtnArgs.Traceless (t : RtnTarget) (a : RtnArgs) (s : Solver) : Prop :=
  a.GetsToTransforms t s → ∀ i, i < a.itsLen t.toTarget s.hshape →
    a.Keeps t s.buf (a.itsLen t.toTarget s.hshape) i (a.stageSave t s)

section Function

variable {t : RtnTarget} {a : RtnArgs} {s : Solver}

/-- The condition does not look at the outcomes. -/
theorem RtnArgs.Traceless.answering (h : a.Traceless t s) (o : Outcomes) :
    a.Traceless (t.answering o) s := by
  intro hgets i hi
  have hkeeps := h ⟨hgets.long, hgets.unchanged, hgets.unfound, hgets.enabled, hgets.level⟩ i hi
  exact ⟨hkeeps.fits, hkeeps.always, hkeeps.adds, hkeeps.uppers, hkeeps.lowers⟩

theorem firstSave_eq (k : ℕ) (hk : k < a.itsLen t.toTarget s.hshape + a.maxTo) :
    a.firstSave t s k = s.buf (a.idx - a.maxTo + k) := by
  rw [RtnArgs.firstSave, copyBlock, if_pos (by omega), Nat.sub_zero]

/-- The tests with the operand as it is, and then the transformations. -/
theorem rtnExtendEncoding_apply (hlong : 1 < a.itsLen t.toTarget s.hshape)
    (hsame : a.lvl &&& lvl3 ≠ 0 →
      ∀ k, k < a.itsLen t.toTarget s.hshape → a.changedVal k = a.repl k) :
    rtnExtendEncoding t a s = (directTurns t.toTarget a (a.firstSave t s) a.maxTo
      (a.itsLen t.toTarget s.hshape) (a.maxTo + 1 - a.firstPre) a.firstPre >>= fun _ =>
        get >>= fun s' => onlyIf (s'.status ≠ 1 ∧ t.enableTransform ∧ a.lvl &&& lvl3 ≠ 0)
          (transforms t a (a.firstSave t s) (a.itsLen t.toTarget s.hshape))) s := by
  rw [rtnExtendEncoding, get_bind_apply, if_neg (by omega),
    if_neg fun hdiff => hdiff.2 (hsame hdiff.1)]
  rfl

theorem directTurns_of_found {t : Target} {save : Bytes} {maxTo itsLen n pre : ℕ}
    (hfound : s.status = 1) : directTurns t a save maxTo itsLen n pre s = (.ok (), s) := by
  induction n generalizing pre with
  | zero => rfl
  | succ n ih =>
    have hturn : directTurn t a save maxTo itsLen pre s = (.ok (), s) := by
      rw [directTurn, get_bind_apply]
      exact onlyIf_of_not (fun hc => hc.1 hfound) _ s
    rw [directTurns, bind_of_ok hturn, ih]

theorem ensures_directTurns_first (hlong : 1 < a.itsLen t.toTarget s.hshape) :
    Ensures (StopsBy t.toTarget) (directTurns t.toTarget a (a.firstSave t s) a.maxTo
      (a.itsLen t.toTarget s.hshape) (a.maxTo + 1 - a.firstPre) a.firstPre) s fun _ s' =>
        s'.buf = s.buf ∧ KeepsUnfound t.toTarget s s' := by
  have hpre := a.firstPre_le
  exact ensures_directTurns a.maxTo_le (by omega) (RtnArgs.room hlong) firstSave_eq

/-- The condition is enough. -/
theorem ensures_rtnExtendEncoding (h : a.Traceless t s) :
    Ensures (StopsBy t.toTarget) (rtnExtendEncoding t a) s fun _ s' => s'.buf = s.buf := by
  by_cases hlong : 1 < a.itsLen t.toTarget s.hshape
  · by_cases hsame : a.lvl &&& lvl3 ≠ 0 →
        ∀ k, k < a.itsLen t.toTarget s.hshape → a.changedVal k = a.repl k
    · refine (ensures_iff_of_eq (rtnExtendEncoding_apply hlong hsame)).mpr ?_
      by_cases hfound : s.status = 1
      · refine (ensures_bind_iff (directTurns_of_found hfound)).mpr (Ensures.get_bind ?_)
        exact .of_returns (onlyIf_of_not (fun hc => hc.1 hfound) _ s) rfl
      · refine Ensures.bind (ensures_directTurns_first hlong) ?_
        rintro - s₁ ⟨hbuf, -⟩
        refine Ensures.get_bind (Ensures.onlyIf (fun hc => ?_) fun _ => hbuf)
        have hkeeps := h ⟨hlong, hsame hc.2.2, hfound, hc.2.1, hc.2.2⟩
        rw [RtnArgs.stageSave, ← hbuf] at hkeeps
        have hend := ensures_transforms (RtnArgs.itsLen_lt _ _ _) (RtnArgs.room hlong) hkeeps
        exact hend.mono fun _ s' hs' => hs'.trans hbuf
    · refine .of_returns (a := ()) ?_ rfl
      rw [rtnExtendEncoding, get_bind_apply, if_neg (by omega),
        if_pos (Classical.not_imp.mp hsame)]
      rfl
  · refine .of_returns (a := ()) ?_ rfl
    rw [rtnExtendEncoding, get_bind_apply, if_pos (by omega)]
    rfl

/-- The condition is needed. -/
theorem traceless_of_restored
    (h : ∀ o, Ensures (fun e => e = Stop.stopped) (rtnExtendEncoding (t.answering o) a) s
      fun _ s' => s'.buf = s.buf) : a.Traceless t s := by
  intro hgets i hi
  have hall : EndsWith s.buf (fun o => directTurns (t.toTarget.answering o) a (a.firstSave t s)
      a.maxTo (a.itsLen t.toTarget s.hshape) (a.maxTo + 1 - a.firstPre) a.firstPre >>= fun _ =>
        get >>= fun s' => onlyIf (s'.status ≠ 1 ∧ t.enableTransform ∧ a.lvl &&& lvl3 ≠ 0)
          (transforms (t.answering o) a (a.firstSave t s) (a.itsLen t.toTarget s.hshape))) s :=
    fun o _ => (ensures_iff_of_eq (rtnExtendEncoding_apply (t := t.answering o) hgets.long
      fun _ => hgets.unchanged)).mp (h o)
  have hdirect := ensures_directTurns_first (t := t.answering calm) (s := s) hgets.long
  rcases hrun : directTurns (t.toTarget.answering calm) a (a.firstSave t s) a.maxTo
      (a.itsLen t.toTarget s.hshape) (a.maxTo + 1 - a.firstPre) a.firstPre s with ⟨e | u, s₁⟩
  · obtain ⟨-, runs, hstop⟩ := hdirect.stops hrun
    cases hstop
  · obtain ⟨hbuf, hunfound⟩ := hdirect.returns hrun
    have hstatus : s₁.status ≠ 1 := hunfound (fun _ => by simp [calm]) hgets.unfound
    have hrest := hall.rest (causal_directTurns t.toTarget a _ _ _ _ _) hrun
    refine EndsWith.keeps_from (s := s₁) (RtnArgs.itsLen_lt _ _ _) (RtnArgs.room hgets.long)
      hgets.unchanged (Nat.zero_add _) (RtnLocals.counted_start t.tmp) (fun k _ => by rw [hbuf])
      hstatus (fun o ho => ?_) (Nat.zero_le i) hi
    have hstage := (ensures_iff_of_eq (get_bind_apply _ s₁)).mp (hrest o ho)
    rw [onlyIf, if_pos ⟨hstatus, hgets.enabled, hgets.level⟩] at hstage
    have hloop := (ensures_iff_of_eq (get_bind_apply _ s₁)).mp hstage
    rw [hbuf] at hloop
    exact hloop

/-- Without the extreme transformations there are four tests, of one byte more at each index. -/
theorem RtnArgs.keeps_iff_of_plain {b save : Bytes} {itsLen i : ℕ} (hplain : t.enableXtreme = false)
    (hroom : a.idx + (i + 1) ≤ t.len) :
    a.Keeps t b itsLen i save ↔ (a.Xors t b i → a.repl i = a.pattern i) ∧
      (a.Adds t b i → a.repl i = a.pattern i) ∧
      (a.Uppers t b i → a.repl i ||| 0x20 = b (a.idx + i)) ∧
      (a.Lowers t b i → a.repl i &&& 0x5f = b (a.idx + i)) := by
  have hfromB64 : ¬ a.FromB64 t i := fun h => by
    simpa [RtnArgs.fromB64At, hplain] using h.2 i (Nat.le_refl i) h.1
  have htoB64 : ¬ a.ToB64 t i := fun h => by
    simpa [RtnArgs.toB64At, hplain] using h.2 i (Nat.le_refl i) h.1
  have htoHex : ¬ a.ToHex t i := fun h => by
    simpa [RtnArgs.toHexAt, hplain] using h i (Nat.le_refl i)
  have hfromHex : ¬ a.FromHex t i := fun h => by
    simpa [hplain] using h.1
  have hwrites : a.writes t b itsLen i save = if a.Xors t b i then
      [(i + 1, fun j => a.repl j ^^^ (a.pattern j ^^^ b (a.idx + j)))] else [] := by
    rw [RtnArgs.writes, if_neg hfromB64, if_neg htoB64, if_neg htoHex, if_neg hfromHex]
    rfl
  have hxor (x p y : Byte) : x ^^^ (p ^^^ y) = y ↔ x = p := by
    have h := BitVec.xor_left_inj (x := x ^^^ p) (y := 0#8) y
    rw [BitVec.zero_xor, BitVec.xor_eq_zero_iff] at h
    rw [← BitVec.xor_assoc]
    exact h
  have hsub (x p y : Byte) : x - (p - y) = y ↔ x = p := by
    constructor
    · intro h
      bv_omega
    · rintro rfl
      bv_omega
  constructor
  · intro h
    refine ⟨fun hall => ?_, fun hall => (hsub _ _ _).mp (h.adds hall), h.uppers, h.lowers⟩
    have halways := h.always
    rw [hwrites, if_pos hall] at halways
    exact (hxor _ _ _).mp ((patched_single_iff _ b).mp halways)
  · rintro ⟨hxors, hadds, huppers, hlowers⟩
    refine ⟨fun w hw => ?_, ?_, fun hall => (hsub _ _ _).mpr (hadds hall), huppers, hlowers⟩
    · rw [hwrites] at hw
      split at hw
      · rw [List.mem_singleton.mp hw]
        exact .inr hroom
      · cases hw
    · rw [hwrites]
      by_cases hall : a.Xors t b i
      · rw [if_pos hall]
        exact (patched_single_iff _ b).mpr ((hxor _ _ _).mpr (hxors hall))
      · rw [if_neg hall]
        exact fun _ _ => rfl

end Function

/-! ### Main result -/

/-- `its_fuzz` of the buffer, with what `write_to_testcase` leaves of it. -/
def itsFuzzBuf (cfg : WriteConfig) (b : OutBufs) (earlier : List Bytes) (t : Target) :
    Solve Unit := do
  itsFuzz t (contents (← get).buf t.len)
  modify fun s => { s with buf := cfg.after b t.len earlier s.buf }

/-- What is not changed by a `post_process` is what the functions go on with. -/
theorem itsFuzzBuf_eq {cfg : WriteConfig} {t : Target} (hkeeps : cfg.KeepsData t.len) (b : OutBufs)
    (earlier : List Bytes) :
    itsFuzzBuf cfg b earlier t = (do itsFuzz t (contents (← get).buf t.len)) := by
  have hsame : (fun s : Solver => { s with buf := cfg.after b t.len earlier s.buf }) = id := by
    funext s
    rw [cfg.after_eq hkeeps]
    rfl
  funext s
  rw [itsFuzzBuf, get_bind_apply, get_bind_apply, hsame]
  rcases hrun : itsFuzz t (contents s.buf t.len) s with ⟨e | u, s'⟩
  · exact bind_of_error hrun
  · exact bind_of_ok hrun

/-- Whatever the executed tests do, the function leaves the buffer as it was when it returns, and it
stops only because it is asked to, which a write outside of the buffer is not. -/
def Restores (m : Outcomes → Solve Unit) (s : Solver) : Prop :=
  ∀ o, Ensures (fun e => e = Stop.stopped) (m o) s fun _ s' => s'.buf = s.buf

theorem Harmless.restores {m : Outcomes → Solve Unit} (s : Solver)
    (h : ∀ o, Harmless False (m o)) : Restores m s := fun o =>
  ⟨fun hrun => (h o s).returns hrun, fun hrun => ((h o s).stops hrun).elim id fun hf => hf.2.elim⟩

/-- A slot of a call with two operands of two bytes. -/
def twoByteSlot (x y : List Byte) : Bytes := fun k =>
  if k < 32 then x.getD k 0 else if k < 64 then y.getD (k - 32) 0 else 2

/-- The target compares two bytes, after a bitwise exclusive or with 5, with two tabulators. -/
def xoredCall : RtnArgs where
  entry := 0
  o := twoByteSlot [4, 7] [9, 9]
  origO := twoByteSlot [6, 1] [9, 9]
  idx := 0
  taintLen := 2
  lvl := lvl3

/-- The first operand has nothing to do with the input. -/
def unrelatedCall : RtnArgs := { xoredCall with origO := twoByteSlot [7, 7] [9, 9] }

def twoByteTarget : RtnTarget where
  toTarget := quietTarget 2 fun k => if k = 0 then 3 else 4
  enableXtreme := false
  save _ := 0
  tmp _ := 0

def twoByteSolver : Solver := .fresh (fun k => if k = 0 then 1 else 2) 2

/-- A mutator that gives back what it is given. -/
def idleMutator : WriteConfig where
  customMutators := [some fun _ buf len => ⟨buf, .place, len⟩]
  keepOriginal := false
  minLength := 1
  maxLength := 2

end AflPlusPlus.Cmplog
