import AflPlusPlus.Cmplog.Splitting

/-!
# The taints of a colorization

The accepted ranges are taken up in the order of their positions, each as the continuation of the
newest taint or as a new one behind a gap. The taints are then the maximal runs of positions at
which the final buffer differs from the input.
-/

namespace AflPlusPlus.Cmplog
open Lib Lib.Stopping Mutation

/-! ### New values -/

theorem randomValue_ne (c : Byte) : Returns (randomValue c) (· ≠ c) := by
  rw [randomValue, map_eq_pure_bind]
  refine (randBelowOther_lt (by decide) _).bind fun x ⟨hx, hne⟩ => Returns.pure fun heq => ?_
  rw [← heq, BitVec.toNat_ofNat] at hne
  omega

theorem typeOther_ne (c : Byte) : typeOther c ≠ c := by
  have hall : ∀ n < 256, typeOther (BitVec.ofNat 8 n) ≠ BitVec.ofNat 8 n := by decide +kernel
  have hc := hall c.toNat c.isLt
  rwa [BitVec.ofNat_toNat, BitVec.setWidth_eq] at hc

theorem typeValue_ne (c : Byte) : Returns (typeValue c) (· ≠ c) := by
  rw [typeValue]
  split
  · rename_i lo hi hclass
    have hin := List.find?_some hclass
    simp only [Bool.and_eq_true, decide_eq_true_eq, BitVec.le_def] at hin
    refine (randBelowOther_lt (by omega) _).bind fun x ⟨hx, hne⟩ => Returns.pure fun heq => hne ?_
    have hhi := hi.isLt
    rw [← heq, BitVec.toNat_ofNat]
    omega
  · exact Returns.pure (typeOther_ne c)

theorem replaceBytes_ne {value : Byte → Mutation.Rand Byte}
    (hvalue : ∀ c, Returns (value c) (· ≠ c))
    (n : ℕ) (buf : Bytes) :
    Returns (replaceBytes value n buf) fun changed =>
      (∀ i < n, changed i ≠ buf i) ∧ ∀ i, n ≤ i → changed i = buf i := by
  induction n with
  | zero => exact Returns.pure ⟨fun i hi => absurd hi (Nat.not_lt_zero i), fun _ _ => rfl⟩
  | succ n ih =>
    refine ih.bind fun changed ⟨hbefore, hafter⟩ => (hvalue _).bind fun x hx => Returns.pure ?_
    refine ⟨fun i hi => ?_, fun i hi => ?_⟩
    · rw [setByte]
      by_cases hin : i = n
      · rw [if_pos hin, hin, ← hafter n (Nat.le_refl n)]
        exact hx
      · rw [if_neg hin]
        exact hbefore i (by omega)
    · rw [setByte, if_neg (by omega)]
      exact hafter i (by omega)

/-! ### Runs of positions -/

def Tainted.Covers (t : Tainted) (i : ℕ) : Prop := t.pos ≤ i ∧ i < t.pos + t.len

/-- The newest taint comes first, and there is a gap between any two. -/
def Descending (taint : List Tainted) : Prop := taint.Pairwise fun a b => b.pos + b.len < a.pos

/-- What is known while ranges are taken up that cover `area` altogether. -/
structure Merging (area : ℕ → Prop) (taint : List Tainted) (rs : List Range) : Prop where
  inside : ∀ r ∈ rs, r.start ≤ r.last
  states : ∀ r ∈ rs, r.ok = 1 ∨ r.ok = 2
  apart : rs.Pairwise Apart
  area : ∀ i, (∃ r ∈ rs, r.Covers i) ↔ area i
  union : ∀ i, (∃ x ∈ taint, x.Covers i) ↔ ∃ r ∈ rs, r.ok = 2 ∧ r.Covers i
  nonempty : ∀ x ∈ taint, 0 < x.len
  descending : Descending taint
  ahead : ∀ r ∈ rs, r.ok = 1 → ∀ x ∈ taint, x.pos + x.len ≤ r.start

namespace Merging

variable {area : ℕ → Prop} {taint : List Tainted} {r : Range} {rs rs' : List Range}

theorem perm (h : Merging area taint rs) (hperm : rs.Perm rs') : Merging area taint rs' where
  inside r hr := h.inside r (hperm.mem_iff.mpr hr)
  states r hr := h.states r (hperm.mem_iff.mpr hr)
  apart := (hperm.pairwise_iff fun hab => hab.symm).mp h.apart
  area i := by
    rw [← h.area i]
    exact exists_congr fun r => and_congr_left fun _ => hperm.mem_iff.symm
  union i := by
    rw [h.union i]
    exact exists_congr fun r => and_congr_left fun _ => hperm.mem_iff
  nonempty := h.nonempty
  descending := h.descending
  ahead r hr := h.ahead r (hperm.mem_iff.mpr hr)

/-- A list of taints that covers one more range, and ends before all others. -/
theorem take (h : Merging area taint (r :: rs)) {taint' : List Tainted}
    (hcover : ∀ i, (∃ x ∈ taint', x.Covers i) ↔ (∃ x ∈ taint, x.Covers i) ∨ r.Covers i)
    (hnonempty : ∀ x ∈ taint', 0 < x.len) (hdescending : Descending taint')
    (hahead : ∀ r' ∈ rs, r'.ok = 1 → ∀ x ∈ taint', x.pos + x.len ≤ r'.start) :
    Merging area taint' ({ r with ok := 2 } :: rs) := by
  have hapart := List.pairwise_cons.mp h.apart
  refine ⟨fun r' hr' => ?_, fun r' hr' => ?_, List.pairwise_cons.mpr ⟨hapart.1, hapart.2⟩,
    fun i => ?_, fun i => ?_, hnonempty, hdescending, fun r' hr' hok => ?_⟩
  · rcases List.mem_cons.mp hr' with rfl | hr'
    · exact h.inside r List.mem_cons_self
    · exact h.inside r' (List.mem_cons_of_mem r hr')
  · rcases List.mem_cons.mp hr' with rfl | hr'
    · exact Or.inr rfl
    · exact h.states r' (List.mem_cons_of_mem r hr')
  · rw [← h.area i]
    simp only [List.mem_cons, exists_eq_or_imp]
    rfl
  · rw [hcover, h.union i]
    simp only [List.mem_cons, exists_eq_or_imp]
    constructor
    · rintro ((⟨-, hi⟩ | hi) | hi)
      · exact Or.inl ⟨trivial, hi⟩
      · exact Or.inr hi
      · exact Or.inl ⟨trivial, hi⟩
    · rintro (⟨-, hi⟩ | hi)
      · exact Or.inr hi
      · exact Or.inl (Or.inr hi)
  · rcases List.mem_cons.mp hr' with rfl | hr'
    · exact absurd hok (show ¬ 2 = 1 by decide)
    · exact hahead r' hr' hok

/-- The ranges that are still to come lie behind the first of them. -/
theorem behind (h : Merging area taint (r :: rs)) {r' : Range} (hr' : r' ∈ rs)
    (hle : r.start ≤ r'.start) : 1 + r.last ≤ r'.start := by
  have hapart := (List.pairwise_cons.mp h.apart).1 r' hr'
  have hinside := h.inside r' (List.mem_cons_of_mem r hr')
  have hinside' := h.inside r List.mem_cons_self
  rw [Apart] at hapart
  omega

/-- The newest taint becomes longer. -/
theorem adjacent (h : Merging area taint (r :: rs))
    (hends : endsAt taint r.start = true) :
    Merging area (lengthen (1 + r.last - r.start) taint) ({ r with ok := 2 } :: rs) := by
  have hle := h.inside r List.mem_cons_self
  cases taint with
  | nil => exact absurd hends (by simp [endsAt])
  | cons x taint =>
    have hend : x.pos + x.len = r.start := by simpa [endsAt] using hends
    obtain ⟨hgap, hrest⟩ := List.pairwise_cons.mp h.descending
    refine h.take (fun i => ?_) (fun y hy => ?_) (List.pairwise_cons.mpr ⟨hgap, hrest⟩)
      fun r' hr' hok y hy => ?_
    · have hlonger : Tainted.Covers { x with len := x.len + (1 + r.last - r.start) } i ↔
          x.Covers i ∨ r.Covers i := by
        simp only [Tainted.Covers, Range.Covers]
        omega
      simp only [lengthen, List.mem_cons, exists_eq_or_imp, hlonger]
      exact or_right_comm
    · rcases List.mem_cons.mp hy with rfl | hy
      · exact Nat.lt_of_lt_of_le (h.nonempty x List.mem_cons_self) (Nat.le_add_right _ _)
      · exact h.nonempty y (List.mem_cons_of_mem x hy)
    · have hx := h.ahead r' (List.mem_cons_of_mem r hr') hok x List.mem_cons_self
      have hbehind := h.behind hr' (by omega)
      rcases List.mem_cons.mp hy with rfl | hy
      · simp only
        omega
      · have hold := hgap y hy
        omega

/-- A new taint starts behind a gap. -/
theorem first (h : Merging area taint (r :: rs)) (hr : r.ok = 1)
    (hends : endsAt taint r.start = false)
    (hfirst : ∀ r' ∈ rs, r'.ok = 1 → r.start ≤ r'.start) :
    Merging area (⟨r.start, 1 + r.last - r.start⟩ :: taint) ({ r with ok := 2 } :: rs) := by
  have hle := h.inside r List.mem_cons_self
  have hgap : ∀ x ∈ taint, x.pos + x.len < r.start := by
    cases taint with
    | nil => exact fun x hx => absurd hx List.not_mem_nil
    | cons x taint =>
      have hx := h.ahead r List.mem_cons_self hr x List.mem_cons_self
      have hend : x.pos + x.len ≠ r.start := by simpa [endsAt] using hends
      intro y hy
      rcases List.mem_cons.mp hy with rfl | hy
      · omega
      · have hold := (List.pairwise_cons.mp h.descending).1 y hy
        omega
  refine h.take (fun i => ?_) (fun y hy => ?_) (List.pairwise_cons.mpr ⟨hgap, h.descending⟩)
    fun r' hr' hok y hy => ?_
  · have hsame : Tainted.Covers ⟨r.start, 1 + r.last - r.start⟩ i ↔ r.Covers i := by
      simp only [Tainted.Covers, Range.Covers]
      omega
    simp only [List.mem_cons, exists_eq_or_imp, hsame]
    exact or_comm
  · rcases List.mem_cons.mp hy with rfl | hy
    · simp only
      omega
    · exact h.nonempty y hy
  · have hbehind := h.behind hr' (hfirst r' hr' hok)
    rcases List.mem_cons.mp hy with rfl | hy
    · simp only
      omega
    · exact h.ahead r' (List.mem_cons_of_mem r hr') hok y hy

end Merging

/-! ### The traversals -/

/-- What a traversal of the rest of the list finds when `best`, at `pos`, is the first so far. -/
def ScanFinds (taint : List Tainted) (best : Option (ℕ × Range)) (pos : ℕ)
    (l : List (ℕ × Range)) : Scan → Prop
  | .adjacent a rng => (a, rng) ∈ l ∧ rng.ok = 1 ∧ endsAt taint rng.start = true
  | .first a rng => (best = some (a, rng) ∨ (a, rng) ∈ l ∧ rng.ok = 1 ∧
      endsAt taint rng.start = false) ∧ rng.start ≤ pos ∧
      ∀ x ∈ l, x.2.ok = 1 → rng.start ≤ x.2.start
  | .done => best = none ∧ ∀ x ∈ l, x.2.ok = 1 → pos ≤ x.2.start

theorem scanRanges_finds (taint : List Tainted) {best : Option (ℕ × Range)} {pos : ℕ}
    (hbest : ∀ x, best = some x → pos = x.2.start) (l : List (ℕ × Range)) :
    ScanFinds taint best pos l (scanRanges taint best pos l) := by
  induction l generalizing best pos with
  | nil =>
    cases best with
    | none => exact ⟨rfl, fun x hx => absurd hx List.not_mem_nil⟩
    | some x =>
      exact ⟨Or.inl rfl, Nat.le_of_eq (hbest x rfl).symm, fun x hx => absurd hx List.not_mem_nil⟩
  | cons x l ih =>
    have hscan : scanRanges taint best pos (x :: l) =
        if x.2.ok = 1 ∧ x.2.start < pos then
          if endsAt taint x.2.start then .adjacent x.1 x.2
          else scanRanges taint (some x) x.2.start l
        else scanRanges taint best pos l := by
      cases best <;> rfl
    rw [hscan]
    by_cases hx : x.2.ok = 1 ∧ x.2.start < pos
    · rw [if_pos hx]
      by_cases hends : endsAt taint x.2.start = true
      · rw [if_pos hends]
        exact ⟨List.mem_cons_self, hx.1, hends⟩
      · rw [if_neg hends]
        have hrest : ScanFinds taint (some x) x.2.start l (scanRanges taint (some x) x.2.start l) :=
          ih fun y hy => by rw [Option.some.inj hy]
        rcases hfound : scanRanges taint (some x) x.2.start l with ⟨a, rng⟩ | ⟨a, rng⟩ | -
        all_goals rw [hfound] at hrest
        · exact ⟨List.mem_cons_of_mem x hrest.1, hrest.2⟩
        · obtain ⟨hfrom, hle, hfirst⟩ := hrest
          refine ⟨Or.inr ?_, by omega, fun y hy hok => ?_⟩
          · rcases hfrom with hfrom | ⟨hmem, hok⟩
            · obtain rfl := Option.some.inj hfrom
              exact ⟨List.mem_cons_self, hx.1, by simpa using hends⟩
            · exact ⟨List.mem_cons_of_mem x hmem, hok⟩
          · rcases List.mem_cons.mp hy with rfl | hy
            · exact hle
            · exact hfirst y hy hok
        · exact absurd hrest.1 (by simp)
    · rw [if_neg hx]
      have hrest := ih hbest
      rcases hfound : scanRanges taint best pos l with ⟨a, rng⟩ | ⟨a, rng⟩ | -
      all_goals rw [hfound] at hrest
      · exact ⟨List.mem_cons_of_mem x hrest.1, hrest.2⟩
      · obtain ⟨hfrom, hle, hfirst⟩ := hrest
        refine ⟨hfrom.imp_right fun h => ⟨List.mem_cons_of_mem x h.1, h.2⟩, hle,
          fun y hy hok => ?_⟩
        rcases List.mem_cons.mp hy with rfl | hy
        · omega
        · exact hfirst y hy hok
      · refine ⟨hrest.1, fun y hy hok => ?_⟩
        rcases List.mem_cons.mp hy with rfl | hy
        · omega
        · exact hrest.2 y hy hok

/-- The number of accepted ranges that are not yet part of a taint. -/
def toMerge (rs : List Range) : ℕ := rs.countP fun r => r.ok = 1

theorem mergeRanges_ensures {area : ℕ → Prop} {fuel : ℕ} {taint : List Tainted} {positions : ℕ}
    {s : Coloring} {l : List (ℕ × Range)} (hheld : Held s l)
    (h : Merging area taint (l.map Prod.snd)) (hsmall : ∀ i, area i → i < 2 ^ 32 - 1)
    (hfuel : toMerge (l.map Prod.snd) < fuel) :
    Ensures Aborts (mergeRanges fuel taint positions) s fun result s' =>
      SameRun s s' ∧ ∃ l', Held s' l' ∧ Merging area result.1 (l'.map Prod.snd) ∧
        ∀ x ∈ l', x.2.ok = 2 := by
  induction fuel generalizing taint positions s l with
  | zero => exact absurd hfuel (Nat.not_lt_zero _)
  | succ fuel ih =>
    have hfinds : ScanFinds taint none (2 ^ 32 - 1) l (scanRanges taint none (2 ^ 32 - 1) l) :=
      scanRanges_finds taint (fun x hx => absurd hx (by simp)) l
    have hstart : ∀ r ∈ l.map Prod.snd, r.start < 2 ^ 32 - 1 := fun r hr =>
      hsmall _ ((h.area _).mp ⟨r, hr, Nat.le_refl _, h.inside r hr⟩)
    -- taking up the range at `x`
    have htake : ∀ {a : ℕ} {rng : Range} {l₁ l₂ : List (ℕ × Range)} {taint' : List Tainted},
        l = l₁ ++ (a, rng) :: l₂ → rng.ok = 1 →
        Merging area taint' ({ rng with ok := 2 } :: (l₁ ++ l₂).map Prod.snd) →
        Ensures Aborts (markRange a 2 >>= fun _ =>
          mergeRanges fuel taint' (positions + (1 + rng.last - rng.start))) s fun result s' =>
          SameRun s s' ∧ ∃ l', Held s' l' ∧ Merging area result.1 (l'.map Prod.snd) ∧
            ∀ x ∈ l', x.2.ok = 2 := by
      intro a rng l₁ l₂ taint' hl hok hmerging
      subst hl
      refine (markRange_ensures hheld 2).bind fun _ s₁ ⟨hheld₁, hsame₁⟩ => ?_
      have hperm := map_middle_perm l₁ l₂ (a, { rng with ok := 2 })
      have hless : toMerge ((l₁ ++ (a, { rng with ok := 2 }) :: l₂).map Prod.snd) < fuel := by
        have hbefore := (map_middle_perm l₁ l₂ (a, rng)).countP_eq fun r => r.ok = 1
        have hafter := hperm.countP_eq fun r => r.ok = 1
        rw [toMerge, hbefore, List.countP_cons_of_pos (by simpa using hok)] at hfuel
        rw [toMerge, hafter, List.countP_cons_of_neg (by simp)]
        omega
      exact (ih hheld₁ (hmerging.perm hperm.symm) hless).mono fun result s₂ ⟨hsame₂, hrest⟩ =>
        ⟨hsame₁.trans hsame₂, hrest⟩
    refine (visitRanges_ensures hheld).bind fun visited s₁ ⟨hvisited, hs₁⟩ => ?_
    subst hvisited hs₁
    rcases hfound : scanRanges taint none (2 ^ 32 - 1) visited with ⟨a, rng⟩ | ⟨a, rng⟩ | -
    all_goals rw [hfound] at hfinds
    · obtain ⟨hmem, hok, hends⟩ := hfinds
      obtain ⟨l₁, l₂, hl⟩ := List.append_of_mem hmem
      have hperm := map_middle_perm l₁ l₂ (a, rng)
      rw [← hl] at hperm
      exact htake hl hok ((h.perm hperm).adjacent hends)
    · obtain ⟨hnew, -, hfirst⟩ := hfinds
      obtain ⟨hmem, hok, hends⟩ := hnew.resolve_left (by simp)
      obtain ⟨l₁, l₂, hl⟩ := List.append_of_mem hmem
      have hperm := map_middle_perm l₁ l₂ (a, rng)
      rw [← hl] at hperm
      refine htake hl hok ((h.perm hperm).first hok hends fun r hr hrok => ?_)
      obtain ⟨x, hx, rfl⟩ := List.mem_map.mp (hperm.mem_iff.mpr (List.mem_cons_of_mem _ hr))
      exact hfirst x hx hrok
    · refine Ensures.pure ⟨SameRun.refl _, visited, hheld, h, fun x hx => ?_⟩
      have hmem : x.2 ∈ visited.map Prod.snd := List.mem_map_of_mem hx
      rcases h.states x.2 hmem with hok | hok
      · exact absurd (hfinds.2 x hx hok) (by have := hstart x.2 hmem; omega)
      · exact hok

/-! ### Main result -/

/-- What a colorization leaves behind: no range is left to try, the rounds were enough, the final
buffer is accepted unless it is the input, its bytes are the original ones or different ones, and
the taints are the maximal runs of the different ones. -/
structure Colorized (t : Colorizer) (orig : Bytes) (accepts : List Byte → Prop) (s : Coloring)
    (taints : List Tainted) : Prop where
  emptied : ∃ l, Held s l ∧ ∀ x ∈ l, x.2.ok ≠ 0
  rounds : s.stageCur ≤ 2 * t.len ∧ s.runs.length = s.stageCur + 1
  accepted : accepts (contents s.buf t.len) ∨ s.buf = orig
  bytes : ∃ changed : Bytes, (∀ i < t.len, changed i ≠ orig i) ∧
    ∀ i, s.buf i = orig i ∨ i < t.len ∧ s.buf i = changed i
  nonempty : ∀ x ∈ taints, 0 < x.len
  descending : Descending taints
  union : ∀ i, (∃ x ∈ taints, x.Covers i) ↔ i < t.len ∧ s.buf i ≠ orig i

/-- The state before the first round. -/
theorem SplitInv.start {t : Colorizer} (hlen : 1 ≤ t.len) {orig changed : Bytes}
    {accepts : List Byte → Prop} {s : Coloring} {a : ℕ}
    (hheld : Held s [(a, ⟨0, t.len - 1, 0⟩)]) (hbuf : s.buf = orig) (hruns : s.runs.length = 1)
    (hcur : s.stageCur = 0) :
    SplitInv t orig changed accepts s [(a, ⟨0, t.len - 1, 0⟩)] where
  held := hheld
  split := by
    rw [hbuf]
    exact Splitting.whole hlen orig changed
  work := by
    rw [hcur, List.map_singleton, pendingWork_cons, Range.work, if_pos rfl]
    simp only [pendingWork, List.map_nil, List.sum_nil]
    omega
  runs := by rw [hruns, hcur]
  accepted := Or.inr hbuf

/-- The bytes of the accepted ranges are the changed ones. -/
theorem Splitting.changed_of_covers {len : ℕ} {orig changed buf : Bytes} {rs : List Range}
    (h : Splitting len orig changed buf rs) (hok : ∀ r ∈ rs, r.ok ≠ 0) {i : ℕ}
    (hi : ∃ r ∈ rs, r.Covers i) : i < len ∧ buf i = changed i := by
  obtain ⟨r, hr, hcovers⟩ := hi
  have hone := (h.states r hr).resolve_left (hok r hr)
  exact ⟨Nat.lt_of_le_of_lt hcovers.2 (h.inside r hr).2, h.taken r hr hone i hcovers⟩

/-- When all ranges are accepted, the buffer differs from the input in these ranges. -/
theorem Splitting.differs_iff {len : ℕ} {orig changed buf : Bytes} {rs : List Range}
    (h : Splitting len orig changed buf rs) (hok : ∀ r ∈ rs, r.ok ≠ 0)
    (hne : ∀ i < len, changed i ≠ orig i) (i : ℕ) :
    buf i ≠ orig i ↔ ∃ r ∈ rs, r.Covers i := by
  constructor
  · intro hi
    by_contra hout
    exact hi (h.left i fun r hr _ hcovers => hout ⟨r, hr, hcovers⟩)
  · intro hi
    obtain ⟨hlt, htaken⟩ := h.changed_of_covers hok hi
    rw [htaken]
    exact hne i hlt

/-- The accepted ranges before the first taint. -/
theorem Merging.start {len : ℕ} {orig changed buf : Bytes} {rs : List Range}
    (h : Splitting len orig changed buf rs) (hok : ∀ r ∈ rs, r.ok ≠ 0) :
    Merging (fun i => ∃ r ∈ rs, r.Covers i) [] rs where
  inside r hr := (h.inside r hr).1
  states r hr := Or.inl ((h.states r hr).resolve_left (hok r hr))
  apart := h.apart
  area i := Iff.rfl
  union i := by
    constructor
    · rintro ⟨x, hx, -⟩
      exact absurd hx List.not_mem_nil
    · rintro ⟨r, hr, htwo, -⟩
      rcases h.states r hr with hr | hr <;> omega
  nonempty x hx := absurd hx List.not_mem_nil
  descending := List.Pairwise.nil
  ahead r hr _ x hx := absurd hx List.not_mem_nil

/-- Unless they are discarded, the taints are what the caller finds, whose list is empty before. -/
theorem giveTaints_ensures (t : Colorizer) (taint : List Tainted) (positions : ℕ) (s : Coloring) :
    Ensures Aborts (giveTaints t taint positions) s fun written s' =>
      (written ≠ some [] → written.getD [] = taint) ∧
        ∃ n, s' = { s with colorizeSuccess := n } := by
  refine Ensures.ite (fun hnil => Ensures.pure ⟨fun _ => hnil.symm, s.colorizeSuccess, rfl⟩)
    fun _ => Ensures.get_bind (Ensures.ite (fun _ => ?_) fun _ => ?_)
  · exact Ensures.pure ⟨fun hkept => absurd rfl hkept, s.colorizeSuccess, rfl⟩
  · exact Ensures.modify_bind (Ensures.pure ⟨fun _ => rfl, s.colorizeSuccess + 1, rfl⟩)

/-- A colorization is aborted, or it leaves what `Colorized` says if it does not discard its taints:
for every target that accepts a buffer or does not accept it whatever was executed before. For a
length of `2 ^ 31` and more `stage_max` would overflow; an input has at most `MAX_FILE` bytes. -/
theorem colorization_taints (t : Colorizer) (orig : Bytes) (colorizeSuccess : ℕ)
    (accepts : List Byte → Prop) (hlen : 1 ≤ t.len) (hmax : 2 * t.len < 2 ^ 32)
    (hacc : ∀ first, t.run [contents orig t.len] = some first → ∀ history buf report,
      t.run (history ++ [buf]) = some report → (t.rejects first.1 report = false ↔ accepts buf)) :
    Ensures Aborts (colorization t) (.start orig colorizeSuccess) fun written s =>
      written ≠ some [] → Colorized t orig accepts s (written.getD []) := by
  -- the first execution is that of the input itself, and its report decides what is rejected
  have hstart : Held (.start orig colorizeSuccess) [] :=
    ⟨Heap.linked_nil _, fun x hx => absurd hx List.not_mem_nil⟩
  refine (addRange_ensures hstart 0 (t.len - 1)).bind ?_
  rintro _ s₁ ⟨⟨a, hheld₁⟩, hsame₁⟩
  refine (getExecChecksum_ensures t s₁).bind ?_
  rintro first s₂ ⟨hs₂, hfirst⟩
  have hbuf₁ : s₁.buf = orig := hsame₁.buf
  have hruns₁ : s₁.runs = [] := hsame₁.runs
  rw [hruns₁, hbuf₁] at hfirst
  refine Ensures.get_bind ?_
  have hbuf₂ : s₂.buf = orig := by rw [hs₂, hbuf₁]
  dsimp only
  rw [hbuf₂]
  -- every byte of the replacement differs from the input, whatever was drawn
  have hnew : Returns (if t.randomColorization then randomReplace orig t.len
      else typeReplace orig t.len) fun changed =>
      (∀ i < t.len, changed i ≠ orig i) ∧ ∀ i, t.len ≤ i → changed i = orig i :=
    Returns.ite (fun _ => replaceBytes_ne randomValue_ne t.len orig)
      fun _ => replaceBytes_ne typeValue_ne t.len orig
  rcases hdraws : (if t.randomColorization then randomReplace orig t.len
    else typeReplace orig t.len) t.draws with _ | ⟨changed, draws⟩
  · exact Ensures.stop (Or.inr rfl)
  obtain ⟨hne, -⟩ := hnew _ _ _ hdraws
  have hinv₂ : SplitInv t orig changed accepts s₂ [(a, ⟨0, t.len - 1, 0⟩)] := by
    refine SplitInv.start hlen ?_ hbuf₂ ?_ ?_
    · rw [hs₂]
      exact ⟨hheld₁.linked, hheld₁.fresh⟩
    · rw [hs₂, hruns₁]
      rfl
    · rw [hs₂]
      exact hsame₁.stageCur
  -- the number of rounds is enough to halve every range down to single bytes
  have hfuel : 2 * t.len < s₂.stageCur + (stageMax t + 1) := by
    rw [stageMax, Nat.shiftLeft_eq]
    omega
  refine (splitRanges_ensures hmax (fun history buf report hrun =>
    (hacc first hfirst history buf report hrun).mp) hinv₂ hfuel).bind ?_
  rintro _ s₃ ⟨l, hinv₃, hok⟩
  have hok' : ∀ r ∈ l.map Prod.snd, r.ok ≠ 0 := fun r hr => by
    obtain ⟨x, hx, rfl⟩ := List.mem_map.mp hr
    exact hok x hx
  have htaken := fun i => hinv₃.split.changed_of_covers hok' (i := i)
  -- a round of the merge makes one accepted range part of a taint
  have hcount : toMerge (l.map Prod.snd) ≤ s₃.fresh := by
    refine Nat.le_trans List.countP_le_length ?_
    rw [List.length_map]
    exact hinv₃.held.length_le
  refine Ensures.get_bind ((mergeRanges_ensures hinv₃.held (Merging.start hinv₃.split hok')
    (fun i hi => by have := (htaken i hi).1; omega) (Nat.lt_succ_of_le hcount)).bind ?_)
  rintro result s₄ ⟨hsame₄, l', hheld₄, hmerging, hdone⟩
  refine (giveTaints_ensures t result.1 result.2 s₄).mono ?_
  rintro written s₅ ⟨hgiven, n, hs₅⟩ hkept
  rw [hgiven hkept]
  have hbuf₅ : s₅.buf = s₃.buf := by rw [hs₅, ← hsame₄.buf]
  have hdiffers := hinv₃.split.differs_iff hok' hne
  refine ⟨⟨l', ?_, fun x hx => by rw [hdone x hx]; decide⟩, ?_, ?_, ⟨changed, hne, fun i => ?_⟩,
    hmerging.nonempty, hmerging.descending, fun i => ?_⟩
  · rw [hs₅]
    exact ⟨hheld₄.linked, hheld₄.fresh⟩
  · have hwork := hinv₃.work
    have hruns := hinv₃.runs
    rw [hs₅]
    simp only [hsame₄.stageCur, hsame₄.runs]
    omega
  · rw [hbuf₅]
    exact hinv₃.accepted
  · rw [hbuf₅]
    by_cases hi : ∃ r ∈ l.map Prod.snd, r.Covers i
    · exact Or.inr (htaken i hi)
    · exact Or.inl (not_not.mp fun hi' => hi ((hdiffers i).mp hi'))
  · rw [hbuf₅, hdiffers, hmerging.union]
    constructor
    · rintro ⟨r, hr, -, hi⟩
      have hin := (hmerging.area i).mp ⟨r, hr, hi⟩
      exact ⟨(htaken i hin).1, hin⟩
    · rintro ⟨-, hin⟩
      obtain ⟨r, hr, hi⟩ := (hmerging.area i).mpr hin
      obtain ⟨x, hx, rfl⟩ := List.mem_map.mp hr
      exact ⟨x.2, hr, hdone x hx, hi⟩

/-- A target that needs no draws for an input of zeros, with a time limit of three. -/
def quietColorizer (len : ℕ) (run : List (List Byte) → Option (BitVec 64 × BitVec 64)) :
    Colorizer where
  len := len
  randomColorization := false
  draws := []
  run := run
  execUs := 1
  fixedSeed := false
  cmplogLvl := 2
  activeItems := 1

/-- The path depends on the first byte. -/
def firstByteColorizer : Colorizer := quietColorizer 2 fun history =>
  some (((history.getLast?.getD []).getD 0 0).setWidth 64, 0)

theorem firstByteColorizer_accepts (first : BitVec 64 × BitVec 64)
    (hfirst : firstByteColorizer.run [contents (fun _ => 0) 2] = some first)
    (history : List (List Byte)) (buf : List Byte) (report : BitVec 64 × BitVec 64)
    (hrun : firstByteColorizer.run (history ++ [buf]) = some report) :
    firstByteColorizer.rejects first.1 report = false ↔ buf.getD 0 0 = 0 := by
  obtain rfl := Option.some.inj hfirst
  obtain rfl := Option.some.inj hrun
  have hzero : ∀ x : Byte, x.setWidth 64 = 0#64 ↔ x = 0#8 := by decide
  simp [Colorizer.rejects, firstByteColorizer, quietColorizer, contents, hzero]

theorem colorization_taints_second :
    Ensures Aborts (colorization firstByteColorizer) (.start (fun _ => 0) 0) fun written s =>
      written ≠ some [] → Colorized firstByteColorizer (fun _ => 0) (fun buf => buf.getD 0 0 = 0) s
        (written.getD []) :=
  colorization_taints firstByteColorizer (fun _ => 0) 0 (fun buf => buf.getD 0 0 = 0) (by decide)
    (by decide) firstByteColorizer_accepts

/-- A target whose executions all take too long: the input is kept, but it is not accepted. -/
theorem colorization_slow :
    ¬ ∀ (t : Colorizer) (orig : Bytes) (colorizeSuccess : ℕ) (accepts : List Byte → Prop),
      1 ≤ t.len → 2 * t.len < 2 ^ 32 →
      (∀ first, t.run [contents orig t.len] = some first → ∀ history buf report,
        t.run (history ++ [buf]) = some report → (t.rejects first.1 report = false ↔ accepts buf)) →
      Ensures Aborts (colorization t) (.start orig colorizeSuccess) fun written s =>
        written ≠ some [] → accepts (contents s.buf t.len) := by
  intro h
  have hslow :=
    h (quietColorizer 1 fun _ => some (0, 4)) (fun _ => 0) 0 (fun _ => False) (by decide)
    (by decide) fun first hfirst history buf report hrun => by
      obtain rfl := Option.some.inj hfirst
      obtain rfl := Option.some.inj hrun
      decide
  have hrun : (colorization (quietColorizer 1 fun _ => some (0, 4)) (.start (fun _ => 0) 0)).1 =
      .ok none := by decide +kernel
  have hkept : (none : Option (List Tainted)) ≠ some [] → False := hslow.of_result hrun
  exact hkept (by decide)

end AflPlusPlus.Cmplog
