import AflPlusPlus.Cmplog.Colorize
import Mathlib.Algebra.BigOperators.Group.List.Basic
import Mathlib.Algebra.GroupWithZero.Nat
import Mathlib.Data.List.Induction

/-!
# The ranges of a colorization

The ranges lie apart. Those that are `ok` hold changed bytes and all other bytes are the original
ones, so that a rejected range only has to be put back and leaves its two halves. A range of `s`
bytes can be split into at most `2 * s - 1` ranges altogether, which is why the rounds suffice.
-/

namespace AflPlusPlus.Cmplog
open Lib Lib.Stopping

/-! ### Ranges -/

def Range.Covers (r : Range) (i : ℕ) : Prop := r.start ≤ i ∧ i ≤ r.last

def Apart (r r' : Range) : Prop := r.last < r'.start ∨ r'.last < r.start

theorem Apart.symm {r r' : Range} (h : Apart r r') : Apart r' r := Or.symm h

theorem Apart.not_covers {r r' : Range} (h : Apart r r') {i : ℕ} (hi : r.Covers i) :
    ¬ r'.Covers i := by
  rw [Apart] at h
  rw [Range.Covers] at hi ⊢
  omega

/-- The two halves of a rejected range, if it is longer than one byte. -/
def Range.halves (r : Range) : List Range :=
  if 1 + r.last - r.start > 1 then
    [⟨r.start + (1 + r.last - r.start) / 2, r.last, 0⟩,
      ⟨r.start, r.start + (1 + r.last - r.start) / 2 - 1, 0⟩]
  else []

/-- The number of rounds that a range can lead to. -/
def Range.work (r : Range) : ℕ := if r.ok = 0 then 2 * (1 + r.last - r.start) - 1 else 0

def pendingWork (rs : List Range) : ℕ := (rs.map Range.work).sum

theorem pendingWork_cons (r : Range) (rs : List Range) :
    pendingWork (r :: rs) = r.work + pendingWork rs := by
  rw [pendingWork, List.map_cons, List.sum_cons]
  rfl

theorem pendingWork_perm {rs rs' : List Range} (h : rs.Perm rs') :
    pendingWork rs = pendingWork rs' := (h.map Range.work).sum_eq

theorem pendingWork_append (rs rs' : List Range) :
    pendingWork (rs ++ rs') = pendingWork rs + pendingWork rs' := by
  rw [pendingWork, List.map_append, List.sum_append]
  rfl

/-- A round costs one, also when the range is split. -/
theorem pendingWork_halves {r : Range} (hr : r.ok = 0) (hle : r.start ≤ r.last) :
    pendingWork r.halves + 1 = r.work := by
  rw [Range.halves, Range.work, if_pos hr]
  split
  · rw [pendingWork_cons, pendingWork_cons, Range.work, Range.work, if_pos rfl, if_pos rfl]
    simp only [pendingWork, List.map_nil, List.sum_nil]
    omega
  · simp only [pendingWork, List.map_nil, List.sum_nil]
    omega

theorem halves_apart (r : Range) : r.halves.Pairwise Apart := by
  rw [Range.halves]
  split
  · refine List.pairwise_pair.mpr (Or.inr ?_)
    simp only
    omega
  · exact List.Pairwise.nil

theorem mem_halves {r r' : Range} (h : r' ∈ r.halves) :
    r'.ok = 0 ∧ r.start ≤ r'.start ∧ r'.start ≤ r'.last ∧ r'.last ≤ r.last := by
  rw [Range.halves] at h
  split at h
  · simp only [List.mem_cons, List.not_mem_nil, or_false] at h
    rcases h with rfl | rfl
    · refine ⟨rfl, ?_, ?_, Nat.le_refl _⟩
      all_goals
        simp only
        omega
    · refine ⟨rfl, Nat.le_refl _, ?_, ?_⟩
      all_goals
        simp only
        omega
  · exact absurd h (List.not_mem_nil)

/-! ### The buffer -/

structure Splitting (len : ℕ) (orig changed buf : Bytes) (rs : List Range) : Prop where
  inside : ∀ r ∈ rs, r.start ≤ r.last ∧ r.last < len
  states : ∀ r ∈ rs, r.ok = 0 ∨ r.ok = 1
  apart : rs.Pairwise Apart
  taken : ∀ r ∈ rs, r.ok = 1 → ∀ i, r.Covers i → buf i = changed i
  left : ∀ i, (∀ r ∈ rs, r.ok = 1 → ¬ r.Covers i) → buf i = orig i

namespace Splitting

variable {len : ℕ} {orig changed buf : Bytes} {r : Range} {rs rs' : List Range}

theorem perm (h : Splitting len orig changed buf rs) (hperm : rs.Perm rs') :
    Splitting len orig changed buf rs' where
  inside r hr := h.inside r (hperm.mem_iff.mpr hr)
  states r hr := h.states r (hperm.mem_iff.mpr hr)
  apart := (hperm.pairwise_iff fun hab => hab.symm).mp h.apart
  taken r hr := h.taken r (hperm.mem_iff.mpr hr)
  left i hi := h.left i fun r hr => hi r (hperm.mem_iff.mp hr)

theorem whole {len : ℕ} (hlen : 1 ≤ len) (orig changed : Bytes) :
    Splitting len orig changed orig [⟨0, len - 1, 0⟩] where
  inside r hr := by
    obtain rfl := List.mem_singleton.mp hr
    exact ⟨Nat.zero_le _, by simp only; omega⟩
  states r hr := by
    obtain rfl := List.mem_singleton.mp hr
    exact Or.inl rfl
  apart := List.pairwise_singleton _ _
  taken r hr hok := by
    obtain rfl := List.mem_singleton.mp hr
    exact absurd hok Nat.zero_ne_one
  left _ _ := rfl

/-- A range that was not accepted holds the original bytes. -/
theorem pending_eq (h : Splitting len orig changed buf (r :: rs)) (hr : r.ok = 0) {i : ℕ}
    (hi : r.Covers i) : buf i = orig i := by
  refine h.left i fun r' hr' hok => ?_
  rcases List.mem_cons.mp hr' with rfl | hr'
  · omega
  · exact ((List.pairwise_cons.mp h.apart).1 r' hr').not_covers hi

/-- Its changed bytes are put in. -/
theorem accept (h : Splitting len orig changed buf (r :: rs)) :
    Splitting len orig changed
      (copyBlock buf r.start changed r.start (1 + r.last - r.start))
        ({ r with ok := 1 } :: rs) := by
  obtain ⟨hle, hlt⟩ := h.inside r List.mem_cons_self
  have hin : ∀ i, r.Covers i →
      copyBlock buf r.start changed r.start (1 + r.last - r.start) i = changed i := fun i hi => by
    rw [Range.Covers] at hi
    rw [copyBlock, if_pos (by omega), Nat.add_sub_cancel' hi.1]
  have hout : ∀ i, ¬ r.Covers i →
      copyBlock buf r.start changed r.start (1 + r.last - r.start) i = buf i := fun i hi => by
    rw [Range.Covers] at hi
    rw [copyBlock, if_neg (by omega)]
  have hapart := List.pairwise_cons.mp h.apart
  refine ⟨fun r' hr' => ?_, fun r' hr' => ?_, List.pairwise_cons.mpr ⟨hapart.1, hapart.2⟩,
    fun r' hr' hok i hi => ?_, fun i hi => ?_⟩
  · rcases List.mem_cons.mp hr' with rfl | hr'
    · exact ⟨hle, hlt⟩
    · exact h.inside r' (List.mem_cons_of_mem r hr')
  · rcases List.mem_cons.mp hr' with rfl | hr'
    · exact Or.inr rfl
    · exact h.states r' (List.mem_cons_of_mem r hr')
  · rcases List.mem_cons.mp hr' with rfl | hr'
    · exact hin i hi
    · rw [hout i ((hapart.1 r' hr').symm.not_covers hi)]
      exact h.taken r' (List.mem_cons_of_mem r hr') hok i hi
  · have hr : ¬ r.Covers i := hi { r with ok := 1 } List.mem_cons_self rfl
    rw [hout i hr]
    refine h.left i fun r' hr' hok => ?_
    rcases List.mem_cons.mp hr' with rfl | hr'
    · exact hr
    · exact hi r' (List.mem_cons_of_mem _ hr') hok

/-- The original bytes are put back, and the halves are still to be tried. -/
theorem reject (h : Splitting len orig changed buf (r :: rs)) (hr : r.ok = 0) :
    copyBlock (copyBlock buf r.start changed r.start (1 + r.last - r.start)) r.start orig r.start
      (1 + r.last - r.start) = buf ∧ Splitting len orig changed buf (r.halves ++ rs) := by
  obtain ⟨hle, hlt⟩ := h.inside r List.mem_cons_self
  have hapart := List.pairwise_cons.mp h.apart
  constructor
  · funext i
    by_cases hi : r.Covers i
    · have hpending := h.pending_eq hr hi
      rw [Range.Covers] at hi
      rw [copyBlock, if_pos (by omega), Nat.add_sub_cancel' hi.1, hpending]
    · rw [Range.Covers] at hi
      rw [copyBlock, if_neg (by omega), copyBlock, if_neg (by omega)]
  · refine ⟨fun r' hr' => ?_, fun r' hr' => ?_, List.pairwise_append.mpr ⟨halves_apart r, hapart.2,
      fun r' hr' r'' hr'' => ?_⟩, fun r' hr' hok i hi => ?_, fun i hi => h.left i fun r' hr' hok =>
        ?_⟩
    · rcases List.mem_append.mp hr' with hr' | hr'
      · have hhalf := mem_halves hr'
        omega
      · exact h.inside r' (List.mem_cons_of_mem r hr')
    · rcases List.mem_append.mp hr' with hr' | hr'
      · exact Or.inl (mem_halves hr').1
      · exact h.states r' (List.mem_cons_of_mem r hr')
    · have hhalf := mem_halves hr'
      have hother := hapart.1 r'' hr''
      rw [Apart] at hother ⊢
      omega
    · rcases List.mem_append.mp hr' with hr' | hr'
      · have hhalf := mem_halves hr'
        omega
      · exact h.taken r' (List.mem_cons_of_mem r hr') hok i hi
    · rcases List.mem_cons.mp hr' with rfl | hr'
      · omega
      · exact hi r' (List.mem_append_right _ hr') hok

end Splitting

/-! ### The list in the heap -/

/-- The ranges at their addresses. -/
structure Held (s : Coloring) (l : List (ℕ × Range)) : Prop where
  linked : s.heap.Linked s.ranges l
  fresh : ∀ x ∈ l, x.1 < s.fresh

/-- Nothing has changed but the list. -/
structure SameRun (s s' : Coloring) : Prop where
  buf : s'.buf = s.buf
  runs : s'.runs = s.runs
  stageCur : s'.stageCur = s.stageCur

theorem SameRun.refl (s : Coloring) : SameRun s s := ⟨rfl, rfl, rfl⟩

theorem SameRun.trans {s s' s'' : Coloring} (h : SameRun s s') (h' : SameRun s' s'') :
    SameRun s s'' :=
  ⟨h'.buf.trans h.buf, h'.runs.trans h.runs, h'.stageCur.trans h.stageCur⟩

/-- Why a colorization has no result: it was asked to stop, or there are no draws left. -/
def Aborts (e : Halt) : Prop := e = .checksumFail ∨ e = .noDraws

section List

variable {s : Coloring} {l l' : List (ℕ × Range)} {x : ℕ × Range}

theorem Held.length_le (h : Held s l) : l.length ≤ s.fresh := by
  have hsub : (l.map Prod.fst).Subperm (List.range s.fresh) :=
    List.subperm_of_subset h.linked.nodup fun a ha => by
      obtain ⟨y, hy, rfl⟩ := List.mem_map.mp ha
      exact List.mem_range.mpr (h.fresh y hy)
  have hlen := hsub.length_le
  rwa [List.length_map, List.length_range] at hlen

theorem orFault_of_some {f : Coloring → Option Coloring} (s' : Coloring) (h : f s = some s')
    {post : Unit → Coloring → Prop} (hpost : post () s') : Ensures Aborts (orFault f) s post := by
  refine Ensures.get_bind ?_
  rw [h]
  exact Ensures.set hpost

theorem visitRanges_ensures (h : Held s l) :
    Ensures Aborts visitRanges s fun visited s' => visited = l ∧ s' = s := by
  refine Ensures.get_bind ?_
  rw [h.linked.seg.nodes_eq h.length_le]
  exact Ensures.pure ⟨rfl, rfl⟩

theorem addRange_ensures (h : Held s l) (start last : ℕ) :
    Ensures Aborts (addRange start last) s fun _ s' =>
      (∃ a, Held s' ((a, ⟨start, last, 0⟩) :: l)) ∧ SameRun s s' := by
  have hnew : s.fresh ∉ l.map Prod.fst := fun hmem => by
    obtain ⟨y, hy, heq⟩ := List.mem_map.mp hmem
    exact absurd (h.fresh y hy) (by omega)
  obtain ⟨heap, hpush, hlinked⟩ := h.linked.push hnew ⟨start, last, 0⟩
  refine orFault_of_some { s with heap := heap, fresh := s.fresh + 1, ranges := some s.fresh }
    (by rw [hpush]; rfl) ⟨⟨s.fresh, hlinked, fun y hy => ?_⟩, rfl, rfl, rfl⟩
  rcases List.mem_cons.mp hy with rfl | hy
  · exact Nat.lt_succ_self _
  · exact Nat.lt_succ_of_lt (h.fresh y hy)

theorem markRange_ensures (h : Held s (l ++ x :: l')) (ok : ℕ) :
    Ensures Aborts (markRange x.1 ok) s fun _ s' =>
      Held s' (l ++ (x.1, { x.2 with ok := ok }) :: l') ∧ SameRun s s' := by
  obtain ⟨heap, hset, hlinked⟩ := h.linked.setData fun rng => { rng with ok := ok }
  refine orFault_of_some { s with heap := heap } (by rw [hset]; rfl)
    ⟨⟨hlinked, fun y hy => ?_⟩, rfl, rfl, rfl⟩
  rcases List.mem_append.mp hy with hy | hy
  · exact h.fresh y (List.mem_append_left _ hy)
  · rcases List.mem_cons.mp hy with rfl | hy
    · exact h.fresh x (by simp)
    · exact h.fresh y (List.mem_append_right _ (List.mem_cons_of_mem x hy))

theorem removeRange_ensures (h : Held s (l ++ x :: l')) :
    Ensures Aborts (removeRange x.1) s fun _ s' => Held s' (l ++ l') ∧ SameRun s s' := by
  obtain ⟨heap, ranges, hunlink, hlinked⟩ := h.linked.unlink
  refine orFault_of_some { s with heap := heap, ranges := ranges } (by rw [hunlink]; rfl)
    ⟨⟨hlinked, fun y hy => h.fresh y ?_⟩, rfl, rfl, rfl⟩
  rcases List.mem_append.mp hy with hy | hy
  · exact List.mem_append_left _ hy
  · exact List.mem_append_right _ (List.mem_cons_of_mem x hy)

theorem map_middle_perm (l l' : List (ℕ × Range)) (x : ℕ × Range) :
    ((l ++ x :: l').map Prod.snd).Perm (x.2 :: (l ++ l').map Prod.snd) :=
  (List.perm_middle (a := x)).map Prod.snd

/-- The two halves are put in front. -/
theorem addHalves_ensures (h : Held s l) {r : Range} (hle : r.start ≤ r.last)
    (hlast : 2 * r.last < 2 ^ 32) :
    Ensures Aborts (onlyIf (1 + r.last - r.start > 1) do
        addRange r.start ((r.start + (2 ^ 32 - 1) + (1 + r.last - r.start) / 2) % 2 ^ 32)
        addRange (r.start + (1 + r.last - r.start) / 2) r.last) s fun _ s' =>
      ∃ k : List (ℕ × Range), k.map Prod.snd = r.halves ∧ Held s' (k ++ l) ∧ SameRun s s' := by
  rw [Range.halves]
  refine Ensures.onlyIf (fun hsize => ?_) fun hsize => ⟨[], by rw [if_neg hsize]; rfl, h, .refl s⟩
  have hmid : (r.start + (2 ^ 32 - 1) + (1 + r.last - r.start) / 2) % 2 ^ 32 =
      r.start + (1 + r.last - r.start) / 2 - 1 := by omega
  rw [hmid]
  refine (addRange_ensures h _ _).bind fun _ s₁ ⟨⟨a, h₁⟩, hsame₁⟩ => ?_
  refine (addRange_ensures h₁ _ _).mono fun _ s₂ ⟨⟨b, h₂⟩, hsame₂⟩ => ?_
  exact ⟨[(b, _), (a, _)], by rw [if_pos hsize]; rfl, h₂, hsame₁.trans hsame₂⟩

end List

/-! ### The rounds -/

/-- What the search has found among the visited ranges. -/
def Found (l : List (ℕ × Range)) (best : ℕ × Option (ℕ × Range)) : Prop :=
  match best.2 with
  | none => best.1 = 0 ∧ ∀ x ∈ l, x.2.ok ≠ 0
  | some x => x ∈ l ∧ x.2.ok = 0

theorem Found.step {l : List (ℕ × Range)} {best : ℕ × Option (ℕ × Range)} (h : Found l best)
    (y : ℕ × Range) : Found (l ++ [y]) (largerRange best y) := by
  obtain ⟨size, found⟩ := best
  rw [largerRange]
  by_cases hy : y.2.ok = 0
  · rw [if_pos hy]
    by_cases hsize : 1 + y.2.last - y.2.start ≥ size
    · simp only [if_pos hsize]
      exact ⟨List.mem_append_right l List.mem_cons_self, hy⟩
    · simp only [if_neg hsize]
      cases found with
      | none => exact absurd (show size = 0 from h.1) (by omega)
      | some x => exact ⟨List.mem_append_left _ h.1, h.2⟩
  · rw [if_neg hy]
    cases found with
    | none =>
      refine ⟨h.1, fun x hx => ?_⟩
      rcases List.mem_append.mp hx with hx | hx
      · exact h.2 x hx
      · rwa [List.mem_singleton.mp hx]
    | some x => exact ⟨List.mem_append_left _ h.1, h.2⟩

/-- A range is found unless all are `ok`. -/
theorem biggestRange_spec (l : List (ℕ × Range)) :
    (biggestRange l = none → ∀ x ∈ l, x.2.ok ≠ 0) ∧
      ∀ x, biggestRange l = some x → x ∈ l ∧ x.2.ok = 0 := by
  have hfound : Found l (l.foldl largerRange (0, none)) := by
    induction l using List.reverseRecOn with
    | nil => exact ⟨rfl, fun x hx => absurd hx List.not_mem_nil⟩
    | append_singleton l y ih =>
      rw [List.foldl_append, List.foldl_cons, List.foldl_nil]
      exact ih.step y
  rw [Found] at hfound
  rw [biggestRange]
  constructor
  · intro h
    rw [h] at hfound
    exact hfound.2
  · intro x h
    rw [h] at hfound
    exact hfound

theorem popBiggestRange_ensures {s : Coloring} {l : List (ℕ × Range)} (h : Held s l) :
    Ensures Aborts popBiggestRange s fun best s' => best = biggestRange l ∧ s' = s :=
  (visitRanges_ensures h).bind fun _ _ ⟨hvisited, hs'⟩ =>
    Ensures.pure ⟨congrArg biggestRange hvisited, hs'⟩

theorem getExecChecksum_ensures (t : Colorizer) (s : Coloring) :
    Ensures Aborts (getExecChecksum t) s fun report s' =>
      s' = { s with runs := s.runs ++ [contents s.buf t.len] } ∧
        t.run (s.runs ++ [contents s.buf t.len]) = some report := by
  refine Ensures.modify_bind (Ensures.get_bind ?_)
  simp only
  cases hrun : t.run (s.runs ++ [contents s.buf t.len]) with
  | none => exact Ensures.stop (Or.inl rfl)
  | some report => exact Ensures.pure ⟨rfl, rfl⟩

/-- What holds between two rounds. -/
structure SplitInv (t : Colorizer) (orig changed : Bytes) (accepts : List Byte → Prop)
    (s : Coloring) (l : List (ℕ × Range)) : Prop where
  held : Held s l
  split : Splitting t.len orig changed s.buf (l.map Prod.snd)
  work : pendingWork (l.map Prod.snd) + s.stageCur < 2 * t.len
  runs : s.runs.length = s.stageCur + 1
  accepted : accepts (contents s.buf t.len) ∨ s.buf = orig

section Rounds

variable {t : Colorizer} {orig changed : Bytes} {accepts : List Byte → Prop}
  {execCksum : BitVec 64} (hmax : 2 * t.len < 2 ^ 32)
  (hacc : ∀ history buf report, t.run (history ++ [buf]) = some report →
    t.rejects execCksum report = false → accepts buf)
include hmax hacc

theorem tryRange_ensures {s : Coloring} {l l' : List (ℕ × Range)} {x : ℕ × Range}
    (h : SplitInv t orig changed accepts s (l ++ x :: l')) (hx : x.2.ok = 0) :
    Ensures Aborts (tryRange t execCksum orig changed x.1 x.2) s fun _ s' =>
      s'.stageCur = s.stageCur + 1 ∧ ∃ l'', SplitInv t orig changed accepts s' l'' := by
  have hperm := map_middle_perm l l' x
  have hsplit := h.split.perm hperm
  obtain ⟨hle, hlast⟩ := hsplit.inside x.2 List.mem_cons_self
  have hwork := h.work
  rw [pendingWork_perm hperm, pendingWork_cons, ← pendingWork_halves hx hle] at hwork
  have hrunslen := h.runs
  refine Ensures.modify_bind ((getExecChecksum_ensures t _).bind fun report s₁ ⟨hs₁, hrun⟩ => ?_)
  subst hs₁
  refine Ensures.ite (fun hrej => ?_) fun hrej => ?_
  · -- the original bytes are put back, and the halves take the place of the range
    obtain ⟨hback, hhalves⟩ := hsplit.reject hx
    refine Ensures.modify_bind ?_
    simp only [hback]
    have hheld : Held { s with runs := s.runs ++ [contents (copyBlock s.buf x.2.start changed
      x.2.start (1 + x.2.last - x.2.start)) t.len] } (l ++ x :: l') := ⟨h.held.linked, h.held.fresh⟩
    refine (addHalves_ensures hheld hle (by omega)).bind fun _ s₂ ⟨k, hk, hheld₂, hsame₂⟩ => ?_
    rw [← List.append_assoc] at hheld₂
    refine (removeRange_ensures hheld₂).bind fun _ s₃ ⟨hheld₃, hsame₃⟩ => Ensures.modify ?_
    have hsame := hsame₂.trans hsame₃
    have hcur : s₃.stageCur = s.stageCur := hsame.stageCur
    have hmap : (k ++ l ++ l').map Prod.snd = x.2.halves ++ (l ++ l').map Prod.snd := by
      rw [List.append_assoc, List.map_append, hk]
    refine ⟨congrArg Nat.succ hcur, k ++ l ++ l', ⟨hheld₃.linked, hheld₃.fresh⟩, ?_, ?_, ?_, ?_⟩
    · simp only [hsame.buf, hmap]
      exact hhalves
    · simp only [hmap, pendingWork_append, hcur]
      omega
    · simp only [hsame.runs, hcur, List.length_append, List.length_singleton]
      omega
    · simp only [hsame.buf]
      exact h.accepted
  · -- the changed bytes stay
    have hheld : Held { s with
        buf := copyBlock s.buf x.2.start changed x.2.start (1 + x.2.last - x.2.start)
        runs := s.runs ++ [contents (copyBlock s.buf x.2.start changed
          x.2.start (1 + x.2.last - x.2.start)) t.len] } (l ++ x :: l') :=
      ⟨h.held.linked, h.held.fresh⟩
    refine (markRange_ensures hheld 1).bind fun _ s₂ ⟨hheld₂, hsame⟩ => Ensures.modify ?_
    have hcur : s₂.stageCur = s.stageCur := hsame.stageCur
    have hperm₂ := map_middle_perm l l' (x.1, { x.2 with ok := 1 })
    have hdone : Range.work { x.2 with ok := 1 } = 0 := if_neg Nat.one_ne_zero
    refine ⟨congrArg Nat.succ hcur, _, ⟨hheld₂.linked, hheld₂.fresh⟩, ?_, ?_, ?_, ?_⟩
    · simp only [hsame.buf]
      exact hsplit.accept.perm hperm₂.symm
    · simp only [hcur]
      rw [pendingWork_perm hperm₂, pendingWork_cons, hdone]
      omega
    · simp only [hsame.runs, hcur, List.length_append, List.length_singleton]
      omega
    · simp only [hsame.buf]
      exact Or.inl (hacc _ _ _ hrun (by simpa using hrej))

/-- The rounds end with no range left to try. -/
theorem splitRanges_ensures {fuel : ℕ} {s : Coloring} {l : List (ℕ × Range)}
    (h : SplitInv t orig changed accepts s l) (hfuel : 2 * t.len < s.stageCur + fuel) :
    Ensures Aborts (splitRanges t execCksum orig changed fuel) s fun _ s' =>
      ∃ l', SplitInv t orig changed accepts s' l' ∧ ∀ x ∈ l', x.2.ok ≠ 0 := by
  induction fuel generalizing s l with
  | zero =>
    have hwork := h.work
    omega
  | succ fuel ih =>
    obtain ⟨hnone, hsome⟩ := biggestRange_spec l
    refine (popBiggestRange_ensures h.held).bind fun best s' hpop => ?_
    obtain ⟨hbest, rfl⟩ := hpop
    cases best with
    | none => exact Ensures.pure ⟨l, h, hnone hbest.symm⟩
    | some x =>
      obtain ⟨hmem, hx⟩ := hsome x hbest.symm
      obtain ⟨l₁, l₂, rfl⟩ := List.append_of_mem hmem
      have hperm := map_middle_perm l₁ l₂ x
      have hinside := (h.split.perm hperm).inside x.2 List.mem_cons_self
      have hwork := h.work
      rw [pendingWork_perm hperm, pendingWork_cons, Range.work, if_pos hx] at hwork
      have hcur : s'.stageCur < stageMax t := by
        rw [stageMax, Nat.shiftLeft_eq]
        omega
      refine Ensures.get_bind ?_
      rw [Stopping.onlyIf, if_pos hcur]
      refine (tryRange_ensures hmax hacc h hx).bind fun _ s₂ htried => ?_
      obtain ⟨hstep, l'', h₂⟩ := htried
      exact ih h₂ (by omega)

end Rounds

end AflPlusPlus.Cmplog
