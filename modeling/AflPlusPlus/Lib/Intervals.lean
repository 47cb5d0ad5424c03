import Mathlib.Data.List.Chain
import Mathlib.Data.List.Pairwise
import Mathlib.Data.Set.Basic
import Mathlib.Order.Defs.LinearOrder
import Mathlib.Order.Basic

/-!
# Lists of half-open intervals

`lo` and `hi` read the ends of an interval off some record of a program; `cover` is the set of
points a list of them stands for. `Ordered` lists ascend without overlaps, `Separated` ones have a
gap between neighbours and no empty interval, and are the only such list with their points.
-/

namespace Lib

variable {ρ α : Type*} [LinearOrder α] (lo hi : ρ → α)

/-- The points in the intervals of a list. -/
def cover (l : List ρ) : Set α := {x | ∃ r ∈ l, lo r ≤ x ∧ x < hi r}

/-- No interval ends before it starts, and each ends before the later ones start. -/
structure Ordered (l : List ρ) : Prop where
  valid : ∀ r ∈ l, lo r ≤ hi r
  pairwise : l.Pairwise fun r s => hi r ≤ lo s

/-- Every interval has a point, and there is one between any two. -/
structure Separated (l : List ρ) : Prop where
  nonempty : ∀ r ∈ l, lo r < hi r
  pairwise : l.Pairwise fun r s => hi r < lo s

variable {lo hi} {l l' : List ρ} {r s : ρ} {x : α}

/-! ### Covers -/

@[simp]
theorem not_mem_cover_nil : x ∉ cover lo hi [] := fun ⟨_, h, _⟩ => List.not_mem_nil h

@[simp]
theorem mem_cover_cons : x ∈ cover lo hi (r :: l) ↔ (lo r ≤ x ∧ x < hi r) ∨ x ∈ cover lo hi l := by
  simp [cover]

@[simp]
theorem mem_cover_append :
    x ∈ cover lo hi (l ++ l') ↔ x ∈ cover lo hi l ∨ x ∈ cover lo hi l' := by
  simp [cover, or_and_right, exists_or]

theorem mem_cover_flatMap (f : ρ → List ρ) :
    x ∈ cover lo hi (l.flatMap f) ↔ ∃ r ∈ l, x ∈ cover lo hi (f r) := by
  constructor
  · rintro ⟨s, hs, hx⟩
    obtain ⟨r, hr, hsr⟩ := List.mem_flatMap.mp hs
    exact ⟨r, hr, s, hsr, hx⟩
  · rintro ⟨r, hr, s, hs, hx⟩
    exact ⟨s, List.mem_flatMap.mpr ⟨r, hr, hs⟩, hx⟩

theorem cover_perm (h : l.Perm l') : cover lo hi l = cover lo hi l' := by
  ext x
  exact ⟨fun ⟨r, hr, hx⟩ => ⟨r, h.mem_iff.mp hr, hx⟩, fun ⟨r, hr, hx⟩ => ⟨r, h.mem_iff.mpr hr, hx⟩⟩

/-! ### Ordered lists -/

theorem ordered_nil : Ordered lo hi [] := ⟨fun _ h => absurd h List.not_mem_nil, .nil⟩

theorem ordered_cons : Ordered lo hi (r :: l) ↔
    lo r ≤ hi r ∧ (∀ s ∈ l, hi r ≤ lo s) ∧ Ordered lo hi l := by
  constructor
  · intro h
    exact ⟨h.valid r List.mem_cons_self, (List.pairwise_cons.mp h.pairwise).1,
      fun s hs => h.valid s (List.mem_cons_of_mem r hs), (List.pairwise_cons.mp h.pairwise).2⟩
  · rintro ⟨hr, hrest, h⟩
    refine ⟨?_, List.pairwise_cons.mpr ⟨hrest, h.pairwise⟩⟩
    intro s hs
    obtain rfl | hs := List.mem_cons.mp hs
    · exact hr
    · exact h.valid s hs

theorem ordered_append : Ordered lo hi (l ++ l') ↔
    Ordered lo hi l ∧ Ordered lo hi l' ∧ ∀ r ∈ l, ∀ s ∈ l', hi r ≤ lo s := by
  induction l with
  | nil => simp [ordered_nil]
  | cons r l ih =>
    rw [List.cons_append, ordered_cons, ih, ordered_cons]
    simp only [List.mem_append, List.mem_cons, or_imp, forall_and, forall_eq]
    tauto

theorem Ordered.tail (h : Ordered lo hi (r :: l)) : Ordered lo hi l := (ordered_cons.mp h).2.2

/-- Comparing neighbours is enough when no interval ends before it starts. -/
theorem ordered_of_adjacent (hvalid : ∀ r ∈ l, lo r ≤ hi r)
    (h : l.IsChain fun r s => hi r ≤ lo s) : Ordered lo hi l := by
  induction l with
  | nil => exact ordered_nil
  | cons r l ih =>
    have hrest := ih (fun s hs => hvalid s (List.mem_cons_of_mem r hs)) h.tail
    refine ordered_cons.mpr ⟨hvalid r List.mem_cons_self, ?_, hrest⟩
    cases l with
    | nil => exact fun s hs => absurd hs List.not_mem_nil
    | cons t l =>
      have hnext : hi r ≤ lo t := (List.isChain_cons_cons.mp h).1
      intro s hs
      obtain rfl | hs := List.mem_cons.mp hs
      · exact hnext
      · exact hnext.trans ((hvalid t (by simp)).trans ((ordered_cons.mp hrest).2.1 s hs))

/-- A point in front of the first interval lies in none. -/
theorem Ordered.not_mem_cover (h : Ordered lo hi (r :: l)) (hx : x < lo r) :
    x ∉ cover lo hi (r :: l) := by
  rintro ⟨s, hs, hle, -⟩
  obtain rfl | hs := List.mem_cons.mp hs
  · exact absurd hx hle.not_gt
  · have hrs := (ordered_cons.mp h).2.1 s hs
    exact absurd hx ((((ordered_cons.mp h).1.trans hrs).trans hle).not_gt)

/-- Cutting pieces out of the intervals of an ordered list, in order, gives an ordered list. -/
theorem Ordered.flatMap {f : ρ → List ρ} (h : Ordered lo hi l)
    (hf : ∀ r ∈ l, Ordered lo hi (f r) ∧ ∀ s ∈ f r, lo r ≤ lo s ∧ hi s ≤ hi r) :
    Ordered lo hi (l.flatMap f) := by
  induction l with
  | nil => exact ordered_nil
  | cons r l ih =>
    rw [List.flatMap_cons, ordered_append]
    refine ⟨(hf r List.mem_cons_self).1,
      ih h.tail fun s hs => hf s (List.mem_cons_of_mem r hs), ?_⟩
    intro s hs t ht
    obtain ⟨r', hr', ht⟩ := List.mem_flatMap.mp ht
    have hs := (hf r List.mem_cons_self).2 s hs
    have ht := (hf r' (List.mem_cons_of_mem r hr')).2 t ht
    exact hs.2.trans (((ordered_cons.mp h).2.1 r' hr').trans ht.1)

/-- Walk through the list, and stop at the first interval that starts behind the point. -/
def scan (lo hi : ρ → α) (x : α) : List ρ → Bool
  | [] => false
  | r :: l => if x < lo r then false else if x < hi r then true else scan lo hi x l

theorem Ordered.scan_iff (h : Ordered lo hi l) : scan lo hi x l = true ↔ x ∈ cover lo hi l := by
  induction l with
  | nil => simp [scan]
  | cons r l ih =>
    rw [scan]
    split_ifs with hlo hhi
    · exact iff_of_false id (h.not_mem_cover hlo)
    · exact iff_of_true rfl (mem_cover_cons.mpr (Or.inl ⟨not_lt.mp hlo, hhi⟩))
    · rw [ih h.tail, mem_cover_cons, or_iff_right fun hr => hhi hr.2]

/-! ### Disjoint intervals -/

/-- Two intervals without a common point. -/
def Apart (lo hi : ρ → α) (r s : ρ) : Prop := hi r ≤ lo s ∨ hi s ≤ lo r

theorem Apart.symm (h : Apart lo hi r s) : Apart lo hi s r := Or.symm h

theorem Ordered.apart (h : Ordered lo hi l) : l.Pairwise (Apart lo hi) := h.pairwise.imp Or.inl

/-- Nonempty intervals that are sorted by their starts and pairwise disjoint are ordered. -/
theorem ordered_of_sorted (hne : ∀ r ∈ l, lo r < hi r) (hsorted : l.Pairwise fun r s => lo r ≤ lo s)
    (hapart : l.Pairwise (Apart lo hi)) : Ordered lo hi l := by
  refine ⟨fun r hr => (hne r hr).le, ?_⟩
  refine (hsorted.and hapart).imp_of_mem ?_
  rintro r s - hs ⟨hle, hrs | hsr⟩
  · exact hrs
  · exact absurd (hne s hs) ((hsr.trans hle).not_gt)

/-! ### Separated lists -/

theorem Separated.ordered (h : Separated lo hi l) : Ordered lo hi l :=
  ⟨fun r hr => (h.nonempty r hr).le, h.pairwise.imp le_of_lt⟩

theorem separated_nil : Separated lo hi [] := ⟨fun _ h => absurd h List.not_mem_nil, .nil⟩

theorem separated_cons : Separated lo hi (r :: l) ↔
    lo r < hi r ∧ (∀ s ∈ l, hi r < lo s) ∧ Separated lo hi l := by
  constructor
  · intro h
    exact ⟨h.nonempty r List.mem_cons_self, (List.pairwise_cons.mp h.pairwise).1,
      fun s hs => h.nonempty s (List.mem_cons_of_mem r hs), (List.pairwise_cons.mp h.pairwise).2⟩
  · rintro ⟨hr, hrest, h⟩
    refine ⟨?_, List.pairwise_cons.mpr ⟨hrest, h.pairwise⟩⟩
    intro s hs
    obtain rfl | hs := List.mem_cons.mp hs
    · exact hr
    · exact h.nonempty s hs

theorem Separated.lo_mem (h : Separated lo hi (r :: l)) : lo r ∈ cover lo hi (r :: l) :=
  mem_cover_cons.mpr (Or.inl ⟨le_rfl, (separated_cons.mp h).1⟩)

theorem Separated.hi_not_mem (h : Separated lo hi (r :: l)) : hi r ∉ cover lo hi (r :: l) := by
  rw [mem_cover_cons, or_iff_right fun hr => lt_irrefl _ hr.2]
  rintro ⟨s, hs, hle, -⟩
  exact absurd hle (((separated_cons.mp h).2.1 s hs).not_ge)

theorem Separated.lo_le (h : Separated lo hi (r :: l)) (hx : x ∈ cover lo hi (r :: l)) :
    lo r ≤ x := not_lt.mp fun hlt => h.ordered.not_mem_cover hlt hx

/-- The points behind the first interval are those of the rest. -/
theorem Separated.mem_cover_tail (h : Separated lo hi (r :: l)) :
    x ∈ cover lo hi l ↔ x ∈ cover lo hi (r :: l) ∧ hi r ≤ x := by
  rw [mem_cover_cons]
  constructor
  · rintro ⟨s, hs, hle, hlt⟩
    exact ⟨Or.inr ⟨s, hs, hle, hlt⟩, ((separated_cons.mp h).2.1 s hs).le.trans hle⟩
  · rintro ⟨hr | hx, hle⟩
    · exact absurd hr.2 hle.not_gt
    · exact hx

/-- Separated lists with the same points have the same ends. -/
theorem Separated.map_eq (h : Separated lo hi l) (h' : Separated lo hi l')
    (hcover : cover lo hi l = cover lo hi l') :
    l.map (fun r => (lo r, hi r)) = l'.map fun r => (lo r, hi r) := by
  induction l generalizing l' with
  | nil =>
    cases l' with
    | nil => rfl
    | cons s l' => exact absurd (hcover ▸ h'.lo_mem) not_mem_cover_nil
  | cons r l ih =>
    cases l' with
    | nil => exact absurd (hcover ▸ h.lo_mem) not_mem_cover_nil
    | cons s l' =>
      have hlo : lo r = lo s :=
        le_antisymm (h.lo_le (hcover ▸ h'.lo_mem)) (h'.lo_le (hcover ▸ h.lo_mem))
      -- the end of the longer interval would be a gap inside the other
      have hhi : hi r = hi s := by
        refine le_antisymm (not_lt.mp fun hlt => ?_) (not_lt.mp fun hlt => ?_)
        · refine h'.hi_not_mem (hcover ▸ mem_cover_cons.mpr (Or.inl ⟨?_, hlt⟩))
          exact hlo.le.trans (separated_cons.mp h').1.le
        · refine h.hi_not_mem (hcover.symm ▸ mem_cover_cons.mpr (Or.inl ⟨?_, hlt⟩))
          exact hlo.ge.trans (separated_cons.mp h).1.le
      have hrest : cover lo hi l = cover lo hi l' := by
        ext x
        rw [h.mem_cover_tail, h'.mem_cover_tail, hcover, hhi]
      rw [List.map_cons, List.map_cons, hlo, hhi,
        ih (separated_cons.mp h).2.2 (separated_cons.mp h').2.2 hrest]

end Lib
