import Mathlib.Data.List.Induction
import Mathlib.Order.Lattice

/-!
# Contests in which a tie goes to the newcomer

A place is empty or held by a champion. Every challenger takes it unless his value is larger than
that of the champion. After any sequence of challengers the place is held by the last one among
those with the least value.
-/

namespace Lib

variable {α β : Type*} [LinearOrder β] {f : α → β} {l : List α} {x y : α}

def challenge (f : α → β) (champion : Option α) (x : α) : Option α :=
  match champion with
  | none => some x
  | some p => if f x > f p then some p else some x

theorem challenge_some (f : α → β) (p x : α) :
    challenge f (some p) x = if f x > f p then some p else some x := rfl

def champion (f : α → β) (l : List α) : Option α := l.foldl (challenge f) none

/-- `x` stands in `l` at a place such that nobody before has a smaller value and everybody behind
has a larger one. -/
def LastLeast (f : α → β) (l : List α) (x : α) : Prop :=
  ∃ before after, l = before ++ x :: after ∧ (∀ y ∈ before, f x ≤ f y) ∧ ∀ y ∈ after, f x < f y

theorem champion_concat (f : α → β) (l : List α) (x : α) :
    champion f (l ++ [x]) = challenge f (champion f l) x := by
  rw [champion, List.foldl_append]
  rfl

theorem LastLeast.keep (h : LastLeast f l x) (hy : f x < f y) : LastLeast f (l ++ [y]) x := by
  obtain ⟨before, after, rfl, hbefore, hafter⟩ := h
  refine ⟨before, after ++ [y], by simp, hbefore, fun z hz => ?_⟩
  rcases List.mem_append.mp hz with hz | hz
  · exact hafter z hz
  · rw [List.mem_singleton.mp hz]
    exact hy

theorem LastLeast.least (h : LastLeast f l x) (hy : y ∈ l) : f x ≤ f y := by
  obtain ⟨before, after, rfl, hbefore, hafter⟩ := h
  rcases List.mem_append.mp hy with hy | hy
  · exact hbefore y hy
  · rcases List.mem_cons.mp hy with rfl | hy
    · exact le_refl _
    · exact (hafter y hy).le

theorem LastLeast.replace (h : LastLeast f l x) (hy : f y ≤ f x) : LastLeast f (l ++ [y]) y :=
  ⟨l, [], rfl, fun _ hz => hy.trans (h.least hz), fun _ hz => absurd hz List.not_mem_nil⟩

/-- The champion of any challengers is the last of the best. -/
theorem exists_champion (f : α → β) (h : l ≠ []) :
    ∃ x, champion f l = some x ∧ LastLeast f l x := by
  induction l using List.reverseRecOn with
  | nil => exact absurd rfl h
  | append_singleton l y ih =>
    rw [champion_concat]
    by_cases hl : l = []
    · subst hl
      exact ⟨y, rfl, [], [], rfl, fun _ hz => absurd hz List.not_mem_nil,
        fun _ hz => absurd hz List.not_mem_nil⟩
    · obtain ⟨x, hx, hleast⟩ := ih hl
      rw [hx, challenge_some]
      by_cases hxy : f y > f x
      · exact ⟨x, if_pos hxy, hleast.keep hxy⟩
      · exact ⟨y, if_neg hxy, hleast.replace (not_lt.mp hxy)⟩

theorem champion_mem (h : champion f l = some x) : x ∈ l := by
  cases l with
  | nil => cases h
  | cons a l =>
    obtain ⟨y, hy, before, after, hl, -⟩ := exists_champion f (List.cons_ne_nil a l)
    obtain rfl : y = x := Option.some.inj (hy.symm.trans h)
    rw [hl]
    simp

end Lib
