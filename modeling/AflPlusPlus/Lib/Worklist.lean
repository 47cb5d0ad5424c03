import Mathlib.Algebra.GroupWithZero.Nat
import Mathlib.Algebra.Group.Nat.Defs
import Mathlib.Algebra.Order.Group.Nat
import Mathlib.Algebra.BigOperators.Group.List.Basic

/-!
# Worklists

`drain step` takes the last item of a worklist until none is left; a step changes a state and pushes
further items, or fails. The invariant rule describes the state when the list is empty, the measure
rules show that draining ends, with an empty list or with a step that fails, and the failure rule
that it cannot end while items that lead to a failure are on the list.
-/

namespace Lib

variable {α σ : Type*}

/-- `while (!list.empty()) step(list.pop_back())`. The head of the list here is its back there, so
`step` returns the pushed items with the last push first. -/
def drain (step : α → σ → Option (σ × List α)) : ℕ → List α → σ → Option σ
  | _, [], s => some s
  | 0, _ :: _, _ => none
  | fuel + 1, a :: rest, s => (step a s).bind fun r => drain step fuel (r.2 ++ rest) r.1

variable {step : α → σ → Option (σ × List α)}

@[simp]
theorem drain_nil (fuel : ℕ) (s : σ) : drain step fuel [] s = some s := by cases fuel <;> rfl

theorem drain_cons (fuel : ℕ) (a : α) (rest : List α) (s : σ) :
    drain step (fuel + 1) (a :: rest) s =
      (step a s).bind fun r => drain step fuel (r.2 ++ rest) r.1 := rfl

/-- What every step keeps holds when the list has run empty. -/
theorem drain_invariant (P : List α → σ → Prop)
    (hstep : ∀ a rest s s' pushed, P (a :: rest) s → step a s = some (s', pushed) →
      P (pushed ++ rest) s')
    {fuel : ℕ} {items : List α} {s s' : σ} (h : P items s)
    (hrun : drain step fuel items s = some s') : P [] s' := by
  induction fuel generalizing items s with
  | zero =>
    cases items with
    | nil =>
      rw [drain_nil, Option.some.injEq] at hrun
      exact hrun ▸ h
    | cons a rest => simp [drain] at hrun
  | succ fuel ih =>
    cases items with
    | nil =>
      rw [drain_nil, Option.some.injEq] at hrun
      exact hrun ▸ h
    | cons a rest =>
      rw [drain_cons, Option.bind_eq_some_iff] at hrun
      obtain ⟨⟨s₁, pushed⟩, hone, hrest⟩ := hrun
      exact ih (hstep a rest s s₁ pushed h hone) hrest

/-- Draining ends when no step fails on the items that occur and each pays for what it pushes. -/
theorem drain_total (Good : α → Prop) (measure : α → ℕ)
    (hstep : ∀ a s, Good a → ∃ s' pushed, step a s = some (s', pushed) ∧ (∀ b ∈ pushed, Good b) ∧
      (pushed.map measure).sum < measure a)
    {fuel : ℕ} (items : List α) (s : σ) (hgood : ∀ a ∈ items, Good a)
    (hfuel : (items.map measure).sum ≤ fuel) : ∃ s', drain step fuel items s = some s' := by
  induction fuel generalizing items s with
  | zero =>
    cases items with
    | nil => exact ⟨s, rfl⟩
    | cons a rest =>
      obtain ⟨_, _, -, -, hlt⟩ := hstep a s (hgood a List.mem_cons_self)
      rw [List.map_cons, List.sum_cons] at hfuel
      omega
  | succ fuel ih =>
    cases items with
    | nil => exact ⟨s, rfl⟩
    | cons a rest =>
      obtain ⟨s₁, pushed, hone, hpushed, hlt⟩ := hstep a s (hgood a List.mem_cons_self)
      rw [List.map_cons, List.sum_cons] at hfuel
      obtain ⟨s', hrun⟩ := ih (pushed ++ rest) s₁
        (fun b hb => (List.mem_append.mp hb).elim (hpushed b)
          fun hb => hgood b (List.mem_cons_of_mem _ hb))
        (by rw [List.map_append, List.sum_append]; omega)
      exact ⟨s', by rw [drain_cons, hone, Option.bind_some, hrun]⟩

/-- The list and the state after some steps. -/
inductive Drains (step : α → σ → Option (σ × List α)) (items : List α) (s : σ) :
    List α → σ → Prop
  | refl : Drains step items s items s
  | step {a : α} {rest pushed : List α} {s₁ s₂ : σ} : Drains step items s (a :: rest) s₁ →
      step a s₁ = some (s₂, pushed) → Drains step items s (pushed ++ rest) s₂

theorem Drains.head {a : α} {rest pushed items : List α} {s s₁ s₂ : σ}
    (hone : step a s = some (s₁, pushed)) (h : Drains step (pushed ++ rest) s₁ items s₂) :
    Drains step (a :: rest) s items s₂ := by
  induction h with
  | refl => exact .step .refl hone
  | step _ hstep ih => exact .step ih hstep

/-- When each item pays for what it pushes, the list runs empty or a step fails. -/
theorem drain_or_stuck (Good : α → Prop) (measure : α → ℕ)
    (hstep : ∀ a s s' pushed, Good a → step a s = some (s', pushed) → (∀ b ∈ pushed, Good b) ∧
      (pushed.map measure).sum < measure a)
    (items : List α) (s : σ) (hgood : ∀ a ∈ items, Good a) :
    (∃ fuel s', drain step fuel items s = some s') ∨
      ∃ a rest s', Drains step items s (a :: rest) s' ∧ Good a ∧ step a s' = none := by
  induction hcost : (items.map measure).sum using Nat.strong_induction_on
    generalizing items s with
  | _ cost ih =>
    cases items with
    | nil => exact .inl ⟨0, s, rfl⟩
    | cons a rest =>
      have ha := hgood a List.mem_cons_self
      cases hone : step a s with
      | none => exact .inr ⟨a, rest, s, .refl, ha, hone⟩
      | some r =>
        obtain ⟨hpushed, hlt⟩ := hstep a s r.1 r.2 ha hone
        have hless : ((r.2 ++ rest).map measure).sum < cost := by
          rw [← hcost, List.map_append, List.sum_append, List.map_cons, List.sum_cons]
          omega
        have hall : ∀ b ∈ r.2 ++ rest, Good b := fun b hb =>
          (List.mem_append.mp hb).elim (hpushed b) fun hb => hgood b (List.mem_cons_of_mem _ hb)
        rcases ih _ hless (r.2 ++ rest) r.1 hall rfl with ⟨fuel, s', hrun⟩ |
          ⟨b, rest', s', hdrains, hb, hnone⟩
        · refine .inl ⟨fuel + 1, s', ?_⟩
          rw [drain_cons, hone, Option.bind_some, hrun]
        · exact .inr ⟨b, rest', s', .head hone hdrains, hb, hnone⟩

/-- Draining never ends while a doomed item is on the list: its own step fails or pushes one. -/
theorem drain_eq_none (Doomed : α → Prop)
    (hstep : ∀ a s s' pushed, Doomed a → step a s = some (s', pushed) → ∃ b ∈ pushed, Doomed b)
    {items : List α} (h : ∃ a ∈ items, Doomed a) (fuel : ℕ) (s : σ) :
    drain step fuel items s = none := by
  induction fuel generalizing items s with
  | zero =>
    cases items with
    | nil => simp at h
    | cons a rest => rfl
  | succ fuel ih =>
    cases items with
    | nil => simp at h
    | cons a rest =>
      rw [drain_cons]
      cases hone : step a s with
      | none => rfl
      | some r =>
        refine ih ?_ r.1
        obtain ⟨b, hb, hdoomed⟩ := h
        rcases List.mem_cons.mp hb with rfl | hb
        · obtain ⟨c, hc, hd⟩ := hstep b s r.1 r.2 hdoomed hone
          exact ⟨c, List.mem_append_left _ hc, hd⟩
        · exact ⟨b, List.mem_append_right _ hb, hdoomed⟩

end Lib
