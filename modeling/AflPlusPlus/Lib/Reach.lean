import Mathlib.Data.Nat.Init
import Mathlib.Logic.Function.Basic
import Mathlib.Tactic.Push

/-!
# Runs of a partial step function

`step s a` is the state after operation `a`, or `none` when the operation does not return.
`Reaches step ok s t` says that `t` is reached from `s` by operations that were each admissible
(`ok`) in the state they were applied to. Safety results are proved by `Reaches.invariant` and
concrete runs are evaluated with `exec`.
-/

namespace Lib

variable {σ α : Type*}

inductive Reaches (step : σ → α → Option σ) (ok : σ → α → Prop) (s : σ) : σ → Prop
  | refl : Reaches step ok s s
  | tail {t u : σ} {a : α} : Reaches step ok s t → ok t a → step t a = some u →
      Reaches step ok s u

variable {step : σ → α → Option σ} {ok : σ → α → Prop} {s t : σ}

/-- What holds at the start and survives every admissible step holds in every reached state. -/
theorem Reaches.invariant {P : σ → Prop} (h : Reaches step ok s t) (h0 : P s)
    (hs : ∀ u a v, P u → ok u a → step u a = some v → P v) : P t := by
  induction h with
  | refl => exact h0
  | tail _ hok hstep ih => exact hs _ _ _ ih hok hstep

/-- There is a run from `s` that never ends. -/
def RunsForever (step : σ → α → Option σ) (ok : σ → α → Prop) (s : σ) : Prop :=
  ∃ run : ℕ → σ, run 0 = s ∧ ∀ n, ∃ a, ok (run n) a ∧ step (run n) a = some (run (n + 1))

/-- Where every step decreases a measure, every run ends. -/
theorem not_runsForever {P : σ → Prop} (measure : σ → ℕ) (h0 : P s)
    (hs : ∀ u a v, P u → ok u a → step u a = some v → P v ∧ measure v < measure u) :
    ¬ RunsForever step ok s := by
  rintro ⟨run, hstart, hrun⟩
  have hbound : ∀ n, P (run n) ∧ measure (run n) + n ≤ measure s := by
    intro n
    induction n with
    | zero =>
      rw [hstart]
      exact ⟨h0, Nat.le_refl _⟩
    | succ n ih =>
      obtain ⟨a, hok, hstep⟩ := hrun n
      obtain ⟨hP, hlt⟩ := hs _ _ _ ih.1 hok hstep
      exact ⟨hP, by omega⟩
  have := (hbound (measure s + 1)).2
  omega

/-- Where every step lowers a rank, every run ends. A state may have several ranks. -/
theorem not_runsForever_of_rank {P : σ → ℕ → Prop} {rank : ℕ} (h0 : P s rank)
    (hs : ∀ u n a v, P u n → ok u a → step u a = some v → ∃ m, m < n ∧ P v m) :
    ¬ RunsForever step ok s := by
  rintro ⟨run, hstart, hrun⟩
  have hbound : ∀ n, ∃ m, P (run n) m ∧ m + n ≤ rank := by
    intro n
    induction n with
    | zero => exact ⟨rank, hstart.symm ▸ h0, Nat.le_refl _⟩
    | succ n ih =>
      obtain ⟨m, hP, hle⟩ := ih
      obtain ⟨a, hok, hstep⟩ := hrun n
      obtain ⟨m', hlt, hP'⟩ := hs _ m _ _ hP hok hstep
      exact ⟨m', hP', by omega⟩
  obtain ⟨m, -, hle⟩ := hbound (rank + 1)
  omega

/-- Where every step decreases a measure, some run ends in a state that has no step. -/
theorem exists_stuck {P : σ → Prop} (measure : σ → ℕ) (h0 : P s)
    (hs : ∀ u a v, P u → ok u a → step u a = some v → P v ∧ measure v < measure u) :
    ∃ t, Reaches step ok s t ∧ ∀ a, ok t a → step t a = none := by
  suffices h : ∀ n t, Reaches step ok s t → P t → measure t ≤ n →
      ∃ u, Reaches step ok s u ∧ ∀ a, ok u a → step u a = none from
    h (measure s) s .refl h0 (Nat.le_refl _)
  intro n
  induction n with
  | zero =>
    intro t ht hP hle
    refine ⟨t, ht, fun a hok => ?_⟩
    cases hstep : step t a with
    | none => rfl
    | some u =>
      have := (hs t a u hP hok hstep).2
      omega
  | succ n ih =>
    intro t ht hP hle
    by_cases hstuck : ∀ a, ok t a → step t a = none
    · exact ⟨t, ht, hstuck⟩
    · push Not at hstuck
      obtain ⟨a, hok, hne⟩ := hstuck
      obtain ⟨u, hstep⟩ := Option.ne_none_iff_exists'.mp hne
      obtain ⟨hPu, hlt⟩ := hs t a u hP hok hstep
      exact ih u (ht.tail hok hstep) hPu (by omega)

/-- The state after a list of operations, each of them admissible. -/
def exec (step : σ → α → Option σ) (ok : σ → α → Prop) [∀ s a, Decidable (ok s a)] (s : σ) :
    List α → Option σ
  | [] => some s
  | a :: as => if ok s a then (step s a).bind fun t => exec step ok t as else none

theorem reaches_of_exec [∀ s a, Decidable (ok s a)] {as : List α} {u : σ}
    (h : Reaches step ok s t) (he : exec step ok t as = some u) : Reaches step ok s u := by
  induction as generalizing t with
  | nil =>
    obtain rfl : t = u := by simpa [exec] using he
    exact h
  | cons a as ih =>
    rw [exec, Option.ite_none_right_eq_some] at he
    obtain ⟨hok, hbind⟩ := he
    obtain ⟨v, hv, hrest⟩ := Option.bind_eq_some_iff.mp hbind
    exact ih (h.tail hok hv) hrest

/-- A concrete run whose result is read off by evaluation. -/
theorem reaches_exec [∀ s a, Decidable (ok s a)] {as : List α}
    (h : (exec step ok s as).isSome) : Reaches step ok s ((exec step ok s as).getD s) := by
  obtain ⟨u, hu⟩ := Option.isSome_iff_exists.mp h
  rw [hu]
  exact reaches_of_exec .refl hu

end Lib
