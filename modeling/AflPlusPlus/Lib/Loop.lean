import Mathlib.Data.Nat.Init
import Mathlib.Logic.Function.Basic

/-!
# Counting loops

`forLoop n body s` runs `body 0`, `body 1`, …, `body (n - 1)` in this order on the state `s`, and
`downLoop n body s` runs `body (n - 1)`, …, `body 0`. Both come with one invariant rule; facts about
a concrete loop are obtained from it and never by unfolding the recursion. `whileLoop` tests a
condition, with a bound on the number of tests and a body that can fail, and its rule shows that it
ends.
-/

namespace Lib

variable {σ τ : Type*}

/-- `for (i = 0; i < n; ++i) s = body(i, s)`. -/
def forLoop : ℕ → (ℕ → σ → σ) → σ → σ
  | 0, _, s => s
  | n + 1, body, s => body n (forLoop n body s)

/-- `i = n; while (i--) s = body(i, s)`. -/
def downLoop : ℕ → (ℕ → σ → σ) → σ → σ
  | 0, _, s => s
  | n + 1, body, s => downLoop n body (body n s)

@[simp]
theorem forLoop_zero (body : ℕ → σ → σ) (s : σ) : forLoop 0 body s = s := rfl

theorem forLoop_succ (n : ℕ) (body : ℕ → σ → σ) (s : σ) :
    forLoop (n + 1) body s = body n (forLoop n body s) := rfl

/-- Invariant rule: `P i` describes the state before the `i`-th iteration. -/
theorem forLoop_induct {n : ℕ} {body : ℕ → σ → σ} {s : σ} (P : ℕ → σ → Prop) (h0 : P 0 s)
    (hs : ∀ i t, i < n → P i t → P (i + 1) (body i t)) : P n (forLoop n body s) := by
  induction n with
  | zero => exact h0
  | succ n ih =>
    exact hs n _ (Nat.lt_succ_self n) (ih fun i t hi ht => hs i t (Nat.lt_succ_of_lt hi) ht)

/-- The invariant rule when the invariant does not mention the counter. -/
theorem forLoop_invariant {n : ℕ} {body : ℕ → σ → σ} {s : σ} (P : σ → Prop) (h0 : P s)
    (hs : ∀ i t, i < n → P t → P (body i t)) : P (forLoop n body s) :=
  forLoop_induct (fun _ => P) h0 hs

/-- A component that no iteration changes is unchanged by the loop. -/
theorem forLoop_frame {n : ℕ} {body : ℕ → σ → σ} {s : σ} (f : σ → τ)
    (hs : ∀ i t, i < n → f (body i t) = f t) : f (forLoop n body s) = f s :=
  forLoop_invariant (fun t => f t = f s) rfl fun i t hi ht => (hs i t hi).trans ht

/-- A loop whose iterations all leave the start state alone returns it. -/
theorem forLoop_eq_self {n : ℕ} {body : ℕ → σ → σ} {s : σ} (hs : ∀ i, i < n → body i s = s) :
    forLoop n body s = s :=
  forLoop_invariant (fun t => t = s) rfl fun i t hi ht => by rw [ht, hs i hi]

/-- Invariant rule for the decreasing loop: `P i` holds when `i` iterations are left. -/
theorem downLoop_induct {n : ℕ} {body : ℕ → σ → σ} {s : σ} (P : ℕ → σ → Prop) (h0 : P n s)
    (hs : ∀ i t, i < n → P (i + 1) t → P i (body i t)) : P 0 (downLoop n body s) := by
  induction n generalizing s with
  | zero => exact h0
  | succ n ih =>
    exact ih (hs n s (Nat.lt_succ_self n) h0) fun i t hi ht => hs i t (Nat.lt_succ_of_lt hi) ht

/-- `while (cond(s)) s = body(s)`. The loop fails with its body, and when it makes more than `fuel`
tests. -/
def whileLoop (cond : σ → Bool) (body : σ → Option σ) : ℕ → σ → Option σ
  | 0, _ => none
  | fuel + 1, s => if cond s then (body s).bind (whileLoop cond body fuel) else some s

theorem whileLoop_done {cond : σ → Bool} {body : σ → Option σ} {fuel : ℕ} {s : σ}
    (h : cond s = false) : whileLoop cond body (fuel + 1) s = some s := by
  rw [whileLoop, h, if_neg Bool.false_ne_true]

theorem whileLoop_step {cond : σ → Bool} {body : σ → Option σ} {fuel : ℕ} {s t : σ}
    (h : cond s = true) (hbody : body s = some t) :
    whileLoop cond body (fuel + 1) s = whileLoop cond body fuel t := by
  rw [whileLoop, h, if_pos rfl, hbody, Option.bind_some]

/-- A body that changes nothing is repeated forever. -/
theorem whileLoop_stuck {cond : σ → Bool} {body : σ → Option σ} {s : σ} (h : cond s = true)
    (hbody : body s = some s) (fuel : ℕ) : whileLoop cond body fuel s = none := by
  induction fuel with
  | zero => rfl
  | succ fuel ih => rw [whileLoop_step h hbody, ih]

/-- More tests are allowed than the loop makes. -/
theorem whileLoop_add {cond : σ → Bool} {body : σ → Option σ} {fuel : ℕ} {s t : σ}
    (h : whileLoop cond body fuel s = some t) (k : ℕ) :
    whileLoop cond body (fuel + k) s = some t := by
  induction fuel generalizing s with
  | zero => cases h
  | succ fuel ih =>
    rw [Nat.succ_add]
    rw [whileLoop] at h ⊢
    split
    · rw [if_pos ‹_›] at h
      obtain ⟨u, hu, hrest⟩ := Option.bind_eq_some_iff.mp h
      rw [hu, Option.bind_some]
      exact ih hrest
    · rwa [if_neg ‹_›] at h

theorem whileLoop_unique {cond : σ → Bool} {body : σ → Option σ} {m n : ℕ} {s t u : σ}
    (ht : whileLoop cond body m s = some t) (hu : whileLoop cond body n s = some u) : t = u := by
  have h := whileLoop_add ht n
  rw [Nat.add_comm, whileLoop_add hu m] at h
  exact (Option.some.inj h).symm

/-- Invariant rule for a loop that ends. -/
theorem whileLoop_invariant {cond : σ → Bool} {body : σ → Option σ} {fuel : ℕ} {s t : σ}
    (P : σ → Prop) (h : whileLoop cond body fuel s = some t) (h0 : P s)
    (hs : ∀ u v, P u → cond u = true → body u = some v → P v) : P t ∧ cond t = false := by
  induction fuel generalizing s with
  | zero => cases h
  | succ fuel ih =>
    rw [whileLoop] at h
    split at h
    · obtain ⟨u, hu, hrest⟩ := Option.bind_eq_some_iff.mp h
      exact ih hrest (hs s u h0 ‹_› hu)
    · obtain rfl := Option.some.inj h
      exact ⟨h0, Bool.eq_false_iff.mpr ‹_›⟩

/-- A loop whose body keeps the invariant and decreases a measure ends, with the invariant and with
its condition false. -/
theorem whileLoop_total (cond : σ → Bool) (body : σ → Option σ) {fuel : ℕ} {s : σ} (P : σ → Prop)
    (measure : σ → ℕ) (h0 : P s) (hfuel : measure s < fuel)
    (hs : ∀ t, P t → cond t = true → ∃ u, body t = some u ∧ P u ∧ measure u < measure t) :
    ∃ t, whileLoop cond body fuel s = some t ∧ P t ∧ cond t = false := by
  induction fuel generalizing s with
  | zero => exact absurd hfuel (Nat.not_lt_zero _)
  | succ fuel ih =>
    rw [whileLoop]
    cases hcond : cond s with
    | false => exact ⟨s, rfl, h0, hcond⟩
    | true =>
      obtain ⟨u, hu, hPu, hlt⟩ := hs s h0 hcond
      rw [if_pos rfl, hu, Option.bind_some]
      exact ih hPu (by omega)

end Lib
