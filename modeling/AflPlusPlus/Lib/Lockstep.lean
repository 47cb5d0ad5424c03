import Mathlib.Data.Nat.Init
import Mathlib.Data.Option.Defs

/-!
# Two computations in lockstep

Computations that pass on a state and may fail. `Agree R m n` says that from every state `m` and `n`
both fail, or both go on with the same state and results that are related by `R`; the rules build
such a fact along the structure of the two programs. `Returns m post` is what is known of the
results of one computation.
-/

namespace Lib

variable {σ α β γ δ : Type} {R : α → β → Prop}

def Returns (m : StateT σ Option α) (post : α → Prop) : Prop :=
  ∀ s a s', m s = some (a, s') → post a

def AgreeAt (R : α → β → Prop) (m : StateT σ Option α) (n : StateT σ Option β) (s : σ) : Prop :=
  Option.Rel (fun p q => R p.1 q.1 ∧ p.2 = q.2) (m s) (n s)

def Agree (R : α → β → Prop) (m : StateT σ Option α) (n : StateT σ Option β) : Prop :=
  ∀ s, AgreeAt R m n s

theorem Returns.pure {post : α → Prop} {a : α} (h : post a) :
    Returns (Pure.pure a : StateT σ Option α) post := by
  intro s b s' heq
  have hsame : some (a, s) = some (b, s') := heq
  cases hsame
  exact h

theorem Returns.bind {m : StateT σ Option α} {f : α → StateT σ Option β} {mid : α → Prop}
    {post : β → Prop} (hm : Returns m mid) (hf : ∀ a, mid a → Returns (f a) post) :
    Returns (m >>= f) post := by
  intro s b s' heq
  obtain ⟨⟨a, s''⟩, hma, hfa⟩ := Option.bind_eq_some_iff.mp heq
  exact hf a (hm s a s'' hma) s'' b s' hfa

theorem Returns.mono {m : StateT σ Option α} {post post' : α → Prop} (h : Returns m post)
    (hpost : ∀ a, post a → post' a) : Returns m post' :=
  fun s a s' heq => hpost a (h s a s' heq)

/-- What is returned at the end does not depend on the first part. -/
theorem Returns.after {m : StateT σ Option α} {f : α → StateT σ Option β} {post : β → Prop}
    (hf : ∀ a, Returns (f a) post) : Returns (m >>= f) post :=
  Returns.bind (fun _ _ _ _ => trivial : Returns m fun _ => True) fun a _ => hf a

theorem Returns.ite {p : Prop} [Decidable p] {m n : StateT σ Option α} {post : α → Prop}
    (hthen : p → Returns m post) (helse : ¬ p → Returns n post) :
    Returns (if p then m else n) post := by
  split
  · exact hthen ‹p›
  · exact helse ‹¬ p›

theorem Agree.pure {a : α} {b : β} (h : R a b) :
    Agree R (Pure.pure a : StateT σ Option α) (Pure.pure b : StateT σ Option β) :=
  fun _ => .some ⟨h, rfl⟩

theorem Agree.refl {m : StateT σ Option α} {post : α → Prop} (h : Returns m post) :
    Agree (fun a b => a = b ∧ post a) m m := by
  intro s
  rw [AgreeAt]
  cases hm : m s with
  | none => exact .none
  | some p => exact .some ⟨⟨rfl, h s p.1 p.2 hm⟩, rfl⟩

theorem AgreeAt.bind {m : StateT σ Option γ} {n : StateT σ Option δ} {f : γ → StateT σ Option α}
    {g : δ → StateT σ Option β} {Q : γ → δ → Prop} {s : σ} (hmn : AgreeAt Q m n s)
    (hfg : ∀ c d, Q c d → ∀ s', m s = some (c, s') → AgreeAt R (f c) (g d) s') :
    AgreeAt R (m >>= f) (n >>= g) s := by
  rw [AgreeAt] at hmn
  change Option.Rel _ ((m s).bind _) ((n s).bind _)
  generalize hm : m s = x at hmn ⊢
  generalize n s = y at hmn ⊢
  cases hmn with
  | none => exact .none
  | some h =>
    obtain ⟨hQ, hs⟩ := h
    rename_i p q
    obtain ⟨c, s'⟩ := p
    obtain ⟨d, s''⟩ := q
    obtain rfl : s' = s'' := hs
    exact hfg c d hQ s' hm

/-- After the same first result. -/
theorem agreeAt_bind {m : StateT σ Option γ} {n : StateT σ Option δ} {f : γ → StateT σ Option α}
    {g : δ → StateT σ Option β} {s s' : σ} {c : γ} {d : δ} (hm : m s = some (c, s'))
    (hn : n s = some (d, s')) : AgreeAt R (m >>= f) (n >>= g) s ↔ AgreeAt R (f c) (g d) s' := by
  have hl : (m >>= f) s = f c s' := by
    change (m s).bind _ = _
    rw [hm]
    rfl
  have hr : (n >>= g) s = g d s' := by
    change (n s).bind _ = _
    rw [hn]
    rfl
  rw [AgreeAt, AgreeAt, hl, hr]

/-- When the first part fails. -/
theorem agreeAt_bind_none {m : StateT σ Option γ} {n : StateT σ Option δ}
    {f : γ → StateT σ Option α} {g : δ → StateT σ Option β} {s : σ} (hm : m s = none)
    (hn : n s = none) : AgreeAt R (m >>= f) (n >>= g) s := by
  change Option.Rel _ ((m s).bind _) ((n s).bind _)
  rw [hm, hn]
  exact .none

theorem Agree.bind {m : StateT σ Option γ} {n : StateT σ Option δ} {f : γ → StateT σ Option α}
    {g : δ → StateT σ Option β} {Q : γ → δ → Prop} (hmn : Agree Q m n)
    (hfg : ∀ c d, Q c d → Agree R (f c) (g d)) : Agree R (m >>= f) (n >>= g) :=
  fun s => AgreeAt.bind (hmn s) fun c d hQ s' _ => hfg c d hQ s'

/-- Both programs make the same draw. -/
theorem Agree.same {m : StateT σ Option γ} {post : γ → Prop} {f : γ → StateT σ Option α}
    {g : γ → StateT σ Option β} (hm : Returns m post)
    (hfg : ∀ c, post c → Agree R (f c) (g c)) : Agree R (m >>= f) (m >>= g) :=
  Agree.bind (Agree.refl hm) fun c _ ⟨heq, hpost⟩ => heq ▸ hfg c hpost

theorem Agree.ite {p : Prop} [Decidable p] {m m' : StateT σ Option α} {n n' : StateT σ Option β}
    (hthen : p → Agree R m n) (helse : ¬ p → Agree R m' n') :
    Agree R (if p then m else m') (if p then n else n') := by
  split
  · exact hthen ‹p›
  · exact helse ‹¬ p›

end Lib
