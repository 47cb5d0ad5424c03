import AflPlusPlus.Lib.Stopping

/-!
# Programs that ask an oracle

An oracle answers each question by what has been asked up to it. A causal program keeps the history
of its questions, of which `asked` is the length, and what it does depends on the oracle only
through the histories it has come by: two oracles that agree up to the history at its end lead to
the same run.
-/

namespace Lib

variable {ε σ α β Q A : Type}

/-- The answers to the first `n` questions are the same. -/
def AgreeUpTo (n : ℕ) (o o' : List Q → A) : Prop := ∀ h : List Q, h.length ≤ n → o' h = o h

theorem AgreeUpTo.mono {n n' : ℕ} {o o' : List Q → A} (h : AgreeUpTo n' o o') (hle : n ≤ n') :
    AgreeUpTo n o o' := fun q hq => h q (Nat.le_trans hq hle)

structure Causal (asked : σ → ℕ) (m : (List Q → A) → Stopping ε σ α) : Prop where
  grows : ∀ o s, asked s ≤ asked (m o s).2
  same : ∀ o o' s, AgreeUpTo (asked (m o s).2) o o' → m o' s = m o s

namespace Causal

variable {asked : σ → ℕ}

/-- A program without questions. -/
theorem of_const {m : Stopping ε σ α} (h : ∀ s, asked s ≤ asked (m s).2) :
    Causal asked fun _ : List Q → A => m :=
  ⟨fun _ => h, fun _ _ _ _ => rfl⟩

theorem pure (a : α) : Causal asked fun _ : List Q → A => (Pure.pure a : Stopping ε σ α) :=
  of_const fun _ => Nat.le_refl _

theorem modify {f : σ → σ} (h : ∀ s, asked (f s) = asked s) :
    Causal asked fun _ : List Q → A => (modify f : Stopping ε σ PUnit) :=
  of_const fun s => Nat.le_of_eq (h s).symm

theorem bind {m : (List Q → A) → Stopping ε σ α} {f : (List Q → A) → α → Stopping ε σ β}
    (hm : Causal asked m) (hf : ∀ a, Causal asked fun o => f o a) :
    Causal asked fun o => m o >>= f o := by
  refine ⟨fun o s => ?_, fun o o' s hsame => ?_⟩
  · have hfirst := hm.grows o s
    rcases hrun : m o s with ⟨e | a, s'⟩
    · rw [Stopping.bind_of_error hrun]
      rwa [hrun] at hfirst
    · rw [Stopping.bind_of_ok hrun]
      rw [hrun] at hfirst
      exact Nat.le_trans hfirst ((hf a).grows o s')
  · rcases hrun : m o s with ⟨e | a, s'⟩
    · rw [Stopping.bind_of_error hrun] at hsame
      have hfirst : AgreeUpTo (asked (m o s).2) o o' := by rwa [hrun]
      have hrun' : m o' s = (.error e, s') := (hm.same o o' s hfirst).trans hrun
      rw [Stopping.bind_of_error hrun, Stopping.bind_of_error hrun']
    · rw [Stopping.bind_of_ok hrun] at hsame
      -- the first part has asked no more than both
      have hfirst : AgreeUpTo (asked (m o s).2) o o' := by
        rw [hrun]
        exact hsame.mono ((hf a).grows o s')
      have hrun' : m o' s = (.ok a, s') := (hm.same o o' s hfirst).trans hrun
      rw [Stopping.bind_of_ok hrun, Stopping.bind_of_ok hrun']
      exact (hf a).same o o' s' hsame

theorem get_bind {f : (List Q → A) → σ → Stopping ε σ α} (hf : ∀ s, Causal asked fun o => f o s) :
    Causal asked fun o => get >>= f o :=
  ⟨fun o s => (hf s).grows o s, fun o o' s h => (hf s).same o o' s h⟩

/-- The condition does not depend on the oracle, however it is decided. -/
theorem cond {p : Prop} {d : (List Q → A) → Decidable p} {m n : (List Q → A) → Stopping ε σ α}
    (hm : Causal asked m) (hn : Causal asked n) :
    Causal asked fun o => @ite _ p (d o) (m o) (n o) := by
  by_cases hp : p
  · simpa only [if_pos hp] using hm
  · simpa only [if_neg hp] using hn

theorem onlyIf {p : Prop} {d : (List Q → A) → Decidable p} {m : (List Q → A) → Stopping ε σ Unit}
    (hm : Causal asked m) : Causal asked fun o => @Stopping.onlyIf _ _ p (d o) (m o) :=
  cond hm (pure ())

end Causal

/-- From `s` on the program does what `post` says for every oracle that has answered like `o` so
far. -/
def Henceforth (asked : σ → ℕ) (o : List Q → A) (E : ε → Prop) (m : (List Q → A) → Stopping ε σ α)
    (s : σ) (post : α → σ → Prop) : Prop :=
  ∀ o', AgreeUpTo (asked s) o o' → Ensures E (m o') s post

/-- What is left of a program once its first part has been run. -/
theorem Henceforth.rest {asked : σ → ℕ} {o : List Q → A} {E : ε → Prop}
    {m : (List Q → A) → Stopping ε σ α} {f : (List Q → A) → α → Stopping ε σ β} {s s' : σ} {a : α}
    {post : β → σ → Prop} (h : Henceforth asked o E (fun o => m o >>= f o) s post)
    (hm : Causal asked m) (hrun : m o s = (.ok a, s')) :
    Henceforth asked o E (fun o => f o a) s' post := by
  intro o' hagree
  have hgrows := hm.grows o s
  rw [hrun] at hgrows
  have hrun' : m o' s = (.ok a, s') := (hm.same o o' s (by rwa [hrun])).trans hrun
  exact (ensures_bind_iff hrun').mp (h o' (hagree.mono hgrows))

end Lib
