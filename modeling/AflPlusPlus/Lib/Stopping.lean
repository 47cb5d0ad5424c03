import Mathlib.Data.Nat.Init

/-!
# Computations that may stop

A computation passes on a state and either returns or stops for some reason; the state that it has
reached is kept in both cases. `Obeys R E m` says that whenever `m` returns, the states before and
after it are related by `R`, and whenever it stops, it is for a reason in `E`. The rules follow the
structure of a program.
-/

namespace Lib

def Stopping (ε σ α : Type) : Type := σ → Except ε α × σ

namespace Stopping

variable {ε σ α β : Type}

def bind (m : Stopping ε σ α) (f : α → Stopping ε σ β) : Stopping ε σ β := fun s =>
  match m s with
  | (.ok a, s') => f a s'
  | (.error e, s') => (.error e, s')

instance : Monad (Stopping ε σ) where
  pure a := fun s => (.ok a, s)
  bind := bind

instance : MonadStateOf σ (Stopping ε σ) where
  get := fun s => (.ok s, s)
  set s := fun _ => (.ok ⟨⟩, s)
  modifyGet f := fun s => (.ok (f s).1, (f s).2)

def stop (e : ε) : Stopping ε σ α := fun s => (.error e, s)

/-- `if (p) m;` -/
def onlyIf (p : Prop) [Decidable p] (m : Stopping ε σ Unit) : Stopping ε σ Unit :=
  if p then m else pure ()

/-- Undo something in the state, whether the computation returns or stops. -/
def restoring (undo : σ → σ) (m : Stopping ε σ α) : Stopping ε σ α := fun s =>
  ((m s).1, undo (m s).2)

theorem bind_apply (m : Stopping ε σ α) (f : α → Stopping ε σ β) (s : σ) :
    (m >>= f) s = match m s with
      | (.ok a, s') => f a s'
      | (.error e, s') => (.error e, s') := rfl

@[simp]
theorem get_bind_apply (f : σ → Stopping ε σ β) (s : σ) : (get >>= f) s = f s s := rfl

@[simp]
theorem modify_bind_apply (g : σ → σ) (f : PUnit → Stopping ε σ β) (s : σ) :
    (modify g >>= f) s = f ⟨⟩ (g s) := rfl

/-- A first part that returns hands its state on. -/
theorem bind_of_ok {m : Stopping ε σ α} {f : α → Stopping ε σ β} {s s' : σ} {a : α}
    (h : m s = (.ok a, s')) : (m >>= f) s = f a s' := by
  rw [bind_apply, h]

theorem bind_of_error {m : Stopping ε σ α} {f : α → Stopping ε σ β} {s s' : σ} {e : ε}
    (h : m s = (.error e, s')) : (m >>= f) s = (.error e, s') := by
  rw [bind_apply, h]

theorem onlyIf_of_not {p : Prop} [Decidable p] (h : ¬ p) (m : Stopping ε σ Unit) (s : σ) :
    onlyIf p m s = (.ok (), s) := by
  rw [onlyIf, if_neg h]
  rfl

theorem bind_assoc {γ : Type} (m : Stopping ε σ α) (f : α → Stopping ε σ β)
    (g : β → Stopping ε σ γ) : (m >>= f) >>= g = m >>= fun a => f a >>= g := by
  funext s
  rcases hrun : m s with ⟨e | a, s'⟩
  · rw [bind_of_error (bind_of_error hrun), bind_of_error hrun]
  · rw [bind_apply (m >>= f), bind_of_ok hrun, bind_of_ok hrun]
    rfl

end Stopping

/-! ### Frames -/

section Frames

variable {ε σ α β : Type} {R : σ → σ → Prop} {E : ε → Prop}

/-- A relation between the states before and after a part of a program. -/
structure IsFrame (R : σ → σ → Prop) : Prop where
  refl : ∀ s, R s s
  trans : ∀ {s t u}, R s t → R t u → R s u

def ObeysAt (R : σ → σ → Prop) (E : ε → Prop) (m : Stopping ε σ α) (s : σ) : Prop :=
  match m s with
  | (.ok _, s') => R s s'
  | (.error e, _) => E e

def Obeys (R : σ → σ → Prop) (E : ε → Prop) (m : Stopping ε σ α) : Prop := ∀ s, ObeysAt R E m s

theorem ObeysAt.returns {m : Stopping ε σ α} {s s' : σ} {a : α} (h : ObeysAt R E m s)
    (hrun : m s = (.ok a, s')) : R s s' := by
  rw [ObeysAt, hrun] at h
  exact h

theorem ObeysAt.stops {m : Stopping ε σ α} {s s' : σ} {e : ε} (h : ObeysAt R E m s)
    (hrun : m s = (.error e, s')) : E e := by
  rw [ObeysAt, hrun] at h
  exact h

theorem ObeysAt.pure (hR : IsFrame R) (a : α) (s : σ) :
    ObeysAt R E (Pure.pure a : Stopping ε σ α) s := hR.refl s

theorem Obeys.pure (hR : IsFrame R) (a : α) : Obeys R E (Pure.pure a : Stopping ε σ α) :=
  fun s => hR.refl s

theorem Obeys.stop {e : ε} (h : E e) : Obeys R E (Stopping.stop e : Stopping ε σ α) := fun _ => h

theorem Obeys.modify {f : σ → σ} (h : ∀ s, R s (f s)) :
    Obeys R E (modify f : Stopping ε σ PUnit) := h

theorem ObeysAt.bind (hR : IsFrame R) {m : Stopping ε σ α} {f : α → Stopping ε σ β} {s : σ}
    (hm : ObeysAt R E m s) (hf : ∀ a s', m s = (.ok a, s') → ObeysAt R E (f a) s') :
    ObeysAt R E (m >>= f) s := by
  rcases hrun : m s with ⟨e | a, s'⟩
  · rw [ObeysAt, Stopping.bind_of_error hrun]
    exact hm.stops hrun
  · rw [ObeysAt, Stopping.bind_of_ok hrun]
    have hrest := hf a s' hrun
    rw [ObeysAt] at hrest
    split
    · rename_i heq
      rw [heq] at hrest
      exact hR.trans (hm.returns hrun) hrest
    · rename_i heq
      rw [heq] at hrest
      exact hrest

theorem Obeys.bind (hR : IsFrame R) {m : Stopping ε σ α} {f : α → Stopping ε σ β}
    (hm : Obeys R E m) (hf : ∀ a, Obeys R E (f a)) : Obeys R E (m >>= f) :=
  fun s => ObeysAt.bind hR (hm s) fun a s' _ => hf a s'

/-- Reading the state is no step. -/
theorem Obeys.get_bind {f : σ → Stopping ε σ β} (hf : ∀ s, ObeysAt R E (f s) s) :
    Obeys R E (get >>= f) := hf

theorem Obeys.ite {p : Prop} [Decidable p] {m n : Stopping ε σ α} (hthen : p → Obeys R E m)
    (helse : ¬ p → Obeys R E n) : Obeys R E (if p then m else n) := by
  split
  · exact hthen ‹p›
  · exact helse ‹¬ p›

theorem Obeys.onlyIf (hR : IsFrame R) {p : Prop} [Decidable p] {m : Stopping ε σ Unit}
    (hm : p → Obeys R E m) : Obeys R E (Stopping.onlyIf p m) :=
  Obeys.ite hm fun _ => Obeys.pure hR ()

theorem Obeys.restoring {undo : σ → σ} {m : Stopping ε σ α} (hm : Obeys R E m)
    (hundo : ∀ s t, R s t → R s (undo t)) : Obeys R E (Stopping.restoring undo m) := by
  intro s
  have hs := hm s
  rw [ObeysAt] at hs ⊢
  rw [Stopping.restoring]
  rcases hrun : m s with ⟨e | a, s'⟩
  · rw [hrun] at hs
    exact hs
  · rw [hrun] at hs
    exact hundo s s' hs

end Frames

/-! ### Postconditions -/

section Ensures

variable {ε σ α β : Type} {E : ε → Prop} {s : σ}

/-- From `s` the computation returns as `post` says, or it stops for a reason in `E`. -/
structure Ensures (E : ε → Prop) (m : Stopping ε σ α) (s : σ) (post : α → σ → Prop) : Prop where
  returns : ∀ {a s'}, m s = (.ok a, s') → post a s'
  stops : ∀ {e s'}, m s = (.error e, s') → E e

theorem Ensures.of_result {m : Stopping ε σ α} {post : α → σ → Prop} {a : α}
    (h : Ensures E m s post) (hrun : (m s).1 = .ok a) : post a (m s).2 :=
  h.returns (Prod.ext hrun rfl)

/-- A computation that returns at once. -/
theorem Ensures.of_returns {m : Stopping ε σ α} {post : α → σ → Prop} {a : α} {s' : σ}
    (hrun : m s = (.ok a, s')) (h : post a s') : Ensures E m s post where
  returns hrun' := by
    rw [hrun] at hrun'
    cases hrun'
    exact h
  stops hrun' := by
    rw [hrun] at hrun'
    cases hrun'

theorem Ensures.pure {post : α → σ → Prop} {a : α} (h : post a s) :
    Ensures E (Pure.pure a : Stopping ε σ α) s post := .of_returns rfl h

theorem Ensures.set {post : PUnit → σ → Prop} {s' : σ} (h : post ⟨⟩ s') :
    Ensures E (MonadStateOf.set s' : Stopping ε σ PUnit) s post := .of_returns rfl h

/-- A computation that stops at once. -/
theorem Ensures.of_stops {m : Stopping ε σ α} {post : α → σ → Prop} {e : ε} {s' : σ}
    (hrun : m s = (.error e, s')) (h : E e) : Ensures E m s post where
  returns hrun' := by
    rw [hrun] at hrun'
    cases hrun'
  stops hrun' := by
    rw [hrun] at hrun'
    cases hrun'
    exact h

theorem Ensures.stop {post : α → σ → Prop} {e : ε} (h : E e) :
    Ensures E (Stopping.stop e : Stopping ε σ α) s post := .of_stops rfl h

theorem Ensures.bind {m : Stopping ε σ α} {f : α → Stopping ε σ β} {mid : α → σ → Prop}
    {post : β → σ → Prop} (hm : Ensures E m s mid)
    (hf : ∀ a s', mid a s' → Ensures E (f a) s' post) : Ensures E (m >>= f) s post := by
  rcases hrun : m s with ⟨e | a, s'⟩
  · refine ⟨fun h => ?_, fun h => ?_⟩
    all_goals
      rw [Stopping.bind_of_error hrun] at h
      cases h
    exact hm.stops hrun
  · refine ⟨fun h => ?_, fun h => ?_⟩
    all_goals rw [Stopping.bind_of_ok hrun] at h
    · exact (hf a s' (hm.returns hrun)).returns h
    · exact (hf a s' (hm.returns hrun)).stops h

/-- A computation that runs on as another one. -/
theorem ensures_iff_of_eq {m m' : Stopping ε σ α} {s' : σ} {post : α → σ → Prop}
    (hrun : m s = m' s') : Ensures E m s post ↔ Ensures E m' s' post :=
  ⟨fun h => ⟨fun hend => h.returns (hrun.trans hend), fun hend => h.stops (hrun.trans hend)⟩,
    fun h => ⟨fun hend => h.returns (hrun.symm.trans hend),
      fun hend => h.stops (hrun.symm.trans hend)⟩⟩

theorem ensures_bind_iff {m : Stopping ε σ α} {f : α → Stopping ε σ β} {post : β → σ → Prop}
    {a : α} {s' : σ} (hrun : m s = (.ok a, s')) :
    Ensures E (m >>= f) s post ↔ Ensures E (f a) s' post :=
  ensures_iff_of_eq (Stopping.bind_of_ok hrun)

theorem Ensures.get_bind {f : σ → Stopping ε σ β} {post : β → σ → Prop}
    (hf : Ensures E (f s) s post) : Ensures E (get >>= f) s post := ⟨hf.returns, hf.stops⟩

theorem Ensures.modify_bind {g : σ → σ} {f : PUnit → Stopping ε σ β} {post : β → σ → Prop}
    (hf : Ensures E (f ⟨⟩) (g s) post) : Ensures E (modify g >>= f) s post :=
  ⟨hf.returns, hf.stops⟩

theorem Ensures.modify {g : σ → σ} {post : PUnit → σ → Prop} (h : post ⟨⟩ (g s)) :
    Ensures E (modify g : Stopping ε σ PUnit) s post := .of_returns rfl h

theorem Ensures.ite {p : Prop} [Decidable p] {m n : Stopping ε σ α} {post : α → σ → Prop}
    (hthen : p → Ensures E m s post) (helse : ¬ p → Ensures E n s post) :
    Ensures E (if p then m else n) s post := by
  split
  · exact hthen ‹p›
  · exact helse ‹¬ p›

theorem Ensures.onlyIf {p : Prop} [Decidable p] {m : Stopping ε σ Unit} {post : Unit → σ → Prop}
    (hm : p → Ensures E m s post) (hskip : ¬ p → post () s) :
    Ensures E (Stopping.onlyIf p m) s post := Ensures.ite hm fun hp => Ensures.pure (hskip hp)

theorem Ensures.mono {m : Stopping ε σ α} {post post' : α → σ → Prop} (h : Ensures E m s post)
    (hpost : ∀ a s', post a s' → post' a s') : Ensures E m s post' :=
  ⟨fun hrun => hpost _ _ (h.returns hrun), h.stops⟩

end Ensures

end Lib
