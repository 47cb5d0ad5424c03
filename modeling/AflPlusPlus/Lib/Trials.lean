import Mathlib.Data.List.Basic

/-!
# Trials

A work piece is changed, tried as it is then, and in the end put back. A trial may itself change the
work piece; on a gentle bench it does not. `Tries P m P' Q` says of a sequence `m` of trials on such
a bench: whenever the work piece satisfies `P` before, it satisfies `P'` afterwards, and the pieces
that were tried are those that satisfy `Q`. The rules follow the structure of a program.
-/

namespace Lib

/-- The work piece, the list of all that was tried, and what a trial makes of the work piece after
the trials before. -/
structure Bench (α : Type) where
  work : α
  tried : List α
  after : List α → α → α

def Bench.Gentle {α : Type} (s : Bench α) : Prop := ∀ tried x, s.after tried x = x

abbrev Trials (α : Type) := StateM (Bench α)

variable {α β : Type}

namespace Trials

def change (f : α → α) : Trials α Unit := modify fun s => { s with work := f s.work }

def attempt : Trials α Unit := modify fun s =>
  { s with work := s.after s.tried s.work, tried := s.tried ++ [s.work] }

def onlyIf (p : Prop) [Decidable p] (m : Trials α Unit) : Trials α Unit := if p then m else pure ()

/-- All that is tried, from a fresh and gentle bench. -/
def attempts (m : Trials α Unit) (x : α) : List α := (m ⟨x, [], fun _ y => y⟩).2.tried

end Trials

structure Tries (P : α → Prop) (m : Trials α Unit) (P' Q : α → Prop) : Prop where
  work : ∀ s, s.Gentle → P s.work → P' (m s).2.work
  tried : ∀ s, s.Gentle → P s.work → ∀ x, x ∈ (m s).2.tried ↔ x ∈ s.tried ∨ Q x
  after : ∀ s, s.Gentle → P s.work → (m s).2.after = s.after

namespace Tries

open Trials

variable {P P' P'' Q R : α → Prop} {m n : Trials α Unit}

theorem gentle (h : Tries P m P' Q) {s : Bench α} (hs : s.Gentle) (hx : P s.work) :
    (m s).2.Gentle := by
  intro tried x
  rw [h.after s hs hx]
  exact hs tried x

theorem mem_attempts {x y : α} (h : Tries P m P' Q) (hx : P x) : y ∈ attempts m x ↔ Q y := by
  rw [attempts, h.tried ⟨x, [], fun _ y => y⟩ (fun _ _ => rfl) hx]
  exact or_iff_right List.not_mem_nil

theorem congr (h : Tries P m P' Q) (hQ : ∀ x, Q x ↔ R x) : Tries P m P' R where
  work := h.work
  tried := fun s hs hP x => (h.tried s hs hP x).trans (or_congr_right (hQ x))
  after := h.after

theorem mono (h : Tries P' m P'' Q) (hP : ∀ x, P x → P' x) : Tries P m P'' Q where
  work := fun s hs hx => h.work s hs (hP _ hx)
  tried := fun s hs hx => h.tried s hs (hP _ hx)
  after := fun s hs hx => h.after s hs (hP _ hx)

theorem skip : Tries P (pure ()) P fun _ => False where
  work := fun _ _ hx => hx
  tried := by
    intro s _ _ x
    rw [or_false]
    rfl
  after := fun _ _ _ => rfl

theorem change {f : α → α} (h : ∀ x, P x → P' (f x)) :
    Tries P (Trials.change f) P' fun _ => False where
  work := fun s _ hx => h _ hx
  tried := by
    intro s _ _ x
    rw [or_false]
    rfl
  after := fun _ _ _ => rfl

theorem attempt (y : α) : Tries (· = y) Trials.attempt (· = y) (· = y) where
  work := by
    rintro s hs rfl
    exact hs s.tried s.work
  tried := by
    rintro s _ rfl x
    change x ∈ s.tried ++ [s.work] ↔ _
    rw [List.mem_append, List.mem_singleton]
  after := fun _ _ _ => rfl

theorem bind (hm : Tries P m P' Q) (hn : Tries P' n P'' R) :
    Tries P (m >>= fun _ => n) P'' fun x => Q x ∨ R x where
  work := fun s hs hx => hn.work _ (hm.gentle hs hx) (hm.work s hs hx)
  tried := by
    intro s hs hx x
    change x ∈ (n (m s).2).2.tried ↔ _
    rw [hn.tried _ (hm.gentle hs hx) (hm.work s hs hx), hm.tried s hs hx, or_assoc]
  after := fun s hs hx =>
    (hn.after _ (hm.gentle hs hx) (hm.work s hs hx)).trans (hm.after s hs hx)

/-- What is read of the work piece is known. -/
theorem read {f : α → β} {b : β} {k : β → Trials α Unit} (hf : ∀ x, P x → f x = b)
    (hk : Tries P (k b) P' Q) : Tries P (get >>= fun s => k (f s.work)) P' Q where
  work := by
    intro s hs hx
    change P' (k (f s.work) s).2.work
    rw [hf _ hx]
    exact hk.work s hs hx
  tried := by
    intro s hs hx x
    change x ∈ (k (f s.work) s).2.tried ↔ _
    rw [hf _ hx]
    exact hk.tried s hs hx x
  after := by
    intro s hs hx
    change (k (f s.work) s).2.after = s.after
    rw [hf _ hx]
    exact hk.after s hs hx

theorem onlyIf (p : Prop) [Decidable p] (hm : p → Tries P m P Q) :
    Tries P (Trials.onlyIf p m) P fun x => p ∧ Q x := by
  by_cases hp : p
  · rw [Trials.onlyIf, if_pos hp]
    exact (hm hp).congr fun x => (and_iff_right hp).symm
  · rw [Trials.onlyIf, if_neg hp]
    exact skip.congr fun x => iff_of_false id fun h => hp h.1

theorem forM {l : List β} {m : β → Trials α Unit} {Q : β → α → Prop}
    (h : ∀ a ∈ l, Tries P (m a) P (Q a)) : Tries P (l.forM m) P fun x => ∃ a ∈ l, Q a x := by
  induction l with
  | nil => exact skip.congr fun x => by simp
  | cons a l ih =>
    have ha := h a List.mem_cons_self
    have hl := ih fun b hb => h b (List.mem_cons_of_mem a hb)
    exact (ha.bind hl).congr fun x => by simp

/-- The work piece is changed, tried, and put back. -/
theorem around {f g : α → α} {y z : α} (hf : f y = z) (hg : g z = y) :
    Tries (· = y) (Trials.change f >>= fun _ => Trials.attempt >>= fun _ => Trials.change g) (· = y)
      (· = z) := by
  have hfirst : Tries (· = y) (Trials.change f) (· = z) fun _ => False :=
    change fun x hx => (congrArg f hx).trans hf
  have hlast : Tries (· = z) (Trials.change g) (· = y) fun _ => False :=
    change fun x hx => (congrArg g hx).trans hg
  exact (hfirst.bind ((attempt z).bind hlast)).congr fun x => by simp

/-- The work piece is brought into a given state, and tried. -/
theorem place {f : α → α} {y : α} (hf : ∀ x, P x → f x = y) (hy : P y) :
    Tries P (Trials.change f >>= fun _ => Trials.attempt) P (· = y) where
  work := by
    intro s hs hx
    change P (s.after s.tried (f s.work))
    rw [hs, hf _ hx]
    exact hy
  tried := by
    intro s _ hx x
    change x ∈ s.tried ++ [f s.work] ↔ _
    rw [List.mem_append, List.mem_singleton, hf _ hx]
  after := fun _ _ _ => rfl

end Tries

/-- As `Tries`, but not all that satisfies `Q` need be tried. -/
structure TriesOnly (P : α → Prop) (m : Trials α Unit) (P' Q : α → Prop) : Prop where
  work : ∀ s, s.Gentle → P s.work → P' (m s).2.work
  tried : ∀ s, s.Gentle → P s.work → ∀ x ∈ (m s).2.tried, x ∈ s.tried ∨ Q x
  after : ∀ s, s.Gentle → P s.work → (m s).2.after = s.after

theorem Tries.only {P P' Q : α → Prop} {m : Trials α Unit} (h : Tries P m P' Q) :
    TriesOnly P m P' Q where
  work := h.work
  tried := fun s hs hP x hx => (h.tried s hs hP x).mp hx
  after := h.after

namespace TriesOnly

open Trials

variable {P P' P'' Q R : α → Prop} {m n : Trials α Unit}

theorem gentle (h : TriesOnly P m P' Q) {s : Bench α} (hs : s.Gentle) (hx : P s.work) :
    (m s).2.Gentle := by
  intro tried x
  rw [h.after s hs hx]
  exact hs tried x

theorem of_mem_attempts {x y : α} (h : TriesOnly P m P' Q) (hx : P x) (hy : y ∈ attempts m x) :
    Q y :=
  (h.tried ⟨x, [], fun _ y => y⟩ (fun _ _ => rfl) hx y hy).resolve_left List.not_mem_nil

theorem mono (h : TriesOnly P' m P'' Q) (hP : ∀ x, P x → P' x) (hQ : ∀ x, Q x → R x) :
    TriesOnly P m P'' R where
  work := fun s hs hx => h.work s hs (hP _ hx)
  tried := fun s hs hx x hmem => (h.tried s hs (hP _ hx) x hmem).imp_right (hQ x)
  after := fun s hs hx => h.after s hs (hP _ hx)

theorem bind (hm : TriesOnly P m P' Q) (hn : TriesOnly P' n P'' Q) :
    TriesOnly P (m >>= fun _ => n) P'' Q where
  work := fun s hs hx => hn.work _ (hm.gentle hs hx) (hm.work s hs hx)
  tried := by
    intro s hs hx x hmem
    rcases hn.tried _ (hm.gentle hs hx) (hm.work s hs hx) x hmem with hmem | hQ
    · exact hm.tried s hs hx x hmem
    · exact .inr hQ
  after := fun s hs hx =>
    (hn.after _ (hm.gentle hs hx) (hm.work s hs hx)).trans (hm.after s hs hx)

theorem read {f : α → β} {b : β} {k : β → Trials α Unit} (hf : ∀ x, P x → f x = b)
    (hk : TriesOnly P (k b) P' Q) : TriesOnly P (get >>= fun s => k (f s.work)) P' Q where
  work := by
    intro s hs hx
    change P' (k (f s.work) s).2.work
    rw [hf _ hx]
    exact hk.work s hs hx
  tried := by
    intro s hs hx x
    change x ∈ (k (f s.work) s).2.tried → _
    rw [hf _ hx]
    exact hk.tried s hs hx x
  after := by
    intro s hs hx
    change (k (f s.work) s).2.after = s.after
    rw [hf _ hx]
    exact hk.after s hs hx

theorem onlyIf (p : Prop) [Decidable p] (hm : p → TriesOnly P m P Q) :
    TriesOnly P (Trials.onlyIf p m) P Q := by
  by_cases hp : p
  · rw [Trials.onlyIf, if_pos hp]
    exact hm hp
  · rw [Trials.onlyIf, if_neg hp]
    exact Tries.skip.only.mono (fun _ hx => hx) fun _ hx => hx.elim

theorem forM {l : List β} {m : β → Trials α Unit} (h : ∀ a ∈ l, TriesOnly P (m a) P Q) :
    TriesOnly P (l.forM m) P Q := by
  induction l with
  | nil => exact Tries.skip.only.mono (fun _ hx => hx) fun _ hx => hx.elim
  | cons a l ih =>
    exact (h a List.mem_cons_self).bind (ih fun b hb => h b (List.mem_cons_of_mem a hb))

end TriesOnly

end Lib
