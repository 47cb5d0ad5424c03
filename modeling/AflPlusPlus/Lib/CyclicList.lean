import Mathlib.Data.List.Basic
import Mathlib.Data.List.Nodup

/-!
# Doubly linked rings

Cells with a pointer to the next cell and one to the previous cell, in a ring through a head. A
change of the pointers is described by what it writes and what it leaves alone, so that the rules
apply to any order of the single writes.
-/

namespace Lib

variable {A : Type*} {next prev next' prev' : A → Option A} {x z head : A} {l r cells : List A}

/-- From `x` the pointers lead through the cells `l` to `z`, and back. -/
def Linked (next prev : A → Option A) : A → List A → A → Prop
  | x, [], z => next x = some z ∧ prev z = some x
  | x, y :: ys, z => (next x = some y ∧ prev y = some x) ∧ Linked next prev y ys z

/-- The cells of a ring in their order, without the head. -/
def Ring (next prev : A → Option A) (head : A) (cells : List A) : Prop :=
  Linked next prev head cells head

theorem linked_append {y : A} :
    Linked next prev x (l ++ y :: r) z ↔ Linked next prev x l y ∧ Linked next prev y r z := by
  induction l generalizing x with
  | nil => exact Iff.rfl
  | cons a l ih =>
    rw [List.cons_append, Linked, Linked, ih]
    exact and_assoc.symm

theorem Linked.next_eq (h : Linked next prev x l z) : next x = some (l.headD z) := by
  cases l with
  | nil => exact h.1
  | cons y l => exact h.1.1

theorem Linked.exists_prev (h : Linked next prev x l z) : ∃ p ∈ x :: l, prev z = some p := by
  induction l generalizing x with
  | nil => exact ⟨x, List.mem_cons_self, h.2⟩
  | cons y l ih =>
    obtain ⟨p, hp, hprev⟩ := ih h.2
    exact ⟨p, List.mem_cons_of_mem x hp, hprev⟩

theorem Linked.prev_mem {p : A} (h : Linked next prev x l z) (hp : prev z = some p) :
    p ∈ x :: l := by
  obtain ⟨q, hq, hprev⟩ := h.exists_prev
  rwa [← Option.some.inj (hprev.symm.trans hp)]

theorem Linked.congr (h : Linked next prev x l z) (hnext : ∀ y ∈ x :: l, next' y = next y)
    (hprev : ∀ y ∈ l, prev' y = prev y) (hz : prev' z = prev z) : Linked next' prev' x l z := by
  induction l generalizing x with
  | nil => exact ⟨(hnext x List.mem_cons_self).trans h.1, hz.trans h.2⟩
  | cons y l ih =>
    refine ⟨⟨?_, ?_⟩, ih h.2 (fun w hw => hnext w (List.mem_cons_of_mem x hw))
      fun w hw => hprev w (List.mem_cons_of_mem y hw)⟩
    · exact (hnext x List.mem_cons_self).trans h.1.1
    · exact (hprev y List.mem_cons_self).trans h.1.2

/-- The last pointer forward is led to another cell. -/
theorem Linked.retarget {p z' : A} (h : Linked next prev x l z) (hp : prev z = some p)
    (hnodup : (x :: l).Nodup) (hnext : ∀ y ∈ x :: l, y ≠ p → next' y = next y)
    (hprev : ∀ y ∈ l, prev' y = prev y) (hp' : next' p = some z') (hz' : prev' z' = some p) :
    Linked next' prev' x l z' := by
  induction l generalizing x with
  | nil =>
    obtain rfl := Option.some.inj (h.2.symm.trans hp)
    exact ⟨hp', hz'⟩
  | cons y l ih =>
    obtain ⟨hx, hrest⟩ := List.nodup_cons.mp hnodup
    have hxp : x ≠ p := fun heq => hx (heq ▸ h.2.prev_mem hp)
    refine ⟨⟨?_, ?_⟩, ih h.2 hrest (fun w hw => hnext w (List.mem_cons_of_mem x hw))
      fun w hw => hprev w (List.mem_cons_of_mem y hw)⟩
    · exact (hnext x List.mem_cons_self hxp).trans h.1.1
    · exact (hprev y List.mem_cons_self).trans h.1.2

/-- A new cell is put in before the head. -/
theorem Ring.insert {a p : A} (h : Ring next prev head cells) (hnodup : (head :: cells).Nodup)
    (ha : a ∉ head :: cells) (hp : prev head = some p) (hnextA : next' a = some head)
    (hprevA : prev' a = some p) (hnextP : next' p = some a) (hprevH : prev' head = some a)
    (hnext : ∀ y, y ≠ a → y ≠ p → next' y = next y)
    (hprev : ∀ y, y ≠ a → y ≠ head → prev' y = prev y) :
    Ring next' prev' head (cells ++ [a]) := by
  have hne : ∀ y ∈ head :: cells, y ≠ a := fun y hy heq => ha (heq ▸ hy)
  refine linked_append.mpr ⟨?_, hnextA, hprevH⟩
  refine Linked.retarget h hp hnodup (fun y hy hyp => hnext y (hne y hy) hyp) (fun y hy => ?_)
    hnextP hprevA
  have hyh : y ≠ head := fun heq => (List.nodup_cons.mp hnodup).1 (heq ▸ hy)
  exact hprev y (hne y (List.mem_cons_of_mem head hy)) hyh

/-- A cell is taken out; nothing is said about its own pointers. -/
theorem Ring.unlink {a p n : A} (h : Ring next prev head (l ++ a :: r))
    (hnodup : (head :: (l ++ a :: r)).Nodup) (hp : prev a = some p) (hn : next a = some n)
    (hnextP : next' p = some n) (hprevN : prev' n = some p)
    (hnext : ∀ y, y ≠ a → y ≠ p → next' y = next y)
    (hprev : ∀ y, y ≠ a → y ≠ n → prev' y = prev y) : Ring next' prev' head (l ++ r) := by
  obtain ⟨hleft, hright⟩ := linked_append.mp h
  obtain ⟨hhead, htail⟩ := List.nodup_cons.mp hnodup
  obtain ⟨hl, har, hdisjoint⟩ := List.nodup_append.mp htail
  obtain ⟨ha, hr⟩ := List.nodup_cons.mp har
  have hleftNodup : (head :: l).Nodup :=
    List.nodup_cons.mpr ⟨fun hm => hhead (List.mem_append_left _ hm), hl⟩
  have hleftA : ∀ y ∈ head :: l, y ≠ a := by
    rintro y hy rfl
    rcases List.mem_cons.mp hy with rfl | hy
    · exact hhead (List.mem_append_right _ List.mem_cons_self)
    · exact hdisjoint y hy y List.mem_cons_self rfl
  have hpLeft := hleft.prev_mem hp
  cases r with
  | nil =>
    obtain rfl := Option.some.inj (hright.1.symm.trans hn)
    rw [List.append_nil]
    refine hleft.retarget hp hleftNodup (fun y hy => hnext y (hleftA y hy)) (fun y hy => ?_)
      hnextP hprevN
    refine hprev y (hleftA y (List.mem_cons_of_mem _ hy)) fun heq => ?_
    exact (List.nodup_cons.mp hleftNodup).1 (heq ▸ hy)
  | cons m r =>
    obtain ⟨⟨hnextA, -⟩, hrest⟩ := hright
    obtain rfl := Option.some.inj (hnextA.symm.trans hn)
    obtain ⟨hmr, -⟩ := List.nodup_cons.mp hr
    refine linked_append.mpr ⟨?_, ?_⟩
    · refine hleft.retarget hp hleftNodup (fun y hy => hnext y (hleftA y hy)) (fun y hy => ?_)
        hnextP hprevN
      refine hprev y (hleftA y (List.mem_cons_of_mem _ hy)) ?_
      rintro rfl
      exact hdisjoint y hy y (List.mem_cons_of_mem a List.mem_cons_self) rfl
    · refine hrest.congr (fun y hy => hnext y ?_ ?_) (fun y hy => hprev y ?_ ?_) (hprev head ?_ ?_)
      · rintro rfl
        exact ha hy
      · rintro rfl
        rcases List.mem_cons.mp hpLeft with rfl | hpl
        · exact hhead (List.mem_append_right _ (List.mem_cons_of_mem a hy))
        · exact hdisjoint y hpl y (List.mem_cons_of_mem a hy) rfl
      · rintro rfl
        exact ha (List.mem_cons_of_mem m hy)
      · rintro rfl
        exact hmr hy
      · exact hleftA head List.mem_cons_self
      · rintro rfl
        exact hhead (List.mem_append_right _ (List.mem_cons_of_mem a List.mem_cons_self))

end Lib
