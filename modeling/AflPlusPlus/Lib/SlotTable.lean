import AflPlusPlus.Lib.Tally

/-!
# Tables of slots

A table maps each slot number to the item it holds, if any. The results say how filling and clearing
one slot changes the number of occupied slots and the places of the items, and what a scan for a
free slot finds.
-/

namespace Lib

variable {α : Type*} {f : ℕ → Option α} {a : α} {n i : ℕ}

/-- No item is in two slots. -/
def SlotsDistinct (f : ℕ → Option α) : Prop := ∀ i j a, f i = some a → f j = some a → i = j

/-- The number of slots below `n` that hold an item. -/
def occupied (n : ℕ) (f : ℕ → Option α) : ℕ := tally n (fun o => o.isSome = true) f

theorem occupied_fill (hi : i < n) (h : f i = none) (a : α) :
    occupied n (Function.update f i (some a)) = occupied n f + 1 := by
  have hupd := tally_update (p := fun o : Option α => o.isSome = true) f (some a) hi
  rw [h] at hupd
  simpa [occupied] using hupd

theorem occupied_clear (hi : i < n) (h : f i = some a) :
    occupied n (Function.update f i none) + 1 = occupied n f := by
  have hupd := tally_update (p := fun o : Option α => o.isSome = true) f none hi
  rw [h] at hupd
  simpa [occupied] using hupd

/-- Slots beyond the last item do not count. -/
theorem occupied_of_le {m : ℕ} (h : ∀ i, m ≤ i → f i = none) (hmn : m ≤ n) :
    occupied n f = occupied m f := by
  induction n, hmn using Nat.le_induction with
  | base => rfl
  | succ n hmn ih =>
    have hlast : f n = none := h n hmn
    unfold occupied at ih ⊢
    rw [tally_succ, hlast, ih]
    simp

theorem occupied_le (n : ℕ) (f : ℕ → Option α) : occupied n f ≤ n := tally_le n f

theorem exists_free (h : occupied n f < n) : ∃ i, i < n ∧ f i = none := by
  by_contra hall
  have hfull : occupied n f = n := by
    unfold occupied tally
    rw [Finset.filter_true_of_mem, Finset.card_range]
    intro i hi
    exact Option.isSome_iff_ne_none.mpr fun hnone => hall ⟨i, Finset.mem_range.mp hi, hnone⟩
  omega

/-- Of two items in distinct slots one is not the given one. -/
theorem exists_occupied_ne (hf : SlotsDistinct f) (h : 2 ≤ occupied n f) (c : Option α) :
    ∃ i, i < n ∧ f i ≠ none ∧ f i ≠ c := by
  have hcard : 1 < ((Finset.range n).filter fun i => (f i).isSome = true).card := h
  obtain ⟨i, hi, j, hj, hij⟩ := Finset.one_lt_card.mp hcard
  rw [Finset.mem_filter, Finset.mem_range, Option.isSome_iff_ne_none] at hi hj
  by_cases hc : f i = c
  · refine ⟨j, hj.1, hj.2, fun hjc => hij ?_⟩
    obtain ⟨a, ha⟩ := Option.ne_none_iff_exists'.mp hi.2
    exact hf i j a ha (hjc.trans (hc.symm.trans ha))
  · exact ⟨i, hi.1, hi.2, hc⟩

theorem clear_eq_some {j : ℕ} {b : α} (h : Function.update f i none j = some b) : f j = some b := by
  by_cases hji : j = i
  · rw [hji, Function.update_self] at h
    cases h
  · rwa [Function.update_of_ne hji] at h

theorem fill_eq_some {j : ℕ} {b : α} (h : Function.update f i (some a) j = some b) :
    (j = i ∧ b = a) ∨ (j ≠ i ∧ f j = some b) := by
  by_cases hji : j = i
  · rw [hji, Function.update_self] at h
    cases h
    exact .inl ⟨hji, rfl⟩
  · rw [Function.update_of_ne hji] at h
    exact .inr ⟨hji, h⟩

theorem SlotsDistinct.fill (hf : SlotsDistinct f) (ha : ∀ j, f j ≠ some a) :
    SlotsDistinct (Function.update f i (some a)) := by
  intro j k b hj hk
  obtain ⟨hji, hba⟩ | ⟨-, hold⟩ := fill_eq_some hj
  · obtain ⟨hki, -⟩ | ⟨-, hold'⟩ := fill_eq_some hk
    · rw [hji, hki]
    · exact absurd (hba ▸ hold') (ha k)
  · obtain ⟨-, hba⟩ | ⟨-, hold'⟩ := fill_eq_some hk
    · exact absurd (hba ▸ hold) (ha j)
    · exact hf j k b hold hold'

theorem SlotsDistinct.clear (hf : SlotsDistinct f) : SlotsDistinct (Function.update f i none) :=
  fun j k b hj hk => hf j k b (clear_eq_some hj) (clear_eq_some hk)

/-- Filling a free slot adds one item. -/
theorem exists_slot_fill (h : f i = none) {b : α} :
    (∃ j, Function.update f i (some a) j = some b) ↔ b = a ∨ ∃ j, f j = some b := by
  constructor
  · rintro ⟨j, hj⟩
    exact (fill_eq_some hj).imp And.right fun hold => ⟨j, hold.2⟩
  · rintro (rfl | ⟨j, hj⟩)
    · exact ⟨i, Function.update_self _ _ _⟩
    · have hji : j ≠ i := by
        rintro rfl
        rw [h] at hj
        cases hj
      exact ⟨j, by rwa [Function.update_of_ne hji]⟩

/-- Clearing a slot removes its item. -/
theorem SlotsDistinct.exists_slot_clear (hf : SlotsDistinct f) (h : f i = some a) {b : α} :
    (∃ j, Function.update f i none j = some b) ↔ b ≠ a ∧ ∃ j, f j = some b := by
  constructor
  · rintro ⟨j, hj⟩
    refine ⟨?_, j, clear_eq_some hj⟩
    rintro rfl
    rw [hf j i b (clear_eq_some hj) h, Function.update_self] at hj
    cases hj
  · rintro ⟨hne, j, hj⟩
    have hji : j ≠ i := by
      rintro rfl
      rw [h] at hj
      exact hne (Option.some.inj hj).symm
    exact ⟨j, by rwa [Function.update_of_ne hji]⟩

/-- `while (f[i] != NULL) ++i;` with at most `fuel` reads. -/
def firstFree (f : ℕ → Option α) : ℕ → ℕ → Option ℕ
  | 0, _ => none
  | fuel + 1, i => if (f i).isNone then some i else firstFree f fuel (i + 1)

/-- The scan stops at the latest at a slot that is known to be free. -/
theorem firstFree_spec {fuel i j : ℕ} (hij : i ≤ j) (hj : j < i + fuel) (hfree : f j = none) :
    ∃ k, firstFree f fuel i = some k ∧ i ≤ k ∧ k ≤ j ∧ f k = none := by
  induction fuel generalizing i with
  | zero => omega
  | succ fuel ih =>
    rw [firstFree]
    by_cases hi : (f i).isNone = true
    · rw [if_pos hi]
      exact ⟨i, rfl, le_rfl, hij, Option.isNone_iff_eq_none.mp hi⟩
    · rw [if_neg hi]
      have hne : i ≠ j := by
        rintro rfl
        exact hi (Option.isNone_iff_eq_none.mpr hfree)
      obtain ⟨k, hk, hik, hkj, hnone⟩ := ih (i := i + 1) (by omega) (by omega)
      exact ⟨k, hk, by omega, hkj, hnone⟩

end Lib
