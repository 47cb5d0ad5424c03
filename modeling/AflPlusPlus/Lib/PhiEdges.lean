import Mathlib.Data.List.Basic

/-!
# Phi nodes under the renaming of edges

A phi node is a list of pairs (predecessor, value) and takes the value that `List.lookup` finds for
the edge control arrived on. A pass that replaces the edges from one predecessor renames the first
entry of that predecessor once for each new edge: `retarget` is one such renaming and `retargetAll`
a sequence of them. When all entries of the old predecessor carry one value and there are as many
fresh names as entries, every new edge sees the old value and every other edge what it saw before.
-/

namespace Lib

variable {B V : Type*} [DecidableEq B]

/-- Rename the first entry of the predecessor `old`. -/
def retarget (old new : B) : List (B × V) → List (B × V)
  | [] => []
  | e :: p => if e.1 = old then (new, e.2) :: p else e :: retarget old new p

def retargetAll (old : B) (news : List B) (p : List (B × V)) : List (B × V) :=
  news.foldl (fun p new => retarget old new p) p

/-- Every entry of the predecessor `b` carries the same value. -/
def UniformAt (b : B) (p : List (B × V)) : Prop :=
  ∀ e ∈ p, ∀ e' ∈ p, e.1 = b → e'.1 = b → e.2 = e'.2

/-- How many entries a phi node has for the predecessor `b`. -/
def entryCount (b : B) (p : List (B × V)) : ℕ := (p.map Prod.fst).count b

@[simp]
theorem entryCount_nil (b : B) : entryCount b ([] : List (B × V)) = 0 := rfl

theorem entryCount_cons (b : B) (e : B × V) (p : List (B × V)) :
    entryCount b (e :: p) = entryCount b p + if e.1 = b then 1 else 0 := by
  simp [entryCount, List.count_cons]

theorem entryCount_eq_zero {b : B} {p : List (B × V)} :
    entryCount b p = 0 ↔ ∀ e ∈ p, e.1 ≠ b := by
  rw [entryCount, List.count_eq_zero, List.mem_map]
  exact ⟨fun h e he heq => h ⟨e, he, heq⟩, fun h ⟨e, he, heq⟩ => h e he heq⟩

theorem lookup_entry_cons (b : B) (e : B × V) (p : List (B × V)) :
    (e :: p).lookup b = if e.1 = b then some e.2 else p.lookup b := by
  obtain ⟨c, v⟩ := e
  by_cases h : c = b
  · simp [h]
  · rw [List.lookup_cons, beq_eq_false_iff_ne.mpr (Ne.symm h), if_neg h]

theorem mem_retarget {old new : B} {p : List (B × V)} {e : B × V} (he : e ∈ retarget old new p) :
    e ∈ p ∨ e.1 = new ∧ (old, e.2) ∈ p := by
  induction p with
  | nil => exact absurd he List.not_mem_nil
  | cons d p ih =>
    rw [retarget] at he
    split at he
    next h =>
      rcases List.mem_cons.mp he with rfl | he
      · exact .inr ⟨rfl, by rw [← h]; exact List.mem_cons_self⟩
      · exact .inl (List.mem_cons_of_mem _ he)
    next h =>
      rcases List.mem_cons.mp he with rfl | he
      · exact .inl List.mem_cons_self
      · rcases ih he with h' | ⟨h1, h2⟩
        · exact .inl (List.mem_cons_of_mem _ h')
        · exact .inr ⟨h1, List.mem_cons_of_mem _ h2⟩

theorem lookup_retarget_other {old new b : B} (hold : b ≠ old) (hnew : b ≠ new)
    (p : List (B × V)) : (retarget old new p).lookup b = p.lookup b := by
  induction p with
  | nil => rfl
  | cons e p ih =>
    rw [retarget]
    split
    next h => rw [lookup_entry_cons, lookup_entry_cons, if_neg hnew.symm, h, if_neg hold.symm]
    next h => rw [lookup_entry_cons, lookup_entry_cons, ih]

theorem lookup_retarget_new {old new : B} {p : List (B × V)} (hnew : entryCount new p = 0)
    (hold : 0 < entryCount old p) : (retarget old new p).lookup new = p.lookup old := by
  induction p with
  | nil => simp at hold
  | cons e p ih =>
    rw [entryCount_cons] at hnew hold
    rw [retarget]
    split
    next h => rw [lookup_entry_cons, lookup_entry_cons, if_pos rfl, if_pos h]
    next h =>
      have hne : ¬ e.1 = new := fun he => by simp [he] at hnew
      rw [lookup_entry_cons, lookup_entry_cons, if_neg hne, if_neg h]
      exact ih (by omega) (by simpa [h] using hold)

theorem entryCount_retarget_old {old new : B} (hne : new ≠ old) {p : List (B × V)}
    (hold : 0 < entryCount old p) :
    entryCount old (retarget old new p) + 1 = entryCount old p := by
  induction p with
  | nil => simp at hold
  | cons e p ih =>
    rw [entryCount_cons] at hold
    rw [retarget]
    split
    next h => simp [entryCount_cons, hne, h]
    next h =>
      rw [entryCount_cons, entryCount_cons]
      have := ih (by simpa [h] using hold)
      omega

theorem entryCount_retarget_new {old new : B} {p : List (B × V)}
    (hnew : entryCount new p = 0) (hold : 0 < entryCount old p) :
    entryCount new (retarget old new p) = 1 := by
  induction p with
  | nil => simp at hold
  | cons e p ih =>
    rw [entryCount_cons] at hnew hold
    have hp : entryCount new p = 0 := Nat.eq_zero_of_add_eq_zero_right hnew
    rw [retarget]
    split
    next h => rw [entryCount_cons, hp, if_pos rfl]
    next h =>
      rw [if_neg h] at hold
      have hrest := ih hp hold
      rw [entryCount_cons, hrest, if_neg fun he => by simp [he] at hnew]

theorem entryCount_retarget_other {old new b : B} (hold : b ≠ old) (hnew : b ≠ new)
    (p : List (B × V)) : entryCount b (retarget old new p) = entryCount b p := by
  induction p with
  | nil => rfl
  | cons e p ih =>
    rw [retarget]
    split
    next h => simp [entryCount_cons, h, hold.symm, hnew.symm]
    next h => rw [entryCount_cons, entryCount_cons, ih]

theorem UniformAt.retarget {old new b : B} {p : List (B × V)} (h : UniformAt b p) (hb : b ≠ new) :
    UniformAt b (Lib.retarget old new p) := by
  intro e he e' he' hb1 hb2
  rcases mem_retarget he with h1 | ⟨h1, -⟩
  · rcases mem_retarget he' with h2 | ⟨h2, -⟩
    · exact h e h1 e' h2 hb1 hb2
    · exact absurd (hb2.symm.trans h2) hb
  · exact absurd (hb1.symm.trans h1) hb

/-- With one value for all entries of `b`, any of them tells what `lookup` finds. -/
theorem UniformAt.lookup_eq {b : B} {p : List (B × V)} (h : UniformAt b p) {v : V}
    (hv : (b, v) ∈ p) : p.lookup b = some v := by
  induction p with
  | nil => exact absurd hv List.not_mem_nil
  | cons e p ih =>
    rw [lookup_entry_cons]
    by_cases he : e.1 = b
    · rw [if_pos he]
      exact congrArg some (h e List.mem_cons_self (b, v) hv he rfl)
    · rw [if_neg he]
      refine ih (fun d hd d' hd' => h d (List.mem_cons_of_mem _ hd) d'
        (List.mem_cons_of_mem _ hd')) ?_
      rcases List.mem_cons.mp hv with rfl | hv
      · exact absurd rfl he
      · exact hv

theorem exists_mem_of_entryCount_pos {b : B} {p : List (B × V)} (h : 0 < entryCount b p) :
    ∃ v, (b, v) ∈ p := by
  rw [entryCount, List.count_pos_iff, List.mem_map] at h
  obtain ⟨⟨c, v⟩, he, rfl⟩ := h
  exact ⟨v, he⟩

/-- Renaming one of several entries does not change what the others show. -/
theorem UniformAt.lookup_retarget_old {old new : B} {p : List (B × V)} (h : UniformAt old p)
    (hne : new ≠ old) (hcount : 1 < entryCount old p) :
    (Lib.retarget old new p).lookup old = p.lookup old := by
  have hleft := entryCount_retarget_old hne (Nat.lt_of_succ_lt hcount)
  obtain ⟨v, hv⟩ := exists_mem_of_entryCount_pos
    (p := Lib.retarget old new p) (b := old) (by omega)
  rw [(h.retarget hne.symm).lookup_eq hv]
  rcases mem_retarget hv with hv' | ⟨h1, -⟩
  · exact (h.lookup_eq hv').symm
  · exact absurd h1.symm hne

section Sequence

variable {old : B}

@[simp]
theorem retargetAll_nil (p : List (B × V)) : retargetAll old [] p = p := rfl

theorem retargetAll_cons (n : B) (news : List B) (p : List (B × V)) :
    retargetAll old (n :: news) p = retargetAll old news (retarget old n p) := rfl

theorem retargetAll_append (ms ns : List B) (p : List (B × V)) :
    retargetAll old (ms ++ ns) p = retargetAll old ns (retargetAll old ms p) :=
  List.foldl_append

theorem lookup_retargetAll_other {b : B} (hold : b ≠ old) {news : List B} (hb : b ∉ news)
    (p : List (B × V)) : (retargetAll old news p).lookup b = p.lookup b := by
  induction news generalizing p with
  | nil => rfl
  | cons n news ih =>
    rw [List.mem_cons, not_or] at hb
    rw [retargetAll_cons, ih hb.2, lookup_retarget_other hold hb.1]

theorem entryCount_retargetAll_other {b : B} (hold : b ≠ old) {news : List B} (hb : b ∉ news)
    (p : List (B × V)) : entryCount b (retargetAll old news p) = entryCount b p := by
  induction news generalizing p with
  | nil => rfl
  | cons n news ih =>
    rw [List.mem_cons, not_or] at hb
    rw [retargetAll_cons, ih hb.2, entryCount_retarget_other hold hb.1]

theorem UniformAt.retargetAll {b : B} {news : List B} {p : List (B × V)} (h : UniformAt b p)
    (hb : b ∉ news) : UniformAt b (Lib.retargetAll old news p) := by
  induction news generalizing p with
  | nil => exact h
  | cons n news ih =>
    rw [List.mem_cons, not_or] at hb
    rw [retargetAll_cons]
    exact ih (h.retarget hb.1) hb.2

theorem entryCount_retargetAll_old {news : List B} {p : List (B × V)} (hold : old ∉ news)
    (hcount : news.length ≤ entryCount old p) :
    entryCount old (retargetAll old news p) + news.length = entryCount old p := by
  induction news generalizing p with
  | nil => rfl
  | cons n news ih =>
    rw [List.mem_cons, not_or] at hold
    rw [List.length_cons] at hcount
    have hstep := entryCount_retarget_old (p := p) (Ne.symm hold.1) (by omega)
    have hrest := ih (p := retarget old n p) hold.2 (by omega)
    rw [retargetAll_cons, List.length_cons]
    omega

/-- Every fresh predecessor sees the value the old one carried. -/
theorem lookup_retargetAll_new {news : List B} {p : List (B × V)} (huniform : UniformAt old p)
    (hnodup : news.Nodup) (hold : old ∉ news) (hfresh : ∀ n ∈ news, entryCount n p = 0)
    (hcount : news.length ≤ entryCount old p) {n : B} (hn : n ∈ news) :
    (retargetAll old news p).lookup n = p.lookup old := by
  induction news generalizing p with
  | nil => exact absurd hn List.not_mem_nil
  | cons m news ih =>
    rw [List.nodup_cons] at hnodup
    rw [List.mem_cons, not_or] at hold
    rw [List.length_cons] at hcount
    have hm := hfresh m List.mem_cons_self
    have hstep := entryCount_retarget_old (p := p) (Ne.symm hold.1) (by omega)
    rw [retargetAll_cons]
    rcases List.mem_cons.mp hn with rfl | hn'
    · rw [lookup_retargetAll_other (Ne.symm hold.1) hnodup.1]
      exact lookup_retarget_new hm (by omega)
    · have hpos := List.length_pos_of_mem hn'
      rw [ih (huniform.retarget hold.1) hnodup.2 hold.2 (fun k hk => ?_) (by omega) hn']
      · exact huniform.lookup_retarget_old (Ne.symm hold.1) (by omega)
      · have hkm : k ≠ m := fun h => hnodup.1 (h ▸ hk)
        have hko : k ≠ old := fun h => hold.2 (h ▸ hk)
        rw [entryCount_retarget_other hko hkm]
        exact hfresh k (List.mem_cons_of_mem _ hk)

/-- Every fresh predecessor gets exactly one entry. -/
theorem entryCount_retargetAll_new {news : List B} {p : List (B × V)} (hnodup : news.Nodup)
    (hold : old ∉ news) (hfresh : ∀ n ∈ news, entryCount n p = 0)
    (hcount : news.length ≤ entryCount old p) {n : B} (hn : n ∈ news) :
    entryCount n (retargetAll old news p) = 1 := by
  induction news generalizing p with
  | nil => exact absurd hn List.not_mem_nil
  | cons m news ih =>
    rw [List.nodup_cons] at hnodup
    rw [List.mem_cons, not_or] at hold
    rw [List.length_cons] at hcount
    have hm := hfresh m List.mem_cons_self
    have hstep := entryCount_retarget_old (p := p) (Ne.symm hold.1) (by omega)
    rw [retargetAll_cons]
    rcases List.mem_cons.mp hn with rfl | hn'
    · rw [entryCount_retargetAll_other (Ne.symm hold.1) hnodup.1]
      exact entryCount_retarget_new hm (by omega)
    · refine ih hnodup.2 hold.2 (fun k hk => ?_) (by omega) hn'
      have hkm : k ≠ m := fun h => hnodup.1 (h ▸ hk)
      have hko : k ≠ old := fun h => hold.2 (h ▸ hk)
      rw [entryCount_retarget_other hko hkm]
      exact hfresh k (List.mem_cons_of_mem _ hk)

end Sequence

end Lib
