import AflPlusPlus.Lib.Chains
import AflPlusPlus.Lib.Memory
import Mathlib.Data.List.Induction

/-!
# Operands that were seen before

`hashmap.c`: a hash table of the operands of comparisons. The type of an operand, its size less one,
is packed into the upper byte of the key; for an operand of eight bytes it takes the place of three
bits of the operand.
-/

namespace AflPlusPlus.Cmplog
open Lib

def tableSize : ℕ := 10007

/-- `_hashmap->table`: the keys of each chain. -/
abbrev HashMap := ℕ → List (BitVec 64)

/-- An argument pair of `hashmap_search_and_add`. -/
structure Operand where
  type : BitVec 8
  key : BitVec 64
  deriving DecidableEq

namespace HashMap

def reset : HashMap := fun _ => []

def hash (key : BitVec 64) : ℕ := key.toNat % tableSize

/-- `val`. -/
def packed (o : Operand) : BitVec 64 :=
  (o.key &&& (0xf8ffffffffffffff : BitVec 64)) + (o.type.setWidth 64 <<< 56)

/-- `hashmap_search_and_add`. -/
def searchAndAdd (table : HashMap) (o : Operand) : Bool × HashMap :=
  if 8 ≤ o.type then (false, table)
  else
    let val := packed o
    let index := hash val
    if (table index).any (· == val) then (true, table)
    else (false, Function.update table index (val :: table index))

/-- The table after the calls with these operands. -/
def run (os : List Operand) : HashMap := os.foldl (fun table o => (table.searchAndAdd o).2) reset

end HashMap

open HashMap

/-- A type below 8, and a key that fits into `type + 1` bytes. -/
structure Operand.Valid (o : Operand) : Prop where
  type_lt : o.type.toNat < 8
  key_lt : o.key.toNat < 2 ^ (8 * (o.type.toNat + 1))

/-- Operands of eight bytes that differ in the bits 56 to 58 only. -/
structure Operand.Collides (a b : Operand) : Prop where
  left : a.type = 7
  right : b.type = 7
  ne : a.key ≠ b.key
  same : a.key &&& 0xf8ffffffffffffff = b.key &&& 0xf8ffffffffffffff

/-! ### The packed word -/

/-- The mask takes out the bits 56 to 58. -/
theorem toNat_and_mask (k : BitVec 64) :
    (k &&& 0xf8ffffffffffffff).toNat = 2 ^ 59 * (k.toNat / 2 ^ 59) + k.toNat % 2 ^ 56 := by
  have hmask : (0xf8ffffffffffffff : BitVec 64).toNat = 2 ^ 59 * (2 ^ 5 - 1) + (2 ^ 56 - 1) := rfl
  have hlow : k.toNat % 2 ^ 56 < 2 ^ 59 := lt_trans (Nat.mod_lt _ (by decide)) (by decide)
  rw [BitVec.toNat_and, hmask]
  refine Nat.eq_of_testBit_eq fun i => ?_
  rw [Nat.testBit_and, Nat.testBit_two_pow_mul_add _ (by decide),
    Nat.testBit_two_pow_mul_add _ hlow,
    Nat.testBit_two_pow_sub_one, Nat.testBit_two_pow_sub_one, Nat.testBit_mod_two_pow,
    Nat.testBit_div_two_pow]
  by_cases hi : i < 59
  · rw [if_pos hi, if_pos hi, Bool.and_comm]
  · have hbit : i - 59 + 59 = i := by omega
    rw [if_neg hi, if_neg hi, hbit]
    by_cases htop : i - 59 < 5
    · rw [decide_eq_true htop, Bool.and_true]
    · have hbig : k.toNat < 2 ^ i :=
        lt_of_lt_of_le k.isLt (Nat.pow_le_pow_right (by decide) (by omega))
      rw [Nat.testBit_lt_two_pow hbig, Bool.false_and]

theorem toNat_packed {o : Operand} (h : o.Valid) :
    (packed o).toNat =
      2 ^ 59 * (o.key.toNat / 2 ^ 59) + 2 ^ 56 * o.type.toNat + o.key.toNat % 2 ^ 56 := by
  have htype := h.type_lt
  have hkey := o.key.isLt
  have hshift : (o.type.setWidth 64 <<< 56).toNat = 2 ^ 56 * o.type.toNat := by
    rw [BitVec.toNat_shiftLeft, BitVec.toNat_setWidth, Nat.shiftLeft_eq]
    omega
  rw [packed, BitVec.toNat_add, toNat_and_mask, hshift]
  omega

/-- Two operands are packed into one word when they are the same or collide. -/
theorem packed_eq_iff {a b : Operand} (ha : a.Valid) (hb : b.Valid) :
    packed a = packed b ↔ a = b ∨ a.Collides b := by
  obtain ⟨ta, ka⟩ := a
  obtain ⟨tb, kb⟩ := b
  have hpa := toNat_packed ha
  have hpb := toNat_packed hb
  obtain ⟨hta, hka⟩ := ha
  obtain ⟨htb, hkb⟩ := hb
  dsimp only at hpa hpb hta hka htb hkb
  constructor
  · intro heq
    rw [heq, hpb] at hpa
    have htype : ta = tb := by
      apply BitVec.eq_of_toNat_eq
      omega
    subst htype
    by_cases hkey : ka = kb
    · exact Or.inl (by rw [hkey])
    -- shorter operands leave the bits 56 to 63 of the key free
    have hseven : ta.toNat = 7 := by
      by_contra hne
      have hpow : 2 ^ (8 * (ta.toNat + 1)) ≤ 2 ^ 56 :=
        Nat.pow_le_pow_right (by decide) (by omega)
      exact hkey (BitVec.eq_of_toNat_eq (by omega))
    refine Or.inr ⟨BitVec.eq_of_toNat_eq hseven, BitVec.eq_of_toNat_eq hseven, hkey, ?_⟩
    apply BitVec.eq_of_toNat_eq
    rw [toNat_and_mask, toNat_and_mask]
    dsimp only
    omega
  · rintro (heq | ⟨hleft, hright, -, hsame⟩)
    · rw [heq]
    · dsimp only at hleft hright hsame
      rw [packed, packed, hsame, hleft, hright]

/-! ### The set of operands -/

/-- The answer of a call, and the set that the table stands for after it. -/
theorem searchAndAdd_stores {table : HashMap} {s : Set (BitVec 64)} (hs : Stores hash table s)
    {o : Operand} (ho : o.Valid) :
    ((table.searchAndAdd o).1 = true ↔ packed o ∈ s) ∧
      Stores hash (table.searchAndAdd o).2 (insert (packed o) s) := by
  have htype : ¬ 8 ≤ o.type := by
    have hlt := ho.type_lt
    rw [BitVec.le_def]
    exact Nat.not_le.mpr hlt
  have hfound : (table (hash (packed o))).any (· == packed o) = true ↔ packed o ∈ s := by
    rw [← hs, List.any_beq']
    exact List.contains_iff_mem
  unfold searchAndAdd
  rw [if_neg htype]
  dsimp only
  split
  · rename_i hany
    have hmem := hfound.mp hany
    exact ⟨iff_of_true rfl hmem, by rwa [Set.insert_eq_of_mem hmem]⟩
  · rename_i hany
    exact ⟨iff_of_false Bool.false_ne_true fun hmem => hany (hfound.mpr hmem), hs.insert (packed o)⟩

theorem run_append_singleton (os : List Operand) (o : Operand) :
    run (os ++ [o]) = ((run os).searchAndAdd o).2 := by
  rw [run, List.foldl_append]
  rfl

/-- The table stands for the packed words of all calls so far. -/
theorem stores_run {os : List Operand} (h : ∀ o ∈ os, o.Valid) :
    Stores hash (run os) {val | ∃ o ∈ os, packed o = val} := by
  induction os using List.reverseRecOn with
  | nil =>
    have hset : {val | ∃ o ∈ ([] : List Operand), packed o = val} = ∅ := by simp
    rw [hset]
    exact stores_empty hash
  | append_singleton os o ih =>
    have hos := ih fun o' ho' => h o' (List.mem_append_left _ ho')
    have hstep := (searchAndAdd_stores hos (h o (List.mem_append_right _ (by simp)))).2
    have hset : {val | ∃ o' ∈ os ++ [o], packed o' = val} =
        insert (packed o) {val | ∃ o' ∈ os, packed o' = val} := by
      ext val
      simp [eq_comm, or_comm]
    rw [run_append_singleton, hset]
    exact hstep

/-- The call with `o` after the calls with `os` answers whether `os` has `o` in it, unless it is new
and collides. -/
theorem searchAndAdd_exact_iff {os : List Operand} {o : Operand} (hos : ∀ o ∈ os, o.Valid)
    (ho : o.Valid) :
    (((run os).searchAndAdd o).1 = true ↔ o ∈ os) ↔ ((∃ o' ∈ os, o'.Collides o) → o ∈ os) := by
  rw [(searchAndAdd_stores (stores_run hos) ho).1]
  constructor
  · rintro hexact ⟨o', ho', hcollides⟩
    exact hexact.mp ⟨o', ho', (packed_eq_iff (hos o' ho') ho).mpr (Or.inr hcollides)⟩
  · intro hnew
    refine ⟨fun ⟨o', ho', heq⟩ => ?_, fun hmem => ⟨o, hmem, rfl⟩⟩
    rcases (packed_eq_iff (hos o' ho') ho).mp heq with rfl | hcollides
    · exact ho'
    · exact hnew ⟨o', ho', hcollides⟩

theorem searchAndAdd_exact_pair :
    ((run [⟨7, 5⟩, ⟨3, 5⟩]).searchAndAdd ⟨7, 5⟩).1 = true ↔
      (⟨7, 5⟩ : Operand) ∈ [(⟨7, 5⟩ : Operand), ⟨3, 5⟩] :=
  (searchAndAdd_exact_iff
    (by
      intro o ho
      rw [List.mem_cons, List.mem_singleton] at ho
      rcases ho with rfl | rfl
      · exact ⟨by decide, by decide⟩
      · exact ⟨by decide, by decide⟩)
    ⟨by decide, by decide⟩).mpr fun _ => by decide

/-- A new key of eight bytes that is taken for an old one. -/
theorem searchAndAdd_not_exact : ∃ os o, (∀ o' ∈ os, o'.Valid) ∧ o.Valid ∧
    ¬ (((run os).searchAndAdd o).1 = true ↔ o ∈ os) := by
  refine ⟨[⟨7, 0⟩], ⟨7, 0x0100000000000000⟩, ?_, ⟨by decide, by decide⟩, by decide⟩
  intro o ho
  obtain rfl := List.mem_singleton.mp ho
  exact ⟨by decide, by decide⟩

end AflPlusPlus.Cmplog
