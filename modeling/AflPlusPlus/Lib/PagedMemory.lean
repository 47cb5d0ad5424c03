import AflPlusPlus.Lib.Memory
import Mathlib.Tactic.SplitIfs

/-!
# Memory in pages

A memory with the pages that are mapped and those that can be accessed, and what changes when pages
are mapped, protected, or bytes and words are stored. `map` and `protect` change whole pages; `fill`
and `store32` change a range of bytes and no page.
-/

namespace Lib

def pageSize : ℕ := 4096

structure PagedMemory where
  mem : Bytes
  mapped : ℕ → Bool
  /-- Pages that can be read and written. -/
  usable : ℕ → Bool

namespace PagedMemory

/-- The byte at an address can be accessed. -/
def Accessible (m : PagedMemory) (a : ℕ) : Prop := m.usable (a / pageSize) = true

instance (m : PagedMemory) (a : ℕ) : Decidable (m.Accessible a) :=
  inferInstanceAs (Decidable (_ = true))

/-- All of `n` bytes from `a` on can be accessed. -/
def Readable (m : PagedMemory) (a n : ℕ) : Prop := ∀ i, i < n → m.Accessible (a + i)

instance (m : PagedMemory) (a n : ℕ) : Decidable (m.Readable a n) := Nat.decidableBallLT n _

/-- The page is one of `n` pages from `page` on. -/
def OneOf (page n p : ℕ) : Prop := page ≤ p ∧ p < page + n

instance (page n p : ℕ) : Decidable (OneOf page n p) := inferInstanceAs (Decidable (_ ∧ _))

/-- Fresh pages of zeros. -/
def map (m : PagedMemory) (page n : ℕ) : PagedMemory where
  mem := fun a => if OneOf page n (a / pageSize) then 0 else m.mem a
  mapped := fun p => if OneOf page n p then true else m.mapped p
  usable := fun p => if OneOf page n p then true else m.usable p

/-- No access to `n` pages. -/
def protect (m : PagedMemory) (page n : ℕ) : PagedMemory :=
  { m with usable := fun p => if OneOf page n p then false else m.usable p }

def fill (m : PagedMemory) (a n : ℕ) (v : Byte) : PagedMemory :=
  { m with mem := fun i => if a ≤ i ∧ i < a + n then v else m.mem i }

def store32 (m : PagedMemory) (a : ℕ) (x : BitVec 32) : PagedMemory :=
  { m with mem := fun i => if a ≤ i ∧ i < a + 4 then wordByte x (i - a) else m.mem i }

def load32 (m : PagedMemory) (a : ℕ) : BitVec 32 := word 32 (fun i => m.mem (a + i)) 0

/-- Copy `n` bytes; the ranges do not overlap. -/
def copy (m : PagedMemory) (dst src n : ℕ) : PagedMemory :=
  { m with mem := fun i => if dst ≤ i ∧ i < dst + n then m.mem (src + (i - dst)) else m.mem i }

variable {m : PagedMemory} {page n a b i p : ℕ} {v : Byte} {x : BitVec 32}

@[simp] theorem mapped_protect : (m.protect page n).mapped = m.mapped := rfl
@[simp] theorem mem_protect : (m.protect page n).mem = m.mem := rfl
@[simp] theorem mapped_fill : (m.fill a n v).mapped = m.mapped := rfl
@[simp] theorem usable_fill : (m.fill a n v).usable = m.usable := rfl
@[simp] theorem mapped_store32 : (m.store32 a x).mapped = m.mapped := rfl
@[simp] theorem usable_store32 : (m.store32 a x).usable = m.usable := rfl
@[simp] theorem mapped_copy : (m.copy a b n).mapped = m.mapped := rfl
@[simp] theorem usable_copy : (m.copy a b n).usable = m.usable := rfl

theorem usable_map : (m.map page n).usable p = true ↔ OneOf page n p ∨ m.usable p = true := by
  rw [map]
  dsimp only
  split_ifs with h <;> simp [h]

theorem mapped_map : (m.map page n).mapped p = true ↔ OneOf page n p ∨ m.mapped p = true := by
  rw [map]
  dsimp only
  split_ifs with h <;> simp [h]

theorem usable_protect :
    (m.protect page n).usable p = true ↔ ¬ OneOf page n p ∧ m.usable p = true := by
  rw [protect]
  dsimp only
  split_ifs with h <;> simp [h]

theorem mem_map_of_not (h : ¬ OneOf page n (i / pageSize)) : (m.map page n).mem i = m.mem i :=
  if_neg h

theorem mem_map_of_oneOf (h : OneOf page n (i / pageSize)) : (m.map page n).mem i = 0 := if_pos h

theorem mem_fill_of_mem (h : a ≤ i) (h' : i < a + n) : (m.fill a n v).mem i = v := if_pos ⟨h, h'⟩

theorem mem_fill_of_not (h : i < a ∨ a + n ≤ i) : (m.fill a n v).mem i = m.mem i :=
  if_neg fun h' => by omega

theorem mem_store32_of_not (h : i < a ∨ a + 4 ≤ i) : (m.store32 a x).mem i = m.mem i :=
  if_neg fun h' => by omega

theorem mem_copy_of_mem (h : a ≤ i) (h' : i < a + n) :
    (m.copy a b n).mem i = m.mem (b + (i - a)) := if_pos ⟨h, h'⟩

theorem mem_copy_of_not (h : i < a ∨ a + n ≤ i) : (m.copy a b n).mem i = m.mem i :=
  if_neg fun h' => by omega

/-- A number is loaded as it was stored. -/
theorem load32_store32 : (m.store32 a x).load32 a = x := by
  refine eq_of_wordByte (by decide) fun b hb => ?_
  have hb4 : b < 4 := hb
  rw [load32, wordByte_word (by decide) _ _ hb]
  dsimp only [store32]
  rw [if_pos (by omega)]
  congr 1
  omega

/-- A number is loaded the same from two memories that agree on its bytes. -/
theorem load32_congr {m' : PagedMemory} (h : ∀ i, a ≤ i → i < a + 4 → m'.mem i = m.mem i) :
    m'.load32 a = m.load32 a := by
  refine eq_of_wordByte (by decide) fun b hb => ?_
  have hb4 : b < 4 := hb
  rw [load32, load32, wordByte_word (by decide) _ _ hb, wordByte_word (by decide) _ _ hb]
  exact h _ (by omega) (by omega)

/-- Which addresses lie in the pages. -/
theorem oneOf_iff : OneOf page n (a / pageSize) ↔
    page * pageSize ≤ a ∧ a < (page + n) * pageSize := by
  rw [OneOf, pageSize, Nat.le_div_iff_mul_le (by decide), Nat.div_lt_iff_lt_mul (by decide)]

end PagedMemory
end Lib
