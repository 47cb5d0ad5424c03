import AflPlusPlus.Lib.Memory

/-!
# Blocks of memory

What `memcpy`, `memmove` and `memset` leave behind, and loads and stores through a pointer to a
number at any address of a little-endian machine. `contents m len` is what a reader sees of a buffer
of `len` bytes: two buffers that differ behind it are the same to him.
-/

namespace Lib

/-- `memcpy(dst + d, src + s, n)`, and `memmove` when `dst` and `src` are the same. -/
def copyBlock (dst : Bytes) (d : ℕ) (src : Bytes) (s n : ℕ) : Bytes := fun i =>
  if d ≤ i ∧ i < d + n then src (s + (i - d)) else dst i

/-- `memset(dst + d, x, n)`. -/
def fillBlock (dst : Bytes) (d : ℕ) (x : Byte) (n : ℕ) : Bytes := fun i =>
  if d ≤ i ∧ i < d + n then x else dst i

def setByte (m : Bytes) (a : ℕ) (x : Byte) : Bytes := fun i => if i = a then x else m i

/-- `*(uW *)(m + a)`. -/
def load (w : ℕ) (m : Bytes) (a : ℕ) : BitVec w := gather w m a (w / 8)

/-- `*(uW *)(m + a) = x`. -/
def store (w : ℕ) (m : Bytes) (a : ℕ) (x : BitVec w) : Bytes := fun i =>
  if a ≤ i ∧ i < a + w / 8 then wordByte x (i - a) else m i

def contents (m : Bytes) (len : ℕ) : List Byte := (List.range len).map m

theorem contents_eq_iff {m n : Bytes} {len : ℕ} :
    contents m len = contents n len ↔ ∀ i, i < len → m i = n i := by
  rw [contents, contents, List.map_inj_left]
  exact forall_congr' fun i => by rw [List.mem_range]

@[simp]
theorem length_contents (m : Bytes) (len : ℕ) : (contents m len).length = len := by
  simp [contents]

theorem contents_add (m : Bytes) (a b : ℕ) :
    contents m (a + b) = contents m a ++ contents (fun i => m (a + i)) b := by
  rw [contents, contents, contents, List.range_add, List.map_append, List.map_map]
  rfl

theorem wordByte_load {w : ℕ} (hw : 8 ∣ w) (m : Bytes) (a : ℕ) {b : ℕ} (hb : b < w / 8) :
    wordByte (load w m a) b = m (a + b) := by
  apply BitVec.eq_of_getLsbD_eq
  intro i hi
  have hlt : 8 * b + i < w := by omega
  have hdiv : (8 * b + i) / 8 = b := by omega
  have hmod : (8 * b + i) % 8 = i := by omega
  rw [getLsbD_wordByte, load, getLsbD_gather m _ _ hlt, hdiv, hmod]
  simp [hi, show 8 * b + i < 8 * (w / 8) by omega]

theorem load_store {w : ℕ} (hw : 8 ∣ w) (m : Bytes) (a : ℕ) (x : BitVec w) :
    load w (store w m a x) a = x := by
  refine eq_of_wordByte hw fun b hb => ?_
  rw [wordByte_load hw _ _ hb, store, if_pos ⟨by omega, by omega⟩, Nat.add_sub_cancel_left]

theorem store_store {w : ℕ} (m : Bytes) (a : ℕ) (x y : BitVec w) :
    store w (store w m a x) a y = store w m a y := by
  funext i
  rw [store, store, store]
  split <;> rfl

theorem store_load {w : ℕ} (hw : 8 ∣ w) (m : Bytes) (a : ℕ) : store w m a (load w m a) = m := by
  funext i
  rw [store]
  split
  · rw [wordByte_load hw m a (by omega)]
    congr 1
    omega
  · rfl

theorem load_one (m : Bytes) (a : ℕ) : load 8 m a = m a := by
  have h := wordByte_load (w := 8) (by decide) m a (b := 0) (by decide)
  rw [Nat.add_zero] at h
  rw [← h]
  exact (BitVec.extractLsb'_eq_self).symm

/-- A store of which all bytes but some are there already. -/
theorem store_eq_part {w v : ℕ} {m : Bytes} {a k : ℕ} {x : BitVec w}
    {y : BitVec v} (hk : k + v / 8 ≤ w / 8)
    (hin : ∀ b, b < v / 8 → wordByte x (k + b) = wordByte y b)
    (hout : ∀ b, b < w / 8 → (b < k ∨ k + v / 8 ≤ b) → wordByte x b = m (a + b)) :
    store w m a x = store v m (a + k) y := by
  funext i
  rw [store, store]
  by_cases hi : a + k ≤ i ∧ i < a + k + v / 8
  · have hb := hin (i - (a + k)) (by omega)
    rw [if_pos hi, if_pos ⟨by omega, by omega⟩, ← hb]
    congr 1
    omega
  · rw [if_neg hi]
    split
    · rw [hout (i - a) (by omega) (by omega)]
      congr 1
      omega
    · rfl

/-- Two stores to one place leave the same buffer exactly when they store the same. -/
theorem contents_store_eq_iff {w : ℕ} (hw : 8 ∣ w) {m n : Bytes} {len a : ℕ} {x y : BitVec w}
    (hmn : contents m len = contents n len) (ha : a + w / 8 ≤ len) :
    contents (store w m a x) len = contents (store w n a y) len ↔ x = y := by
  rw [contents_eq_iff] at hmn ⊢
  constructor
  · intro h
    refine eq_of_wordByte hw fun b hb => ?_
    have hbyte := h (a + b) (by omega)
    rw [store, store, if_pos ⟨by omega, by omega⟩, if_pos ⟨by omega, by omega⟩,
      Nat.add_sub_cancel_left] at hbyte
    exact hbyte
  · rintro rfl i hi
    rw [store, store]
    split
    · rfl
    · exact hmn i hi

end Lib
