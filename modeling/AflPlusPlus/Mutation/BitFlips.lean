import AflPlusPlus.Mutation.Deterministic

/-!
# Bit flips

The differences that `could_be_bitflip` takes for a bit flip, seen as differences of buffers. In a
buffer the highest bit of a byte comes first, so two or four adjacent bits of a number that are
spread over two bytes are not adjacent there. The filter takes them for a bit flip all the same.
-/

namespace AflPlusPlus.Mutation
open Lib Trials

/-! ### Differences -/

/-- The memory that differs from `m` in the bits of `d` at address `a`. -/
def xorAt (m : Bytes) (a : ℕ) (d : BitVec 32) : Bytes := fun i =>
  if a ≤ i ∧ i < a + 4 then m i ^^^ wordByte d (i - a) else m i

theorem wordByte_shifted {w : ℕ} (c : BitVec w) {t b : ℕ} (hb : b < 4) :
    wordByte (c.setWidth 32 <<< (8 * t)) b = if t ≤ b then wordByte c (b - t) else 0#8 := by
  apply BitVec.eq_of_getLsbD_eq
  intro i hi
  rw [getLsbD_wordByte, BitVec.getLsbD_shiftLeft, BitVec.getLsbD_setWidth]
  by_cases ht : t ≤ b
  · have h1 : ¬ 8 * b + i < 8 * t := by omega
    have h2 : 8 * b + i - 8 * t = 8 * (b - t) + i := by omega
    have h3 : 8 * (b - t) + i < 32 := by omega
    rw [if_pos ht, getLsbD_wordByte, h2]
    simp [h1, h3, show 8 * b + i < 32 by omega]
  · have h1 : 8 * b + i < 8 * t := by omega
    rw [if_neg ht]
    simp [h1]

theorem xorAt_shifted {w : ℕ} (hw : 8 ∣ w) (m : Bytes) (a : ℕ) {t : ℕ} (ht : t + w / 8 ≤ 4)
    (c : BitVec w) :
    xorAt m a (c.setWidth 32 <<< (8 * t)) = store w m (a + t) (load w m (a + t) ^^^ c) := by
  funext i
  rw [xorAt, store]
  by_cases hin : a + t ≤ i ∧ i < a + t + w / 8
  · have hload : wordByte (load w m (a + t)) (i - (a + t)) = m i := by
      rw [wordByte_load hw m _ (by omega)]
      congr 1
      omega
    have hsub : i - a - t = i - (a + t) := by omega
    rw [if_pos hin, if_pos ⟨by omega, by omega⟩, wordByte_shifted c (by omega),
      if_pos (by omega), wordByte_xor, hload, hsub]
  · rw [if_neg hin]
    split
    · rw [wordByte_shifted c (by omega)]
      split
      · rw [wordByte_of_ge hw c (by omega), BitVec.xor_zero]
      · exact BitVec.xor_zero
    · rfl

/-- A store as a difference. -/
theorem store_eq_xorAt {w : ℕ} (hw : 8 ∣ w) (hle : w ≤ 32) (m : Bytes) (a : ℕ) (v : BitVec w) :
    store w m a v = xorAt m a ((load w m a ^^^ v).setWidth 32) := by
  have h := xorAt_shifted hw m a (t := 0) (by omega) (load w m a ^^^ v)
  rw [Nat.mul_zero, BitVec.shiftLeft_zero, Nat.add_zero, ← BitVec.xor_assoc, BitVec.xor_self,
    BitVec.zero_xor] at h
  exact h.symm

/-! ### Bit flips -/

/-- The bits of a byte from `p` on, counted from the highest. -/
def bitMask (n p : ℕ) : Byte := (List.range n).foldl (fun c k => c ^^^ ((128 : Byte) >>> (p + k))) 0

/-- The bits that are not adjacent in the buffer. -/
def crossings : List (BitVec 16) := [0x0180, 0x01e0, 0x03c0, 0x0780]

/-- `x` differs from `m` in bits that are adjacent in a number but not in the buffer. -/
def Crossing (m x : Bytes) : Prop :=
  ∃ i, ∃ c ∈ crossings, x = store 16 m i (load 16 m i ^^^ c)

/-- What `could_be_bitflip` takes for a bit flip. -/
inductive FlipShape : BitVec 32 → Prop
  | none : FlipShape 0
  | bits {n p t : ℕ} : n = 1 ∨ n = 2 ∨ n = 4 → p + n ≤ 8 → t < 4 →
      FlipShape ((bitMask n p).setWidth 32 <<< (8 * t))
  | bytes {w t : ℕ} : w = 8 ∨ w = 16 ∨ w = 32 → t + w / 8 ≤ 4 →
      FlipShape ((BitVec.allOnes w).setWidth 32 <<< (8 * t))
  | crossing {c : BitVec 16} {t : ℕ} : c ∈ crossings → t < 3 →
      FlipShape (c.setWidth 32 <<< (8 * t))

theorem shiftRight_shiftLeft_one {x : BitVec 32} (hx : x &&& 1 = 0) : (x >>> 1) <<< 1 = x := by
  have hbit : x.getLsbD 0 = false := (and_one_shiftLeft_eq_zero x (by decide)).mp hx
  apply BitVec.eq_of_getLsbD_eq
  intro i hi
  rw [BitVec.getLsbD_shiftLeft, BitVec.getLsbD_ushiftRight]
  cases i with
  | zero =>
    rw [hbit]
    simp
  | succ i => simp [hi, Nat.add_comm 1 i]

theorem shiftOut_eq (fuel sh : ℕ) (x : BitVec 32) :
    ∃ k, k ≤ fuel ∧ shiftOut fuel sh x = (sh + k, x >>> k) ∧ (x >>> k) <<< k = x := by
  induction fuel generalizing sh x with
  | zero => exact ⟨0, Nat.le_refl 0, by simp [shiftOut], by simp⟩
  | succ fuel ih =>
    rw [shiftOut]
    split
    · rename_i hx
      obtain ⟨k, hk, hout, hback⟩ := ih (sh + 1) (x >>> 1)
      have hright : x >>> (k + 1) = x >>> 1 >>> k := by
        rw [Nat.add_comm, BitVec.shiftRight_add]
      refine ⟨k + 1, by omega, ?_, ?_⟩
      · rw [hout, hright, Nat.add_assoc, Nat.add_comm 1 k]
      · rw [hright, BitVec.shiftLeft_add, hback, shiftRight_shiftLeft_one hx]
    · exact ⟨0, Nat.zero_le _, by simp, by simp⟩

theorem flipShape_one {k : ℕ} (hk : k < 33) (h : ((1 : BitVec 32) <<< k) >>> k = 1) :
    FlipShape ((1 : BitVec 32) <<< k) := by
  have hall : ∀ k, k < 33 → ((1 : BitVec 32) <<< k) >>> k = 1 → k / 8 < 4 ∧
      (1 : BitVec 32) <<< k = (bitMask 1 (7 - k % 8)).setWidth 32 <<< (8 * (k / 8)) := by decide
  obtain ⟨ht, heq⟩ := hall k hk h
  rw [heq]
  exact .bits (.inl rfl) (by omega) ht

theorem flipShape_three {k : ℕ} (hk : k < 33) (h : ((3 : BitVec 32) <<< k) >>> k = 3) :
    FlipShape ((3 : BitVec 32) <<< k) := by
  have hall : ∀ k, k < 33 → ((3 : BitVec 32) <<< k) >>> k = 3 →
      k % 8 < 7 ∧ k / 8 < 4 ∧
        (3 : BitVec 32) <<< k = (bitMask 2 (6 - k % 8)).setWidth 32 <<< (8 * (k / 8)) ∨
      k / 8 < 3 ∧
        (3 : BitVec 32) <<< k = (0x0180 : BitVec 16).setWidth 32 <<< (8 * (k / 8)) := by
    decide
  obtain ⟨hlt, ht, heq⟩ | ⟨ht, heq⟩ := hall k hk h
  · rw [heq]
    exact .bits (.inr (.inl rfl)) (by omega) ht
  · rw [heq]
    exact .crossing (by decide) ht

theorem flipShape_fifteen {k : ℕ} (hk : k < 33) (h : ((15 : BitVec 32) <<< k) >>> k = 15) :
    FlipShape ((15 : BitVec 32) <<< k) := by
  have hall : ∀ k, k < 33 → ((15 : BitVec 32) <<< k) >>> k = 15 →
      k % 8 < 5 ∧ k / 8 < 4 ∧
        (15 : BitVec 32) <<< k = (bitMask 4 (4 - k % 8)).setWidth 32 <<< (8 * (k / 8)) ∨
      k / 8 < 3 ∧ (15 : BitVec 16) <<< (k % 8) ∈ crossings ∧ (15 : BitVec 32) <<< k =
        ((15 : BitVec 16) <<< (k % 8)).setWidth 32 <<< (8 * (k / 8)) := by
    decide
  obtain ⟨hlt, ht, heq⟩ | ⟨ht, hmem, heq⟩ := hall k hk h
  · rw [heq]
    exact .bits (.inr (.inr rfl)) (by omega) ht
  · rw [heq]
    exact .crossing hmem ht

theorem flipShape_ones {w k : ℕ} (hw : w = 8 ∨ w = 16 ∨ w = 32) (hk : k < 33) (h8 : k % 8 = 0)
    (h : ((BitVec.allOnes w).setWidth 32 <<< k) >>> k = (BitVec.allOnes w).setWidth 32) :
    FlipShape ((BitVec.allOnes w).setWidth 32 <<< k) := by
  have hall : ∀ k, k < 33 → ∀ w, w = 8 ∨ w = 16 ∨ w = 32 → k % 8 = 0 →
      ((BitVec.allOnes w).setWidth 32 <<< k) >>> k = (BitVec.allOnes w).setWidth 32 →
      k / 8 + w / 8 ≤ 4 := by
    rintro k hk w (rfl | rfl | rfl) <;> revert k <;> decide
  have hk8 : k = 8 * (k / 8) := by omega
  have ht := hall k hk w hw h8 h
  rw [hk8]
  exact .bytes hw ht

theorem flipShape_of_couldBeBitflip {d : BitVec 32} (h : couldBeBitflip d = true) :
    FlipShape d := by
  rw [couldBeBitflip] at h
  split at h
  · rename_i hd
    rw [hd]
    exact .none
  · obtain ⟨k, hk, hout, hback⟩ := shiftOut_eq 32 0 d
    rw [hout, Nat.zero_add] at h
    have hmod : k &&& 7 = k % 8 := Nat.and_two_pow_sub_one_eq_mod k 3
    have hround : ∀ y : BitVec 32, d >>> k = y → y <<< k = d ∧ (y <<< k) >>> k = y := by
      rintro y rfl
      exact ⟨hback, by rw [hback]⟩
    dsimp only at h
    split at h
    · rename_i hy
      rcases hy with hy | hy | hy
      · obtain ⟨hd, hy⟩ := hround _ hy
        exact hd ▸ flipShape_one (by omega) hy
      · obtain ⟨hd, hy⟩ := hround _ hy
        exact hd ▸ flipShape_three (by omega) hy
      · obtain ⟨hd, hy⟩ := hround _ hy
        exact hd ▸ flipShape_fifteen (by omega) hy
    · split at h
      · exact absurd h Bool.false_ne_true
      · rename_i h8
        rw [ne_eq, not_not, hmod] at h8
        rcases of_decide_eq_true h with hy | hy | hy
        · obtain ⟨hd, hy⟩ := hround _ hy
          exact hd ▸ flipShape_ones (w := 8) (by decide) (by omega) h8 hy
        · obtain ⟨hd, hy⟩ := hround _ hy
          exact hd ▸ flipShape_ones (w := 16) (by decide) (by omega) h8 hy
        · obtain ⟨hd, hy⟩ := hround _ hy
          exact hd ▸ flipShape_ones (w := 32) (by decide) (by omega) h8 hy

/-- Bit `r` of byte `a`, counted from the highest, is one of the flipped bits. -/
theorem getLsbD_flipBits (n cur : ℕ) (m : Bytes) (a : ℕ) {r : ℕ} (hr : r < 8) :
    (flipBits n cur m a).getLsbD (7 - r) =
      ((m a).getLsbD (7 - r) ^^ decide (cur ≤ 8 * a + r ∧ 8 * a + r < cur + n)) := by
  induction n with
  | zero => simp [flipBits, show ¬ (cur ≤ 8 * a + r ∧ 8 * a + r < cur) by omega]
  | succ n ih =>
    have hmod : (cur + n) &&& 7 = (cur + n) % 8 := Nat.and_two_pow_sub_one_eq_mod _ 3
    have hdiv : (cur + n) >>> 3 = (cur + n) / 8 := Nat.shiftRight_eq_div_pow _ 3
    have hsplit : flipBits (n + 1) cur m = flipBit (flipBits n cur m) (cur + n) := by
      rw [flipBits, List.range_succ, List.foldl_append]
      rfl
    rw [hsplit, flipBit, setByte, hmod, hdiv]
    by_cases ha : a = (cur + n) / 8
    · have hone : ∀ p, p < 8 → ∀ r, r < 8 →
          ((128 : Byte) >>> p).getLsbD (7 - r) = decide (r = p) := by decide
      rw [if_pos ha, ← ha, BitVec.getLsbD_xor, ih, hone _ (Nat.mod_lt _ (by decide)) r hr,
        Bool.xor_assoc]
      congr 1
      by_cases h1 : r = (cur + n) % 8
      · simp [h1, show ¬ (8 * a + (cur + n) % 8 < cur + n) by omega,
          show cur ≤ 8 * a + (cur + n) % 8 by omega,
          show 8 * a + (cur + n) % 8 < cur + (n + 1) by omega]
      · simp only [h1, decide_false, Bool.xor_false]
        exact decide_eq_decide.mpr (by omega)
    · rw [if_neg ha, ih]
      congr 1
      exact decide_eq_decide.mpr (by omega)

theorem flipBits_flipBits (n cur : ℕ) (m : Bytes) : flipBits n cur (flipBits n cur m) = m := by
  funext a
  apply BitVec.eq_of_getLsbD_eq
  intro i hi
  have h7 : 7 - (7 - i) = i := by omega
  have hbit := getLsbD_flipBits n cur (flipBits n cur m) a (r := 7 - i) (by omega)
  rw [getLsbD_flipBits n cur m a (by omega), Bool.xor_assoc, Bool.xor_self, Bool.xor_false,
    h7] at hbit
  exact hbit

theorem getLsbD_bitMask {n p : ℕ} (hn : n = 1 ∨ n = 2 ∨ n = 4) (hp : p + n ≤ 8) {r : ℕ}
    (hr : r < 8) : (bitMask n p).getLsbD (7 - r) = decide (p ≤ r ∧ r < p + n) := by
  have hall : ∀ p, p < 8 → ∀ r, r < 8 → ∀ n, n < 5 → p + n ≤ 8 →
      (bitMask n p).getLsbD (7 - r) = decide (p ≤ r ∧ r < p + n) := by decide
  exact hall p (by omega) r hr n (by omega) hp

/-- Bits of one byte. -/
theorem flipBits_eq_store {n p : ℕ} (hn : n = 1 ∨ n = 2 ∨ n = 4) (hp : p + n ≤ 8) (m : Bytes)
    (a : ℕ) : flipBits n (8 * a + p) m = store 8 m a (load 8 m a ^^^ bitMask n p) := by
  funext b
  apply BitVec.eq_of_getLsbD_eq
  intro i hi
  have h7 : 7 - (7 - i) = i := by omega
  have hbit := getLsbD_flipBits n (8 * a + p) m b (r := 7 - i) (by omega)
  have hmask := getLsbD_bitMask hn hp (r := 7 - i) (by omega)
  rw [h7] at hbit hmask
  rw [hbit, store]
  by_cases hb : b = a
  · subst hb
    have hself : wordByte (load 8 m b ^^^ bitMask n p) (b - b) = m b ^^^ bitMask n p := by
      rw [Nat.sub_self, load_one]
      exact BitVec.extractLsb'_eq_self
    rw [if_pos ⟨Nat.le_refl b, by omega⟩, hself, BitVec.getLsbD_xor, hmask]
    congr 1
    exact decide_eq_decide.mpr (by omega)
  · rw [if_neg (by omega), decide_eq_false (by omega), Bool.xor_false]

theorem flipWord_flipWord {w : ℕ} (hw : 8 ∣ w) (i : ℕ) (m : Bytes) :
    flipWord w i (flipWord w i m) = m := by
  rw [flipWord, flipWord, load_store hw, store_store, BitVec.xor_assoc, BitVec.xor_self,
    BitVec.xor_zero, store_load hw]

/-! ### Crossings are not executed -/

theorem mem_crossings {c : BitVec 16} (hc : c ∈ crossings) :
    c = 0x0180 ∨ c = 0x01e0 ∨ c = 0x03c0 ∨ c = 0x0780 := by
  simpa [crossings] using hc

theorem wordByte_crossing {c : BitVec 16} (hc : c ∈ crossings) :
    (wordByte c 0).getLsbD 7 = true ∧ (wordByte c 1).getLsbD 0 = true ∧
      (wordByte c 1).getLsbD 7 = false := by
  obtain rfl | rfl | rfl | rfl := mem_crossings hc <;> decide

theorem wordByte_crossing_ne {c : BitVec 16} (hc : c ∈ crossings) {b : ℕ} (hb : b < 2) :
    wordByte c b ≠ 0#8 := by
  revert b
  obtain rfl | rfl | rfl | rfl := mem_crossings hc <;> decide

/-- The two bytes of a crossing. -/
theorem Crossing.bytes {m x : Bytes} (h : Crossing m x) :
    ∃ i, (x i).getLsbD 7 = !(m i).getLsbD 7 ∧ (x (i + 1)).getLsbD 0 = !(m (i + 1)).getLsbD 0 ∧
      (x (i + 1)).getLsbD 7 = (m (i + 1)).getLsbD 7 := by
  obtain ⟨i, c, hc, rfl⟩ := h
  obtain ⟨h7, h0, h17⟩ := wordByte_crossing hc
  have hbyte : ∀ b, b < 2 →
      store 16 m i (load 16 m i ^^^ c) (i + b) = m (i + b) ^^^ wordByte c b := by
    intro b hb
    rw [store, if_pos ⟨by omega, by omega⟩, Nat.add_sub_cancel_left, wordByte_xor,
      wordByte_load (by decide) m i (by omega)]
  have hfirst := hbyte 0 (by decide)
  rw [Nat.add_zero] at hfirst
  refine ⟨i, ?_, ?_, ?_⟩
  · rw [hfirst, BitVec.getLsbD_xor, h7, Bool.xor_true]
  · rw [hbyte 1 (by decide), BitVec.getLsbD_xor, h0, Bool.xor_true]
  · rw [hbyte 1 (by decide), BitVec.getLsbD_xor, h17, Bool.xor_false]

theorem not_crossing_self (m : Bytes) : ¬ Crossing m m := by
  intro h
  obtain ⟨i, h7, -, -⟩ := h.bytes
  exact (Bool.eq_not_self _).mp h7

theorem not_crossing_flipBits {n cur : ℕ} (hn : n ≤ 4) (m : Bytes) :
    ¬ Crossing m (flipBits n cur m) := by
  intro h
  obtain ⟨i, h7, h0, -⟩ := h.bytes
  have hfirst := getLsbD_flipBits n cur m i (r := 0) (by decide)
  have hlast := getLsbD_flipBits n cur m (i + 1) (r := 7) (by decide)
  rw [Nat.sub_zero, h7] at hfirst
  rw [Nat.sub_self, h0] at hlast
  have hin : cur ≤ 8 * i + 0 ∧ 8 * i + 0 < cur + n := by
    by_contra hout
    rw [decide_eq_false hout, Bool.xor_false] at hfirst
    exact (Bool.not_eq_self _).mp hfirst
  have hin' : cur ≤ 8 * (i + 1) + 7 ∧ 8 * (i + 1) + 7 < cur + n := by
    by_contra hout
    rw [decide_eq_false hout, Bool.xor_false] at hlast
    exact (Bool.not_eq_self _).mp hlast
  omega

theorem flipWord_byte {w i a : ℕ} (hw : 8 ∣ w) (m : Bytes) (ha : i ≤ a ∧ a < i + w / 8) :
    flipWord w i m a = m a ^^^ BitVec.allOnes 8 := by
  rw [flipWord, store, if_pos ha, wordByte_xor, wordByte_load hw m i (by omega),
    wordByte_allOnes (by omega)]
  congr 2
  omega

theorem not_crossing_flipWord {w i : ℕ} (hw : 8 ∣ w) (m : Bytes) :
    ¬ Crossing m (flipWord w i m) := by
  intro h
  obtain ⟨a, -, h0, h7⟩ := h.bytes
  by_cases hin : i ≤ a + 1 ∧ a + 1 < i + w / 8
  · rw [flipWord_byte hw m hin, BitVec.getLsbD_xor] at h7
    simp at h7
  · rw [flipWord, store, if_neg hin] at h0
    exact (Bool.eq_not_self _).mp h0

theorem couldBeBitflip_crossing {c : BitVec 16} (hc : c ∈ crossings) {t : ℕ} (ht : t < 3) :
    couldBeBitflip (c.setWidth 32 <<< (8 * t)) = true := by
  revert t
  obtain rfl | rfl | rfl | rfl := mem_crossings hc <;> decide

theorem xorAt_injective {m : Bytes} {a : ℕ} {d e : BitVec 32} (h : xorAt m a d = xorAt m a e) :
    d = e := by
  refine eq_of_wordByte (by decide) fun b hb => ?_
  have hbyte := congrFun h (a + b)
  rw [xorAt, xorAt, if_pos ⟨by omega, by omega⟩, if_pos ⟨by omega, by omega⟩,
    Nat.add_sub_cancel_left, BitVec.xor_right_inj] at hbyte
  exact hbyte

/-- Every crossing is taken for a bit flip. -/
theorem couldBeBitflip_of_crossing {m : Bytes} {a : ℕ} {d : BitVec 32}
    (h : Crossing m (xorAt m a d)) : couldBeBitflip d = true := by
  have hne : ∀ b, xorAt m a d b ≠ m b → a ≤ b ∧ b < a + 4 := by
    intro b hb
    by_contra hout
    exact hb (if_neg hout)
  obtain ⟨i, c, hc, hx⟩ := h
  have hbyte : ∀ b, b < 2 → xorAt m a d (i + b) ≠ m (i + b) := by
    intro b hb heq
    rw [hx, store, if_pos ⟨by omega, by omega⟩, Nat.add_sub_cancel_left, wordByte_xor,
      wordByte_load (by decide) m i (by omega)] at heq
    exact wordByte_crossing_ne hc hb
      ((BitVec.xor_right_inj (m (i + b))).mp (heq.trans BitVec.xor_zero.symm))
  have hfirst := hne i (hbyte 0 (by decide))
  have hlast := hne (i + 1) (hbyte 1 (by decide))
  obtain ⟨t, rfl⟩ := Nat.exists_eq_add_of_le hfirst.1
  have hd : d = c.setWidth 32 <<< (8 * t) := by
    apply xorAt_injective (m := m) (a := a)
    rw [hx, xorAt_shifted (by decide) m a (by omega)]
  rw [hd]
  exact couldBeBitflip_crossing hc (by omega)

end AflPlusPlus.Mutation
