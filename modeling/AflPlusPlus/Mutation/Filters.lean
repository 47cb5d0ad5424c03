import AflPlusPlus.Mutation.StageRuns

/-!
# What the filters skip

With every byte effective, a value that a filter skips has been executed in an earlier step, or it
is a crossing. The stages are gone through in their order, and a number of `2 * h` bits of which the
arithmetic only changes one half leads to the stage for `h` bits.
-/

namespace AflPlusPlus.Mutation
open Lib Trials

/-! ### Halves of numbers -/

/-- The bytes in reversed order. -/
def Reverses {w : ℕ} (swap : BitVec w → BitVec w) : Prop :=
  ∀ x b, b < w / 8 → wordByte (swap x) b = wordByte x (w / 8 - 1 - b)

theorem reverses_byte : Reverses (id : BitVec 8 → BitVec 8) := by
  intro x b hb
  obtain rfl : b = 0 := by omega
  rfl

theorem reverses_swap16 : Reverses swap16 := fun x _ hb => wordByte_swap16 x hb

theorem reverses_swap32 : Reverses swap32 := fun x _ hb => wordByte_swap32 x hb

theorem Reverses.involutive {w : ℕ} {swap : BitVec w → BitVec w} (h : Reverses swap) (hw : 8 ∣ w)
    (x : BitVec w) : swap (swap x) = x := by
  refine eq_of_wordByte hw fun b hb => ?_
  rw [h _ b hb, h x _ (by omega)]
  congr 1
  omega

theorem wordByte_low {w h : ℕ} (x : BitVec w) {b : ℕ} (hb : b < h / 8) :
    wordByte (x.setWidth h) b = wordByte x b := by
  apply BitVec.eq_of_getLsbD_eq
  intro i hi
  rw [getLsbD_wordByte, getLsbD_wordByte, BitVec.getLsbD_setWidth]
  simp [show 8 * b + i < h by omega]

theorem wordByte_high {w h : ℕ} (hh : 8 ∣ h) (x : BitVec w) {b : ℕ} (hb : h / 8 ≤ b) :
    wordByte x b = wordByte (x >>> h) (b - h / 8) := by
  obtain ⟨c, rfl⟩ := hh
  rw [wordByte_shift]
  congr 1
  omega

section Halves

variable {w h i : ℕ} {m : Bytes}

/-- Only the lower half is changed. -/
theorem store_low (hw : w = 2 * h) (hh : 8 ∣ h) {v : BitVec w}
    (hhigh : v >>> h = load w m i >>> h) : store w m i v = store h m i (v.setWidth h) := by
  have hpart := store_eq_part (m := m) (a := i) (k := 0) (x := v) (y := v.setWidth h) (by omega)
    (fun b hb => by rw [Nat.zero_add, wordByte_low v hb]) fun b hb hout => by
      rw [wordByte_high hh v (by omega), hhigh, ← wordByte_high hh _ (by omega),
        wordByte_load (by omega) m i hb]
  rwa [Nat.add_zero] at hpart

theorem load_low (hw : w = 2 * h) (hh : 8 ∣ h) : (load w m i).setWidth h = load h m i := by
  refine eq_of_wordByte hh fun b hb => ?_
  rw [wordByte_low _ hb, wordByte_load (by omega) m i (by omega), wordByte_load hh m i hb]

/-- Only the lower half of the swapped number is changed. -/
theorem store_swapped_low (hw : w = 2 * h) (hh : 8 ∣ h) {swapW : BitVec w → BitVec w}
    {swapH : BitVec h → BitVec h} (hrw : Reverses swapW) (hrh : Reverses swapH) {y : BitVec w}
    (hhigh : y >>> h = swapW (load w m i) >>> h) :
    store w m i (swapW y) = store h m (i + h / 8) (swapH (y.setWidth h)) := by
  refine store_eq_part (by omega) (fun b hb => ?_) fun b hb hout => ?_
  · rw [hrw y _ (by omega), hrh _ b hb, wordByte_low y (by omega)]
    congr 1
    omega
  · have hback : w / 8 - 1 - (w / 8 - 1 - b) = b := by omega
    rw [hrw y b hb, wordByte_high hh y (by omega), hhigh, ← wordByte_high hh _ (by omega),
      hrw _ _ (by omega), hback, wordByte_load (by omega) m i hb]

theorem load_swapped_low (hw : w = 2 * h) (hh : 8 ∣ h) {swapW : BitVec w → BitVec w}
    {swapH : BitVec h → BitVec h} (hrw : Reverses swapW) (hrh : Reverses swapH) :
    (swapW (load w m i)).setWidth h = swapH (load h m (i + h / 8)) := by
  refine eq_of_wordByte hh fun b hb => ?_
  rw [wordByte_low _ hb, hrw _ b (by omega), hrh _ b hb, wordByte_load (by omega) m i (by omega),
    wordByte_load hh m _ (by omega)]
  congr 1
  omega

theorem div_add_of_low {x j q : ℕ} (hj : x % q + j < q) : (x + j) / q = x / q := by
  have hq : 0 < q := by omega
  have hx : x + j = x % q + j + q * (x / q) := by
    have := Nat.mod_add_div x q
    omega
  rw [hx, Nat.add_mul_div_left _ _ hq, Nat.div_eq_of_lt hj, Nat.zero_add]

theorem div_sub_of_low {x j q : ℕ} (hq : 0 < q) (hj : j ≤ x % q) : (x - j) / q = x / q := by
  have hlt := Nat.mod_lt x hq
  have hx : x - j = x % q - j + q * (x / q) := by
    have := Nat.mod_add_div x q
    omega
  rw [hx, Nat.add_mul_div_left _ _ hq, Nat.div_eq_of_lt (by omega), Nat.zero_add]

theorem add_high (hw : h ≤ w) {x : BitVec w} {j : ℕ} (hj : x.toNat % 2 ^ h + j < 2 ^ h) :
    (x + BitVec.ofNat w j) >>> h = x >>> h := by
  have hle : 2 ^ h ≤ 2 ^ w := Nat.pow_le_pow_right (by decide) hw
  have hjx : (BitVec.ofNat w j).toNat = j := by
    rw [BitVec.toNat_ofNat, Nat.mod_eq_of_lt (by omega)]
  have hpow : 2 ^ w = 2 ^ h * 2 ^ (w - h) := by rw [← Nat.pow_add, Nat.add_sub_of_le hw]
  have hdiv := div_add_of_low hj
  have hquot : x.toNat / 2 ^ h < 2 ^ (w - h) := Nat.div_lt_of_lt_mul (hpow ▸ x.isLt)
  have hsum : x.toNat + j < 2 ^ w := by
    rw [← hdiv] at hquot
    rw [hpow, Nat.mul_comm]
    exact (Nat.div_lt_iff_lt_mul (Nat.two_pow_pos h)).mp hquot
  apply BitVec.eq_of_toNat_eq
  rw [BitVec.toNat_ushiftRight, BitVec.toNat_ushiftRight, Nat.shiftRight_eq_div_pow,
    Nat.shiftRight_eq_div_pow, BitVec.toNat_add, hjx, Nat.mod_eq_of_lt hsum, hdiv]

theorem sub_high (hw : h ≤ w) {x : BitVec w} {j : ℕ} (hj : j ≤ x.toNat % 2 ^ h) :
    (x - BitVec.ofNat w j) >>> h = x >>> h := by
  have hle : 2 ^ h ≤ 2 ^ w := Nat.pow_le_pow_right (by decide) hw
  have hlt : x.toNat % 2 ^ h < 2 ^ h := Nat.mod_lt _ (Nat.two_pow_pos h)
  have hjx : (BitVec.ofNat w j).toNat = j := by
    rw [BitVec.toNat_ofNat, Nat.mod_eq_of_lt (by omega)]
  have hmod := Nat.mod_le x.toNat (2 ^ h)
  apply BitVec.eq_of_toNat_eq
  rw [BitVec.toNat_ushiftRight, BitVec.toNat_ushiftRight, Nat.shiftRight_eq_div_pow,
    Nat.shiftRight_eq_div_pow, BitVec.toNat_sub_of_le (by rw [BitVec.le_def, hjx]; omega), hjx,
    div_sub_of_low (Nat.two_pow_pos h) hj]

end Halves

/-! ### What a filter skips -/

section Skipped

variable {eff : ℕ → Bool} {m : Bytes} {len : ℕ}

theorem bitMask_ne_zero {n p : ℕ} (hn : n = 1 ∨ n = 2 ∨ n = 4) (hp : p + n ≤ 8) :
    bitMask n p ≠ 0#8 := by
  intro h
  have hbit := getLsbD_bitMask hn hp (r := p) (by omega)
  rw [h, BitVec.getLsbD_zero] at hbit
  exact of_decide_eq_false hbit.symm ⟨Nat.le_refl p, by omega⟩

/-- A difference of `k` bytes that has the shape of a bit flip is one, or a crossing. -/
theorem bitflipRun_of_shape (heff : ∀ i, i < len → eff i = true) {i k : ℕ} {d : BitVec 32}
    (hd : FlipShape d) (hzero : ∀ b, b < 4 → wordByte d b ≠ 0#8 → b < k) (hi : i + k ≤ len) :
    BitflipRun eff m len (xorAt m i d) ∨ Crossing m (xorAt m i d) := by
  cases hd with
  | none =>
    have hself : xorAt m i 0 = m := by
      funext a
      rw [xorAt]
      split
      · exact (congrArg (m a ^^^ ·) (wordByte_zero (w := 32) _)).trans BitVec.xor_zero
      · rfl
    rw [hself]
    exact .inl .clean
  | @bits n p t hn hp ht =>
    have hk := hzero t ht (by
      rw [wordByte_shifted _ ht, if_pos (Nat.le_refl t), Nat.sub_self]
      exact fun h => bitMask_ne_zero hn hp ((BitVec.extractLsb'_eq_self).symm.trans h))
    rw [xorAt_shifted (w := 8) (by decide) m i (by omega), ← flipBits_eq_store hn hp]
    refine .inl (.bits hn (by omega) (heff _ (by omega)))
  | @bytes w t hw ht =>
    have hw8 : 8 ∣ w := by omega
    have hk := hzero (t + (w / 8 - 1)) (by omega) (by
      rw [wordByte_shifted _ (by omega), if_pos (by omega), Nat.add_sub_cancel_left,
        wordByte_allOnes (by omega)]
      decide)
    rw [xorAt_shifted hw8 m i ht]
    exact .inl (.bytes hw (by omega) (heff _ (by omega)))
  | @crossing c t hc ht =>
    rw [xorAt_shifted (w := 16) (by decide) m i (by omega)]
    exact .inr ⟨i + t, c, hc, rfl⟩

theorem bitflipRun_of_couldBeBitflip (heff : ∀ i, i < len → eff i = true) {w i : ℕ} (hw : 8 ∣ w)
    (hle : w ≤ 32) (hi : i + w / 8 ≤ len) {v : BitVec w}
    (h : couldBeBitflip ((load w m i ^^^ v).setWidth 32) = true) :
    BitflipRun eff m len (store w m i v) ∨ Crossing m (store w m i v) := by
  rw [store_eq_xorAt hw hle]
  refine bitflipRun_of_shape heff (flipShape_of_couldBeBitflip h) (fun b hb hne => ?_) hi
  by_contra hout
  have hbyte := wordByte_shifted (load w m i ^^^ v) (t := 0) hb
  rw [Nat.mul_zero, BitVec.shiftLeft_zero, if_pos (Nat.zero_le b), Nat.sub_zero,
    wordByte_of_ge hw _ (by omega)] at hbyte
  exact hne hbyte

/-- A step of the arithmetic. -/
def Steps {w : ℕ} (j : ℕ) (x y : BitVec w) : Prop :=
  y = x + BitVec.ofNat w j ∨ y = x - BitVec.ofNat w j

/-- A number near to another one, in some byte order. -/
def Near {w : ℕ} (swap : BitVec w → BitVec w) (orig v : BitVec w) : Prop :=
  ∃ j, 0 < j ∧ j ≤ arithMax ∧ ∃ y, Steps j (swap orig) y ∧ v = swap y

/-- The lower halves make the same step. -/
theorem Steps.low {w h j : ℕ} {x y : BitVec w} (hw : h ≤ w) (hs : Steps j x y) :
    Steps j (x.setWidth h) (y.setWidth h) := by
  have hj : (BitVec.ofNat w j).setWidth h = BitVec.ofNat h j := BitVec.setWidth_ofNat_of_le hw j
  refine hs.imp ?_ ?_
  · rintro rfl
    rw [BitVec.setWidth_add _ _ hw, hj]
  · rintro rfl
    rw [BitVec.sub_eq_add_neg, BitVec.sub_eq_add_neg, BitVec.setWidth_add _ _ hw,
      BitVec.setWidth_neg_of_le hw, hj]

/-- The lower half overflows, or the upper half stays as it is. -/
theorem Steps.overflows {w h j : ℕ} {x y : BitVec w} (hw : h ≤ w) (hs : Steps j x y) :
    2 ^ h ≤ x.toNat % 2 ^ h + j ∧ y = x + BitVec.ofNat w j ∨
      x.toNat % 2 ^ h < j ∧ y = x - BitVec.ofNat w j ∨ y >>> h = x >>> h := by
  obtain rfl | rfl := hs
  · by_cases hj : 2 ^ h ≤ x.toNat % 2 ^ h + j
    · exact .inl ⟨hj, rfl⟩
    · exact .inr (.inr (add_high hw (Nat.lt_of_not_le hj)))
  · by_cases hj : x.toNat % 2 ^ h < j
    · exact .inr (.inl ⟨hj, rfl⟩)
    · exact .inr (.inr (sub_high hw (Nat.le_of_not_lt hj)))

/-- Executed, or a crossing. -/
def Reached (eff : ℕ → Bool) (m : Bytes) (len : ℕ) (x : Bytes) : Prop :=
  x ∈ deterministicRuns false eff m len ∨ Crossing m x

theorem reached_self : Reached eff m len m := .inl (mem_deterministicRuns.mpr (.inl .clean))

theorem reached_of_couldBeBitflip (heff : ∀ i, i < len → eff i = true) {w i : ℕ} (hw : 8 ∣ w)
    (hle : w ≤ 32) (hi : i + w / 8 ≤ len) {v : BitVec w}
    (h : couldBeBitflip ((load w m i ^^^ v).setWidth 32) = true) :
    Reached eff m len (store w m i v) :=
  (bitflipRun_of_couldBeBitflip heff hw hle hi h).imp_left fun hrun =>
    mem_deterministicRuns.mpr (.inl hrun)

theorem reached_of_valueRun (heff : ∀ i, i < len → eff i = true) {w i : ℕ} (hw : 8 ≤ w)
    (hi : i + w / 8 ≤ len) {v : BitVec w} (h : ValueRun false w (load w m i) v) :
    Reached eff m len (store w m i v) :=
  .inl (mem_deterministicRuns.mpr (.inr ⟨w, i, hi, heff i (by omega), v, h, rfl⟩))

theorem reached_arith8 (heff : ∀ i, i < len → eff i = true) {i : ℕ} (hi : i + 8 / 8 ≤ len)
    {v : BitVec 8} (hv : Near id (load 8 m i) v) : Reached eff m len (store 8 m i v) := by
  cases hflip : couldBeBitflip ((load 8 m i ^^^ v).setWidth 32) with
  | true => exact reached_of_couldBeBitflip heff (by decide) (by decide) hi hflip
  | false =>
    obtain ⟨j, hpos, hmax, y, hy, rfl⟩ := hv
    exact reached_of_valueRun heff (by decide) hi (.arith8 rfl ⟨j, hpos, hmax, hflip, hy⟩)

/-- The arithmetic on `w = 2 * h` bits is left out where it only changes one half. -/
theorem reached_arithWords (heff : ∀ i, i < len → eff i = true) {w h i : ℕ} (hw : w = 2 * h)
    (hh : 8 ∣ h) (hle : w ≤ 32) {swapW : BitVec w → BitVec w} {swapH : BitVec h → BitVec h}
    (hrw : Reverses swapW) (hrh : Reverses swapH) (limit : ℕ) (leLow beLow : BitVec w → ℕ)
    (hlimit : limit + 1 = 2 ^ h) (hlow : ∀ x, leLow x = x.toNat % 2 ^ h)
    (hbe : ∀ x, beLow x = (swapW x).toNat % 2 ^ h)
    (hhalf : ∀ i v, i + h / 8 ≤ len → Near id (load h m i) v ∨ Near swapH (load h m i) v →
      Reached eff m len (store h m i v))
    (hrun : ∀ i v, i + w / 8 ≤ len → ArithRun swapW limit leLow beLow (load w m i) v →
      Reached eff m len (store w m i v))
    (hi : i + w / 8 ≤ len) {v : BitVec w}
    (hv : Near id (load w m i) v ∨ Near swapW (load w m i) v) :
    Reached eff m len (store w m i v) := by
  have hhw : h ≤ w := by omega
  cases hflip : couldBeBitflip ((load w m i ^^^ v).setWidth 32) with
  | true => exact reached_of_couldBeBitflip heff (by omega) hle hi hflip
  | false =>
    obtain ⟨j, hpos, hmax, y, hy, rfl⟩ | ⟨j, hpos, hmax, y, hy, rfl⟩ := hv
    · rw [id_eq] at hy
      obtain ⟨hover, rfl⟩ | ⟨hover, rfl⟩ | hhigh := hy.overflows hhw
      · refine hrun i _ hi ⟨j, hpos, hmax, hflip, .inl ⟨?_, rfl⟩⟩
        rw [hlow]
        omega
      · refine hrun i _ hi ⟨j, hpos, hmax, hflip, .inr (.inl ⟨?_, rfl⟩)⟩
        rw [hlow]
        exact hover
      · have hhalfstep := hy.low hhw
        rw [load_low hw hh] at hhalfstep
        rw [store_low hw hh hhigh]
        exact hhalf i _ (by omega) (.inl ⟨j, hpos, hmax, _, hhalfstep, rfl⟩)
    · obtain ⟨hover, rfl⟩ | ⟨hover, rfl⟩ | hhigh := hy.overflows hhw
      · refine hrun i _ hi ⟨j, hpos, hmax, hflip, .inr (.inr (.inl ⟨?_, rfl⟩))⟩
        rw [hbe]
        omega
      · refine hrun i _ hi ⟨j, hpos, hmax, hflip, .inr (.inr (.inr ⟨?_, rfl⟩))⟩
        rw [hbe]
        exact hover
      · have hhalfstep := hy.low hhw
        rw [load_swapped_low hw hh hrw hrh] at hhalfstep
        rw [store_swapped_low hw hh hrw hrh hhigh]
        exact hhalf (i + h / 8) _ (by omega) (.inr ⟨j, hpos, hmax, _, hhalfstep, rfl⟩)

theorem reached_arith16 (heff : ∀ i, i < len → eff i = true) {i : ℕ} (hi : i + 16 / 8 ≤ len)
    {v : BitVec 16} (hv : Near id (load 16 m i) v ∨ Near swap16 (load 16 m i) v) :
    Reached eff m len (store 16 m i v) := by
  refine reached_arithWords (h := 8) heff rfl (by decide) (by decide) reverses_swap16 reverses_byte
    0xff (fun orig => (orig &&& 0xff).toNat) (fun orig => (orig >>> 8).toNat) rfl ?_ ?_ ?_ ?_ hi hv
  · intro x
    exact (BitVec.toNat_and x 0xff).trans (Nat.and_two_pow_sub_one_eq_mod _ 8)
  · intro x
    have hbyte := congrArg BitVec.toNat (wordByte_swap16 x (b := 0) (by decide))
    have hx := x.isLt
    simp only [wordByte, BitVec.extractLsb'_toNat, Nat.shiftRight_eq_div_pow] at hbyte
    rw [BitVec.toNat_ushiftRight, Nat.shiftRight_eq_div_pow]
    omega
  · rintro i v hi (hv | hv)
    · exact reached_arith8 heff hi hv
    · exact reached_arith8 heff hi hv
  · intro i v hi hv
    exact reached_of_valueRun heff (by decide) hi (.arith16 rfl hv)

theorem reached_arith32 (heff : ∀ i, i < len → eff i = true) {i : ℕ} (hi : i + 32 / 8 ≤ len)
    {v : BitVec 32} (hv : Near id (load 32 m i) v ∨ Near swap32 (load 32 m i) v) :
    Reached eff m len (store 32 m i v) := by
  refine reached_arithWords (h := 16) heff rfl (by decide) (by decide) reverses_swap32
    reverses_swap16 0xffff (fun orig => (orig &&& 0xffff).toNat)
    (fun orig => (swap32 orig &&& 0xffff).toNat) rfl ?_ ?_ ?_ ?_ hi hv
  · intro x
    exact (BitVec.toNat_and x 0xffff).trans (Nat.and_two_pow_sub_one_eq_mod _ 16)
  · intro x
    exact (BitVec.toNat_and (swap32 x) 0xffff).trans (Nat.and_two_pow_sub_one_eq_mod _ 16)
  · intro i v hi hv
    exact reached_arith16 heff hi hv
  · intro i v hi hv
    exact reached_of_valueRun heff (by decide) hi (.arith32 rfl hv)

/-! #### Arithmetic -/

def element (e : ℕ) (x : BitVec 32) (k : ℕ) : BitVec e := (x >>> (e * k)).setWidth e

theorem wordByte_element {w e : ℕ} (hw : w ≤ 32) (he : 8 ∣ e) (x : BitVec w) (k : ℕ) {b : ℕ}
    (hb : b < e / 8) : wordByte (element e (x.setWidth 32) k) b = wordByte x (e / 8 * k + b) := by
  obtain ⟨c, rfl⟩ := he
  have hmul : 8 * c / 8 * k = c * k := by rw [Nat.mul_div_cancel_left c (by decide)]
  have hsum : ∀ i, 8 * c * k + (8 * b + i) = 8 * (c * k + b) + i := by
    intro i
    rw [Nat.mul_assoc]
    omega
  rw [hmul]
  apply BitVec.eq_of_getLsbD_eq
  intro i hi
  rw [getLsbD_wordByte, getLsbD_wordByte, element, BitVec.getLsbD_setWidth,
    BitVec.getLsbD_ushiftRight, BitVec.getLsbD_setWidth, hsum]
  by_cases hlt : 8 * (c * k + b) + i < w
  · simp [hi, hlt, show 8 * b + i < 8 * c by omega, show 8 * (c * k + b) + i < 32 by omega]
  · simp [BitVec.getLsbD_of_ge x _ (Nat.le_of_not_lt hlt)]

/-- One differing element, as the loop finds it. -/
structure OnlyDiffering (e : ℕ) (x y : BitVec 32) (n k : ℕ) : Prop where
  lt : k < n
  ne : element e x k ≠ element e y k
  same : ∀ l, l < n → l ≠ k → element e x l = element e y l

theorem differing_spec (e : ℕ) (x y : BitVec 32) (n : ℕ) :
    ((differing e x y n).1 = 0 → ∀ l, l < n → element e x l = element e y l) ∧
      ((differing e x y n).1 = 1 → ∃ k, OnlyDiffering e x y n k ∧
        (differing e x y n).2.1 = element e x k ∧ (differing e x y n).2.2 = element e y k) := by
  induction n with
  | zero =>
    exact ⟨fun _ l hl => absurd hl (Nat.not_lt_zero l), fun h : (0 : ℕ) = 1 => absurd h (by decide)⟩
  | succ n ih =>
    obtain ⟨hzero, hone⟩ := ih
    have hstep : differing e x y (n + 1) = if element e x n ≠ element e y n then
        ((differing e x y n).1 + 1, element e x n, element e y n) else differing e x y n := by
      rw [differing, List.range_succ, List.foldl_append]
      rfl
    rw [hstep]
    split
    · rename_i hne
      refine ⟨fun h => absurd h (Nat.succ_ne_zero _), fun h =>
        ⟨n, ⟨Nat.lt_succ_self n, hne, ?_⟩, rfl, rfl⟩⟩
      intro l hl hln
      exact hzero (Nat.succ.inj h) l (by omega)
    · rename_i heq
      rw [ne_eq, not_not] at heq
      have hlast : ∀ l, l < n + 1 → l ≠ n → l < n := fun l hl hln => by omega
      refine ⟨fun h l hl => ?_, fun h => ?_⟩
      · by_cases hln : l = n
        · rw [hln, heq]
        · exact hzero h l (hlast l hl hln)
      · obtain ⟨k, ⟨hlt, hne, hsame⟩, hpair⟩ := hone h
        refine ⟨k, ⟨Nat.lt_succ_of_lt hlt, hne, fun l hl hlk => ?_⟩, hpair⟩
        by_cases hln : l = n
        · rw [hln, heq]
        · exact hsame l (hlast l hl hln) hlk

theorem steps_of_withinRange {e : ℕ} {x y : BitVec e} (hne : x ≠ y) (h : withinRange x y = true) :
    ∃ j, 0 < j ∧ j ≤ arithMax ∧ Steps j x y := by
  have hpos : ∀ {a b : BitVec e}, a ≠ b → 0 < (a - b).toNat := by
    intro a b hab
    refine Nat.pos_of_ne_zero fun hzero => hab ?_
    have hdiff : a - b = 0#e := BitVec.eq_of_toNat_eq hzero
    rw [BitVec.sub_eq_iff_eq_add.mp hdiff, BitVec.zero_add]
  rw [withinRange, decide_eq_true_eq] at h
  obtain h | h := h
  · refine ⟨(x - y).toNat, hpos hne, h, .inr ?_⟩
    rw [BitVec.ofNat_toNat, BitVec.setWidth_eq, BitVec.eq_sub_iff_add_eq, BitVec.add_comm,
      BitVec.sub_add_cancel]
  · refine ⟨(y - x).toNat, hpos hne.symm, h, .inl ?_⟩
    rw [BitVec.ofNat_toNat, BitVec.setWidth_eq, BitVec.add_comm, BitVec.sub_add_cancel]

theorem element_load {w e i k : ℕ} (hw : w ≤ 32) (hw8 : 8 ∣ w) (he : 8 ∣ e)
    (hk : e / 8 * k + e / 8 ≤ w / 8) :
    element e ((load w m i).setWidth 32) k = load e m (i + e / 8 * k) := by
  refine eq_of_wordByte he fun b hb => ?_
  rw [wordByte_element hw he _ k hb, wordByte_load hw8 m i (by omega), wordByte_load he m _ hb,
    Nat.add_assoc]

/-- Only one element of the number is changed. -/
theorem store_eq_element {w e i k n : ℕ} (hw : w ≤ 32) (hw8 : 8 ∣ w) (he : 8 ∣ e)
    (hn : e / 8 * n = w / 8) {v : BitVec w}
    (h : OnlyDiffering e ((load w m i).setWidth 32) (v.setWidth 32) n k) :
    store w m i v = store e m (i + e / 8 * k) (element e (v.setWidth 32) k) := by
  have hk : e / 8 * k + e / 8 ≤ w / 8 := by
    rw [← hn, ← Nat.mul_succ]
    exact Nat.mul_le_mul_left _ h.lt
  refine store_eq_part hk (fun b hb => (wordByte_element hw he v k hb).symm) fun b hb hout => ?_
  -- the byte is byte `b % (e / 8)` of element `b / (e / 8)`
  have hpos : 0 < e / 8 := by
    refine Nat.pos_of_ne_zero fun hzero => ?_
    rw [hzero, Nat.zero_mul] at hn
    omega
  have hsplit := Nat.div_add_mod b (e / 8)
  have hmod := Nat.mod_lt b hpos
  have hlt : b / (e / 8) < n :=
    (Nat.div_lt_iff_lt_mul hpos).mpr (by rw [Nat.mul_comm, hn]; exact hb)
  have hne : b / (e / 8) ≠ k := by
    rintro rfl
    omega
  have hbyte := congrArg (wordByte · (b % (e / 8))) (h.same _ hlt hne)
  rw [wordByte_element hw he _ _ hmod, wordByte_element hw he _ _ hmod, hsplit,
    wordByte_load hw8 m i hb] at hbyte
  exact hbyte.symm

theorem eq_of_setWidth_eq {w : ℕ} (hw : w ≤ 32) {x y : BitVec w}
    (h : x.setWidth 32 = y.setWidth 32) : x = y := by
  have hback := congrArg (BitVec.setWidth w) h
  rwa [BitVec.setWidth_setWidth_of_le _ hw, BitVec.setWidth_setWidth_of_le _ hw, BitVec.setWidth_eq,
    BitVec.setWidth_eq] at hback

/-- Why the filter takes a value for a product of the arithmetic. -/
theorem couldBeArith_cases {x y : BitVec 32} {n : ℕ} (h : couldBeArith x y n = true) :
    x = y ∨
      (differing 8 x y n).1 = 1 ∧
        withinRange (differing 8 x y n).2.1 (differing 8 x y n).2.2 = true ∨
      n ≠ 1 ∧ (differing 16 x y (n / 2)).1 = 1 ∧
        (withinRange (differing 16 x y (n / 2)).2.1 (differing 16 x y (n / 2)).2.2 = true ∨
          withinRange (swap16 (differing 16 x y (n / 2)).2.1)
            (swap16 (differing 16 x y (n / 2)).2.2) = true) ∨
      n = 4 ∧ (withinRange x y = true ∨ withinRange (swap32 x) (swap32 y) = true) := by
  rw [couldBeArith] at h
  split at h
  · exact .inl ‹_›
  · dsimp only at h
    split at h
    · exact .inr (.inl ‹_›)
    · split at h
      · exact absurd h Bool.false_ne_true
      · rename_i hone
        split at h
        · rename_i hwords
          exact .inr (.inr (.inl ⟨hone, hwords⟩))
        · split at h
          · exact .inr (.inr (.inr ⟨‹_›, of_decide_eq_true h⟩))
          · exact absurd h Bool.false_ne_true

theorem near_of_withinRange {e : ℕ} (he : 8 ∣ e) {swap : BitVec e → BitVec e}
    (hswap : Reverses swap) {x y : BitVec e} (hne : x ≠ y)
    (h : withinRange (swap x) (swap y) = true) : Near swap x y := by
  have hback := hswap.involutive he
  have hne' : swap x ≠ swap y := fun heq => hne (by rw [← hback x, heq, hback])
  obtain ⟨j, hpos, hmax, hstep⟩ := steps_of_withinRange hne' h
  exact ⟨j, hpos, hmax, swap y, hstep, (hback y).symm⟩

theorem near_id_of_withinRange {e : ℕ} {x y : BitVec e} (hne : x ≠ y)
    (h : withinRange x y = true) : Near id x y := by
  obtain ⟨j, hpos, hmax, hstep⟩ := steps_of_withinRange hne h
  exact ⟨j, hpos, hmax, y, hstep, rfl⟩

theorem reached_of_couldBeArith (heff : ∀ i, i < len → eff i = true) {w i : ℕ}
    (hw : w = 8 ∨ w = 16 ∨ w = 32) (hi : i + w / 8 ≤ len) {v : BitVec w}
    (h : couldBeArith ((load w m i).setWidth 32) (v.setWidth 32) (w / 8) = true) :
    Reached eff m len (store w m i v) := by
  have hle : w ≤ 32 := by omega
  have hw8 : 8 ∣ w := by omega
  obtain heq | ⟨hone, hrange⟩ | ⟨hn, hone, hrange⟩ | ⟨hn, hrange⟩ := couldBeArith_cases h
  · rw [← eq_of_setWidth_eq hle heq, store_load hw8]
    exact reached_self
  · obtain ⟨k, hdiff, hov, hnv⟩ := (differing_spec 8 _ _ _).2 hone
    have hk := hdiff.lt
    rw [hov, hnv] at hrange
    have hnear := near_id_of_withinRange hdiff.ne hrange
    rw [store_eq_element hle hw8 (by decide) (by omega) hdiff]
    rw [element_load hle hw8 (by decide) (by omega)] at hnear
    exact reached_arith8 heff (by omega) hnear
  · obtain ⟨k, hdiff, hov, hnv⟩ := (differing_spec 16 _ _ _).2 hone
    have hk := hdiff.lt
    rw [hov, hnv] at hrange
    have hnear := hrange.imp (near_id_of_withinRange hdiff.ne)
      (near_of_withinRange (by decide) reverses_swap16 hdiff.ne)
    rw [store_eq_element hle hw8 (by decide) (by omega) hdiff]
    rw [element_load hle hw8 (by decide) (by omega)] at hnear
    exact reached_arith16 heff (by omega) hnear
  · obtain rfl : w = 32 := by omega
    rw [BitVec.setWidth_eq, BitVec.setWidth_eq] at hrange
    by_cases hne : load 32 m i = v
    · rw [← hne, store_load hw8]
      exact reached_self
    · exact reached_arith32 heff hi (hrange.imp (near_id_of_withinRange hne)
        (near_of_withinRange (by decide) reverses_swap32 hne))

/-! #### Interesting values -/

theorem wordByte_insertOver {e : ℕ} (he : 8 ∣ e) (x : BitVec 32) (t : ℕ) (u : BitVec e) {b : ℕ}
    (hb : b < 4) : wordByte (insertOver x t u) b =
      if t ≤ b ∧ b < t + e / 8 then wordByte u (b - t) else wordByte x b := by
  have hor : ∀ y z : BitVec 32, wordByte (y ||| z) b = wordByte y b ||| wordByte z b := by
    intro y z
    simp [wordByte, BitVec.extractLsb'_or]
  rw [insertOver, hor, wordByte_and, wordByte_not (by decide) _ hb, Nat.mul_comm,
    wordByte_shifted _ hb, wordByte_shifted _ hb]
  by_cases ht : t ≤ b
  · by_cases hin : b < t + e / 8
    · rw [if_pos ht, if_pos ht, if_pos ⟨ht, hin⟩, wordByte_allOnes (by omega)]
      simp
    · rw [if_pos ht, if_pos ht, if_neg (fun h => hin h.2), wordByte_of_ge he _ (by omega),
        wordByte_of_ge he _ (by omega), BitVec.or_zero]
      exact BitVec.and_allOnes
  · rw [if_neg ht, if_neg ht, if_neg (fun h => ht h.1), BitVec.or_zero]
    exact BitVec.and_allOnes

theorem store_eq_insert {w e i t : ℕ} (hw : w ≤ 32) (hw8 : 8 ∣ w) (he : 8 ∣ e)
    (ht : t + e / 8 ≤ w / 8) {v : BitVec w} {u : BitVec e}
    (h : v.setWidth 32 = insertOver ((load w m i).setWidth 32) t u) :
    store w m i v = store e m (i + t) u := by
  have hbyte : ∀ x : BitVec w, ∀ b, b < w / 8 → wordByte (x.setWidth 32) b = wordByte x b :=
    fun x b hb => wordByte_low x (by omega)
  refine store_eq_part ht (fun b hb => ?_) fun b hb hout => ?_
  · rw [← hbyte v _ (by omega), h, wordByte_insertOver he _ _ _ (by omega),
      if_pos ⟨by omega, by omega⟩, Nat.add_sub_cancel_left]
  · rw [← hbyte v b hb, h, wordByte_insertOver he _ _ _ (by omega), if_neg (by omega),
      hbyte _ b hb, wordByte_load hw8 m i hb]

/-- Why the filter takes a value for an earlier interesting one. -/
theorem couldBeInterest_cases {x y : BitVec 32} {n : ℕ} {checkLe : Bool}
    (h : couldBeInterest x y n checkLe = true) :
    x = y ∨
      (∃ t, t < n ∧ ∃ value ∈ interesting8, y = insertOver x t (BitVec.ofInt 8 value)) ∨
      ¬ (n = 2 ∧ checkLe = false) ∧ (∃ t, t < n - 1 ∧ ∃ value ∈ interesting16,
        y = insertOver x t (BitVec.ofInt 16 value) ∨
          n > 2 ∧ y = insertOver x t (swap16 (BitVec.ofInt 16 value))) ∨
      n = 4 ∧ checkLe = true ∧ ∃ value ∈ interesting32, y = BitVec.ofInt 32 value := by
  rw [couldBeInterest] at h
  split at h
  · exact .inl ‹_›
  · split at h
    · rename_i hbyte
      simp only [List.any_eq_true, List.mem_range, decide_eq_true_eq] at hbyte
      exact .inr (.inl hbyte)
    · split at h
      · exact absurd h Bool.false_ne_true
      · rename_i hle
        split at h
        · rename_i hword
          simp only [List.any_eq_true, List.mem_range, decide_eq_true_eq] at hword
          exact .inr (.inr (.inl ⟨hle, hword⟩))
        · simp only [List.any_eq_true, decide_eq_true_eq] at h
          exact .inr (.inr (.inr h))

theorem reached_interest8 (heff : ∀ i, i < len → eff i = true) {i : ℕ} (hi : i + 8 / 8 ≤ len)
    {value : ℤ} (hvalue : value ∈ interesting8) :
    Reached eff m len (store 8 m i (BitVec.ofInt 8 value)) := by
  cases hflip : couldBeBitflip ((load 8 m i ^^^ BitVec.ofInt 8 value).setWidth 32) with
  | true => exact reached_of_couldBeBitflip heff (by decide) (by decide) hi hflip
  | false =>
    cases harith : couldBeArith ((load 8 m i).setWidth 32)
        ((BitVec.ofInt 8 value).setWidth 32) (8 / 8) with
    | true => exact reached_of_couldBeArith heff (.inl rfl) hi harith
    | false =>
      exact reached_of_valueRun heff (by decide) hi
        (.interest8 ⟨hflip, harith, value, hvalue, rfl⟩)

/-- A value that is kept back by one of the three filters, or by none. -/
theorem reached_of_filters (heff : ∀ i, i < len → eff i = true) {w i : ℕ}
    (hw : w = 8 ∨ w = 16 ∨ w = 32) (hi : i + w / 8 ≤ len) {v : BitVec w} (checkLe : Bool)
    (hint : couldBeInterest ((load w m i).setWidth 32) (v.setWidth 32) (w / 8) checkLe = true →
      Reached eff m len (store w m i v))
    (hrun : NoBitflip (load w m i) v → NoArith (load w m i) v →
      couldBeInterest ((load w m i).setWidth 32) (v.setWidth 32) (w / 8) checkLe = false →
      Reached eff m len (store w m i v)) : Reached eff m len (store w m i v) := by
  cases hflip : couldBeBitflip ((load w m i ^^^ v).setWidth 32) with
  | true => exact reached_of_couldBeBitflip heff (by omega) (by omega) hi hflip
  | false =>
    cases harith : couldBeArith ((load w m i).setWidth 32) (v.setWidth 32) (w / 8) with
    | true => exact reached_of_couldBeArith heff hw hi harith
    | false =>
      cases hinterest : couldBeInterest ((load w m i).setWidth 32) (v.setWidth 32) (w / 8)
          checkLe with
      | true => exact hint hinterest
      | false => exact hrun hflip harith hinterest

/-- An interesting byte within the number. -/
theorem reached_insert8 (heff : ∀ i, i < len → eff i = true) {w i t : ℕ}
    (hw : w = 8 ∨ w = 16 ∨ w = 32) (hi : i + w / 8 ≤ len) {v : BitVec w} (ht : t < w / 8)
    {value : ℤ} (hvalue : value ∈ interesting8)
    (h : v.setWidth 32 = insertOver ((load w m i).setWidth 32) t (BitVec.ofInt 8 value)) :
    Reached eff m len (store w m i v) := by
  rw [store_eq_insert (by omega) (by omega) (by decide) (by omega) h]
  exact reached_interest8 heff (by omega) hvalue

theorem reached_interest16 (heff : ∀ i, i < len → eff i = true) {i : ℕ} (hi : i + 16 / 8 ≤ len)
    {value : ℤ} (hvalue : value ∈ interesting16) :
    Reached eff m len (store 16 m i (BitVec.ofInt 16 value)) := by
  refine reached_of_filters heff (.inr (.inl rfl)) hi false (fun hint => ?_)
    fun hflip harith hint => ?_
  · obtain heq | ⟨t, ht, value, hmem, heq⟩ | ⟨hle, -⟩ | ⟨hn, -⟩ := couldBeInterest_cases hint
    · rw [← eq_of_setWidth_eq (by decide) heq, store_load (by decide)]
      exact reached_self
    · exact reached_insert8 heff (.inr (.inl rfl)) hi ht hmem heq
    · exact absurd ⟨rfl, rfl⟩ hle
    · exact absurd hn (by decide)
  · exact reached_of_valueRun heff (by decide) hi
      (.interest16 rfl ⟨hflip, harith, value, hvalue, .inl ⟨rfl, hint⟩⟩)

theorem reached_interest16_be (heff : ∀ i, i < len → eff i = true) {i : ℕ}
    (hi : i + 16 / 8 ≤ len) {value : ℤ} (hvalue : value ∈ interesting16) :
    Reached eff m len (store 16 m i (swap16 (BitVec.ofInt 16 value))) := by
  by_cases hpal : BitVec.ofInt 16 value = swap16 (BitVec.ofInt 16 value)
  · rw [← hpal]
    exact reached_interest16 heff hi hvalue
  · refine reached_of_filters heff (.inr (.inl rfl)) hi true (fun hint => ?_)
      fun hflip harith hint => ?_
    · obtain heq | ⟨t, ht, value, hmem, heq⟩ | ⟨-, t, ht, value, hmem, heq | ⟨hn, -⟩⟩ | ⟨hn, -⟩ :=
        couldBeInterest_cases hint
      · rw [← eq_of_setWidth_eq (by decide) heq, store_load (by decide)]
        exact reached_self
      · exact reached_insert8 heff (.inr (.inl rfl)) hi ht hmem heq
      · rw [store_eq_insert (e := 16) (by decide) (by decide) (by decide) (by omega) heq]
        exact reached_interest16 heff (by omega) hmem
      · exact absurd hn (by decide)
      · exact absurd hn (by decide)
    · exact reached_of_valueRun heff (by decide) hi
        (.interest16 rfl ⟨hflip, harith, value, hvalue, .inr ⟨rfl, hpal, hint⟩⟩)

/-- Shorter interesting values within a number of 32 bits. -/
theorem reached_insert32 (heff : ∀ i, i < len → eff i = true) {i : ℕ} (hi : i + 32 / 8 ≤ len)
    {v : BitVec 32} {checkLe : Bool}
    (h : couldBeInterest ((load 32 m i).setWidth 32) (v.setWidth 32) (32 / 8) checkLe = true)
    (hle : checkLe = true → ∀ value ∈ interesting32, v = BitVec.ofInt 32 value →
      Reached eff m len (store 32 m i v)) : Reached eff m len (store 32 m i v) := by
  obtain heq | ⟨t, ht, value, hmem, heq⟩ | ⟨-, t, ht, value, hmem, heq | ⟨-, heq⟩⟩ |
    ⟨-, hcheck, value, hmem, heq⟩ := couldBeInterest_cases h
  · rw [← eq_of_setWidth_eq (by decide) heq, store_load (by decide)]
    exact reached_self
  · exact reached_insert8 heff (.inr (.inr rfl)) hi ht hmem heq
  · rw [store_eq_insert (e := 16) (by decide) (by decide) (by decide) (by omega) heq]
    exact reached_interest16 heff (by omega) hmem
  · rw [store_eq_insert (e := 16) (by decide) (by decide) (by decide) (by omega) heq]
    exact reached_interest16_be heff (by omega) hmem
  · rw [BitVec.setWidth_eq] at heq
    exact hle hcheck value hmem heq

theorem reached_interest32 (heff : ∀ i, i < len → eff i = true) {i : ℕ} (hi : i + 32 / 8 ≤ len)
    {value : ℤ} (hvalue : value ∈ interesting32) :
    Reached eff m len (store 32 m i (BitVec.ofInt 32 value)) := by
  refine reached_of_filters heff (.inr (.inr rfl)) hi false (fun hint => ?_)
    fun hflip harith hint => ?_
  · exact reached_insert32 heff hi hint fun hcheck => absurd hcheck Bool.false_ne_true
  · exact reached_of_valueRun heff (by decide) hi
      (.interest32 rfl ⟨hflip, harith, value, hvalue, .inl ⟨rfl, hint⟩⟩)

theorem reached_interest32_be (heff : ∀ i, i < len → eff i = true) {i : ℕ}
    (hi : i + 32 / 8 ≤ len) {value : ℤ} (hvalue : value ∈ interesting32) :
    Reached eff m len (store 32 m i (swap32 (BitVec.ofInt 32 value))) := by
  by_cases hpal : BitVec.ofInt 32 value = swap32 (BitVec.ofInt 32 value)
  · rw [← hpal]
    exact reached_interest32 heff hi hvalue
  · refine reached_of_filters heff (.inr (.inr rfl)) hi true (fun hint => ?_)
      fun hflip harith hint => ?_
    · refine reached_insert32 heff hi hint fun _ value hmem heq => ?_
      rw [heq]
      exact reached_interest32 heff hi hmem
    · exact reached_of_valueRun heff (by decide) hi
        (.interest32 rfl ⟨hflip, harith, value, hvalue, .inr ⟨rfl, hpal, hint⟩⟩)

end Skipped

/-! ### What is lost -/

/-- What the stages would store without any filter. -/
inductive Unfiltered (noArith : Bool) : (w : ℕ) → BitVec w → BitVec w → Prop
  | arith8 {orig v : BitVec 8} : noArith = false → Near id orig v → Unfiltered noArith 8 orig v
  | arith16 {orig v : BitVec 16} : noArith = false → Near id orig v ∨ Near swap16 orig v →
      Unfiltered noArith 16 orig v
  | arith32 {orig v : BitVec 32} : noArith = false → Near id orig v ∨ Near swap32 orig v →
      Unfiltered noArith 32 orig v
  | interest8 {orig : BitVec 8} {value : ℤ} : value ∈ interesting8 →
      Unfiltered noArith 8 orig (BitVec.ofInt 8 value)
  | interest16 {orig v : BitVec 16} {value : ℤ} : noArith = false → value ∈ interesting16 →
      v = BitVec.ofInt 16 value ∨ v = swap16 (BitVec.ofInt 16 value) → Unfiltered noArith 16 orig v
  | interest32 {orig v : BitVec 32} {value : ℤ} : noArith = false → value ∈ interesting32 →
      v = BitVec.ofInt 32 value ∨ v = swap32 (BitVec.ofInt 32 value) → Unfiltered noArith 32 orig v

/-- The mutants of the input `m`. -/
def Mutant (noArith : Bool) (m : Bytes) (len : ℕ) (x : Bytes) : Prop :=
  ∃ w i, i + w / 8 ≤ len ∧ ∃ v, Unfiltered noArith w (load w m i) v ∧ x = store w m i v

theorem reached_of_mutant {eff : ℕ → Bool} {m x : Bytes} {len : ℕ}
    (heff : ∀ i, i < len → eff i = true) (hx : Mutant false m len x) : Reached eff m len x := by
  obtain ⟨w, i, hi, v, hv, rfl⟩ := hx
  cases hv with
  | arith8 _ hv => exact reached_arith8 heff hi hv
  | arith16 _ hv => exact reached_arith16 heff hi hv
  | arith32 _ hv => exact reached_arith32 heff hi hv
  | interest8 hvalue => exact reached_interest8 heff hi hvalue
  | interest16 _ hvalue hv =>
    obtain rfl | rfl := hv
    · exact reached_interest16 heff hi hvalue
    · exact reached_interest16_be heff hi hvalue
  | interest32 _ hvalue hv =>
    obtain rfl | rfl := hv
    · exact reached_interest32 heff hi hvalue
    · exact reached_interest32_be heff hi hvalue

theorem ValueRun.noBitflip {noArith : Bool} {w : ℕ} {orig v : BitVec w}
    (h : ValueRun noArith w orig v) : (8 ∣ w ∧ w ≤ 32) ∧ NoBitflip orig v := by
  cases h with
  | arith8 _ h => exact ⟨by decide, h.choose_spec.2.2.1⟩
  | arith16 _ h => exact ⟨by decide, h.choose_spec.2.2.1⟩
  | arith32 _ h => exact ⟨by decide, h.choose_spec.2.2.1⟩
  | interest8 h => exact ⟨by decide, h.1⟩
  | interest16 _ h => exact ⟨by decide, h.1⟩
  | interest32 _ h => exact ⟨by decide, h.1⟩

theorem not_crossing_of_mem {noArith : Bool} {eff : ℕ → Bool} {m x : Bytes} {len : ℕ}
    (hx : x ∈ deterministicRuns noArith eff m len) : ¬ Crossing m x := by
  obtain hflip | ⟨w, i, hi, heff, v, hv, rfl⟩ := mem_deterministicRuns.mp hx
  · cases hflip with
    | clean => exact not_crossing_self m
    | bits hn _ _ => exact not_crossing_flipBits (by omega) m
    | bytes hw _ _ => exact not_crossing_flipWord (by omega) m
  · obtain ⟨⟨hw8, hle⟩, hno⟩ := hv.noBitflip
    intro hcross
    rw [store_eq_xorAt hw8 hle] at hcross
    exact Bool.false_ne_true (hno.symm.trans (couldBeBitflip_of_crossing hcross))

/-! #### Without the arithmetic -/

section Bytes

variable {m : Bytes} {i : ℕ} {v : BitVec 8}

theorem store8_of_ne {a : ℕ} (ha : a ≠ i) : store 8 m i v a = m a :=
  if_neg (by omega)

theorem not_crossing_store8 : ¬ Crossing m (store 8 m i v) := by
  intro h
  obtain ⟨a, h7, h0, -⟩ := h.bytes
  by_cases ha : a = i
  · rw [store8_of_ne (by omega)] at h0
    exact (Bool.eq_not_self _).mp h0
  · rw [store8_of_ne ha] at h7
    exact (Bool.eq_not_self _).mp h7

/-- A bit flip within one byte is taken for one. -/
theorem couldBeBitflip_of_bitflipRun {eff : ℕ → Bool} {len : ℕ}
    (h : BitflipRun eff m len (store 8 m i v)) :
    couldBeBitflip ((load 8 m i ^^^ v).setWidth 32) = true := by
  generalize hx : store 8 m i v = x at h
  have hval : load 8 x i = v := hx ▸ load_store (by decide) m i v
  have hother : ∀ a, x a ≠ m a → a = i := by
    intro a ha
    by_contra hne
    exact ha (hx ▸ store8_of_ne hne)
  cases h with
  | clean =>
    rw [hval, BitVec.xor_self]
    rfl
  | @bits n cur hn _ _ =>
    have hflipped : ∀ q, cur ≤ q → q < cur + n → q / 8 = i := by
      intro q hfirst hlast
      refine hother _ fun heq => ?_
      have hbit := getLsbD_flipBits n cur m (q / 8) (r := q % 8) (Nat.mod_lt q (by decide))
      rw [heq, Nat.div_add_mod, decide_eq_true ⟨hfirst, hlast⟩, Bool.xor_true] at hbit
      exact (Bool.eq_not_self _).mp hbit
    have hfirst := hflipped cur (Nat.le_refl cur) (by omega)
    have hlast := hflipped (cur + n - 1) (by omega) (by omega)
    have hp : cur % 8 + n ≤ 8 := by omega
    have hmask : ∀ p, p < 8 → ∀ n, n < 5 → n = 1 ∨ n = 2 ∨ n = 4 → p + n ≤ 8 →
        couldBeBitflip ((bitMask n p).setWidth 32) = true := by decide
    have hcur : cur = 8 * i + cur % 8 := by omega
    rw [hcur, flipBits_eq_store hn hp, load_store (by decide)] at hval
    rw [← hval, ← BitVec.xor_assoc, BitVec.xor_self, BitVec.zero_xor]
    exact hmask _ (Nat.mod_lt cur (by decide)) n (by omega) hn hp
  | @bytes w j hw _ _ =>
    have hflipped : ∀ a, j ≤ a → a < j + w / 8 → a = i := by
      intro a hfirst hlast
      refine hother a fun heq => ?_
      rw [flipWord_byte (by omega) m ⟨hfirst, hlast⟩] at heq
      have hbit := congrArg (BitVec.getLsbD · 0) heq
      simp at hbit
    have hfirst := hflipped j (Nat.le_refl j) (by omega)
    have hlast := hflipped (j + w / 8 - 1) (by omega) (by omega)
    obtain rfl : w = 8 := by omega
    rw [hfirst, flipWord, load_store (by decide)] at hval
    rw [← hval, ← BitVec.xor_assoc, BitVec.xor_self, BitVec.zero_xor]
    decide

end Bytes

/-- Without the arithmetic stages a byte is lost that one of them would have produced. -/
theorem mem_noArith_iff {eff : ℕ → Bool} {m : Bytes} {len i : ℕ} {value : ℤ}
    (heff : ∀ i, i < len → eff i = true) (hi : i < len) (hvalue : value ∈ interesting8) :
    store 8 m i (BitVec.ofInt 8 value) ∈ deterministicRuns true eff m len ↔
      (couldBeArith ((load 8 m i).setWidth 32) ((BitVec.ofInt 8 value).setWidth 32) 1 = true →
        couldBeBitflip ((load 8 m i ^^^ BitVec.ofInt 8 value).setWidth 32) = true) := by
  rw [mem_deterministicRuns]
  constructor
  · rintro (hflip | ⟨w, j, hj, -, v, hv, hx⟩) harith
    · exact couldBeBitflip_of_bitflipRun hflip
    · cases hv with
      | arith8 hno _ => exact absurd hno (by decide)
      | arith16 hno _ => exact absurd hno (by decide)
      | arith32 hno _ => exact absurd hno (by decide)
      | interest16 hno _ => exact absurd hno (by decide)
      | interest32 hno _ => exact absurd hno (by decide)
      | @interest8 _ v hv =>
        obtain ⟨hno, hnoarith, -⟩ := hv
        have hload := congrArg (load 8 · j) hx
        simp only [load_store (w := 8) (by decide)] at hload
        by_cases hji : j = i
        · subst hji
          rw [load_store (by decide)] at hload
          rw [NoArith, ← hload] at hnoarith
          exact absurd (hnoarith.symm.trans harith) Bool.false_ne_true
        · rw [load_one, store8_of_ne hji, ← load_one m j] at hload
          rw [NoBitflip, ← hload, BitVec.xor_self] at hno
          exact absurd hno (by decide)
  · intro h
    cases hflip : couldBeBitflip ((load 8 m i ^^^ BitVec.ofInt 8 value).setWidth 32) with
    | true =>
      exact .inl ((bitflipRun_of_couldBeBitflip heff (by decide) (by decide) hi hflip).resolve_right
        not_crossing_store8)
    | false =>
      refine .inr ⟨8, i, hi, heff i hi, _, .interest8 ⟨hflip, ?_, value, hvalue, rfl⟩, rfl⟩
      rw [NoArith, ← Bool.not_eq_true]
      intro harith
      exact Bool.false_ne_true (hflip.symm.trans (h harith))

/-- The stages execute all mutants of an input exactly when none of them is a crossing and, without
the arithmetic, none of them is held back for it. -/
theorem executes_mutants_iff {noArith : Bool} {eff : ℕ → Bool} {m : Bytes} {len : ℕ}
    (heff : ∀ i, i < len → eff i = true) :
    (∀ x, Mutant noArith m len x → x ∈ deterministicRuns noArith eff m len) ↔
      (∀ x, Mutant noArith m len x → ¬ Crossing m x) ∧
        (noArith = true → ∀ i, i < len → ∀ value ∈ interesting8,
          couldBeArith ((load 8 m i).setWidth 32) ((BitVec.ofInt 8 value).setWidth 32) 1 = true →
            couldBeBitflip ((load 8 m i ^^^ BitVec.ofInt 8 value).setWidth 32) = true) := by
  constructor
  · intro h
    refine ⟨fun x hx => not_crossing_of_mem (h x hx), ?_⟩
    rintro rfl i hi value hvalue
    exact (mem_noArith_iff heff hi hvalue).mp (h _ ⟨8, i, hi, _, .interest8 hvalue, rfl⟩)
  · rintro ⟨hcross, hbytes⟩ x hx
    cases noArith with
    | false => exact (reached_of_mutant heff hx).resolve_right (hcross x hx)
    | true =>
      obtain ⟨w, i, hi, v, hv, rfl⟩ := hx
      cases hv with
      | arith8 hno _ => exact absurd hno (by decide)
      | arith16 hno _ => exact absurd hno (by decide)
      | arith32 hno _ => exact absurd hno (by decide)
      | interest16 hno _ _ => exact absurd hno (by decide)
      | interest32 hno _ _ => exact absurd hno (by decide)
      | interest8 hvalue => exact (mem_noArith_iff heff hi hvalue).mpr (hbytes rfl i hi _ hvalue)

/-! #### Zeros -/

section Zeros

def zeros : Bytes := fun _ => 0

variable {w i : ℕ} {swap : BitVec w → BitVec w} {interesting : List ℤ} {v y : BitVec w}

theorem load_zeros (hw : 8 ∣ w) (i : ℕ) : load w zeros i = 0#w := by
  refine eq_of_wordByte hw fun b hb => ?_
  rw [wordByte_load hw _ _ hb, wordByte_zero]
  rfl

/-- The words of zeros that a crossing within them can produce. -/
def crossedWords (w : ℕ) : List (BitVec w) :=
  (List.range (w / 8 - 1)).flatMap fun t => crossings.map fun c => load w (store 16 zeros t c) 0

/-- A word stored over zeros is a crossing only if it is one of these. -/
theorem mem_crossedWords (hw : 8 ∣ w) (h : Crossing zeros (store w zeros i v)) :
    v ∈ crossedWords w := by
  obtain ⟨a, c, hc, hx⟩ := h
  rw [load_zeros (by decide), BitVec.zero_xor] at hx
  -- both bytes of the crossing are bytes of the word
  have hin : ∀ b, b < 2 → i ≤ a + b ∧ a + b < i + w / 8 := by
    intro b hb
    by_contra hout
    have hbyte := congrFun hx (a + b)
    rw [store, if_neg hout, store, if_pos ⟨by omega, by omega⟩, Nat.add_sub_cancel_left] at hbyte
    exact wordByte_crossing_ne hc hb hbyte.symm
  have hfirst := hin 0 (by decide)
  have hlast := hin 1 (by decide)
  refine List.mem_flatMap.mpr ⟨a - i, List.mem_range.mpr (by omega), List.mem_map.mpr ⟨c, hc, ?_⟩⟩
  refine eq_of_wordByte hw fun b hb => ?_
  have hbyte := congrFun hx (i + b)
  rw [store, if_pos ⟨by omega, by omega⟩, Nat.add_sub_cancel_left] at hbyte
  rw [wordByte_load hw _ _ hb, hbyte, Nat.zero_add, store, store]
  by_cases hat : a ≤ i + b ∧ i + b < a + 16 / 8
  · rw [if_pos hat, if_pos ⟨by omega, by omega⟩]
    congr 1
    omega
  · rw [if_neg hat, if_neg (by omega)]
    rfl

/-- What a word of zeros becomes in one of the two byte orders. -/
def changedWords (w : ℕ) (interesting : List ℤ) : List (BitVec w) :=
  ((List.range' 1 arithMax).flatMap fun j => [0 + BitVec.ofNat w j, 0 - BitVec.ofNat w j]) ++
    interesting.map (BitVec.ofInt w)

theorem mem_changedWords_of_near (h : Near id 0 v) : v ∈ changedWords w interesting := by
  obtain ⟨j, hpos, hle, y, hstep, rfl⟩ := h
  refine List.mem_append_left _ (List.mem_flatMap.mpr
    ⟨j, List.mem_range'_1.mpr ⟨hpos, by omega⟩, ?_⟩)
  exact List.mem_pair.mpr hstep

/-- No word is one that a crossing can produce, in either byte order. -/
def Separate (w : ℕ) (swap : BitVec w → BitVec w) (interesting : List ℤ)
    (crossed : List (BitVec w)) : Prop :=
  ((changedWords w interesting).all fun y =>
    !crossed.contains y && !crossed.contains (swap y)) = true

theorem not_crossing_changed (hw : 8 ∣ w) (hsep : Separate w swap interesting (crossedWords w))
    (hy : y ∈ changedWords w interesting) (hv : v = y ∨ v = swap y) :
    ¬ Crossing zeros (store w zeros i v) := by
  intro hcross
  have hmem := List.contains_iff_mem.mpr (mem_crossedWords hw hcross)
  have hfree := List.all_eq_true.mp hsep y hy
  rw [Bool.and_eq_true, Bool.not_eq_true', Bool.not_eq_true'] at hfree
  rcases hv with rfl | rfl
  · exact absurd hmem (ne_true_of_eq_false hfree.1)
  · exact absurd hmem (ne_true_of_eq_false hfree.2)

theorem separate16 : Separate 16 swap16 interesting16 (crossedWords 16) := by
  have hcrossed : crossedWords 16 = [0x0180, 0x01e0, 0x03c0, 0x0780] := by decide
  rw [hcrossed]
  unfold Separate
  decide +kernel

theorem separate32 : Separate 32 swap32 interesting32 (crossedWords 32) := by
  have hcrossed : crossedWords 32 = [0x0180, 0x01e0, 0x03c0, 0x0780, 0x018000, 0x01e000, 0x03c000,
      0x078000, 0x01800000, 0x01e00000, 0x03c00000, 0x07800000] := by decide
  rw [hcrossed]
  unfold Separate
  decide +kernel

theorem near_zeros (h : Near id (load w zeros i) v ∨ Near swap (load w zeros i) v)
    (hw : 8 ∣ w) (hswap : swap 0 = 0) :
    ∃ y ∈ changedWords w interesting, v = y ∨ v = swap y := by
  rw [load_zeros hw] at h
  rcases h with hnear | ⟨j, hpos, hle, y, hstep, rfl⟩
  · exact ⟨v, mem_changedWords_of_near hnear, .inl rfl⟩
  · change Steps j (swap 0) y at hstep
    rw [hswap] at hstep
    exact ⟨y, mem_changedWords_of_near ⟨j, hpos, hle, y, hstep, rfl⟩, .inr rfl⟩

end Zeros

/-- All mutants of four zeros are executed, on bytes and on words of 16 and 32 bits. -/
theorem executes_mutants_zeros :
    (∃ x, Mutant false zeros 4 x) ∧
      ∀ x, Mutant false zeros 4 x → x ∈ deterministicRuns false (fun _ => true) zeros 4 := by
  refine ⟨⟨_, 8, 0, by decide, _, .interest8 (show 16 ∈ interesting8 by decide), rfl⟩, ?_⟩
  refine (executes_mutants_iff fun _ _ => rfl).mpr ⟨fun x hx => ?_, fun h => absurd h (by decide)⟩
  obtain ⟨w, i, hi, v, hv, rfl⟩ := hx
  cases hv with
  | arith8 _ _ => exact not_crossing_store8
  | interest8 _ => exact not_crossing_store8
  | arith16 _ hnear =>
    obtain ⟨y, hy, hv⟩ := near_zeros hnear (by decide) rfl
    exact not_crossing_changed (by decide) separate16 hy hv
  | arith32 _ hnear =>
    obtain ⟨y, hy, hv⟩ := near_zeros hnear (by decide) rfl
    exact not_crossing_changed (by decide) separate32 hy hv
  | interest16 _ hvalue hv =>
    exact not_crossing_changed (by decide) separate16
      (List.mem_append_right _ (List.mem_map_of_mem hvalue)) hv
  | interest32 _ hvalue hv =>
    exact not_crossing_changed (by decide) separate32
      (List.mem_append_right _ (List.mem_map_of_mem hvalue)) hv

/-- The number `0x00e5` in two bytes. -/
def e5 : Bytes := fun i => if i = 0 then 0xe5 else 0

/-- Adding 32 changes four adjacent bits of the number, and it is not tried. -/
theorem executes_mutants_lost :
    ¬ ∀ x, Mutant false e5 2 x → x ∈ deterministicRuns false (fun _ => true) e5 2 := by
  intro h
  have hload : load 16 e5 0 = 0x00e5 := by decide
  have hmutant : Mutant false e5 2 (store 16 e5 0 0x0105) := by
    refine ⟨16, 0, by decide, _, .arith16 rfl (.inl ⟨32, by decide, by decide, _, .inl rfl, ?_⟩),
      rfl⟩
    rw [hload]
    decide
  refine not_crossing_of_mem (h _ hmutant) ⟨0, 0x01e0, by decide, ?_⟩
  rw [hload]
  rfl

end AflPlusPlus.Mutation
