import AflPlusPlus.Mutation.Library

/-!
# The library mutator against the havoc stage

Fed with the same draws, the two programs make the same positions and lengths out of them, all
inside the buffer, and so read the same bytes. They differ in one operator: the big-endian addition
to 32 bits of the library mutator adds in little-endian order.
-/

namespace AflPlusPlus.Mutation
open Lib

/-! ### Sizes of blocks -/

theorem blockBounds_pos (afl : Afl) :
    Returns (blockBounds afl) fun b => 1 ≤ b.1 ∧ b.1 ≤ b.2 := by
  have hany : ∀ limit, Returns (randBelow limit) fun _ => True := fun _ _ _ _ _ => trivial
  refine (hany _).bind fun r _ => ?_
  split
  · exact .pure (by decide)
  · exact .pure (by decide)
  · refine (hany 10).bind fun x _ => ?_
    split
    · exact .pure (by decide)
    · exact .pure (by decide)

/-- A block is not empty and fits. -/
theorem chooseBlockLen_le (afl : Afl) {limit : ℕ} (h : 1 ≤ limit) :
    Returns (chooseBlockLen afl limit) fun n => 1 ≤ n ∧ n ≤ limit := by
  refine (blockBounds_pos afl).bind fun b hb => ?_
  obtain ⟨minValue, maxValue⟩ := b
  refine (randBelow_lt (Nat.succ_pos _)).bind fun x hx => .pure ?_
  by_cases hlarge : minValue ≥ limit
  · simp only [if_pos hlarge] at hx ⊢
    omega
  · simp only [if_neg hlarge] at hb hx ⊢
    omega

/-! ### The macros -/

theorem setWidth_and_ff {w : ℕ} (x : BitVec w) (b : ℕ) :
    ((x >>> (8 * b)) &&& BitVec.setWidth w (0xff : Byte)).setWidth 8 = wordByte x b := by
  apply BitVec.eq_of_getLsbD_eq
  intro i hi
  have hones : (0xff : Byte).getLsbD i = true := by
    rw [show (0xff : Byte) = BitVec.allOnes 8 from rfl, BitVec.getLsbD_allOnes]
    exact decide_eq_true hi
  rw [getLsbD_wordByte, BitVec.getLsbD_setWidth, BitVec.getLsbD_and, BitVec.getLsbD_ushiftRight,
    BitVec.getLsbD_setWidth, hones]
  by_cases hw : i < w
  · simp [hi, hw]
  · simp [hi, hw, BitVec.getLsbD_of_ge x (8 * b + i) (by omega)]

theorem insert16_eq (d : Bytes) (o : ℕ) (x : BitVec 16) : insert16 d o x = store 16 d o x := by
  have h0 : (x &&& 0xff).setWidth 8 = wordByte x 0 := setWidth_and_ff x 0
  have h1 : ((x >>> 8) &&& 0xff).setWidth 8 = wordByte x 1 := setWidth_and_ff x 1
  funext i
  simp only [insert16, h0, h1, setByte, store]
  by_cases hin : o ≤ i ∧ i < o + 2
  · have hcases : i = o ∨ i = o + 1 := by omega
    rcases hcases with rfl | rfl <;> simp
  · rw [if_neg (by omega), if_neg (by omega), if_neg hin]

theorem insert32_eq (d : Bytes) (o : ℕ) (x : BitVec 32) : insert32 d o x = store 32 d o x := by
  have h0 : (x &&& 0xff).setWidth 8 = wordByte x 0 := setWidth_and_ff x 0
  have h1 : ((x >>> 8) &&& 0xff).setWidth 8 = wordByte x 1 := setWidth_and_ff x 1
  have h2 : ((x >>> 8 >>> 8) &&& 0xff).setWidth 8 = wordByte x 2 := by
    rw [← BitVec.shiftRight_add]
    exact setWidth_and_ff x 2
  have h3 : ((x >>> 8 >>> 8 >>> 8) &&& 0xff).setWidth 8 = wordByte x 3 := by
    rw [← BitVec.shiftRight_add, ← BitVec.shiftRight_add]
    exact setWidth_and_ff x 3
  funext i
  simp only [insert32, h0, h1, h2, h3, setByte, store]
  by_cases hin : o ≤ i ∧ i < o + 4
  · have hcases : i = o ∨ i = o + 1 ∨ i = o + 2 ∨ i = o + 3 := by omega
    rcases hcases with rfl | rfl | rfl | rfl <;> simp
  · rw [if_neg (by omega), if_neg (by omega), if_neg (by omega), if_neg (by omega), if_neg hin]

theorem extract16_eq (s : Bytes) (o : ℕ) : extract16 s o = load 16 s o := by
  simp [extract16, load, gather, BitVec.or_comm]

/-- Building a number from its highest byte on. -/
theorem shiftLeft_or_chain (b0 b1 b2 b3 : BitVec 32) :
    ((((b3 <<< 8 ||| b2) <<< 8) ||| b1) <<< 8) ||| b0 =
      b0 ||| b1 <<< 8 ||| b2 <<< 16 ||| b3 <<< 24 := by
  rw [BitVec.shiftLeft_or_distrib, BitVec.shiftLeft_or_distrib, BitVec.shiftLeft_or_distrib,
    ← BitVec.shiftLeft_add, ← BitVec.shiftLeft_add, ← BitVec.shiftLeft_add]
  rw [BitVec.or_comm _ b0, BitVec.or_comm _ (b1 <<< 8), BitVec.or_comm _ (b2 <<< (8 + 8)),
    ← BitVec.or_assoc, ← BitVec.or_assoc]

theorem extract32_eq (s : Bytes) (o : ℕ) : extract32 s o = load 32 s o := by
  have hload : load 32 s o = (s o).setWidth 32 ||| (s (o + 1)).setWidth 32 <<< 8 |||
      (s (o + 2)).setWidth 32 <<< 16 ||| (s (o + 3)).setWidth 32 <<< 24 := by
    simp [load, gather]
  rw [hload]
  exact shiftLeft_or_chain _ _ _ _

/-! ### The swaps -/

/-- A number and its bytes. -/
theorem toNat_eq_bytes (x : BitVec 32) :
    x.toNat = (wordByte x 0).toNat + 256 * (wordByte x 1).toNat +
      65536 * (wordByte x 2).toNat + 16777216 * (wordByte x 3).toNat := by
  have hx := x.isLt
  simp only [wordByte, BitVec.extractLsb'_toNat, Nat.shiftRight_eq_div_pow]
  omega

/-- The lowest digit of a sum, and what is left for the others. -/
theorem digit_add {b r a q n M : ℕ} (hb : b < 256)
    (h : b + 256 * r = (a + 256 * q + n) % (256 * M)) :
    b = (a + n) % 256 ∧ r = (q + (a + n) / 256) % M := by
  have hsum : a + 256 * q + n = (a + n) % 256 + 256 * (q + (a + n) / 256) := by omega
  rw [hsum, Nat.mod_mul, Nat.add_mul_mod_self_left, Nat.add_mul_div_left _ _ (by decide),
    Nat.mod_mod, Nat.div_eq_of_lt (Nat.mod_lt _ (by decide)), Nat.zero_add] at h
  have hlt : (a + n) % 256 < 256 := Nat.mod_lt _ (by decide)
  constructor <;> omega

/-- All four digits of a sum of 32 bits. -/
theorem digits_add {b0 b1 b2 b3 a0 a1 a2 a3 n : ℕ} (hb0 : b0 < 256) (hb1 : b1 < 256)
    (hb2 : b2 < 256)
    (h : b0 + 256 * b1 + 65536 * b2 + 16777216 * b3 =
      (a0 + 256 * a1 + 65536 * a2 + 16777216 * a3 + n) % 2 ^ 32) :
    b0 = (a0 + n) % 256 ∧ b1 = (a1 + (a0 + n) / 256) % 256 ∧
      b2 = (a2 + (a1 + (a0 + n) / 256) / 256) % 256 ∧
      b3 = (a3 + (a2 + (a1 + (a0 + n) / 256) / 256) / 256) % 256 := by
  have h0 : b0 + 256 * (b1 + 256 * (b2 + 256 * b3)) =
      (a0 + 256 * (a1 + 256 * (a2 + 256 * a3)) + n) % (256 * 16777216) := by
    have hl : b0 + 256 * (b1 + 256 * (b2 + 256 * b3)) =
      b0 + 256 * b1 + 65536 * b2 + 16777216 * b3 := by omega
    have hr : a0 + 256 * (a1 + 256 * (a2 + 256 * a3)) + n =
      a0 + 256 * a1 + 65536 * a2 + 16777216 * a3 + n := by omega
    rw [hl, hr]
    exact h
  obtain ⟨e0, h1⟩ := digit_add hb0 h0
  obtain ⟨e1, h2⟩ := @digit_add _ _ _ _ _ 65536 hb1 h1
  obtain ⟨e2, h3⟩ := @digit_add _ _ _ _ _ 256 hb2 h2
  exact ⟨e0, e1, e2, h3⟩

theorem low_digit_eq {a n d : ℕ} (hpos : 1 ≤ n) (hmax : n ≤ 35) (hd : d ≤ 1)
    (h : (a + n) % 256 = (a + d) % 256) : n = 1 ∧ d = 1 := by
  omega

theorem carry_le {a n : ℕ} (ha : a < 256) (hn : n ≤ 35) : (a + n) / 256 ≤ 1 := by
  omega

theorem eq_of_carry {a d : ℕ} (ha : a < 256) (hd : d ≤ 1) (h : (a + d) / 256 = 1) :
    a = 255 ∧ d = 1 := by
  omega

/-- Adding at the low end and adding at the high end give the same low digits only when every digit
overflows. -/
theorem digits_add_eq {a0 a1 a2 a3 num : ℕ} (ha0 : a0 < 256) (ha1 : a1 < 256)
    (ha2 : a2 < 256) (ha3 : a3 < 256) (hpos : 1 ≤ num) (hmax : num ≤ 35)
    (h0 : (a0 + num) % 256 = (a0 + (a1 + (a2 + (a3 + num) / 256) / 256) / 256) % 256)
    (h1 : (a1 + (a0 + num) / 256) % 256 = (a1 + (a2 + (a3 + num) / 256) / 256) % 256) :
    num = 1 ∧ a0 = 255 ∧ a1 = 255 ∧ a2 = 255 ∧ a3 = 255 := by
  have hd3 := carry_le ha3 hmax
  have hd2 := carry_le ha2 (Nat.le_trans hd3 (by decide))
  have hd1 := carry_le ha1 (Nat.le_trans hd2 (by decide))
  obtain ⟨rfl, hcarry1⟩ := low_digit_eq hpos hmax hd1 h0
  obtain ⟨rfl, hcarry2⟩ := eq_of_carry ha1 hd2 hcarry1
  obtain ⟨rfl, hcarry3⟩ := eq_of_carry ha2 hd3 hcarry2
  obtain ⟨rfl, -⟩ := eq_of_carry ha3 (Nat.le_refl 1) hcarry3
  have ha0' : a0 = 255 := by omega
  exact ⟨rfl, ha0', rfl, rfl, rfl⟩

/-- When adding on the wrong side of the swaps makes no difference. -/
theorem swap32_add_iff (x : BitVec 32) {num : ℕ} (hpos : 1 ≤ num) (hmax : num ≤ arithMax) :
    swap32 (swap32 (x + BitVec.ofNat 32 num)) = swap32 (swap32 x + BitVec.ofNat 32 num) ↔
      num = 1 ∧ x = 0xffffffff := by
  rw [arithMax] at hmax
  have hbyte : ∀ (y : BitVec 32) b, (wordByte y b).toNat < 256 := fun y b => (wordByte y b).isLt
  rw [swap32_swap32]
  constructor
  · intro h
    have hnum : num % 2 ^ 32 = num := by omega
    have hle := toNat_eq_bytes (x + BitVec.ofNat 32 num)
    have hbe := toNat_eq_bytes (swap32 x + BitVec.ofNat 32 num)
    have hbytes : ∀ b, b < 4 → wordByte (x + BitVec.ofNat 32 num) b =
        wordByte (swap32 x + BitVec.ofNat 32 num) (3 - b) := by
      intro b hb
      rw [h, wordByte_swap32 _ hb]
    rw [hbytes 0 (by decide), hbytes 1 (by decide), hbytes 2 (by decide), hbytes 3 (by decide),
      BitVec.toNat_add, BitVec.toNat_ofNat, hnum, toNat_eq_bytes x] at hle
    rw [BitVec.toNat_add, BitVec.toNat_ofNat, hnum, toNat_eq_bytes (swap32 x),
      wordByte_swap32 x (by decide), wordByte_swap32 x (by decide), wordByte_swap32 x (by decide),
      wordByte_swap32 x (by decide)] at hbe
    obtain ⟨h0, h1, -, -⟩ := digits_add (hbyte _ 3) (hbyte _ 2) (hbyte _ 1) hle.symm
    obtain ⟨-, -, h1', h0'⟩ := digits_add (hbyte _ 0) (hbyte _ 1) (hbyte _ 2) hbe.symm
    obtain ⟨hone, hall0, hall1, hall2, hall3⟩ := digits_add_eq (hbyte x 0) (hbyte x 1) (hbyte x 2)
      (hbyte x 3) hpos hmax (h0.symm.trans h0') (h1.symm.trans h1')
    refine ⟨hone, BitVec.eq_of_toNat_eq ((toNat_eq_bytes x).trans ?_)⟩
    rw [hall0, hall1, hall2, hall3]
    rfl
  · rintro ⟨rfl, rfl⟩
    decide

/-! ### The operators -/

/-- The two programs hold the same buffer. -/
structure SameBuffer (s : Library) (t : Havoc) : Prop where
  len : s.len = t.tempLen
  byte : ∀ i, i < s.len → s.buf i = t.outBuf i

theorem sameBuffer_iff (s : Library) (t : Havoc) : SameBuffer s t ↔ s.output = t.output := by
  constructor
  · intro h
    rw [Library.output, Havoc.output, ← h.len, contents_eq_iff]
    exact h.byte
  · intro h
    have hlen : s.len = t.tempLen := by
      simpa [Library.output, Havoc.output] using congrArg List.length h
    rw [Library.output, Havoc.output, ← hlen, contents_eq_iff] at h
    exact ⟨hlen, h⟩

/-- Both steps end with the same buffer, or both do not end. -/
abbrev SameOutcome : Option Library → Option Havoc → Prop := Option.Rel SameBuffer

section Operators

variable {s : Library} {t : Havoc}

theorem SameBuffer.agree (h : SameBuffer s t) :
    Agree SameOutcome (pure (some s) : Rand (Option Library)) (pure (some t)) :=
  .pure (.some h)

theorem agree_outcome {m n tmp scratch : Bytes} {len : ℕ} (hmn : ∀ i, i < len → m i = n i) :
    Agree SameOutcome (pure (some ⟨m, tmp, len⟩) : Rand (Option Library))
      (pure (some ⟨n, scratch, len⟩)) :=
  .pure (.some ⟨rfl, hmn⟩)

theorem SameBuffer.setByte (h : SameBuffer s t) (pos : ℕ) (x : Byte) {tmp scratch : Bytes} :
    Agree SameOutcome (pure (some ⟨Lib.setByte s.buf pos x, tmp, s.len⟩) : Rand (Option Library))
      (pure (some ⟨Lib.setByte t.outBuf pos x, scratch, s.len⟩)) := by
  refine agree_outcome fun i hi => ?_
  rw [Lib.setByte, Lib.setByte, h.byte i hi]

theorem SameBuffer.store (h : SameBuffer s t) (w pos : ℕ) (x : BitVec w) {tmp scratch : Bytes} :
    Agree SameOutcome (pure (some ⟨Lib.store w s.buf pos x, tmp, s.len⟩) : Rand (Option Library))
      (pure (some ⟨Lib.store w t.outBuf pos x, scratch, s.len⟩)) := by
  refine agree_outcome fun i hi => ?_
  rw [Lib.store, Lib.store, h.byte i hi]

theorem load_eq (h : SameBuffer s t) {w pos : ℕ} (hpos : pos + w / 8 ≤ s.len) :
    load w s.buf pos = load w t.outBuf pos := by
  rw [load, load]
  suffices hgather : ∀ n, pos + n ≤ s.len → gather w s.buf pos n = gather w t.outBuf pos n from
    hgather _ hpos
  intro n
  induction n with
  | zero => exact fun _ => rfl
  | succ n ih =>
    intro hn
    rw [gather, gather, ih (by omega), h.byte (pos + n) (by omega)]

theorem agree_arith16 (h : SameBuffer s t) (f : BitVec 16 → ℕ → BitVec 16) :
    Agree SameOutcome (s.arith16 f) (t.arith 16 f) := by
  rw [Library.arith16, Havoc.arith, ← h.len]
  refine .ite (fun _ => h.agree) fun hlen => ?_
  refine .same (randBelow_lt (by omega)) fun pos hpos => ?_
  refine .same (randBelow_lt (by decide)) fun num _ => ?_
  dsimp only
  rw [insert16_eq, extract16_eq, load_eq h (by omega)]
  exact h.store 16 pos _

theorem agree_arith32 (h : SameBuffer s t) (f : BitVec 32 → ℕ → BitVec 32) :
    Agree SameOutcome (s.arith32 f) (t.arith 32 f) := by
  rw [Library.arith32, Havoc.arith, ← h.len]
  refine .ite (fun _ => h.agree) fun hlen => ?_
  refine .same (randBelow_lt (by omega)) fun pos hpos => ?_
  refine .same (randBelow_lt (by decide)) fun num _ => ?_
  dsimp only
  rw [insert32_eq, extract32_eq, load_eq h (by omega)]
  exact h.store 32 pos _

theorem agree_interesting16 (h : SameBuffer s t) (f : BitVec 16 → BitVec 16) :
    Agree SameOutcome (s.interesting16 f) (t.interesting 16 interesting16 f) := by
  rw [Library.interesting16, Havoc.interesting, ← h.len]
  refine .ite (fun _ => h.agree) fun hlen => ?_
  refine .same (randBelow_lt (by decide)) fun item _ => ?_
  refine .same (randBelow_lt (by omega)) fun pos _ => ?_
  rw [insert16_eq]
  exact h.store 16 pos _

theorem agree_interesting32 (h : SameBuffer s t) (f : BitVec 32 → BitVec 32) :
    Agree SameOutcome (s.interesting32 f) (t.interesting 32 interesting32 f) := by
  rw [Library.interesting32, Havoc.interesting, ← h.len]
  refine .ite (fun _ => h.agree) fun hlen => ?_
  refine .same (randBelow_lt (by decide)) fun item _ => ?_
  refine .same (randBelow_lt (by omega)) fun pos _ => ?_
  rw [insert32_eq]
  exact h.store 32 pos _

/-- One byte of the buffer is replaced by a function of it. -/
theorem agree_byte (h : SameBuffer s t) (hlen : 1 ≤ s.len) (f : Byte → Byte) :
    Agree SameOutcome
      (do
        let pos ← randBelow s.len
        return some { s with buf := Lib.setByte s.buf pos (f (s.buf pos)) } : Rand (Option Library))
      (do
        let pos ← randBelow t.tempLen
        return some { t with outBuf := Lib.setByte t.outBuf pos (f (t.outBuf pos)) }) := by
  rw [← h.len]
  refine .same (randBelow_lt hlen) fun pos hpos => ?_
  rw [h.byte pos hpos]
  exact h.setByte pos _

theorem copyBlock_congr {m n src src' : Bytes} {d a len i : ℕ}
    (hmn : ¬ (d ≤ i ∧ i < d + len) → m i = n i)
    (hsrc : ∀ j, j < len → src (a + j) = src' (a + j)) :
    copyBlock m d src a len i = copyBlock n d src' a len i := by
  rw [copyBlock, copyBlock]
  split
  · exact hsrc (i - d) (by omega)
  · exact hmn ‹_›

theorem fillBlock_congr {m n : Bytes} {d len i : ℕ} (x : Byte) (hmn : i < d → m i = n i)
    (hi : i < d + len) : fillBlock m d x len i = fillBlock n d x len i := by
  rw [fillBlock, fillBlock]
  split
  · rfl
  · exact hmn (by omega)

/-- Both programs put the same block between head and tail. -/
theorem SameBuffer.insertBlock (h : SameBuffer s t) {cloneTo cloneLen : ℕ} (hto : cloneTo < s.len)
    {fill fill' : Bytes → Bytes}
    (hfill : ∀ m n i, (i < cloneTo → m i = n i) → i < cloneTo + cloneLen → fill m i = fill' n i) :
    Agree SameOutcome (pure (some (s.insertBlock cloneTo cloneLen fill)) : Rand (Option Library))
      (pure (some (t.insertBlock cloneTo cloneLen fill'))) := by
  rw [Library.insertBlock, Havoc.insertBlock, ← h.len]
  refine agree_outcome fun i hi => ?_
  rw [copyBlock, if_pos ⟨Nat.zero_le i, by omega⟩, Nat.zero_add, Nat.sub_zero]
  refine copyBlock_congr (fun hbefore => hfill _ _ i (fun hhead => ?_) (by omega))
    fun j hj => h.byte (cloneTo + j) (by omega)
  exact copyBlock_congr (fun hout => absurd ⟨Nat.zero_le i, by omega⟩ hout)
    fun j hj => h.byte (0 + j) (by omega)

/-- A filling byte: drawn, or the one before the block. -/
theorem agree_item (h : SameBuffer s t) {a strat : ℕ} (ha : a < s.len)
    {f : Byte → Rand (Option Library)} {g : Byte → Rand (Option Havoc)}
    (hfg : ∀ item, Agree SameOutcome (f item) (g item)) :
    Agree SameOutcome
      (if strat ≠ 0 then do
          let item ← BitVec.ofNat 8 <$> randBelow 256
          f item
        else do
          let item ← pure (s.buf (if a ≠ 0 then a - 1 else 0))
          f item)
      (if strat ≠ 0 then do
          let item ← BitVec.ofNat 8 <$> randBelow 256
          g item
        else do
          let item ← pure (t.outBuf (if a ≠ 0 then a - 1 else 0))
          g item) := by
  have hbefore : (if a ≠ 0 then a - 1 else 0) < s.len := by
    split <;> omega
  rw [h.byte _ hbefore]
  refine .ite (fun _ => ?_) fun _ => ?_
  · exact .same (fun _ _ _ _ => trivial : Returns _ fun _ => True) fun item _ => hfg item
  · exact hfg _

theorem agree_cloneCopy (h : SameBuffer s t) (hlen : 1 ≤ s.len) (afl : Afl) :
    Agree SameOutcome (mutateOp afl maxFile s .cloneCopy) (havocOp afl t .cloneCopy) := by
  rw [mutateOp, havocOp, ← h.len]
  refine .ite (fun _ => ?_) fun _ => .ite (fun _ => h.agree) fun _ => .pure .none
  refine .same (chooseBlockLen_le afl hlen) fun cloneLen hclone => ?_
  refine .same (randBelow_lt (Nat.succ_pos _)) fun cloneFrom hfrom => ?_
  refine .same (randBelow_lt hlen) fun cloneTo hto => ?_
  exact h.insertBlock hto fun m n i hmn hi => copyBlock_congr (fun hout => hmn (by omega))
    fun j hj => h.byte (cloneFrom + j) (by omega)

theorem agree_cloneFixed (h : SameBuffer s t) (hlen : 1 ≤ s.len) (afl : Afl) :
    Agree SameOutcome (mutateOp afl maxFile s .cloneFixed) (havocOp afl t .cloneFixed) := by
  rw [mutateOp, havocOp, ← h.len]
  refine .ite (fun _ => ?_) fun _ => .ite (fun _ => h.agree) fun _ => .pure .none
  refine .same (chooseBlockLen_le afl (by decide)) fun cloneLen hclone => ?_
  refine .same (randBelow_lt hlen) fun cloneTo hto => ?_
  refine .same (randBelow_lt (by decide)) fun strat _ => ?_
  refine agree_item h hto fun item => ?_
  exact h.insertBlock hto fun m n i hmn hi => fillBlock_congr item hmn hi

theorem agree_overwriteFixed (h : SameBuffer s t) (afl : Afl) :
    Agree SameOutcome (mutateOp afl maxFile s .overwriteFixed) (havocOp afl t .overwriteFixed) := by
  rw [mutateOp, havocOp, ← h.len]
  refine .ite (fun _ => h.agree) fun hlen => ?_
  refine .same (chooseBlockLen_le afl (by omega)) fun copyLen hcopy => ?_
  refine .same (randBelow_lt (Nat.succ_pos _)) fun copyTo hto => ?_
  refine .same (randBelow_lt (by decide)) fun strat _ => ?_
  refine agree_item h (by omega) fun item => ?_
  refine agree_outcome fun i hi => ?_
  rw [fillBlock, fillBlock, h.byte i hi]

/-- What is left behind the deleted block moves down. -/
theorem SameBuffer.delete (h : SameBuffer s t) {delFrom delLen : ℕ}
    (hdel : delFrom + delLen ≤ s.len) :
    Agree SameOutcome (pure (some (s.delete delFrom delLen)) : Rand (Option Library))
      (pure (some (t.delete delFrom delLen))) := by
  rw [Library.delete, Havoc.delete, ← h.len]
  refine agree_outcome fun i hi => ?_
  exact copyBlock_congr (fun _ => h.byte i (by omega)) fun j hj => h.byte _ (by omega)

theorem agree_del (h : SameBuffer s t) (afl : Afl) :
    Agree SameOutcome (mutateOp afl maxFile s .del) (havocOp afl t .del) := by
  rw [mutateOp, havocOp, ← h.len]
  refine .ite (fun _ => h.agree) fun hlen => ?_
  refine .same (chooseBlockLen_le afl (by omega)) fun delLen hdel => ?_
  refine .same (randBelow_lt (Nat.succ_pos _)) fun delFrom hfrom => ?_
  exact h.delete (by omega)

theorem agree_delone (h : SameBuffer s t) (afl : Afl) :
    Agree SameOutcome (mutateOp afl maxFile s .delone) (havocOp afl t .delone) := by
  rw [mutateOp, havocOp, ← h.len]
  refine .ite (fun _ => h.agree) fun hlen => ?_
  refine .same (randBelow_lt (Nat.succ_pos _)) fun delFrom hfrom => ?_
  exact h.delete (by omega)

/-- The blocks that change places lie in the buffer and do not overlap. -/
theorem agree_switch (h : SameBuffer s t) (afl : Afl) :
    Agree SameOutcome (mutateOp afl maxFile s .switch) (havocOp afl t .switch) := by
  rw [mutateOp, havocOp, ← h.len]
  refine .ite (fun _ => h.agree) fun hlen => ?_
  refine .same (randBelow_lt (by omega)) fun switchFrom hfrom => ?_
  refine .same (randBelowOther_lt (by omega) switchFrom) ?_
  rintro switchTo ⟨hto, hne⟩
  generalize hbounds : (if switchFrom < switchTo then (switchTo - switchFrom, s.len - switchTo)
    else (switchFrom - switchTo, s.len - switchFrom)) = bounds
  obtain ⟨distance, toEnd⟩ := bounds
  have hfit : 1 ≤ min distance toEnd ∧ switchFrom + min distance toEnd ≤ s.len ∧
      switchTo + min distance toEnd ≤ s.len := by
    split at hbounds <;> simp only [Prod.mk.injEq] at hbounds <;> omega
  refine .same (chooseBlockLen_le afl hfit.1) fun switchLen hswitch => ?_
  refine agree_outcome fun i hi => ?_
  have hbackup : ∀ j, j < switchLen →
      copyBlock s.tmpBuf 0 s.buf switchFrom switchLen (0 + j) =
        copyBlock t.outScratch 0 t.outBuf switchFrom switchLen (0 + j) := fun j hj =>
    copyBlock_congr (fun hout => absurd ⟨Nat.zero_le _, by omega⟩ hout)
      fun k hk => h.byte (switchFrom + k) (by omega)
  have hfirst : copyBlock s.buf switchFrom s.buf switchTo switchLen i =
      copyBlock t.outBuf switchFrom t.outBuf switchTo switchLen i :=
    copyBlock_congr (fun _ => h.byte i hi) fun k hk => h.byte (switchTo + k) (by omega)
  exact copyBlock_congr (fun _ => hfirst) hbackup

theorem agree_shuffleLoop {m n : Bytes} {len off : ℕ} (hmn : ∀ i, i < len → m i = n i) (i : ℕ)
    (hi : off + i < len) :
    Agree (fun m n : Bytes => ∀ i, i < len → m i = n i) (shuffleLoop off i m)
      (shuffleLoop off i n) := by
  induction i generalizing m n with
  | zero => exact .pure hmn
  | succ i ih =>
    rw [shuffleLoop, shuffleLoop]
    refine .same (randBelowOther_lt (by omega) (i + 1)) fun j ⟨hj, _⟩ =>
      ih (fun k hk => ?_) (by omega)
    simp only [setByte, hmn (off + j) (by omega), hmn (off + (i + 1)) hi, hmn k hk]

theorem agree_shuffle (h : SameBuffer s t) (afl : Afl) :
    Agree SameOutcome (mutateOp afl maxFile s .shuffle) (havocOp afl t .shuffle) := by
  rw [mutateOp, havocOp, ← h.len]
  refine .ite (fun _ => h.agree) fun hlen => ?_
  refine .same (chooseBlockLen_le afl (by omega)) fun blen hblen => ?_
  refine .same (randBelow_lt (Nat.succ_pos _)) fun off hoff => ?_
  refine .bind (agree_shuffleLoop h.byte (blen - 1) (by omega)) fun m n hmn => ?_
  exact agree_outcome hmn

/-- Every operator but one. -/
theorem agree_op (h : SameBuffer s t) (hlen : 1 ≤ s.len) (afl : Afl) {op : Mut}
    (hop : op ≠ .arith32be) :
    Agree SameOutcome (mutateOp afl maxFile s op) (havocOp afl t op) := by
  cases op with
  | flipbit =>
    refine .same (randBelow_lt (by decide)) fun bit _ => ?_
    exact agree_byte h hlen fun x => x ^^^ (1 <<< bit)
  | interesting8 =>
    refine .same (randBelow_lt (by decide)) fun item _ => ?_
    exact agree_byte h hlen fun _ => interestingValue 8 interesting8 item
  | interesting16 => exact agree_interesting16 h id
  | interesting16be => exact agree_interesting16 h swap16
  | interesting32 => exact agree_interesting32 h id
  | interesting32be => exact agree_interesting32 h swap32
  | arith8_ =>
    refine .same (randBelow_lt (by decide)) fun num _ => ?_
    exact agree_byte h hlen fun x => x - BitVec.ofNat 8 (1 + num)
  | arith8 =>
    refine .same (randBelow_lt (by decide)) fun num _ => ?_
    exact agree_byte h hlen fun x => x + BitVec.ofNat 8 (1 + num)
  | arith16_ => exact agree_arith16 h fun x num => x - BitVec.ofNat 16 num
  | arith16be_ => exact agree_arith16 h fun x num => swap16 (swap16 x - BitVec.ofNat 16 num)
  | arith16 => exact agree_arith16 h fun x num => x + BitVec.ofNat 16 num
  | arith16be => exact agree_arith16 h fun x num => swap16 (swap16 x + BitVec.ofNat 16 num)
  | arith32_ => exact agree_arith32 h fun x num => x - BitVec.ofNat 32 num
  | arith32be_ => exact agree_arith32 h fun x num => swap32 (swap32 x - BitVec.ofNat 32 num)
  | arith32 => exact agree_arith32 h fun x num => x + BitVec.ofNat 32 num
  | arith32be => exact absurd rfl hop
  | rand8 =>
    rw [mutateOp, havocOp, ← h.len]
    refine .same (randBelow_lt hlen) fun pos hpos => ?_
    refine .same (randBelow_lt (by decide)) fun num _ => ?_
    rw [h.byte pos hpos]
    exact h.setByte pos _
  | cloneCopy => exact agree_cloneCopy h hlen afl
  | cloneFixed => exact agree_cloneFixed h hlen afl
  | overwriteFixed => exact agree_overwriteFixed h afl
  | byteadd => exact agree_byte h hlen fun x => x + 1
  | bytesub => exact agree_byte h hlen fun x => x - 1
  | flip8 => exact agree_byte h hlen fun x => x ^^^ 0xff
  | switch => exact agree_switch h afl
  | del => exact agree_del h afl
  | shuffle => exact agree_shuffle h afl
  | delone => exact agree_delone h afl

/-- The draws of an addition to 32 bits: where, and how much. -/
def drawAddition (len : ℕ) : Rand (ℕ × ℕ) := do
  let pos ← randBelow (len - 3)
  let num := 1 + (← randBelow arithMax)
  return (pos, num)

/-- The addition gives the same in both byte orders: there is no room for it, or one is added to a
number whose bytes are all 255. -/
def AddsAlike (buf : Bytes) (len : ℕ) (ds : Draws) : Prop :=
  len < 4 ∨ ∀ pos num ds', drawAddition len ds = some ((pos, num), ds') →
    num = 1 ∧ load 32 buf pos = 0xffffffff

theorem agreeAt_store (h : SameBuffer s t) {pos : ℕ} (hpos : pos + 4 ≤ s.len)
    {x y : BitVec 32} {tmp scratch : Bytes} {ds : Draws} :
    AgreeAt SameOutcome
      (pure (some ⟨Lib.store 32 s.buf pos x, tmp, s.len⟩) : Rand (Option Library))
      (pure (some ⟨Lib.store 32 t.outBuf pos y, scratch, s.len⟩)) ds ↔ x = y := by
  have hsame := (sameBuffer_iff s t).mp h
  rw [Library.output, Havoc.output, ← h.len] at hsame
  rw [← contents_store_eq_iff (by decide) hsame hpos]
  constructor
  · rintro (⟨⟨⟨hbuffer⟩, -⟩⟩ | _)
    exact (sameBuffer_iff _ _).mp hbuffer
  · intro hcontents
    exact .some ⟨.some ((sameBuffer_iff _ _).mpr hcontents), rfl⟩

theorem agreeAt_arith32be (h : SameBuffer s t) (afl : Afl) (ds : Draws) :
    AgreeAt SameOutcome (mutateOp afl maxFile s .arith32be) (havocOp afl t .arith32be) ds ↔
      AddsAlike s.buf s.len ds := by
  rw [mutateOp, havocOp, Library.arith32, Havoc.arith, ← h.len]
  by_cases hlen : s.len < 4
  · rw [if_pos hlen, if_pos hlen]
    exact iff_of_true (h.agree ds) (.inl hlen)
  rw [if_neg hlen, if_neg hlen, AddsAlike, or_iff_right hlen]
  cases hpos : randBelow (s.len - 3) ds with
  | none =>
    refine iff_of_true (agreeAt_bind_none hpos hpos) fun pos num ds' hdraw => ?_
    change (randBelow (s.len - 3) ds).bind _ = _ at hdraw
    simp [hpos] at hdraw
  | some p =>
    obtain ⟨pos, ds₁⟩ := p
    have hposlt := randBelow_lt (by omega : 0 < s.len - 3) ds pos ds₁ hpos
    rw [agreeAt_bind hpos hpos]
    have hdraw : drawAddition s.len ds =
        (randBelow arithMax ds₁).bind fun q => some ((pos, 1 + q.1), q.2) := by
      change (randBelow (s.len - 3) ds).bind _ = _
      rw [hpos]
      rfl
    rw [hdraw]
    cases hnum : randBelow arithMax ds₁ with
    | none => exact iff_of_true (agreeAt_bind_none hnum hnum) fun pos num ds' h => by simp at h
    | some q =>
      obtain ⟨num, ds₂⟩ := q
      have hnumlt := randBelow_lt (by decide : 0 < arithMax) ds₁ num ds₂ hnum
      have hiff := swap32_add_iff (load 32 s.buf pos) (by omega : 1 ≤ 1 + num) (by omega)
      rw [agreeAt_bind hnum hnum]
      dsimp only
      rw [insert32_eq, extract32_eq, ← load_eq h (by omega), agreeAt_store h (by omega), hiff]
      simp

end Operators

/-! ### The step -/

/-- The operator asks for another one: it would grow the buffer beyond its bound. -/
def Mut.retries (op : Mut) (len : ℕ) : Bool :=
  (op = .cloneCopy || op = .cloneFixed) && !(len + havocBlkXl < maxFile) && !(len < 8)

/-- The operator that a step carries out, and the draws that are left for it. -/
def executed (array : List (Option Mut)) (len : ℕ) : ℕ → Draws → Option (Mut × Draws)
  | 0, _ => none
  | fuel + 1, ds =>
    match randBelow array.length ds with
    | none => none
    | some (r, ds) =>
      match array.getD r none with
      | none => none
      | some op => if op.retries len then executed array len fuel ds else some (op, ds)

section Step

variable {s : Library} {t : Havoc}

theorem mutateOp_retries {op : Mut} (hop : op.retries s.len = true) (afl : Afl) :
    mutateOp afl maxFile s op = pure none := by
  simp only [Mut.retries, Bool.and_eq_true, Bool.or_eq_true, decide_eq_true_eq,
    Bool.not_eq_true', decide_eq_false_iff_not] at hop
  obtain ⟨⟨rfl | rfl, hlarge⟩, hshort⟩ := hop
  · rw [mutateOp, if_neg hlarge, if_neg hshort]
  · rw [mutateOp, if_neg hlarge, if_neg hshort]

/-- The other operators are carried out. -/
theorem mutateOp_isSome {op : Mut} (hop : op.retries s.len = false) (afl : Afl) :
    Returns (mutateOp afl maxFile s op) fun r => r.isSome = true := by
  have harith16 : ∀ f, Returns (s.arith16 f) fun r => r.isSome = true := fun f =>
    .ite (fun _ => .pure rfl) fun _ => .after fun _ => .after fun _ => .pure rfl
  have harith32 : ∀ f, Returns (s.arith32 f) fun r => r.isSome = true := fun f =>
    .ite (fun _ => .pure rfl) fun _ => .after fun _ => .after fun _ => .pure rfl
  have hinteresting16 : ∀ f, Returns (s.interesting16 f) fun r => r.isSome = true := fun f =>
    .ite (fun _ => .pure rfl) fun _ => .after fun _ => .after fun _ => .pure rfl
  have hinteresting32 : ∀ f, Returns (s.interesting32 f) fun r => r.isSome = true := fun f =>
    .ite (fun _ => .pure rfl) fun _ => .after fun _ => .after fun _ => .pure rfl
  cases op with
  | flipbit => exact .after fun _ => .after fun _ => .pure rfl
  | interesting8 => exact .after fun _ => .after fun _ => .pure rfl
  | interesting16 => exact hinteresting16 id
  | interesting16be => exact hinteresting16 swap16
  | interesting32 => exact hinteresting32 id
  | interesting32be => exact hinteresting32 swap32
  | arith8_ => exact .after fun _ => .after fun _ => .pure rfl
  | arith8 => exact .after fun _ => .after fun _ => .pure rfl
  | arith16_ => exact harith16 fun x num => x - BitVec.ofNat 16 num
  | arith16be_ => exact harith16 fun x num => swap16 (swap16 x - BitVec.ofNat 16 num)
  | arith16 => exact harith16 fun x num => x + BitVec.ofNat 16 num
  | arith16be => exact harith16 fun x num => swap16 (swap16 x + BitVec.ofNat 16 num)
  | arith32_ => exact harith32 fun x num => x - BitVec.ofNat 32 num
  | arith32be_ => exact harith32 fun x num => swap32 (swap32 x - BitVec.ofNat 32 num)
  | arith32 => exact harith32 fun x num => x + BitVec.ofNat 32 num
  | arith32be => exact harith32 fun x num => swap32 (swap32 (x + BitVec.ofNat 32 num))
  | rand8 => exact .after fun _ => .after fun _ => .pure rfl
  | cloneCopy =>
    rw [mutateOp]
    refine .ite (fun _ => .after fun _ => .after fun _ => .after fun _ => .pure rfl) fun hlarge =>
      ?_
    refine .ite (fun _ => .pure rfl) fun hshort => ?_
    simp [Mut.retries, hlarge, hshort] at hop
  | cloneFixed =>
    rw [mutateOp]
    refine .ite (fun _ => .after fun _ => .after fun _ => .after fun _ => ?_) fun hlarge => ?_
    · exact .ite (fun _ => .after fun _ => .pure rfl) fun _ => .after fun _ => .pure rfl
    · refine .ite (fun _ => .pure rfl) fun hshort => ?_
      simp [Mut.retries, hlarge, hshort] at hop
  | overwriteFixed =>
    refine .ite (fun _ => .pure rfl) fun _ => .after fun _ => .after fun _ => .after fun _ => ?_
    exact .ite (fun _ => .after fun _ => .pure rfl) fun _ => .after fun _ => .pure rfl
  | byteadd => exact .after fun _ => .pure rfl
  | bytesub => exact .after fun _ => .pure rfl
  | flip8 => exact .after fun _ => .pure rfl
  | switch =>
    exact .ite (fun _ => .pure rfl) fun _ => .after fun _ => .after fun _ => .after fun _ =>
      .pure rfl
  | del => exact .ite (fun _ => .pure rfl) fun _ => .after fun _ => .after fun _ => .pure rfl
  | shuffle =>
    exact .ite (fun _ => .pure rfl) fun _ => .after fun _ => .after fun _ => .after fun _ =>
      .pure rfl
  | delone => exact .ite (fun _ => .pure rfl) fun _ => .after fun _ => .pure rfl

theorem havocOp_arith32be_isSome (afl : Afl) :
    Returns (havocOp afl t .arith32be) fun r => r.isSome = true :=
  .ite (fun _ => .pure rfl) fun _ => .after fun _ => .after fun _ => .pure rfl

theorem retry_of_rel {r : Option (Option Havoc × Draws)} {ds : Draws}
    (h : Option.Rel (fun (p : Option Library × Draws) q => SameOutcome p.1 q.1 ∧ p.2 = q.2)
      (some (none, ds)) r) : r = some (none, ds) := by
  cases h with
  | some hq =>
    obtain ⟨hnone, hds⟩ := hq
    rename_i q
    obtain ⟨outcome, ds'⟩ := q
    cases hnone with
    | none => exact congrArg (fun ds => some (none, ds)) hds.symm

/-- An operator that is carried out ends the step. -/
theorem stepLoop_done {σ : Type} {op : σ → Mut → Rand (Option σ)} {array : List (Option Mut)}
    {s : σ}
    {ds ds₁ : Draws} {r : ℕ} {choice : Mut} (hr : randBelow array.length ds = some (r, ds₁))
    (hchoice : array.getD r none = some choice)
    (hdone : Returns (op s choice) fun r => r.isSome = true) (fuel : ℕ) :
    stepLoop op array s (fuel + 1) ds = op s choice ds₁ := by
  rw [stepLoop]
  change (randBelow array.length ds).bind _ = _
  rw [hr, Option.bind_some]
  simp only [hchoice]
  change (op s choice ds₁).bind _ = _
  cases hds : op s choice ds₁ with
  | none => rfl
  | some p =>
    obtain ⟨r, ds'⟩ := p
    cases r with
    | none => exact absurd (hdone ds₁ none ds' hds) Bool.false_ne_true
    | some s' => rfl

/-- A step follows the operators it selects until one is carried out. -/
theorem agreeAt_stepLoop (h : SameBuffer s t) (hlen : 1 ≤ s.len) (afl : Afl)
    (array : List (Option Mut)) (fuel : ℕ) (ds : Draws) :
    AgreeAt SameOutcome (stepLoop (mutateOp afl maxFile) array s fuel)
        (stepLoop (havocOp afl) array t fuel) ds ↔
      ∀ ds', executed array s.len fuel ds = some (.arith32be, ds') → AddsAlike s.buf s.len ds' := by
  induction fuel generalizing ds with
  | zero =>
    refine iff_of_true .none fun ds' h => ?_
    simp [executed] at h
  | succ fuel ih =>
    rw [executed]
    cases hr : randBelow array.length ds with
    | none =>
      rw [stepLoop, stepLoop]
      exact iff_of_true (agreeAt_bind_none hr hr) fun ds' h => by simp at h
    | some p =>
      obtain ⟨r, ds₁⟩ := p
      dsimp only
      cases hop : array.getD r none with
      | none =>
        rw [stepLoop, stepLoop, agreeAt_bind hr hr, hop]
        exact iff_of_true (.some ⟨.none, rfl⟩) fun ds' h => by simp at h
      | some op =>
        dsimp only
        by_cases hretry : op.retries s.len = true
        · have hne : op ≠ .arith32be := by
            rintro rfl
            exact absurd hretry (by simp [Mut.retries])
          have hlibrary : mutateOp afl maxFile s op ds₁ = some (none, ds₁) := by
            rw [mutateOp_retries hretry]
            rfl
          have hhavoc : havocOp afl t op ds₁ = some (none, ds₁) := by
            have hagree := agree_op h hlen afl hne ds₁
            rw [AgreeAt, hlibrary] at hagree
            exact retry_of_rel hagree
          rw [stepLoop, stepLoop, agreeAt_bind hr hr, hop]
          dsimp only
          rw [agreeAt_bind hlibrary hhavoc, if_pos hretry]
          exact ih ds₁
        · rw [if_neg hretry]
          have hdone := mutateOp_isSome (Bool.eq_false_iff.mpr hretry) afl
          by_cases hbe : op = .arith32be
          · subst hbe
            rw [AgreeAt, stepLoop_done hr hop hdone,
              stepLoop_done hr hop (havocOp_arith32be_isSome afl)]
            rw [← AgreeAt, agreeAt_arith32be h]
            refine ⟨fun halike ds' heq => ?_, fun hall => hall ds₁ rfl⟩
            obtain rfl : ds₁ = ds' := by simpa using heq
            exact halike
          · refine iff_of_true ?_ fun ds' heq => by simp [hbe] at heq
            rw [stepLoop, stepLoop, agreeAt_bind hr hr, hop]
            refine (agree_op h hlen afl hbe ds₁).bind fun c d hcd ds' heq => ?_
            cases hcd with
            | none => exact absurd (hdone ds₁ none ds' heq) Bool.false_ne_true
            | some hsame => exact .some ⟨.some hsame, rfl⟩

end Step


/-- What a step leaves to be seen: the buffer and the draws that were not used. -/
def seen {σ : Type} (output : σ → List Byte) (r : Option (Option σ × Draws)) :
    Option (Option (List Byte) × Draws) :=
  r.map fun p => (p.1.map output, p.2)

theorem seen_eq_iff {m : Rand (Option Library)} {n : Rand (Option Havoc)} {ds : Draws} :
    seen Library.output (m ds) = seen Havoc.output (n ds) ↔ AgreeAt SameOutcome m n ds := by
  rw [AgreeAt, seen, seen]
  cases m ds with
  | none =>
    cases n ds with
    | none => exact iff_of_true rfl .none
    | some q => exact iff_of_false (by simp) (by rintro ⟨⟩)
  | some p =>
    cases n ds with
    | none => exact iff_of_false (by simp) (by rintro ⟨⟩)
    | some q =>
      obtain ⟨_ | s, ds₁⟩ := p <;> obtain ⟨_ | t, ds₂⟩ := q
      · constructor
        · intro h
          exact .some ⟨.none, by simpa using h⟩
        · rintro ⟨⟨-, hds⟩⟩
          simpa using hds
      · exact iff_of_false (by simp) (by rintro ⟨⟨⟨⟩, -⟩⟩)
      · exact iff_of_false (by simp) (by rintro ⟨⟨⟨⟩, -⟩⟩)
      · constructor
        · intro h
          obtain ⟨hout, hds⟩ : s.output = t.output ∧ ds₁ = ds₂ := by simpa using h
          exact .some ⟨.some ((sameBuffer_iff s t).mpr hout), hds⟩
        · rintro ⟨⟨⟨hsame⟩, hds⟩⟩
          simpa [(sameBuffer_iff s t).mp hsame] using hds

/-- One step of `afl_mutate` and one step of the havoc loop, fed with the same draws, leave the same
buffer exactly when the operator they carry out is not the big-endian addition to 32 bits, or that
addition gives the same in both byte orders. -/
theorem mutate_agrees_with_havoc_iff (afl : Afl) (array : List (Option Mut)) (s : Library)
    (t : Havoc) (hsame : s.output = t.output) (hlen : 1 ≤ s.len ∧ s.len ≤ maxFile) (ds : Draws) :
    seen Library.output (mutateStep afl maxFile array s ds) =
        seen Havoc.output (havocStep afl array t ds) ↔
      ∀ ds', executed array s.len (ds.length + 1) ds = some (.arith32be, ds') →
        AddsAlike s.buf s.len ds' := by
  rw [mutateStep, havocStep, seen_eq_iff]
  exact agreeAt_stepLoop ((sameBuffer_iff s t).mpr hsame) hlen.1 afl array _ ds

/-- Four zero bytes, and the draw of an addition of one. -/
def zeroBuffer : Bytes := fun _ => 0

/-- One is added to the first byte by `afl_mutate`, and to the last by the havoc stage. -/
theorem arith32be_differs :
    seen Library.output
        (mutateStep ⟨0, false⟩ maxFile [some .arith32be] ⟨zeroBuffer, zeroBuffer, 4⟩ [0]) ≠
      seen Havoc.output
        (havocStep ⟨0, false⟩ [some .arith32be] ⟨zeroBuffer, zeroBuffer, 4⟩ [0]) := by
  decide

/-- The little-endian addition is the same in both. -/
theorem arith32_same :
    seen Library.output
        (mutateStep ⟨0, false⟩ maxFile [some .arith32] ⟨zeroBuffer, zeroBuffer, 4⟩ [0]) =
      seen Havoc.output
        (havocStep ⟨0, false⟩ [some .arith32] ⟨zeroBuffer, zeroBuffer, 4⟩ [0]) := by
  refine (mutate_agrees_with_havoc_iff ⟨0, false⟩ [some .arith32] ⟨zeroBuffer, zeroBuffer, 4⟩
    ⟨zeroBuffer, zeroBuffer, 4⟩ rfl (by decide) [0]).mpr fun ds' h => ?_
  exact absurd h (by simp [executed, randBelow, Mut.retries])

end AflPlusPlus.Mutation
