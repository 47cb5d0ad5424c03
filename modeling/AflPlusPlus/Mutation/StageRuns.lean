import AflPlusPlus.Mutation.BitFlips

/-!
# What the stages execute

Every stage puts the buffer back, so that what is executed can be said stage by stage, by the value
that is put in, the place where it is put and the filters that let it through.
-/

namespace AflPlusPlus.Mutation
open Lib Trials

section Runs

variable {eff : ℕ → Bool} {m : Bytes} {w n : ℕ}

/-- The buffers that differ from `m` at most in a word. -/
def InPlace (w : ℕ) (m : Bytes) (i : ℕ) (x : Bytes) : Prop := ∃ v : BitVec w, x = store w m i v

theorem tries_walk {P : Bytes → Prop} {body : ℕ → Stage} {Q : ℕ → Bytes → Prop}
    (h : ∀ i, i < n → Tries P (body i) P (Q i)) :
    Tries P (walk eff n body) P fun x => ∃ i, i < n ∧ eff i = true ∧ Q i x := by
  have hall := Tries.forM (l := List.range n) fun i hi =>
    Tries.onlyIf (eff i = true) fun _ => h i (List.mem_range.mp hi)
  exact hall.congr fun x => by simp only [List.mem_range]

theorem tries_bitflip (len n : ℕ) :
    Tries (· = m) (bitflip eff len n) (· = m) fun x =>
      ∃ cur, cur < 8 * len - (n - 1) ∧ eff (cur / 8) = true ∧ x = flipBits n cur m := by
  have hlen : len <<< 3 = 8 * len := by rw [Nat.shiftLeft_eq, Nat.mul_comm]
  have hall := Tries.forM (l := List.range (len <<< 3 - (n - 1))) fun cur _ =>
    Tries.onlyIf (P := (· = m)) (eff (cur >>> 3) = true) fun _ =>
      Tries.around rfl (flipBits_flipBits n cur m)
  refine hall.congr fun x => exists_congr fun cur => ?_
  rw [List.mem_range, hlen, Nat.shiftRight_eq_div_pow]

theorem tries_byteflip (hw : 8 ∣ w) :
    Tries (· = m) (byteflip w eff n) (· = m) fun x =>
      ∃ i, i < n ∧ eff i = true ∧ x = flipWord w i m :=
  tries_walk fun i _ => Tries.around rfl (flipWord_flipWord hw i m)

theorem tries_runValue (p : Prop) [Decidable p] (i : ℕ) (v : BitVec w) :
    Tries (InPlace w m i) (runValue p i v) (InPlace w m i) fun x => p ∧ x = store w m i v := by
  refine Tries.onlyIf p fun _ => Tries.place ?_ ⟨v, rfl⟩
  rintro x ⟨u, rfl⟩
  exact store_store m i u v

theorem tries_restore (hw : 8 ∣ w) (i : ℕ) :
    Tries (InPlace w m i) (storeWord i (load w m i)) (· = m) fun _ => False := by
  refine Tries.change ?_
  rintro x ⟨u, rfl⟩
  rw [store_store, store_load hw]

theorem inPlace_self (hw : 8 ∣ w) (m : Bytes) (i : ℕ) : ∀ x, x = m → InPlace w m i x := by
  rintro x rfl
  exact ⟨load w x i, (store_load hw x i).symm⟩

theorem tries_walkWords {body : ℕ → BitVec w → Stage} {Q : ℕ → Bytes → Prop}
    (h : ∀ i, i < n → Tries (· = m) (body i (load w m i)) (· = m) (Q i)) :
    Tries (· = m) (walkWords w eff n body) (· = m) fun x => ∃ i, i < n ∧ eff i = true ∧ Q i x := by
  refine tries_walk fun i hi => Tries.read (f := fun x => load w x i) (k := body i) ?_ (h i hi)
  rintro x rfl
  rfl

/-- The value is not taken for a bit flip. -/
def NoBitflip (orig v : BitVec w) : Prop := couldBeBitflip ((orig ^^^ v).setWidth 32) = false

/-- What is executed of the arithmetic on a byte. -/
def Arith8Run (orig v : BitVec 8) : Prop :=
  ∃ j, 0 < j ∧ j ≤ arithMax ∧ NoBitflip orig v ∧
    (v = orig + BitVec.ofNat 8 j ∨ v = orig - BitVec.ofNat 8 j)

theorem tries_arith8 :
    Tries (· = m) (arith8 eff n) (· = m) fun x =>
      ∃ i, i < n ∧ eff i = true ∧ ∃ v, Arith8Run (load 8 m i) v ∧ x = store 8 m i v := by
  refine tries_walkWords fun i _ => ?_
  have h8 : 8 ∣ 8 := Nat.dvd_refl 8
  refine (Tries.forM fun k _ => ((tries_runValue _ i _).bind ((tries_runValue _ i _).bind
    (tries_restore h8 i))).mono (inPlace_self h8 m i)).congr fun x => ?_
  simp only [List.mem_range, or_false, Bool.not_eq_true']
  constructor
  · rintro ⟨k, hk, ⟨hno, rfl⟩ | ⟨hno, rfl⟩⟩
    · exact ⟨_, ⟨k + 1, Nat.succ_pos k, hk, hno, .inl rfl⟩, rfl⟩
    · exact ⟨_, ⟨k + 1, Nat.succ_pos k, hk, hno, .inr rfl⟩, rfl⟩
  · rintro ⟨v, ⟨j, hpos, hmax, hno, hv⟩, rfl⟩
    obtain ⟨k, rfl⟩ := Nat.exists_eq_add_of_lt hpos
    rw [Nat.zero_add] at *
    obtain rfl | rfl := hv
    · exact ⟨k, hmax, .inl ⟨hno, rfl⟩⟩
    · exact ⟨k, hmax, .inr ⟨hno, rfl⟩⟩

/-- What is executed of the arithmetic on a word. -/
def ArithRun (swap : BitVec w → BitVec w) (limit : ℕ) (leLow beLow : BitVec w → ℕ)
    (orig v : BitVec w) : Prop :=
  ∃ j, 0 < j ∧ j ≤ arithMax ∧ NoBitflip orig v ∧
    (limit < leLow orig + j ∧ v = orig + BitVec.ofNat w j ∨
      leLow orig < j ∧ v = orig - BitVec.ofNat w j ∨
      limit < beLow orig + j ∧ v = swap (swap orig + BitVec.ofNat w j) ∨
      beLow orig < j ∧ v = swap (swap orig - BitVec.ofNat w j))

theorem tries_arithWords (hw : 8 ∣ w) (swap : BitVec w → BitVec w) (limit : ℕ)
    (leLow beLow : BitVec w → ℕ) :
    Tries (· = m) (arithWords swap limit leLow beLow eff n) (· = m) fun x =>
      ∃ i, i < n ∧ eff i = true ∧
        ∃ v, ArithRun swap limit leLow beLow (load w m i) v ∧ x = store w m i v := by
  refine tries_walkWords fun i _ => ?_
  refine (Tries.forM fun k _ => ((tries_runValue _ i _).bind ((tries_runValue _ i _).bind
    ((tries_runValue _ i _).bind ((tries_runValue _ i _).bind (tries_restore hw i))))).mono
    (inPlace_self hw m i)).congr fun x => ?_
  simp only [List.mem_range, or_false, Bool.not_eq_true']
  constructor
  · rintro
      ⟨k, hk, ⟨⟨hlow, hno⟩, rfl⟩ | ⟨⟨hlow, hno⟩, rfl⟩ | ⟨⟨hlow, hno⟩, rfl⟩ | ⟨⟨hlow, hno⟩, rfl⟩⟩
    · exact ⟨_, ⟨k + 1, Nat.succ_pos k, hk, hno, .inl ⟨hlow, rfl⟩⟩, rfl⟩
    · exact ⟨_, ⟨k + 1, Nat.succ_pos k, hk, hno, .inr (.inl ⟨hlow, rfl⟩)⟩, rfl⟩
    · exact ⟨_, ⟨k + 1, Nat.succ_pos k, hk, hno, .inr (.inr (.inl ⟨hlow, rfl⟩))⟩, rfl⟩
    · exact ⟨_, ⟨k + 1, Nat.succ_pos k, hk, hno, .inr (.inr (.inr ⟨hlow, rfl⟩))⟩, rfl⟩
  · rintro ⟨v, ⟨j, hpos, hmax, hno, hv⟩, rfl⟩
    obtain ⟨k, rfl⟩ := Nat.exists_eq_add_of_lt hpos
    rw [Nat.zero_add] at *
    obtain ⟨hlow, rfl⟩ | ⟨hlow, rfl⟩ | ⟨hlow, rfl⟩ | ⟨hlow, rfl⟩ := hv
    · exact ⟨k, hmax, .inl ⟨⟨hlow, hno⟩, rfl⟩⟩
    · exact ⟨k, hmax, .inr (.inl ⟨⟨hlow, hno⟩, rfl⟩)⟩
    · exact ⟨k, hmax, .inr (.inr (.inl ⟨⟨hlow, hno⟩, rfl⟩))⟩
    · exact ⟨k, hmax, .inr (.inr (.inr ⟨⟨hlow, hno⟩, rfl⟩))⟩

/-- The value is not taken for a product of the arithmetic. -/
def NoArith (orig v : BitVec w) : Prop :=
  couldBeArith (orig.setWidth 32) (v.setWidth 32) (w / 8) = false

/-- What is executed of the interesting bytes. -/
def Interest8Run (orig v : BitVec 8) : Prop :=
  NoBitflip orig v ∧ NoArith orig v ∧ ∃ value ∈ interesting8, v = BitVec.ofInt 8 value

theorem tries_interest8 :
    Tries (· = m) (interest8 eff n) (· = m) fun x =>
      ∃ i, i < n ∧ eff i = true ∧ ∃ v, Interest8Run (load 8 m i) v ∧ x = store 8 m i v := by
  have h8 : 8 ∣ 8 := Nat.dvd_refl 8
  refine tries_walkWords fun i _ => ?_
  refine (Tries.forM fun value _ => Tries.onlyIf _ fun _ =>
    Tries.around rfl ((store_store m i _ _).trans (store_load h8 m i))).congr fun x => ?_
  simp only [not_or, Bool.not_eq_true]
  constructor
  · rintro ⟨value, hmem, ⟨hno, harith⟩, rfl⟩
    exact ⟨_, ⟨hno, harith, value, hmem, rfl⟩, rfl⟩
  · rintro ⟨v, ⟨hno, harith, value, hmem, rfl⟩, rfl⟩
    exact ⟨value, hmem, ⟨hno, harith⟩, rfl⟩

/-- What is executed of the interesting words. -/
def InterestRun (swap : BitVec w → BitVec w) (values : List ℤ) (orig v : BitVec w) : Prop :=
  NoBitflip orig v ∧ NoArith orig v ∧ ∃ value ∈ values,
    (v = BitVec.ofInt w value ∧
        couldBeInterest (orig.setWidth 32) (v.setWidth 32) (w / 8) false = false ∨
      v = swap (BitVec.ofInt w value) ∧ BitVec.ofInt w value ≠ v ∧
        couldBeInterest (orig.setWidth 32) (v.setWidth 32) (w / 8) true = false)

theorem tries_interestWords (hw : 8 ∣ w) (swap : BitVec w → BitVec w) (values : List ℤ) :
    Tries (· = m) (interestWords swap values eff n) (· = m) fun x =>
      ∃ i, i < n ∧ eff i = true ∧
        ∃ v, InterestRun swap values (load w m i) v ∧ x = store w m i v := by
  refine tries_walkWords fun i _ => ?_
  refine (((Tries.forM fun value _ => (tries_runValue _ i _).bind (tries_runValue _ i _)).bind
    (tries_restore hw i)).mono (inPlace_self hw m i)).congr fun x => ?_
  simp only [or_false, Bool.not_eq_true']
  constructor
  · rintro ⟨value, hmem, ⟨⟨hno, harith, hint⟩, rfl⟩ | ⟨⟨hne, hno, harith, hint⟩, rfl⟩⟩
    · exact ⟨_, ⟨hno, harith, value, hmem, .inl ⟨rfl, hint⟩⟩, rfl⟩
    · exact ⟨_, ⟨hno, harith, value, hmem, .inr ⟨rfl, hne, hint⟩⟩, rfl⟩
  · rintro ⟨v, ⟨hno, harith, value, hmem, ⟨rfl, hint⟩ | ⟨rfl, hne, hint⟩⟩, rfl⟩
    · exact ⟨value, hmem, .inl ⟨⟨hno, harith, hint⟩, rfl⟩⟩
    · exact ⟨value, hmem, .inr ⟨⟨hne, hno, harith, hint⟩, rfl⟩⟩

def Arith16Run : BitVec 16 → BitVec 16 → Prop :=
  ArithRun swap16 0xff (fun orig => (orig &&& 0xff).toNat) fun orig => (orig >>> 8).toNat

def Arith32Run : BitVec 32 → BitVec 32 → Prop :=
  ArithRun swap32 0xffff (fun orig => (orig &&& 0xffff).toNat) fun orig =>
    (swap32 orig &&& 0xffff).toNat

inductive BitflipRun (eff : ℕ → Bool) (m : Bytes) (len : ℕ) : Bytes → Prop
  | clean : BitflipRun eff m len m
  | bits {n cur : ℕ} : n = 1 ∨ n = 2 ∨ n = 4 → cur < 8 * len - (n - 1) → eff (cur / 8) = true →
      BitflipRun eff m len (flipBits n cur m)
  | bytes {w i : ℕ} : w = 8 ∨ w = 16 ∨ w = 32 → i + w / 8 ≤ len → eff i = true →
      BitflipRun eff m len (flipWord w i m)

/-- What is executed of the stages that store values. -/
inductive ValueRun (noArith : Bool) : (w : ℕ) → BitVec w → BitVec w → Prop
  | arith8 {orig v : BitVec 8} : noArith = false → Arith8Run orig v → ValueRun noArith 8 orig v
  | arith16 {orig v : BitVec 16} : noArith = false → Arith16Run orig v → ValueRun noArith 16 orig v
  | arith32 {orig v : BitVec 32} : noArith = false → Arith32Run orig v → ValueRun noArith 32 orig v
  | interest8 {orig v : BitVec 8} : Interest8Run orig v → ValueRun noArith 8 orig v
  | interest16 {orig v : BitVec 16} : noArith = false →
      InterestRun swap16 interesting16 orig v → ValueRun noArith 16 orig v
  | interest32 {orig v : BitVec 32} : noArith = false →
      InterestRun swap32 interesting32 orig v → ValueRun noArith 32 orig v

theorem tries_bitflips (len : ℕ) :
    Tries (· = m) (bitflips eff len) (· = m) (BitflipRun eff m len) := by
  refine ((Tries.attempt m).bind ((tries_bitflip len 1).bind ((tries_bitflip len 2).bind
    ((tries_bitflip len 4).bind ((tries_byteflip (by decide)).bind
    ((Tries.onlyIf _ fun _ => tries_byteflip (by decide)).bind
    (Tries.onlyIf _ fun _ => tries_byteflip (by decide)))))))).congr fun x => ?_
  constructor
  · rintro (rfl | ⟨cur, hcur, heff, rfl⟩ | ⟨cur, hcur, heff, rfl⟩ | ⟨cur, hcur, heff, rfl⟩ |
      ⟨i, hi, heff, rfl⟩ | ⟨hlen, i, hi, heff, rfl⟩ | ⟨hlen, i, hi, heff, rfl⟩)
    · exact .clean
    · exact .bits (by decide) hcur heff
    · exact .bits (by decide) hcur heff
    · exact .bits (by decide) hcur heff
    · exact .bytes (by decide) (by omega) heff
    · exact .bytes (by decide) (by omega) heff
    · exact .bytes (by decide) (by omega) heff
  · intro hx
    cases hx with
    | clean => exact .inl rfl
    | @bits n cur hn hcur heff =>
      obtain rfl | rfl | rfl := hn
      · exact .inr (.inl ⟨cur, hcur, heff, rfl⟩)
      · exact .inr (.inr (.inl ⟨cur, hcur, heff, rfl⟩))
      · exact .inr (.inr (.inr (.inl ⟨cur, hcur, heff, rfl⟩)))
    | @bytes w i hw hi heff =>
      iterate 4 apply Or.inr
      obtain rfl | rfl | rfl := hw
      · exact .inl ⟨i, by omega, heff, rfl⟩
      · exact .inr (.inl ⟨by omega, i, by omega, heff, rfl⟩)
      · exact .inr (.inr ⟨by omega, i, by omega, heff, rfl⟩)

theorem tries_values (noArith : Bool) (len : ℕ) :
    Tries (· = m) (onlyIf (noArith = false) (ariths eff len) >>= fun _ => interests noArith eff len)
      (· = m) fun x => ∃ w i, i + w / 8 ≤ len ∧ eff i = true ∧
        ∃ v, ValueRun noArith w (load w m i) v ∧ x = store w m i v := by
  have hariths : Tries (· = m) (ariths eff len) (· = m) _ :=
    tries_arith8.bind ((Tries.onlyIf _ fun _ => tries_arithWords (by decide) _ _ _ _).bind
      (Tries.onlyIf _ fun _ => tries_arithWords (by decide) _ _ _ _))
  have hinterests : Tries (· = m) (interests noArith eff len) (· = m) _ :=
    tries_interest8.bind ((Tries.onlyIf _ fun _ => tries_interestWords (by decide) _ _).bind
      (Tries.onlyIf _ fun _ => tries_interestWords (by decide) _ _))
  refine ((Tries.onlyIf _ fun _ => hariths).bind hinterests).congr fun x => ?_
  constructor
  · rintro (⟨hno, ⟨i, hi, heff, v, hv, rfl⟩ | ⟨hlen, i, hi, heff, v, hv, rfl⟩ |
      ⟨hlen, i, hi, heff, v, hv, rfl⟩⟩ | ⟨i, hi, heff, v, hv, rfl⟩ |
      ⟨⟨hno, hlen⟩, i, hi, heff, v, hv, rfl⟩ | ⟨⟨hno, hlen⟩, i, hi, heff, v, hv, rfl⟩)
    · exact ⟨8, i, hi, heff, v, .arith8 hno hv, rfl⟩
    · exact ⟨16, i, by omega, heff, v, .arith16 hno hv, rfl⟩
    · exact ⟨32, i, by omega, heff, v, .arith32 hno hv, rfl⟩
    · exact ⟨8, i, hi, heff, v, .interest8 hv, rfl⟩
    · exact ⟨16, i, by omega, heff, v, .interest16 hno hv, rfl⟩
    · exact ⟨32, i, by omega, heff, v, .interest32 hno hv, rfl⟩
  · rintro ⟨w, i, hi, heff, v, hv, rfl⟩
    cases hv with
    | arith8 hno hv => exact .inl ⟨hno, .inl ⟨i, hi, heff, _, hv, rfl⟩⟩
    | arith16 hno hv =>
      exact .inl ⟨hno, .inr (.inl ⟨by omega, i, by omega, heff, _, hv, rfl⟩)⟩
    | arith32 hno hv =>
      exact .inl ⟨hno, .inr (.inr ⟨by omega, i, by omega, heff, _, hv, rfl⟩)⟩
    | interest8 hv => exact .inr (.inl ⟨i, hi, heff, _, hv, rfl⟩)
    | interest16 hno hv =>
      exact .inr (.inr (.inl ⟨⟨hno, by omega⟩, i, by omega, heff, _, hv, rfl⟩))
    | interest32 hno hv =>
      exact .inr (.inr (.inr ⟨⟨hno, by omega⟩, i, by omega, heff, _, hv, rfl⟩))

theorem mem_deterministicRuns {noArith : Bool} {len : ℕ} {x : Bytes} :
    x ∈ deterministicRuns noArith eff m len ↔ BitflipRun eff m len x ∨
      ∃ w i, i + w / 8 ≤ len ∧ eff i = true ∧
        ∃ v, ValueRun noArith w (load w m i) v ∧ x = store w m i v :=
  ((tries_bitflips len).bind (tries_values noArith len)).mem_attempts rfl

end Runs

end AflPlusPlus.Mutation
