import AflPlusPlus.Dict.Tokens

/-!
# Tokens of integer comparisons

The part of `AFLdict2filePass::run` that looks at a comparison with a constant. It writes the
constant and, for an ordering predicate, a neighbour of it; a `u64` is a `BitVec 64` and the
constant has the width of the comparison.
-/

namespace AflPlusPlus.Dict
open Lib

/-- The predicates of a comparison, as far as the pass tells them apart. -/
inductive Predicate
  | fcmpOgt | fcmpOge | fcmpOlt | fcmpOle | fcmpUgt | fcmpUge | fcmpUlt | fcmpUle
  | icmpEq | icmpNe | icmpUgt | icmpUge | icmpUlt | icmpUle | icmpSgt | icmpSge | icmpSlt | icmpSle
  deriving DecidableEq

/-- The length of the token; no token when it is zero. -/
def tokenLen (val : BitVec 64) : ℕ :=
  let len := if val > 0x10000 ∧ val < 0xffffffff then 4 else 0
  if val > 0x100000001 ∧ val < 0xffffffffffffffff then 8 else len

/-- The test for a negative constant. Both masks are decimal numbers. -/
def looksNegative (len : ℕ) (val : BitVec 64) : Bool :=
  (len = 4 && val &&& 80000000 ≠ 0) || (len = 8 && val &&& 8000000000000000 ≠ 0)

def oneBelow (val : BitVec 64) : BitVec 64 := if val &&& 0xffff ≠ 1 then val - 1 else 0

def oneAbove (val : BitVec 64) : BitVec 64 := if val &&& 0xffff ≠ 0xfffe then val + 1 else 0

/-- The `switch` over the predicate; zero when there is no second value. -/
def secondValue (c : Predicate) (len : ℕ) (val : BitVec 64) : BitVec 64 :=
  match c with
  | .fcmpOgt | .fcmpOle | .icmpSle | .icmpSgt =>
    if looksNegative len val then oneBelow val else oneAbove val
  | .fcmpUgt | .fcmpUle | .icmpUgt | .icmpUle => oneAbove val
  | .fcmpOlt | .fcmpOge | .icmpSlt | .icmpSge =>
    if looksNegative len val then oneBelow val else oneBelow val
  | .fcmpUlt | .fcmpUge | .icmpUlt | .icmpUge => oneBelow val
  | .icmpEq | .icmpNe => 0

/-- The values of the tokens that a comparison with a constant gives. -/
def cmpValues {w : ℕ} (c : Predicate) (const : BitVec w) : List (BitVec 64) :=
  -- `uge(0xffffffffffffffff)`: larger constants are skipped
  if const.toNat ≥ 0xffffffffffffffff then []
  else
    let val := const.setWidth 64
    let len := tokenLen val
    if len = 0 then []
    else
      let val2 := secondValue c len val
      if val2 ≠ 0 then [val, val2] else [val]

/-- The bytes of a value, the lowest first, as the cast to `u8 *` sees them. -/
def valueBytes (len : ℕ) (val : BitVec 64) : List Byte := (List.range len).map (wordByte val)

/-- What the pass writes for a comparison. -/
def cmpLines {w : ℕ} (c : Predicate) (const : BitVec w) : List Byte :=
  (cmpValues c const).flatMap fun val =>
    dict2file (valueBytes (tokenLen (const.setWidth 64)) val)

/-! ### The meaning of the predicates -/

/-- The ordering predicates on integers. -/
def Predicate.IsOrder (c : Predicate) : Prop :=
  c = .icmpUgt ∨ c = .icmpUge ∨ c = .icmpUlt ∨ c = .icmpUle ∨ c = .icmpSgt ∨ c = .icmpSge ∨
    c = .icmpSlt ∨ c = .icmpSle

/-- An integer predicate on a left operand and the constant. -/
def Predicate.eval {w : ℕ} (c : Predicate) (x const : BitVec w) : Bool :=
  match c with
  | .icmpEq => x = const
  | .icmpNe => x ≠ const
  | .icmpUgt => const.ult x
  | .icmpUge => const.ule x
  | .icmpUlt => x.ult const
  | .icmpUle => x.ule const
  | .icmpSgt => const.slt x
  | .icmpSge => const.sle x
  | .icmpSlt => x.slt const
  | .icmpSle => x.sle const
  | _ => false

/-- The constant and the predicate for which the neighbour lies on the other side: a signed `>` or
`<=` needs a constant that the masks let through, a signed `<` or `>=` one that is not the least
number of its width. -/
def Straddles {w : ℕ} (c : Predicate) (const : BitVec w) : Prop :=
  match c with
  | .icmpSgt | .icmpSle => looksNegative (tokenLen (const.setWidth 64)) (const.setWidth 64) = false
  | .icmpSlt | .icmpSge => const.toNat ≠ 2 ^ (w - 1)
  | _ => True

/-- A predicate tells another operand from the constant when the operand lies on its strict side. -/
theorem Predicate.eval_ne_iff {w : ℕ} (c : Predicate) (hc : c.IsOrder) (x const : BitVec w) :
    c.eval x const ≠ c.eval const const ↔
      match c with
      | .icmpUgt | .icmpUle => const.toNat < x.toNat
      | .icmpUlt | .icmpUge => x.toNat < const.toNat
      | .icmpSgt | .icmpSle => const.toInt < x.toInt
      | .icmpSlt | .icmpSge => x.toInt < const.toInt
      | _ => True := by
  rcases hc with rfl | rfl | rfl | rfl | rfl | rfl | rfl | rfl
  all_goals
    simp only [eval, BitVec.ult, BitVec.ule, BitVec.slt, BitVec.sle, ne_eq, decide_eq_decide]
    omega

/-! ### The neighbours -/

theorem toNat_oneBelow {val : BitVec 64} (hne : oneBelow val ≠ 0) (hpos : 0 < val.toNat) :
    (oneBelow val).toNat = val.toNat - 1 := by
  rw [oneBelow] at hne ⊢
  split at hne
  · rename_i hlow
    rw [if_pos hlow, BitVec.toNat_sub_of_le (by rw [BitVec.le_def]; exact hpos)]
    rfl
  · exact absurd rfl hne

theorem toNat_oneAbove {val : BitVec 64} (hne : oneAbove val ≠ 0)
    (hlt : val.toNat + 1 < 2 ^ 64) : (oneAbove val).toNat = val.toNat + 1 := by
  rw [oneAbove] at hne ⊢
  split at hne
  · rename_i hlow
    rw [if_pos hlow, BitVec.toNat_add]
    exact Nat.mod_eq_of_lt hlt
  · exact absurd rfl hne

/-- A constant with a token lies strictly between the least and the largest number. -/
theorem tokenLen_bounds {w : ℕ} (hw : w = 32 ∨ w = 64) {const : BitVec w}
    (h : tokenLen (const.setWidth 64) ≠ 0) :
    (const.setWidth 64).toNat = const.toNat ∧ 0 < const.toNat ∧ const.toNat + 1 < 2 ^ w := by
  have hlt := const.isLt
  have hval : (const.setWidth 64).toNat = const.toNat := by
    rw [BitVec.toNat_setWidth]
    rcases hw with rfl | rfl
    · exact Nat.mod_eq_of_lt (by omega)
    · exact Nat.mod_eq_of_lt hlt
  have hbound : 0x10000 < const.toNat ∧
      (const.toNat < 0xffffffff ∨ 0x100000001 < const.toNat ∧ const.toNat < 2 ^ 64 - 1) := by
    have h16 : (0x10000 : BitVec 64).toNat = 0x10000 := rfl
    have h32 : (0xffffffff : BitVec 64).toNat = 0xffffffff := rfl
    have h33 : (0x100000001 : BitVec 64).toNat = 0x100000001 := rfl
    have h64 : (0xffffffffffffffff : BitVec 64).toNat = 0xffffffffffffffff := rfl
    simp only [tokenLen, GT.gt, BitVec.lt_def, hval, h16, h32, h33, h64] at h
    by_cases h8 : 0x100000001 < const.toNat ∧ const.toNat < 0xffffffffffffffff
    · exact ⟨by omega, Or.inr h8⟩
    · rw [if_neg h8] at h
      by_cases h4 : 0x10000 < const.toNat ∧ const.toNat < 0xffffffff
      · exact ⟨h4.1, Or.inl h4.2⟩
      · exact absurd (if_neg h4) h
  refine ⟨hval, by omega, ?_⟩
  rcases hw with rfl | rfl <;> omega

/-- The masks stop the largest signed number of either width, and let the least one through. -/
theorem looksNegative_extremes {w : ℕ} (hw : w = 32 ∨ w = 64) (const : BitVec w) :
    (const.toNat + 1 = 2 ^ (w - 1) →
      looksNegative (tokenLen (const.setWidth 64)) (const.setWidth 64) = true) ∧
    (const.toNat = 2 ^ (w - 1) →
      looksNegative (tokenLen (const.setWidth 64)) (const.setWidth 64) = false) := by
  have hconst : ∀ n, const.toNat = n → const = BitVec.ofNat w n := fun n hn => by
    rw [← hn, BitVec.ofNat_toNat, BitVec.setWidth_eq]
  rcases hw with rfl | rfl
  · refine ⟨fun h => ?_, fun h => ?_⟩
    · rw [hconst 0x7fffffff (by omega)]
      decide
    · rw [hconst 0x80000000 (by omega)]
      decide
  · refine ⟨fun h => ?_, fun h => ?_⟩
    · rw [hconst 0x7fffffffffffffff (by omega)]
      decide
    · rw [hconst 0x8000000000000000 (by omega)]
      decide

/-- The next number is the larger one unless the constant is the largest signed number. -/
theorem toInt_lt_toInt_succ_iff {w : ℕ} (hw : w = 32 ∨ w = 64) {x const : BitVec w}
    (hx : x.toNat = const.toNat + 1) :
    const.toInt < x.toInt ↔ const.toNat + 1 ≠ 2 ^ (w - 1) := by
  have hlt := x.isLt
  rw [BitVec.toInt_eq_toNat_cond, BitVec.toInt_eq_toNat_cond]
  rcases hw with rfl | rfl
  · split <;> split <;> omega
  · split <;> split <;> omega

/-- The second token of a comparison. -/
theorem cmpValues_eq_pair {w : ℕ} {c : Predicate} {const : BitVec w} {val val2 : BitVec 64}
    (h : cmpValues c const = [val, val2]) :
    tokenLen (const.setWidth 64) ≠ 0 ∧ val = const.setWidth 64 ∧ val2 ≠ 0 ∧
      val2 = secondValue c (tokenLen (const.setWidth 64)) (const.setWidth 64) := by
  simp only [cmpValues] at h
  split at h
  · exact absurd h (by simp)
  · split at h
    · exact absurd h (by simp)
    · rename_i hlen
      split at h
      · rename_i hne
        simp only [List.cons.injEq, and_true] at h
        obtain ⟨rfl, rfl⟩ := h
        exact ⟨hlen, rfl, hne, rfl⟩
      · exact absurd h (by simp)

/-- The second value and the constant lie on different sides of the comparison exactly when the
constant is not one of those that the test for a negative constant, or the wrap at the least
number, sends to the wrong side. -/
theorem cmpValues_straddle_iff {w : ℕ} (hw : w = 32 ∨ w = 64) (c : Predicate) (hc : c.IsOrder)
    (const : BitVec w) (val val2 : BitVec 64) (h : cmpValues c const = [val, val2]) :
    c.eval (val2.setWidth w) const ≠ c.eval (val.setWidth w) const ↔ Straddles c const := by
  obtain ⟨hlen, rfl, hne, hval2⟩ := cmpValues_eq_pair h
  obtain ⟨hval, hpos, hlt⟩ := tokenLen_bounds hw hlen
  have hlt64 : const.toNat + 1 < 2 ^ 64 := by
    rcases hw with rfl | rfl <;> omega
  have hback : (const.setWidth 64).setWidth w = const := by
    apply BitVec.eq_of_toNat_eq
    rw [BitVec.toNat_setWidth, hval, Nat.mod_eq_of_lt const.isLt]
  have habove : val2 = oneAbove (const.setWidth 64) →
      (val2.setWidth w).toNat = const.toNat + 1 := by
    rintro rfl
    rw [BitVec.toNat_setWidth, toNat_oneAbove hne (by omega), hval, Nat.mod_eq_of_lt hlt]
  have hbelow : val2 = oneBelow (const.setWidth 64) →
      (val2.setWidth w).toNat = const.toNat - 1 := by
    rintro rfl
    rw [BitVec.toNat_setWidth, toNat_oneBelow hne (by omega), hval, Nat.mod_eq_of_lt (by omega)]
  rw [hback, c.eval_ne_iff hc]
  -- the signed `>` and `<=`: the neighbour is below the constant when the masks stop it
  have hgreater : (val2 = if looksNegative (tokenLen (const.setWidth 64)) (const.setWidth 64)
      then oneBelow (const.setWidth 64) else oneAbove (const.setWidth 64)) →
      (const.toInt < (val2.setWidth w).toInt ↔
        looksNegative (tokenLen (const.setWidth 64)) (const.setWidth 64) = false) := by
    obtain ⟨hmax, hmin⟩ := looksNegative_extremes hw const
    intro hval2
    cases hneg : looksNegative (tokenLen (const.setWidth 64)) (const.setWidth 64) with
    | true =>
      rw [hneg, if_pos rfl] at hval2
      have hx := hbelow hval2
      have hless : (val2.setWidth w).toInt < const.toInt :=
        (toInt_lt_toInt_succ_iff hw (by omega)).mpr fun heq => by
          have hfalse := hmin (by omega)
          rw [hneg] at hfalse
          exact absurd hfalse (by decide)
      exact iff_of_false (by omega) (by decide)
    | false =>
      rw [hneg, if_neg (by decide)] at hval2
      refine iff_of_true ((toInt_lt_toInt_succ_iff hw (habove hval2)).mpr fun heq => ?_) rfl
      have htrue := hmax heq
      rw [hneg] at htrue
      exact absurd htrue (by decide)
  have hless : val2 = oneBelow (const.setWidth 64) →
      ((val2.setWidth w).toInt < const.toInt ↔ const.toNat ≠ 2 ^ (w - 1)) := fun hval2 => by
    have hx := hbelow hval2
    rw [toInt_lt_toInt_succ_iff hw (by omega),
      show (val2.setWidth w).toNat + 1 = const.toNat by omega]
  rcases hc with rfl | rfl | rfl | rfl | rfl | rfl | rfl | rfl
  · exact iff_of_true (by have hx := habove hval2; omega) trivial
  · exact iff_of_true (by have hx := hbelow hval2; omega) trivial
  · exact iff_of_true (by have hx := hbelow hval2; omega) trivial
  · exact iff_of_true (by have hx := habove hval2; omega) trivial
  · exact hgreater hval2
  · exact hless (by rw [hval2, secondValue, ite_self])
  · exact hless (by rw [hval2, secondValue, ite_self])
  · exact hgreater hval2

theorem cmpValues_straddle_greater :
    Predicate.icmpSgt.eval ((0x10003 : BitVec 64).setWidth 32) (0x10002 : BitVec 32) ≠
        Predicate.icmpSgt.eval ((0x10002 : BitVec 64).setWidth 32) (0x10002 : BitVec 32) ↔
      Straddles .icmpSgt (0x10002 : BitVec 32) :=
  cmpValues_straddle_iff (Or.inl rfl) .icmpSgt
    (by simp [Predicate.IsOrder]) 0x10002 0x10002 0x10003
    (by decide)

/-- `x > 0x400000` on 32 bits: the mask `80000000` has bit 22, and both tokens make it false. -/
theorem cmpValues_not_straddling :
    cmpValues .icmpSgt (0x400000 : BitVec 32) = [0x400000, 0x3fffff] ∧
      Predicate.icmpSgt.eval ((0x3fffff : BitVec 64).setWidth 32) (0x400000 : BitVec 32) =
        Predicate.icmpSgt.eval ((0x400000 : BitVec 64).setWidth 32) (0x400000 : BitVec 32) := by
  decide

end AflPlusPlus.Dict
