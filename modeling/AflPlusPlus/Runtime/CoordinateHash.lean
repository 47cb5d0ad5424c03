import AflPlusPlus.Lib.Mixing

/-!
# Hashes of the IJON runtime

`ijon_simple_hash` and `ijon_hashint`. The second one interleaves the lower halves of its arguments
and scrambles the result with a finaliser whose every step is a bijection of the 32-bit words, so
pairs of coordinates below 65536 never collide.
-/

namespace AflPlusPlus.Runtime
open Lib

def ijonSimpleHash (x : BitVec 64) : BitVec 64 := x * 0x9E3779B97F4A7C15

/-- The mixing behind the loop of `ijon_hashint`. -/
def mixCoordinates (result : BitVec 32) : BitVec 32 :=
  let result := xorShift 16 result
  let result := result * 0x85ebca6b
  let result := xorShift 13 result
  let result := result * 0xc2b2ae35
  xorShift 16 result

def ijonHashint (old val : BitVec 32) : BitVec 32 := mixCoordinates (interleave old val 16)

theorem ijonSimpleHash_injective : Function.Injective ijonSimpleHash :=
  mul_odd_injective (by decide)

theorem mixCoordinates_injective : Function.Injective mixCoordinates := by
  have hmul1 : Function.Injective (fun x : BitVec 32 => x * 0x85ebca6b) :=
    mul_odd_injective (by decide)
  have hmul2 : Function.Injective (fun x : BitVec 32 => x * 0xc2b2ae35) :=
    mul_odd_injective (by decide)
  exact (xorShift_injective (by decide)).comp (hmul2.comp ((xorShift_injective (by decide)).comp
    (hmul1.comp (xorShift_injective (by decide)))))

/-- Two pairs have one hash exactly when they agree in the lower halves. -/
theorem ijonHashint_eq_iff (x y x' y' : BitVec 32) :
    ijonHashint x y = ijonHashint x' y' ↔
      x.toNat % 65536 = x'.toNat % 65536 ∧ y.toNat % 65536 = y'.toNat % 65536 := by
  have hlow : ∀ u v : BitVec 32, u.toNat % 65536 = v.toNat % 65536 ↔
      ∀ i, i < 16 → u.getLsbD i = v.getLsbD i := by
    intro u v
    constructor
    · intro h i hi
      have hbit : (u.toNat % 2 ^ 16).testBit i = (v.toNat % 2 ^ 16).testBit i :=
        congrArg (fun n => n.testBit i) h
      rwa [Nat.testBit_mod_two_pow, Nat.testBit_mod_two_pow, decide_eq_true hi, Bool.true_and,
        Bool.true_and, BitVec.testBit_toNat, BitVec.testBit_toNat] at hbit
    · intro h
      apply Nat.eq_of_testBit_eq
      intro i
      rw [show 65536 = 2 ^ 16 by decide, Nat.testBit_mod_two_pow, Nat.testBit_mod_two_pow,
        BitVec.testBit_toNat, BitVec.testBit_toNat]
      by_cases hi : i < 16
      · rw [h i hi]
      · rw [decide_eq_false hi, Bool.false_and, Bool.false_and]
  rw [ijonHashint, ijonHashint, mixCoordinates_injective.eq_iff, interleave_eq_iff (by decide),
    hlow, hlow]
  exact forall₂_and

/-- Coordinates below 65536 do not collide. -/
theorem ijonHashint_collision_free {x y x' y' : BitVec 32} (hx : x.toNat < 65536)
    (hy : y.toNat < 65536) (hx' : x'.toNat < 65536) (hy' : y'.toNat < 65536)
    (h : ijonHashint x y = ijonHashint x' y') : x = x' ∧ y = y' := by
  obtain ⟨hxx, hyy⟩ := (ijonHashint_eq_iff x y x' y').mp h
  rw [Nat.mod_eq_of_lt hx, Nat.mod_eq_of_lt hx'] at hxx
  rw [Nat.mod_eq_of_lt hy, Nat.mod_eq_of_lt hy'] at hyy
  exact ⟨BitVec.eq_of_toNat_eq hxx, BitVec.eq_of_toNat_eq hyy⟩

theorem ijonHashint_collision_free_edge :
    (65535#32).toNat < 65536 ∧ ijonHashint 65535 0 = ijonHashint 65535 0 ∧
      (65535#32 = 65535#32 ∧ 0#32 = 0#32) :=
  ⟨by decide, rfl, ijonHashint_collision_free (x := 65535#32) (y := 0#32) (by decide) (by decide)
    (by decide) (by decide) rfl⟩

end AflPlusPlus.Runtime
