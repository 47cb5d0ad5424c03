import AflPlusPlus.Lib.Counting
import Mathlib.Data.Int.CardIntervalMod

/-!
# Counting residues

When the residues modulo `limit` of the numbers below a bound are equally frequent.
-/

namespace Lib

/-- The numbers below `bound` whose residue is `v`. -/
def residueCount (bound limit v : ℕ) : ℕ := Nat.count (fun o => o % limit = v) bound

theorem residueCount_eq {limit v : ℕ} (hv : v < limit) (bound : ℕ) :
    residueCount bound limit v = bound / limit + if v < bound % limit then 1 else 0 := by
  have hcount := Nat.count_modEq_card bound (Nat.zero_lt_of_lt hv) v
  rw [Nat.mod_eq_of_lt hv] at hcount
  rw [← hcount, residueCount]
  simp only [Nat.ModEq, Nat.mod_eq_of_lt hv]

/-- The residues are equally frequent exactly below a multiple of the modulus. -/
theorem residueCount_uniform_iff {bound limit : ℕ} (hlimit : 0 < limit) :
    (∀ v < limit, ∀ v' < limit, residueCount bound limit v = residueCount bound limit v') ↔
      limit ∣ bound := by
  constructor
  · intro h
    by_contra hdvd
    have hpos : 0 < bound % limit :=
      Nat.pos_of_ne_zero fun h0 => hdvd (Nat.dvd_of_mod_eq_zero h0)
    have hlt := Nat.mod_lt bound hlimit
    -- the residue of the bound itself is the first one that comes once less
    have heq := h 0 hlimit (bound % limit) hlt
    rw [residueCount_eq hlimit, residueCount_eq hlt, if_pos hpos, if_neg (Nat.lt_irrefl _)] at heq
    omega
  · intro hdvd v hv v' hv'
    rw [residueCount_eq hv, residueCount_eq hv', Nat.mod_eq_zero_of_dvd hdvd]
    simp

end Lib
