import AflPlusPlus.Lib.Residues
import AflPlusPlus.Mutation.Values
import AflPlusPlus.Queue.State

/-!
# The random numbers of the fuzzer

`rand_next` of `afl-performance.c` for both word sizes and `rand_below` of `afl-fuzz.h`, with the
state of the generator and the reads of `/dev/urandom`.
-/

namespace AflPlusPlus.Random
open Lib

inductive WordSize
  | w64
  | w32
deriving DecidableEq

/-- The width of `AFL_RAND_RETURN`. -/
def WordSize.bits : WordSize → ℕ
  | .w64 => 64
  | .w32 => 32

/-- The fields of `afl_state_t` that belong to the generator. -/
structure Rng (w : ℕ) where
  randSeed : Fin 3 → BitVec w
  randCnt : BitVec 32
  fixedSeed : Bool

def reseedRng : ℕ := 2500000

def rotl {w : ℕ} (d : BitVec w) (lrot : ℕ) : BitVec w := (d <<< lrot) ||| (d >>> (w - lrot))

def romuDuoJr (afl : Rng 64) : BitVec 64 × Rng 64 :=
  let xp := afl.randSeed 0
  let seed := Function.update afl.randSeed 0 (15241094284759029579#64 * afl.randSeed 1)
  let seed := Function.update seed 1 (seed 1 - xp)
  let seed := Function.update seed 1 (rotl (seed 1) 27)
  (xp, { afl with randSeed := seed })

def romuTrio32 (afl : Rng 32) : BitVec 32 × Rng 32 :=
  let xp := afl.randSeed 0
  let yp := afl.randSeed 1
  let zp := afl.randSeed 2
  let seed := Function.update afl.randSeed 0 (3323815723#32 * zp)
  let seed := Function.update seed 1 (yp - xp)
  let seed := Function.update seed 1 (rotl (seed 1) 6)
  let seed := Function.update seed 2 (zp - yp)
  let seed := Function.update seed 2 (rotl (seed 2) 22)
  (xp, { afl with randSeed := seed })

def randNext : (w : WordSize) → Rng w.bits → BitVec w.bits × Rng w.bits
  | .w64 => romuDuoJr
  | .w32 => romuTrio32

section RandBelow

variable {w : WordSize}

/-- `if (!afl->rand_cnt-- && !afl->fixed_seed) { … }`, where the read returns `urandom`. -/
def reseed (urandom : Fin 3 → BitVec w.bits) (afl : Rng w.bits) : Rng w.bits :=
  let out := afl.randCnt = 0
  let afl := { afl with randCnt := afl.randCnt - 1 }
  if out ∧ afl.fixedSeed = false then
    { afl with
      randSeed := urandom
      randCnt := BitVec.ofNat 32 (reseedRng / 2 + (urandom 1).toNat % reseedRng) }
  else afl

/-- `UINT64_MAX - (UINT64_MAX % limit)`. -/
def boundary (limit : BitVec 32) : BitVec 64 :=
  let u64Max := BitVec.allOnes 64
  u64Max - u64Max % limit.setWidth 64

/-- What one output of the generator gives, unless the loop goes on. -/
def drawn (limit : BitVec 32) (unbiasedRnd : BitVec 64) : Option (BitVec 32) :=
  if unbiasedRnd ≥ boundary limit then none
  else some ((unbiasedRnd % limit.setWidth 64).setWidth 32)

/-- `do { unbiased_rnd = rand_next(afl); } while (…); return unbiased_rnd % limit;`, with at most
`fuel` outputs. -/
def drawLoop (w : WordSize) (limit : BitVec 32) : ℕ → Rng w.bits → Option (BitVec 32 × Rng w.bits)
  | 0, _ => none
  | fuel + 1, afl =>
    let out := randNext w afl
    (drawn limit (out.1.setWidth 64)).elim (drawLoop w limit fuel out.2) fun r => some (r, out.2)

def randBelow (w : WordSize) (urandom : Fin 3 → BitVec w.bits) (fuel : ℕ) (limit : BitVec 32)
    (afl : Rng w.bits) : Option (BitVec 32 × Rng w.bits) :=
  if limit.toNat ≤ 1 then some (0, afl) else drawLoop w limit fuel (reseed urandom afl)

end RandBelow

/-! ### What is claimed of it -/

/-- The outputs of the generator, one after the other, as `unbiased_rnd` holds them. -/
def outputs (w : WordSize) (afl : Rng w.bits) : ℕ → BitVec 64
  | 0 => (randNext w afl).1.setWidth 64
  | k + 1 => outputs w (randNext w afl).2 k

theorem outputs_zero (w : WordSize) (afl : Rng w.bits) :
    outputs w afl 0 = (randNext w afl).1.setWidth 64 := rfl

theorem outputs_succ (w : WordSize) (afl : Rng w.bits) (k : ℕ) :
    outputs w afl (k + 1) = outputs w (randNext w afl).2 k := rfl

/-- Output `k` is the first one that the loop accepts, and gives `r`. -/
def FirstDrawn (w : WordSize) (limit : BitVec 32) (afl : Rng w.bits) (k : ℕ) (r : BitVec 32) :
    Prop :=
  drawn limit (outputs w afl k) = some r ∧ ∀ j < k, drawn limit (outputs w afl j) = none

/-- The outputs of the generator that give `v`. -/
def drawsOf (w : WordSize) (limit : BitVec 32) (v : ℕ) : ℕ :=
  Nat.count (fun o => drawn limit (BitVec.ofNat 64 o) = some (BitVec.ofNat 32 v)) (2 ^ w.bits)

structure UniformDraws (w : WordSize) (limit : BitVec 32) : Prop where
  returns : ∀ urandom afl, limit.toNat ≤ 1 ∨
    (∃ k, (drawn limit (outputs w (reseed urandom afl) k)).isSome = true) →
      ∃ fuel r afl', randBelow w urandom fuel limit afl = some (r, afl')
  below : ∀ urandom afl fuel r afl', randBelow w urandom fuel limit afl = some (r, afl') →
    r.toNat < max limit.toNat 1
  first : ∀ urandom afl fuel r afl', 1 < limit.toNat →
    randBelow w urandom fuel limit afl = some (r, afl') →
      ∃ k < fuel, FirstDrawn w limit (reseed urandom afl) k r
  equallyOften : ∀ v < limit.toNat, ∀ v' < limit.toNat, drawsOf w limit v = drawsOf w limit v'

/-! ### One output -/

section Drawn

variable {limit : BitVec 32}

theorem toNat_boundary (limit : BitVec 32) :
    (boundary limit).toNat = (2 ^ 64 - 1) - (2 ^ 64 - 1) % limit.toNat := by
  have hlimit : (limit.setWidth 64).toNat = limit.toNat :=
    BitVec.toNat_setWidth_of_le (by decide)
  have hle : BitVec.allOnes 64 % limit.setWidth 64 ≤ BitVec.allOnes 64 := by
    rw [BitVec.le_def, BitVec.toNat_umod]
    exact Nat.mod_le _ _
  rw [boundary, BitVec.toNat_sub_of_le hle, BitVec.toNat_umod, BitVec.toNat_allOnes, hlimit]

theorem dvd_boundary (limit : BitVec 32) : limit.toNat ∣ (boundary limit).toNat := by
  rw [toNat_boundary]
  exact Nat.dvd_sub_mod _

/-- Fewer than `limit` of the words of 64 bits are refused. -/
theorem lt_boundary_add (h : 0 < limit.toNat) : 2 ^ 64 ≤ (boundary limit).toNat + limit.toNat := by
  rw [toNat_boundary]
  have hlt := Nat.mod_lt (2 ^ 64 - 1) h
  omega

theorem drawn_eq_some_iff {x : BitVec 64} {r : BitVec 32} (h : 0 < limit.toNat) :
    drawn limit x = some r ↔
      x.toNat < (boundary limit).toNat ∧ x.toNat % limit.toNat = r.toNat := by
  have hrem : ((x % limit.setWidth 64).setWidth 32).toNat = x.toNat % limit.toNat := by
    have hlt := Nat.mod_lt x.toNat h
    rw [BitVec.toNat_setWidth, BitVec.toNat_umod, BitVec.toNat_setWidth_of_le (by decide),
      Nat.mod_eq_of_lt (lt_trans hlt limit.isLt)]
  rw [drawn]
  split
  · next hge =>
    constructor
    · intro hnone
      cases hnone
    · intro hlt
      exact absurd hlt.1 (Nat.not_lt.mpr hge)
  · next hge =>
    rw [Option.some_inj, ← BitVec.toNat_inj, hrem]
    exact ⟨fun hr => ⟨Nat.lt_of_not_le hge, hr⟩, fun hr => hr.2⟩

theorem drawn_isSome_iff {x : BitVec 64} :
    (drawn limit x).isSome = true ↔ x.toNat < (boundary limit).toNat := by
  rw [drawn]
  split
  · next hge =>
    have hnot : ¬ x.toNat < (boundary limit).toNat := Nat.not_lt.mpr hge
    simp [hnot]
  · next hge =>
    have hlt : x.toNat < (boundary limit).toNat := Nat.lt_of_not_le hge
    simp [hlt]

end Drawn

/-! ### The loop -/

section Loop

variable {w : WordSize} {limit : BitVec 32}

theorem FirstDrawn.succ {afl : Rng w.bits} {k : ℕ} {r : BitVec 32}
    (hnone : drawn limit (outputs w afl 0) = none)
    (h : FirstDrawn w limit (randNext w afl).2 k r) : FirstDrawn w limit afl (k + 1) r := by
  refine ⟨?_, ?_⟩
  · rw [outputs_succ]
    exact h.1
  · rintro (_ | j) hj
    · exact hnone
    · rw [outputs_succ]
      exact h.2 j (by omega)

/-- What the loop returns comes from the first output that it accepts. -/
theorem firstDrawn_of_drawLoop {fuel : ℕ} {afl afl' : Rng w.bits} {r : BitVec 32}
    (h : drawLoop w limit fuel afl = some (r, afl')) : ∃ k < fuel, FirstDrawn w limit afl k r := by
  induction fuel generalizing afl with
  | zero => cases h
  | succ fuel ih =>
    rw [drawLoop, ← outputs_zero] at h
    cases hd : drawn limit (outputs w afl 0) with
    | some r' =>
      rw [hd] at h
      obtain ⟨rfl, -⟩ := Prod.mk.inj (Option.some.inj h)
      exact ⟨0, by omega, hd, fun j hj => absurd hj (Nat.not_lt_zero j)⟩
    | none =>
      rw [hd] at h
      obtain ⟨k, hk, hfirst⟩ := ih h
      exact ⟨k + 1, by omega, hfirst.succ hd⟩

/-- It ends as soon as the generator has such an output. -/
theorem drawLoop_returns {k : ℕ} {afl : Rng w.bits}
    (h : (drawn limit (outputs w afl k)).isSome = true) :
    ∃ fuel r afl', drawLoop w limit fuel afl = some (r, afl') := by
  induction k generalizing afl with
  | zero =>
    obtain ⟨r, hr⟩ := Option.isSome_iff_exists.mp h
    refine ⟨1, r, (randNext w afl).2, ?_⟩
    rw [drawLoop, ← outputs_zero, hr, Option.elim_some]
  | succ k ih =>
    rw [outputs_succ] at h
    obtain ⟨fuel, r, afl', hloop⟩ := ih h
    cases hd : drawn limit (outputs w afl 0) with
    | some r' =>
      refine ⟨1, r', (randNext w afl).2, ?_⟩
      rw [drawLoop, ← outputs_zero, hd, Option.elim_some]
    | none =>
      refine ⟨fuel + 1, r, afl', ?_⟩
      rw [drawLoop, ← outputs_zero, hd, Option.elim_none, hloop]

/-- The next outputs as a list, the form in which the mutation stages are given their draws. -/
def draws (w : WordSize) (afl : Rng w.bits) : ℕ → Mutation.Draws
  | 0 => []
  | n + 1 => (randNext w afl).1.setWidth 64 :: draws w (randNext w afl).2 n

/-- The loop of the mutation stages, on what the generator returns. -/
theorem unbiased_draws (h : 0 < limit.toNat) (n : ℕ) (afl : Rng w.bits) :
    (Mutation.unbiased limit.toNat (draws w afl n)).map Prod.fst =
      (drawLoop w limit n afl).map fun res => res.1.toNat := by
  have hboundary : Mutation.u64Max - Mutation.u64Max % limit.toNat = (boundary limit).toNat := by
    rw [toNat_boundary, Mutation.u64Max]
  induction n generalizing afl with
  | zero => rfl
  | succ n ih =>
    rw [draws, Mutation.unbiased, drawLoop, hboundary]
    by_cases hlt : ((randNext w afl).1.setWidth 64).toNat < (boundary limit).toNat
    · obtain ⟨r, hr⟩ := Option.isSome_iff_exists.mp (drawn_isSome_iff.mpr hlt)
      have hrem := ((drawn_eq_some_iff h).mp hr).2
      rw [if_neg (Nat.not_le.mpr hlt), hr, hrem]
      rfl
    · have hnone : drawn limit ((randNext w afl).1.setWidth 64) = none := by
        rw [← Option.not_isSome_iff_eq_none, drawn_isSome_iff]
        exact hlt
      rw [if_pos (Nat.le_of_not_lt hlt), hnone, Option.elim_none]
      exact ih _

/-- The `rand_below` that takes its draws from a list. -/
theorem randBelow_draws (urandom : Fin 3 → BitVec w.bits) (n : ℕ) (afl : Rng w.bits) :
    (Mutation.randBelow limit.toNat (draws w (reseed urandom afl) n)).map Prod.fst =
      (randBelow w urandom n limit afl).map fun res => res.1.toNat := by
  rw [Mutation.randBelow, randBelow]
  split
  · rfl
  · exact unbiased_draws (by omega) n _

/-- The `rand_below` that is given the output which the loop accepts. -/
theorem exists_randBelow_eq {urandom : Fin 3 → BitVec w.bits} {fuel : ℕ} {afl afl' : Rng w.bits}
    {r : BitVec 32} (h : randBelow w urandom fuel limit afl = some (r, afl')) :
    ∃ k, r.toNat = AflPlusPlus.randBelow (outputs w (reseed urandom afl) k).toNat limit.toNat := by
  rw [randBelow] at h
  split at h
  · next hone =>
    obtain ⟨rfl, -⟩ := Prod.mk.inj (Option.some.inj h)
    exact ⟨0, (if_pos hone).symm⟩
  · next hone =>
    obtain ⟨k, -, hfirst⟩ := firstDrawn_of_drawLoop h
    exact ⟨k, ((drawn_eq_some_iff (by omega)).mp hfirst.1).2.symm.trans (if_neg hone).symm⟩

/-- Every output of the small generator is accepted. -/
theorem drawn_isSome_w32 (h : 0 < limit.toNat) (afl : Rng WordSize.w32.bits) (k : ℕ) :
    (drawn limit (outputs .w32 afl k)).isSome = true := by
  induction k generalizing afl with
  | zero =>
    rw [drawn_isSome_iff, outputs_zero]
    have hout : (randNext .w32 afl).1.toNat < 2 ^ 32 := (randNext .w32 afl).1.isLt
    have hwidth := BitVec.toNat_setWidth_of_le (b := (randNext .w32 afl).1)
      (show WordSize.bits .w32 ≤ 64 by decide)
    have hmany := lt_boundary_add h
    have hlimit := limit.isLt
    rw [hwidth]
    omega
  | succ k ih =>
    rw [outputs_succ]
    exact ih _

end Loop

/-! ### Uniformity -/

section Uniform

variable {limit : BitVec 32} (w : WordSize)

theorem bits_le (w : WordSize) : w.bits ≤ 64 := by cases w <;> decide

theorem drawsOf_eq (h : 0 < limit.toNat) {v : ℕ} (hv : v < limit.toNat) :
    drawsOf w limit v = residueCount (min (boundary limit).toNat (2 ^ w.bits)) limit.toNat v := by
  have hv32 : v % 2 ^ 32 = v := Nat.mod_eq_of_lt (lt_trans hv limit.isLt)
  rw [residueCount, ← count_lt_and, drawsOf]
  apply count_congr
  intro o ho
  have hpow : 2 ^ w.bits ≤ 2 ^ 64 := Nat.pow_le_pow_right (by decide) (bits_le w)
  have ho64 : o % 2 ^ 64 = o := Nat.mod_eq_of_lt (lt_of_lt_of_le ho hpow)
  rw [drawn_eq_some_iff h, BitVec.toNat_ofNat, BitVec.toNat_ofNat, ho64, hv32]

/-- The outputs that can be accepted are a multiple of the limit in the large generator, and all of
them in the small one. -/
theorem dvd_accepted_iff (h : 0 < limit.toNat) :
    limit.toNat ∣ min (boundary limit).toNat (2 ^ w.bits) ↔
      w = .w64 ∨ limit.toNat ∣ 2 ^ 32 := by
  cases w with
  | w64 =>
    rw [WordSize.bits, Nat.min_eq_left (boundary limit).isLt.le]
    exact ⟨fun _ => Or.inl rfl, fun _ => dvd_boundary limit⟩
  | w32 =>
    have hmany := lt_boundary_add h
    have hlimit := limit.isLt
    rw [WordSize.bits, Nat.min_eq_right (by omega)]
    exact ⟨Or.inr, fun hor => hor.resolve_left (by decide)⟩

theorem equallyOften_iff (h : 0 < limit.toNat) :
    (∀ v < limit.toNat, ∀ v' < limit.toNat, drawsOf w limit v = drawsOf w limit v') ↔
      w = .w64 ∨ limit.toNat ∣ 2 ^ 32 := by
  rw [← dvd_accepted_iff w h, ← residueCount_uniform_iff h]
  constructor
  · intro hall v hv v' hv'
    rw [← drawsOf_eq w h hv, ← drawsOf_eq w h hv', hall v hv v' hv']
  · intro hall v hv v' hv'
    rw [drawsOf_eq w h hv, drawsOf_eq w h hv', hall v hv v' hv']

end Uniform

/-- Only the large generator gives uniform draws for every limit: the boundary is one of 64 bits,
and no output of 32 bits reaches it. -/
theorem uniformDraws_iff (w : WordSize) {limit : BitVec 32} (h : 1 ≤ limit.toNat) :
    UniformDraws w limit ↔ w = .w64 ∨ limit.toNat ∣ 2 ^ 32 := by
  constructor
  · intro hu
    exact (equallyOften_iff w h).mp hu.equallyOften
  · intro hdvd
    have hfirst (urandom afl fuel r afl') (hlimit : 1 < limit.toNat)
        (hr : randBelow w urandom fuel limit afl = some (r, afl')) :
        ∃ k < fuel, FirstDrawn w limit (reseed urandom afl) k r := by
      rw [randBelow, if_neg (Nat.not_le.mpr hlimit)] at hr
      exact firstDrawn_of_drawLoop hr
    refine ⟨?_, ?_, hfirst, (equallyOften_iff w h).mpr hdvd⟩
    · intro urandom afl hsome
      by_cases hlimit : limit.toNat ≤ 1
      · exact ⟨0, 0, afl, by rw [randBelow, if_pos hlimit]⟩
      · obtain ⟨k, hk⟩ := hsome.resolve_left hlimit
        obtain ⟨fuel, r, afl', hloop⟩ := drawLoop_returns hk
        exact ⟨fuel, r, afl', by rw [randBelow, if_neg hlimit, hloop]⟩
    · intro urandom afl fuel r afl' hr
      by_cases hlimit : limit.toNat ≤ 1
      · rw [randBelow, if_pos hlimit] at hr
        obtain ⟨rfl, -⟩ := Prod.mk.inj (Option.some.inj hr)
        exact lt_of_lt_of_le (by decide) (Nat.le_max_right _ _)
      · obtain ⟨k, -, hk, -⟩ := hfirst urandom afl fuel r afl' (by omega) hr
        rw [drawn_eq_some_iff h] at hk
        rw [← hk.2]
        exact lt_of_lt_of_le (Nat.mod_lt _ h) (Nat.le_max_left _ _)

theorem uniformDraws_ten : UniformDraws .w64 10 :=
  (uniformDraws_iff .w64 (by decide)).mpr (Or.inl rfl)

/-- A draw below three on a machine of 32 bits. -/
theorem not_uniformDraws_three : ¬ UniformDraws .w32 3 := by
  intro h
  have hdvd := (equallyOften_iff .w32 (show 1 ≤ (3 : BitVec 32).toNat by decide)).mp h.equallyOften
  exact absurd hdvd (by decide)

end AflPlusPlus.Random
