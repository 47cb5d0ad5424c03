import Mathlib.Data.List.GetD
import Mathlib.Data.List.TakeWhile
import Mathlib.Data.Nat.Count
import AflPlusPlus.Runtime.StringDistance

/-!
# `ijon_memdist` on blocks of memory

The routine gets a length but looks at its arguments with `strlen` only. A pointer is the list of
the bytes that can be read from it on: a block of `len` bytes is followed by whatever the program
keeps there, and `strlen` runs out of the readable bytes when none of them is zero.
-/

namespace AflPlusPlus.Runtime
open Lib

/-- The characters in front of the first zero byte. -/
def cut (m : List Byte) : List Byte := m.takeWhile (· ≠ 0)

theorem noNul_cut (m : List Byte) : 0 ∉ cut m := by
  intro h
  simpa using List.mem_takeWhile_imp h

/-- The string a pointer stands for, if it ends. -/
def readString (m : List Byte) : Option CString :=
  if 0 ∈ m then some ⟨cut m, noNul_cut m⟩ else none

/-- `ijon_memdist` on two pointers; `none` when `strlen` leaves the readable memory. -/
def ijonMemdistAt (stack : Table) (a b : List Byte) (len : ℕ) : Option ℕ :=
  if len = 0 then ijonMemdist stack none none 0
  else (readString a).bind fun s =>
    (readString b).map fun t => ijonMemdist stack (some s) (some t) len

/-! ### Strings and blocks -/

theorem cut_take (m : List Byte) (n : ℕ) : cut (m.take n) = (cut m).take n :=
  List.take_takeWhile.symm

theorem cut_append_nul {m : List Byte} (h : 0 ∉ m) (r : List Byte) : cut (m ++ 0 :: r) = m := by
  have hall : ∀ x ∈ m, decide (x ≠ 0) = true := by
    intro x hx
    have hne : x ≠ 0 := fun h0 => h (h0 ▸ hx)
    simpa using hne
  rw [cut, List.takeWhile_append_of_pos hall]
  simp

theorem length_cut_lt {m : List Byte} (h : 0 ∈ m) : (cut m).length < m.length := by
  have hle : (cut m).length ≤ m.length := (List.takeWhile_prefix _).length_le
  refine lt_of_le_of_ne hle fun heq => noNul_cut m ?_
  rwa [cut, (List.takeWhile_prefix _).eq_of_length heq]

theorem length_cut_lt_of_block {m : List Byte} {n : ℕ} (h : 0 ∈ m.take n) :
    (cut m).length < n := by
  have hlt := length_cut_lt h
  rw [cut_take, List.length_take, List.length_take] at hlt
  omega

/-- A string that ends within a block is told by the block. -/
theorem cut_eq_of_block {m : List Byte} {n : ℕ} (h : 0 ∈ m.take n) : cut m = cut (m.take n) := by
  rw [cut_take, List.take_of_length_le (length_cut_lt_of_block h).le]

/-! ### The two ways of measuring -/

/-- The places below `n` where two texts differ. -/
def mismatches (x y : List Byte) (n : ℕ) : ℕ := Nat.count (fun i => x.getD i 0 ≠ y.getD i 0) n

theorem mismatches_comm (x y : List Byte) (n : ℕ) : mismatches x y n = mismatches y x n := by
  simp only [mismatches, ne_comm]

theorem forLoop_count (p : ℕ → Prop) [DecidablePred p] (n : ℕ) :
    forLoop n (fun i k => if p i then k + 1 else k) 0 = Nat.count p n := by
  induction n with
  | zero => rw [forLoop_zero, Nat.count_zero]
  | succ n ih =>
    rw [forLoop_succ, ih, Nat.count_succ]
    split <;> rfl

/-- What the long branch returns: at most `cap`, and the count wraps around before it is capped. -/
def cappedDifferences (x y : List Byte) (cap : ℕ) : ℕ :=
  min cap ((mismatches x y (min (min x.length y.length) cap) +
    (max x.length y.length - min x.length y.length)) % 2 ^ 32)

theorem cappedDifferences_comm (x y : List Byte) (cap : ℕ) :
    cappedDifferences x y cap = cappedDifferences y x cap := by
  rw [cappedDifferences, cappedDifferences, mismatches_comm, min_comm x.length, max_comm x.length]

theorem ijonMemdist_short (stack : Table) (s t : CString) {len : ℕ} (hpos : len ≠ 0)
    (hlen : len ≤ 256) :
    ijonMemdist stack (some s) (some t) len =
      levenshtein (s.chars.take len) (t.chars.take len) := by
  have htake : ∀ u : CString, u.chars.take (min u.strlen len) = u.chars.take len := by
    intro u
    rw [CString.strlen, Nat.min_comm, ← List.take_take, List.take_length]
  have hcap : (if len > 1024 then 1024 else len) = len := if_neg (by omega)
  simp only [ijonMemdist, hcap]
  rw [if_neg hpos, if_pos hlen, fillTable_eq s t _ _ (hasEdges_initTable _ _) (by omega)
    (by omega), prefixDistance, htake, htake]

theorem ijonMemdist_long (stack : Table) (s t : CString) {len : ℕ} (hlen : 256 < len) :
    ijonMemdist stack (some s) (some t) len =
      cappedDifferences s.chars t.chars (min len 1024) := by
  have hcap : (if len > 1024 then 1024 else len) = min len 1024 := by
    split <;> omega
  simp only [ijonMemdist, hcap]
  rw [if_neg (by omega), if_neg (by omega)]
  have hleast : ∀ n c : ℕ, (if n > c then c else n) = min c n := by
    intro n c
    split <;> omega
  simp only [countDifferences, forLoop_count]
  exact hleast _ _

theorem ijonMemdistAt_eq (stack : Table) (a b : List Byte) {len : ℕ} (hpos : len ≠ 0) :
    ijonMemdistAt stack a b len = if 0 ∈ a ∧ 0 ∈ b then some (ijonMemdist stack
      (some ⟨cut a, noNul_cut a⟩) (some ⟨cut b, noNul_cut b⟩) len) else none := by
  rw [ijonMemdistAt, if_neg hpos]
  by_cases ha : 0 ∈ a
  · by_cases hb : 0 ∈ b
    · rw [readString, readString, if_pos ha, if_pos hb, if_pos ⟨ha, hb⟩]
      rfl
    · rw [if_neg fun h => hb h.2, readString, readString, if_pos ha, if_neg hb]
      rfl
  · rw [if_neg fun h => ha h.1, readString, if_neg ha]
    rfl

theorem ijonMemdistAt_short (stack : Table) (a b : List Byte) {len : ℕ} (hpos : len ≠ 0)
    (hlen : len ≤ 256) :
    ijonMemdistAt stack a b len = if 0 ∈ a ∧ 0 ∈ b then
      some (levenshtein (cut (a.take len)) (cut (b.take len))) else none := by
  rw [ijonMemdistAt_eq stack a b hpos, ijonMemdist_short stack _ _ hpos hlen, cut_take, cut_take]

theorem ijonMemdistAt_long (stack : Table) (a b : List Byte) {len : ℕ} (hlen : 256 < len) :
    ijonMemdistAt stack a b len = if 0 ∈ a ∧ 0 ∈ b then
      some (cappedDifferences (cut a) (cut b) (min len 1024)) else none := by
  rw [ijonMemdistAt_eq stack a b (by omega), ijonMemdist_long stack _ _ hlen]

theorem ijonMemdistAt_comm (stack : Table) (a b : List Byte) {len : ℕ} (hlen : 256 < len) :
    ijonMemdistAt stack a b len = ijonMemdistAt stack b a len := by
  rw [ijonMemdistAt_long stack a b hlen, ijonMemdistAt_long stack b a hlen,
    cappedDifferences_comm]
  exact if_congr and_comm rfl rfl

/-! ### A long block without a zero byte -/

/-- What stands behind such a block can make the distance any number up to the cap. -/
theorem exists_tail {a b : List Byte} {len v : ℕ} (stack : Table) (hlen : 256 < len) (ha : 0 ∈ a)
    (hb : 0 ∉ b.take len) (hblen : len ≤ b.length) (hv : v ≤ min len 1024) :
    ∃ b', b'.take len = b.take len ∧ ijonMemdistAt stack a b' len = some v := by
  have htake : (b.take len).length = len := by
    rw [List.length_take]
    omega
  -- the string at `b` is made the longer one by `r` characters
  let long := max len (cut a).length
  let still := mismatches (cut a) (b.take len) (min (cut a).length (min len 1024))
  let gap := still + (long - (cut a).length)
  let r := 2 ^ 32 - gap % 2 ^ 32 + v
  let text := b.take len ++ List.replicate (long - len + r) 1
  have htext : 0 ∉ text := by
    intro h
    rcases List.mem_append.mp h with h | h
    · exact hb h
    · exact absurd (List.eq_of_mem_replicate h) (by decide)
  have hsize : text.length = long + r := by
    simp only [text, List.length_append, htake, List.length_replicate]
    omega
  have hsame : mismatches (cut a) text (min (cut a).length (min len 1024)) = still := by
    refine le_antisymm (Nat.count_mono_left fun i hi => ?_) (Nat.count_mono_left fun i hi => ?_)
    all_goals
      rw [List.getD_append _ _ _ _ (by omega)]
      exact id
  refine ⟨text ++ [0], ?_, ?_⟩
  · rw [List.append_assoc, List.take_left' htake]
  · have hmin : min (min (cut a).length (long + r)) (min len 1024) =
        min (cut a).length (min len 1024) := by omega
    rw [ijonMemdistAt_long stack _ _ hlen, if_pos ⟨ha, by simp⟩, cut_append_nul htext,
      cappedDifferences, hsize, hmin, hsame]
    have hwrap :
        (still + (max (cut a).length (long + r) - min (cut a).length (long + r))) % 2 ^ 32 =
        v := by
      have hgap : still + (max (cut a).length (long + r) - min (cut a).length (long + r)) =
          gap + r := by omega
      rw [hgap]
      omega
    rw [hwrap, Nat.min_eq_right hv]

/-! ### When it measures the blocks -/

/-- The distance of the blocks is defined, zero exactly for equal blocks, and the same whatever else
is in memory. -/
def BlockDistance (stack : Table) (a b : List Byte) (len : ℕ) : Prop :=
  ∃ d, ijonMemdistAt stack a b len = some d ∧ (d = 0 ↔ a.take len = b.take len) ∧
    ∀ stack' a' b' d', a'.take len = a.take len → b'.take len = b.take len →
      ijonMemdistAt stack' a' b' len = some d' → d' = d

/-- The differing characters among the first 1024 and the difference of the lengths. -/
def differences (x y : List Byte) : ℕ :=
  mismatches x y (min (min x.length y.length) 1024) +
    (max x.length y.length - min x.length y.length)

/-- The blocks are strings for all that matters: both pointers lead to a zero byte, blocks of more
than 256 bytes contain it, and blocks whose strings are not told apart are equal. -/
def ReadsAsStrings (a b : List Byte) (len : ℕ) : Prop :=
  len = 0 ∨ 0 ∈ a ∧ 0 ∈ b ∧
    if len ≤ 256 then cut (a.take len) = cut (b.take len) → a.take len = b.take len
    else 0 ∈ a.take len ∧ 0 ∈ b.take len ∧
      (2 ^ 32 ∣ differences (cut (a.take len)) (cut (b.take len)) → a.take len = b.take len)

theorem cappedDifferences_eq_zero_iff {a b : List Byte} {len : ℕ} (hlen : 256 < len)
    (ha : 0 ∈ a.take len) (hb : 0 ∈ b.take len) :
    cappedDifferences (cut a) (cut b) (min len 1024) = 0 ↔
      2 ^ 32 ∣ differences (cut (a.take len)) (cut (b.take len)) := by
  have hla := length_cut_lt_of_block ha
  have hlb := length_cut_lt_of_block hb
  have hmin : min (min (cut a).length (cut b).length) (min len 1024) =
      min (min (cut a).length (cut b).length) 1024 := by omega
  rw [← cut_eq_of_block ha, ← cut_eq_of_block hb, cappedDifferences, hmin, differences,
    Nat.dvd_iff_mod_eq_zero]
  omega

theorem differences_self (x : List Byte) : differences x x = 0 := by
  have hcount : mismatches x x (min (min x.length x.length) 1024) = 0 :=
    Nat.count_iff_forall_not.mpr fun _ _ h => h rfl
  rw [differences, hcount]
  omega

theorem blockDistance_short (stack : Table) {a b : List Byte} {len : ℕ} (hpos : len ≠ 0)
    (hlen : len ≤ 256) :
    BlockDistance stack a b len ↔ 0 ∈ a ∧ 0 ∈ b ∧
      (cut (a.take len) = cut (b.take len) → a.take len = b.take len) := by
  rw [BlockDistance]
  simp only [ijonMemdistAt_short _ _ _ hpos hlen]
  constructor
  · rintro ⟨d, hd, hzero, -⟩
    split at hd
    · rename_i hnul
      obtain rfl := Option.some.inj hd
      rw [levenshtein_eq_zero_iff] at hzero
      exact ⟨hnul.1, hnul.2, hzero.mp⟩
    · exact absurd hd (by simp)
  · rintro ⟨ha, hb, heq⟩
    refine ⟨_, if_pos ⟨ha, hb⟩, ?_, ?_⟩
    · rw [levenshtein_eq_zero_iff]
      exact ⟨heq, fun h => by rw [h]⟩
    · intro _ a' b' d' ha' hb' hd'
      split at hd'
      · rw [← Option.some.inj hd', ha', hb']
      · exact absurd hd' (by simp)

theorem blockDistance_long (stack : Table) {a b : List Byte} {len : ℕ} (hlen : 256 < len)
    (hla : len ≤ a.length) (hlb : len ≤ b.length) :
    BlockDistance stack a b len ↔ 0 ∈ a.take len ∧ 0 ∈ b.take len ∧
      (2 ^ 32 ∣ differences (cut (a.take len)) (cut (b.take len)) → a.take len = b.take len) := by
  constructor
  · rintro ⟨d, hd, hzero, hsame⟩
    have hnul : 0 ∈ a ∧ 0 ∈ b := by
      by_contra hno
      rw [ijonMemdistAt_long _ _ _ hlen, if_neg hno] at hd
      exact absurd hd (by simp)
    -- otherwise the memory behind the block decides between the distances 0 and 1
    have hb : 0 ∈ b.take len := by
      by_contra hno
      obtain ⟨b₀, hb₀, h₀⟩ := exists_tail (v := 0) stack hlen hnul.1 hno hlb (by omega)
      obtain ⟨b₁, hb₁, h₁⟩ := exists_tail (v := 1) stack hlen hnul.1 hno hlb (by omega)
      have h0 := hsame stack a b₀ 0 rfl hb₀ h₀
      have h1 := hsame stack a b₁ 1 rfl hb₁ h₁
      omega
    have ha : 0 ∈ a.take len := by
      by_contra hno
      obtain ⟨a₀, ha₀, h₀⟩ := exists_tail (v := 0) stack hlen hnul.2 hno hla (by omega)
      obtain ⟨a₁, ha₁, h₁⟩ := exists_tail (v := 1) stack hlen hnul.2 hno hla (by omega)
      rw [ijonMemdistAt_comm _ _ _ hlen] at h₀ h₁
      have h0 := hsame stack a₀ b 0 ha₀ rfl h₀
      have h1 := hsame stack a₁ b 1 ha₁ rfl h₁
      omega
    rw [ijonMemdistAt_long _ _ _ hlen, if_pos hnul] at hd
    obtain rfl := Option.some.inj hd
    rw [cappedDifferences_eq_zero_iff hlen ha hb] at hzero
    exact ⟨ha, hb, hzero.mp⟩
  · rintro ⟨ha, hb, heq⟩
    refine ⟨cappedDifferences (cut a) (cut b) (min len 1024), ?_, ?_, ?_⟩
    · rw [ijonMemdistAt_long _ _ _ hlen,
        if_pos ⟨List.mem_of_mem_take ha, List.mem_of_mem_take hb⟩]
    · rw [cappedDifferences_eq_zero_iff hlen ha hb]
      refine ⟨heq, fun h => ?_⟩
      rw [h, differences_self]
      exact ⟨0, rfl⟩
    · intro stack' a' b' d' ha' hb' hd'
      rw [ijonMemdistAt_long _ _ _ hlen] at hd'
      split at hd'
      · rw [← Option.some.inj hd', cut_eq_of_block ha, cut_eq_of_block hb, ← ha', ← hb',
          ← cut_eq_of_block (ha' ▸ ha), ← cut_eq_of_block (hb' ▸ hb)]
      · exact absurd hd' (by simp)

/-- `ijon_memdist` measures the blocks exactly when they read as strings. -/
theorem blockDistance_iff (stack : Table) {a b : List Byte} {len : ℕ} (ha : len ≤ a.length)
    (hb : len ≤ b.length) : BlockDistance stack a b len ↔ ReadsAsStrings a b len := by
  rw [ReadsAsStrings]
  by_cases hpos : len = 0
  · subst hpos
    refine iff_of_true ⟨0, rfl, by simp, ?_⟩ (Or.inl rfl)
    intro stack' a' b' d' _ _ hd'
    exact (Option.some.inj hd').symm
  · rw [or_iff_right hpos]
    by_cases hlen : len ≤ 256
    · rw [if_pos hlen]
      exact blockDistance_short stack hpos hlen
    · rw [if_neg hlen, blockDistance_long stack (by omega) ha hb]
      exact ⟨fun h => ⟨List.mem_of_mem_take h.1, List.mem_of_mem_take h.2.1, h⟩, fun h => h.2.2⟩

theorem blockDistance_iff_ab :
    2 ≤ [97, 98, 0].length ∧ (BlockDistance (fun _ _ => 7) [97, 98, 0] [97, 99, 0] 2 ↔
      ReadsAsStrings [97, 98, 0] [97, 99, 0] 2) :=
  ⟨by decide, blockDistance_iff (fun _ _ => 7) (by decide) (by decide)⟩

/-- Two blocks that differ behind a zero byte have the distance zero. -/
theorem not_blockDistance_zero_byte : ¬ BlockDistance (fun _ _ => 7) [0, 1] [0, 2] 2 := by
  rintro ⟨d, hd, hzero, -⟩
  rw [ijonMemdistAt_short _ _ _ (by decide) (by decide), if_pos (by decide)] at hd
  have hcut : cut ([0, 1].take 2) = cut ([0, 2].take 2) := by decide
  rw [hcut, levenshtein_self] at hd
  exact absurd (hzero.mp (Option.some.inj hd).symm) (by decide)

end AflPlusPlus.Runtime
