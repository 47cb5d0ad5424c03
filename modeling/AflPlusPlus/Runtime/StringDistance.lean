import AflPlusPlus.Lib.EditDistance
import AflPlusPlus.Lib.Loop
import AflPlusPlus.Lib.Memory

/-!
# Distances of strings and memories for IJON

`ijon_strdist` and `ijon_memdist`. A string is a list of characters without a NUL, a null pointer is
`none`, and the table on the stack starts with whatever the stack holds.
-/

namespace AflPlusPlus.Runtime
open Lib

structure CString where
  chars : List Byte
  noNul : 0 ∉ chars

def CString.strlen (s : CString) : ℕ := s.chars.length

def CString.char (s : CString) (i : ℕ) : Byte := s.chars.getD i 0

abbrev Table := ℕ → ℕ → ℕ

def Table.set (m : Table) (i j x : ℕ) : Table := fun i' j' =>
  if i' = i ∧ j' = j then x else m i' j'

/-- The first row and the first column. -/
def initTable (maxDist : ℕ) (m : Table) : Table :=
  forLoop (maxDist + 1) (fun i m => (m.set i 0 i).set 0 i i) m

def leastOf (deletion insertion substitution : ℕ) : ℕ :=
  if deletion < insertion then
    if deletion < substitution then deletion else substitution
  else
    if insertion < substitution then insertion else substitution

/-- Cell `(i + 1, j + 1)`. -/
def fillCell (a b : CString) (i j : ℕ) (m : Table) : Table :=
  let cost := if a.char i = b.char j then 0 else 1
  let deletion := m i (j + 1) + 1
  let insertion := m (i + 1) j + 1
  let substitution := m i j + cost
  m.set (i + 1) (j + 1) (leastOf deletion insertion substitution)

def fillTable (a b : CString) (maxDist : ℕ) (m : Table) : Table :=
  forLoop (min maxDist a.strlen)
    (fun i m => forLoop (min maxDist b.strlen) (fun j m => fillCell a b i j m) m) m

/-- The byte by byte comparison of long memories. -/
def countDifferences (a b : CString) (maxDist : ℕ) : ℕ :=
  let minLen := min a.strlen b.strlen
  let maxLen := max a.strlen b.strlen
  let differences := forLoop (min minLen maxDist)
    (fun i n => if a.char i ≠ b.char i then n + 1 else n) 0
  let differences := (differences + (maxLen - minLen)) % 2 ^ 32
  if differences > maxDist then maxDist else differences

def ijonMemdist (stack : Table) : Option CString → Option CString → ℕ → ℕ
  | none, none, _ => 0
  | some a, some b, len =>
    if len = 0 then 0
    else
      let maxDist := if len > 1024 then 1024 else len
      if maxDist ≤ 256 then
        fillTable a b maxDist (initTable maxDist stack) (min a.strlen maxDist)
          (min b.strlen maxDist)
      else countDifferences a b maxDist
  | _, _, len => len % 2 ^ 32

def ijonStrdist (stack : Table) : Option CString → Option CString → ℕ
  | none, none => 0
  | none, some b => b.strlen % 2 ^ 32
  | some a, none => a.strlen % 2 ^ 32
  | some a, some b =>
    ijonMemdist stack (some a) (some b) (if a.strlen > b.strlen then a.strlen else b.strlen)

/-! ### The table -/

@[simp]
theorem Table.set_self (m : Table) (i j x : ℕ) : m.set i j x i j = x := if_pos ⟨rfl, rfl⟩

theorem Table.set_of_ne (m : Table) {i j i' j' : ℕ} (x : ℕ) (h : i' ≠ i ∨ j' ≠ j) :
    m.set i j x i' j' = m i' j' := if_neg (by omega)

theorem leastOf_eq (d i s : ℕ) : leastOf d i s = min d (min i s) := by
  rw [leastOf]
  split <;> split <;> omega

/-- The cells `(k, 0)` and `(0, k)` for `k ≤ n`. -/
def HasEdges (n : ℕ) (m : Table) : Prop := ∀ k, k ≤ n → m k 0 = k ∧ m 0 k = k

theorem hasEdges_initTable (n : ℕ) (m : Table) : HasEdges n (initTable n m) := by
  have hloop : ∀ k, k < n + 1 → initTable n m k 0 = k ∧ initTable n m 0 k = k := by
    refine forLoop_induct (fun i (t : Table) => ∀ k, k < i → t k 0 = k ∧ t 0 k = k)
      (fun k hk => absurd hk (by omega)) ?_
    intro i t _ ih k hk
    by_cases hki : k = i
    · subst hki
      refine ⟨?_, Table.set_self _ _ _ _⟩
      by_cases hk0 : k = 0
      · subst hk0
        exact Table.set_self _ _ _ _
      · rw [Table.set_of_ne _ _ (Or.inl hk0), Table.set_self]
    · obtain ⟨hcol, hrow⟩ := ih k (by omega)
      by_cases hk0 : k = 0
      · subst hk0
        rw [Table.set_of_ne _ _ (Or.inr hki), Table.set_of_ne _ _ (Or.inl hki)]
        exact ⟨hcol, hcol⟩
      · rw [Table.set_of_ne _ _ (Or.inl hk0), Table.set_of_ne _ _ (Or.inl hki),
          Table.set_of_ne _ _ (Or.inr hki), Table.set_of_ne _ _ (Or.inr hk0)]
        exact ⟨hcol, hrow⟩
  intro k hk
  exact hloop k (by omega)

/-- The distance of the first `i` characters of `a` from the first `j` characters of `b`. -/
def prefixDistance (a b : CString) (i j : ℕ) : ℕ :=
  levenshtein (a.chars.take i) (b.chars.take j)

theorem take_succ_char (s : CString) {i : ℕ} (hi : i < s.strlen) :
    s.chars.take (i + 1) = s.chars.take i ++ [s.char i] := by
  rw [CString.char, List.getD_eq_getElem?_getD, List.take_add_one, List.getElem?_eq_getElem hi]
  rfl

theorem prefixDistance_succ (a b : CString) {i j : ℕ} (hi : i < a.strlen) (hj : j < b.strlen) :
    prefixDistance a b (i + 1) (j + 1) = min (prefixDistance a b i (j + 1) + 1)
      (min (prefixDistance a b (i + 1) j + 1)
        (prefixDistance a b i j + if a.char i = b.char j then 0 else 1)) := by
  simp only [prefixDistance]
  rw [take_succ_char a hi, take_succ_char b hj, levenshtein_concat]

/-- Before cell `(i + 1, j + 1)` is filled: the rows up to `i` and the first cells of the next one
hold the distances. -/
def FilledTo (a b : CString) (n i j : ℕ) (m : Table) : Prop :=
  HasEdges n m ∧
    (∀ k, k ≤ i → ∀ l, l ≤ min n b.strlen → m k l = prefixDistance a b k l) ∧
    ∀ l, l ≤ j → m (i + 1) l = prefixDistance a b (i + 1) l

theorem FilledTo.fillCell {a b : CString} {n i j : ℕ} {m : Table} (h : FilledTo a b n i j m)
    (hi : i < min n a.strlen) (hj : j < min n b.strlen) :
    FilledTo a b n i (j + 1) (fillCell a b i j m) := by
  obtain ⟨hedge, hrows, hrow⟩ := h
  have hkeep : ∀ k l, k ≠ i + 1 ∨ l ≠ j + 1 → Runtime.fillCell a b i j m k l = m k l :=
    fun k l hne => Table.set_of_ne _ _ hne
  refine ⟨fun k hk => ?_, fun k hk l hl => ?_, fun l hl => ?_⟩
  · rw [hkeep k 0 (Or.inr (by omega)), hkeep 0 k (Or.inl (by omega))]
    exact hedge k hk
  · rw [hkeep k l (Or.inl (by omega))]
    exact hrows k hk l hl
  · by_cases hlj : l = j + 1
    · subst hlj
      rw [Runtime.fillCell, Table.set_self, leastOf_eq, hrows i (Nat.le_refl _) (j + 1) (by omega),
        hrow j (Nat.le_refl _), hrows i (Nat.le_refl _) j (by omega),
        prefixDistance_succ a b (by omega) (by omega)]
    · rw [hkeep _ l (Or.inr hlj)]
      exact hrow l (by omega)

/-- The row after a full one starts with its edge. -/
theorem FilledTo.next {a b : CString} {n i : ℕ} {m : Table}
    (hedge : HasEdges n m) (hi : i < min n a.strlen)
    (hrows : ∀ k, k ≤ i → ∀ l, l ≤ min n b.strlen → m k l = prefixDistance a b k l) :
    FilledTo a b n i 0 m := by
  refine ⟨hedge, hrows, fun l hl => ?_⟩
  obtain rfl : l = 0 := by omega
  have hlen : i + 1 ≤ a.chars.length := by
    have hlt : i < a.strlen := by omega
    exact hlt
  rw [(hedge (i + 1) (by omega)).1, prefixDistance, List.take_zero, levenshtein_nil_right,
    List.length_take]
  omega

theorem fillTable_eq (a b : CString) (n : ℕ) (m : Table) (hedge : HasEdges n m) {i j : ℕ}
    (hi : i ≤ min n a.strlen) (hj : j ≤ min n b.strlen) :
    fillTable a b n m i j = prefixDistance a b i j := by
  have hloop : HasEdges n (fillTable a b n m) ∧
      ∀ k, k ≤ min n a.strlen → ∀ l, l ≤ min n b.strlen →
        fillTable a b n m k l = prefixDistance a b k l := by
    refine forLoop_induct (fun i (t : Table) => HasEdges n t ∧
      ∀ k, k ≤ i → ∀ l, l ≤ min n b.strlen → t k l = prefixDistance a b k l) ⟨hedge, ?_⟩ ?_
    · intro k hk l hl
      obtain rfl : k = 0 := by omega
      have hlen : l ≤ b.chars.length := by
        have hle : l ≤ b.strlen := by omega
        exact hle
      rw [(hedge l (by omega)).2, prefixDistance, List.take_zero, levenshtein_nil_left,
        List.length_take]
      omega
    · rintro i t hi ⟨hedge, hrows⟩
      obtain ⟨hedge', hrows', hrow'⟩ := forLoop_induct (FilledTo a b n i)
        (FilledTo.next hedge hi hrows) (fun j u hj hu => hu.fillCell hi hj)
      refine ⟨hedge', fun k hk l hl => ?_⟩
      by_cases hki : k = i + 1
      · subst hki
        exact hrow' l hl
      · exact hrows' k (by omega) l hl
  exact hloop.2 i hi j hj

/-! ### The distance -/

theorem ijonStrdist_eq (stack : Table) {a b : CString} (ha : a.strlen ≤ 256)
    (hb : b.strlen ≤ 256) :
    ijonStrdist stack (some a) (some b) = levenshtein a.chars b.chars := by
  have hmax : (if a.strlen > b.strlen then a.strlen else b.strlen) = max a.strlen b.strlen := by
    split <;> omega
  have hfull : prefixDistance a b a.strlen b.strlen = levenshtein a.chars b.chars := by
    rw [prefixDistance, CString.strlen, CString.strlen, List.take_length, List.take_length]
  simp only [ijonStrdist, ijonMemdist, hmax]
  by_cases hzero : max a.strlen b.strlen = 0
  · have hanil : a.chars = [] := List.eq_nil_of_length_eq_zero (by
      have h0 : a.strlen = 0 := by omega
      exact h0)
    have hbnil : b.chars = [] := List.eq_nil_of_length_eq_zero (by
      have h0 : b.strlen = 0 := by omega
      exact h0)
    rw [if_pos hzero, hanil, hbnil, levenshtein_self]
  · have hlong : ¬ max a.strlen b.strlen > 1024 := by omega
    have hshort : max a.strlen b.strlen ≤ 256 := by omega
    rw [if_neg hzero, if_neg hlong, if_pos hshort, Nat.min_eq_left (Nat.le_max_left _ _),
      Nat.min_eq_left (Nat.le_max_right _ _),
      fillTable_eq a b _ _ (hasEdges_initTable _ _) (by omega) (by omega), hfull]

/-- On strings of at most 256 characters the distance is the least number of edits that turn one
string into the other, and so it is a metric. -/
theorem ijonStrdist_edit_distance (stack : Table) (a b c : CString) (ha : a.strlen ≤ 256)
    (hb : b.strlen ≤ 256) (hc : c.strlen ≤ 256) :
    IsLeast {n | Edits n a.chars b.chars} (ijonStrdist stack (some a) (some b)) ∧
      (ijonStrdist stack (some a) (some b) = 0 ↔ a = b) ∧
      ijonStrdist stack (some a) (some b) = ijonStrdist stack (some b) (some a) ∧
      ijonStrdist stack (some a) (some c) ≤
        ijonStrdist stack (some a) (some b) + ijonStrdist stack (some b) (some c) := by
  rw [ijonStrdist_eq stack ha hb, ijonStrdist_eq stack hb ha, ijonStrdist_eq stack ha hc,
    ijonStrdist_eq stack hb hc]
  refine ⟨isLeast_levenshtein _ _, ?_, levenshtein_comm _ _, levenshtein_triangle _ _ _⟩
  rw [levenshtein_eq_zero_iff]
  constructor
  · intro h
    cases a
    cases b
    simpa using h
  · rintro rfl
    rfl

theorem ijonStrdist_edit_distance_cat :
    IsLeast {n | Edits n ([99, 97, 116] : List Byte) [99, 117, 116]}
      (ijonStrdist (fun _ _ => 7) (some ⟨[99, 97, 116], by decide⟩)
        (some ⟨[99, 117, 116], by decide⟩)) :=
  (ijonStrdist_edit_distance (fun _ _ => 7) ⟨[99, 97, 116], by decide⟩ ⟨[99, 117, 116], by decide⟩
    ⟨[99, 97, 116], by decide⟩ (by decide) (by decide) (by decide)).1

end AflPlusPlus.Runtime
