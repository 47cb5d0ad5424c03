import AflPlusPlus.Dict.Extras
import AflPlusPlus.Mutation.Overwrite
import Mathlib.Data.List.Induction
import Mathlib.Logic.Relation

/-!
# The tokens of the user

`dedup_extras`, `add_extra`, `deunicode_extras` and the loading of dictionaries. The scans for
duplicates stop at the first token of another length, so each of the operations has to leave the
tokens sorted by their lengths.
-/

namespace AflPlusPlus.Dict
open Lib Mutation

/-! ### The operations -/

/-- The loop over `j` and the `goto` in it. -/
def dedupAgainst (i : ℕ) : ℕ → ℕ → List (List Byte) → Option (List (List Byte))
  | 0, _, _ => none
  | fuel + 1, j, extras =>
    if j ≥ extras.length then some extras
    else do
      let a ← extras[i]?
      let b ← extras[j]?
      if a.length ≠ b.length then return extras
      else if a = b then dedupAgainst i fuel j (extras.eraseIdx j)
      else dedupAgainst i fuel (j + 1) extras

def dedupFrom : ℕ → ℕ → List (List Byte) → Option (List (List Byte))
  | 0, _, _ => none
  | fuel + 1, i, extras =>
    if i < extras.length - 1 then
      (dedupAgainst i (extras.length + 1) (i + 1) extras).bind (dedupFrom fuel (i + 1))
    else some extras

/-- `dedup_extras`; `none` would be a loop that does not end, or a token behind the last one. -/
def dedupExtras (extras : List (List Byte)) : Option (List (List Byte)) :=
  if extras.length < 2 then some extras else dedupFrom (extras.length + 1) 0 extras

/-- The scan of `add_extra` for a token that is there, with the variable `found`. -/
def knownExtra (mem : List Byte) : Bool → List (List Byte) → Bool
  | _, [] => false
  | found, data :: rest =>
    if data.length = mem.length then
      if data = mem then true else knownExtra mem true rest
    else if found then false
    else knownExtra mem found rest

/-- `add_extra`. -/
def AddExtra (mem : List Byte) (extras sorted : List (List Byte)) : Prop :=
  if knownExtra mem false extras ∨ mem.length > maxDictFile then sorted = extras
  else QsortCall compareExtrasLen (extras ++ [mem]) sorted

/-- How many bytes are 0 where the position modulo 4 is one of these. -/
def zerosAt (residues : List ℕ) (data : List Byte) : ℕ :=
  ((List.range data.length).filter fun j => j % 4 ∈ residues ∧ data.getD j 0 = 0).length

/-- The bytes at the positions that are `r` modulo `n`. -/
def everyNth (n r : ℕ) (data : List Byte) : List Byte :=
  ((List.range data.length).filter (· % n = r)).map fun j => data.getD j 0

/-- The tokens that `deunicode_extras` adds for one that looks like simple unicode. -/
def deunicode (data : List Byte) : List (List Byte) :=
  let len := data.length
  if len < 6 ∨ len > 64 ∨ len % 2 ≠ 0 then []
  else
    let z1 := zerosAt [0, 2] data
    let z2 := zerosAt [1, 3] data
    let z3 := zerosAt [2] data
    let z4 := zerosAt [3] data
    let half := len / 2
    let quarter := half / 2
    if (z1 < half ∧ z2 < half) ∨ z1 + z2 = len then []
    else
      (if len % 4 = 0 ∧ len ≥ 12 ∧ (z3 = quarter ∨ z4 = quarter) ∧ z1 + z2 = quarter * 3 then
        [everyNth 4 (if z4 < quarter then 3 else if z3 < quarter then 2 else if z2 < half then 1
          else 0) data]
      else []) ++ [everyNth 2 (if z1 < half then 0 else 1) data]

/-- `deunicode_extras`. -/
def DeunicodeExtras (extras sorted : List (List Byte)) : Prop :=
  if extras = [] then sorted = extras
  else QsortCall compareExtrasLen (extras ++ extras.flatMap deunicode) sorted

/-- The loop of `load_extras` over the regular files of a directory. -/
def loadDirectory (extras : List (List Byte)) (files : List (List Byte)) : List (List Byte) :=
  extras ++ files.filter fun file => file ≠ [] ∧ file.length ≤ maxDictFile

/-- What may happen to the tokens. -/
inductive ExtrasStep (extras : List (List Byte)) : List (List Byte) → Prop
  | loadFile {dictLevel : ℤ} {file : List Byte} {sorted : List (List Byte)} :
      ExtrasCheckAndSort (loadExtrasFile dictLevel ⟨extras, maxDictFile, 0⟩ file).data sorted →
      ExtrasStep extras sorted
  | loadDirectory {files sorted : List (List Byte)} :
      ExtrasCheckAndSort (loadDirectory extras files) sorted → ExtrasStep extras sorted
  | add {mem : List Byte} {sorted : List (List Byte)} :
      AddExtra mem extras sorted → ExtrasStep extras sorted
  | deunicode {sorted : List (List Byte)} :
      DeunicodeExtras extras sorted → ExtrasStep extras sorted
  | dedup {out : List (List Byte)} : dedupExtras extras = some out → ExtrasStep extras out

/-! ### First occurrences -/

section FirstOccurrences

variable {α : Type} [BEq α] [LawfulBEq α]

theorem eraseDups_concat (l : List α) (x : α) :
    (l ++ [x]).eraseDups = if x ∈ l then l.eraseDups else l.eraseDups ++ [x] := by
  rw [List.eraseDups_append]
  by_cases hx : x ∈ l
  · simp [List.removeAll, hx]
  · simp [List.removeAll, hx, List.eraseDups_cons]

theorem eraseDups_sublist (l : List α) : l.eraseDups.Sublist l := by
  induction l using List.reverseRecOn with
  | nil => exact List.Sublist.refl _
  | append_singleton l x ih =>
    rw [eraseDups_concat]
    split
    · exact ih.trans (List.sublist_append_left l [x])
    · exact ih.append_right [x]

/-- The elements are in the order of their first occurrences. -/
theorem pairwise_eraseDups (l : List α) :
    l.eraseDups.Pairwise fun a b => l.idxOf a < l.idxOf b := by
  induction l using List.reverseRecOn with
  | nil => exact .nil
  | append_singleton l x ih =>
    have hold : l.eraseDups.Pairwise fun a b => (l ++ [x]).idxOf a < (l ++ [x]).idxOf b := by
      refine ih.imp_of_mem fun ha hb hlt => ?_
      rwa [List.idxOf_append_of_mem (List.mem_eraseDups.mp ha),
        List.idxOf_append_of_mem (List.mem_eraseDups.mp hb)]
    rw [eraseDups_concat]
    split
    · exact hold
    · rename_i hx
      refine List.pairwise_append.mpr ⟨hold, List.pairwise_singleton _ _, fun a ha b hb => ?_⟩
      obtain rfl := List.mem_singleton.mp hb
      have hmem := List.mem_eraseDups.mp ha
      rw [List.idxOf_append_of_mem hmem, List.idxOf_append_of_notMem hx]
      exact Nat.lt_add_right _ (List.idxOf_lt_length_of_mem hmem)

end FirstOccurrences

/-! ### De-duplication -/

section Loops

variable {front rest extras : List (List Byte)} {a : List Byte} {i j fuel : ℕ}

/-- Behind `front` the copies of the `i`-th token are removed. -/
theorem dedupAgainst_eq (ha : front[i]? = some a) (hsorted : SortedByLength (a :: rest))
    (hfuel : rest.length < fuel) (hj : j = front.length) :
    dedupAgainst i fuel j (front ++ rest) = some (front ++ rest.filter fun b => !b == a) := by
  induction rest generalizing front fuel j with
  | nil =>
    obtain ⟨fuel, rfl⟩ := Nat.exists_eq_add_of_lt hfuel
    rw [dedupAgainst, if_pos (by simp [hj])]
    rfl
  | cons b rest ih =>
    obtain ⟨fuel, rfl⟩ := Nat.exists_eq_add_of_lt hfuel
    obtain ⟨hfirst, hrest⟩ := List.pairwise_cons.mp hsorted
    have hi : i < front.length := (List.getElem?_eq_some_iff.mp ha).1
    have hgeta : (front ++ b :: rest)[i]? = some a := by rw [List.getElem?_append_left hi, ha]
    have hgetb : (front ++ b :: rest)[j]? = some b := by
      rw [hj, List.getElem?_append_right (Nat.le_refl _), Nat.sub_self]
      rfl
    have hskip : SortedByLength (a :: rest) := List.pairwise_cons.mpr
      ⟨fun c hc => hfirst c (List.mem_cons_of_mem b hc), (List.pairwise_cons.mp hrest).2⟩
    rw [dedupAgainst, if_neg (by simp [hj]), hgeta, hgetb]
    simp only [Option.bind_eq_bind, Option.bind_some]
    split
    · -- all tokens from here on are longer
      rename_i hlen
      have hlonger : ∀ c ∈ b :: rest, (!c == a) = true := by
        intro c hc
        have hab := hfirst b List.mem_cons_self
        have hbc : b.length ≤ c.length := by
          rcases List.mem_cons.mp hc with rfl | hc
          · exact Nat.le_refl _
          · exact (List.pairwise_cons.mp hrest).1 c hc
        have hne : c ≠ a := by
          rintro rfl
          omega
        simpa using hne
      rw [List.filter_eq_self.mpr hlonger]
      rfl
    · split
      · rename_i hab
        subst hab
        have herase : (front ++ a :: rest).eraseIdx j = front ++ rest := by
          rw [hj, List.eraseIdx_append_of_length_le (Nat.le_refl _), Nat.sub_self]
          rfl
        rw [herase, ih ha hskip (by rw [List.length_cons]; omega) hj,
          List.filter_cons_of_neg (by simp)]
      · rename_i hab
        have happ : front ++ b :: rest = (front ++ [b]) ++ rest := by simp
        have hkept : (b :: rest).filter (fun b => !b == a) = b :: rest.filter fun b => !b == a :=
          List.filter_cons_of_pos (by simpa using fun h => hab h.symm)
        rw [happ, ih (by rw [List.getElem?_append_left hi, ha]) hskip
          (by rw [List.length_cons]; omega) (by simp [hj]), hkept, List.append_assoc]
        rfl

/-- Behind `front` only the first occurrences are left. -/
theorem dedupFrom_eq (hsorted : SortedByLength rest) (hfuel : rest.length < fuel) :
    dedupFrom fuel front.length (front ++ rest) = some (front ++ rest.eraseDups) := by
  induction fuel generalizing front rest with
  | zero => exact absurd hfuel (Nat.not_lt_zero _)
  | succ fuel ih =>
    rw [dedupFrom]
    cases rest with
    | nil => rw [if_neg (by simp), List.eraseDups_nil]
    | cons a rest =>
      by_cases hrest : rest = []
      · subst hrest
        rw [if_neg (by simp), List.eraseDups_cons]
        rfl
      · have hpos := List.length_pos_iff.mpr hrest
        have happ : front ++ a :: rest = front ++ [a] ++ rest := by simp
        have hlen : front.length + 1 = (front ++ [a]).length := by simp
        have hmany : rest.length < (front ++ [a] ++ rest).length + 1 := by
          rw [List.length_append]
          omega
        have hfiltered : SortedByLength (rest.filter fun b => !b == a) :=
          (List.pairwise_cons.mp hsorted).2.filter _
        have hshorter : (rest.filter fun b => !b == a).length < fuel := by
          have hle := List.length_filter_le (fun b => !b == a) rest
          rw [List.length_cons] at hfuel
          omega
        rw [if_pos (by simp; omega), happ,
          dedupAgainst_eq List.getElem?_concat_length hsorted hmany hlen, Option.bind_some, hlen,
          ih hfiltered hshorter, List.eraseDups_cons, List.append_assoc]
        rfl

theorem dedupExtras_eq (hsorted : SortedByLength extras) :
    dedupExtras extras = some extras.eraseDups := by
  unfold dedupExtras
  split
  · rcases extras with _ | ⟨a, _ | ⟨b, rest⟩⟩
    · rfl
    · rfl
    · rename_i hlt
      rw [List.length_cons, List.length_cons] at hlt
      omega
  · have h : dedupFrom (extras.length + 1) ([] : List (List Byte)).length ([] ++ extras) =
        some ([] ++ extras.eraseDups) := dedupFrom_eq hsorted (Nat.lt_succ_self _)
    exact h

theorem knownExtra_eq {mem : List Byte} {found : Bool} (hsorted : SortedByLength extras)
    (hfound : found = true → ∀ data ∈ extras, mem.length ≤ data.length) :
    knownExtra mem found extras = true ↔ mem ∈ extras := by
  induction extras generalizing found with
  | nil => simp [knownExtra]
  | cons data rest ih =>
    obtain ⟨hfirst, hrest⟩ := List.pairwise_cons.mp hsorted
    rw [knownExtra, List.mem_cons]
    split
    · rename_i hlen
      split
      · rename_i heq
        simp [heq]
      · rename_i hne
        rw [ih hrest fun _ d hd => hlen ▸ hfirst d hd]
        exact (or_iff_right fun h => hne h.symm).symm
    · rename_i hlen
      have hne : mem ≠ data := fun h => hlen (congrArg List.length h.symm)
      rw [or_iff_right hne]
      cases found with
      | false => exact ih hrest fun h => absurd h Bool.false_ne_true
      | true =>
        -- all tokens from here on are longer
        have hle := hfound rfl data List.mem_cons_self
        simp only [if_true, Bool.false_eq_true, false_iff]
        intro hmem
        have := hfirst mem hmem
        omega

/-- The scan of `add_extra` does not miss a token. -/
theorem knownExtra_iff {mem : List Byte} (hsorted : SortedByLength extras) :
    knownExtra mem false extras = true ↔ mem ∈ extras :=
  knownExtra_eq hsorted fun h => absurd h Bool.false_ne_true

end Loops

/-! ### The tokens stay sorted -/

section Steps

variable {extras sorted : List (List Byte)}

def Bounded (extras : List (List Byte)) : Prop := ∀ data ∈ extras, data.length ≤ maxDictFile

theorem Bounded.small (h : Bounded extras) : ∀ data ∈ extras, data.length < 2 ^ 31 :=
  fun data hdata => lt_of_le_of_lt (h data hdata) (by decide)

theorem Bounded.append {more : List (List Byte)} (h : Bounded extras) (hmore : Bounded more) :
    Bounded (extras ++ more) :=
  fun data hdata => (List.mem_append.mp hdata).elim (h data) (hmore data)

theorem Bounded.loadLine {e : Extras} (h : Bounded e.data) (dictLevel : ℤ) (buf : List Byte) :
    Bounded (loadLine dictLevel e buf).data := by
  unfold Dict.loadLine
  split
  · exact h
  · rename_i data _
    split
    · exact h
    · rename_i hlen
      refine h.append fun d hd => ?_
      obtain rfl := List.mem_singleton.mp hd
      exact Nat.not_lt.mp hlen

theorem Bounded.loadExtrasFile {e : Extras} (h : Bounded e.data) (dictLevel : ℤ)
    (file : List Byte) : Bounded (loadExtrasFile dictLevel e file).data := by
  unfold Dict.loadExtrasFile
  induction readLines (maxLine - 1) (maxLine - 1) [] file generalizing e with
  | nil => exact h
  | cons line lines ih => exact ih (h.loadLine dictLevel line)

theorem length_everyNth_le (n r : ℕ) (data : List Byte) :
    (everyNth n r data).length ≤ data.length := by
  unfold everyNth
  rw [List.length_map]
  exact (List.length_filter_le _ _).trans (Nat.le_of_eq List.length_range)

theorem bounded_deunicode (data : List Byte) : Bounded (deunicode data) := by
  have hpart : ∀ n r, data.length ≤ 64 → (everyNth n r data).length ≤ maxDictFile :=
    fun n r hlen => (length_everyNth_le n r data).trans (hlen.trans (by decide))
  unfold deunicode
  dsimp only
  split
  · exact fun _ h => absurd h List.not_mem_nil
  · rename_i hlen
    have hle : data.length ≤ 64 := by omega
    split
    · exact fun _ h => absurd h List.not_mem_nil
    · refine Bounded.append ?_ fun d hd => List.mem_singleton.mp hd ▸ hpart _ _ hle
      split
      · exact fun d hd => List.mem_singleton.mp hd ▸ hpart _ _ hle
      · exact fun _ h => absurd h List.not_mem_nil

/-- The tokens are short, and sorted. -/
structure Ordered (extras : List (List Byte)) : Prop where
  bounded : Bounded extras
  sorted : SortedByLength extras

theorem ordered_of_qsortCall (h : Bounded extras) (hq : QsortCall compareExtrasLen extras sorted) :
    Ordered sorted where
  bounded := fun data hdata => h data (hq.perm.mem_iff.mp hdata)
  sorted := sortedByLength_of_qsortCall h.small hq

theorem ordered_of_checkAndSort (h : Bounded extras) (hq : ExtrasCheckAndSort extras sorted) :
    Ordered sorted := by
  unfold ExtrasCheckAndSort at hq
  split at hq
  · rename_i hnil
    subst hq
    exact ⟨h, hnil ▸ .nil⟩
  · exact ordered_of_qsortCall h hq

theorem Ordered.step (h : Ordered extras) (hstep : ExtrasStep extras sorted) : Ordered sorted := by
  cases hstep with
  | loadFile hq => exact ordered_of_checkAndSort (h.bounded.loadExtrasFile _ _) hq
  | loadDirectory hq =>
    refine ordered_of_checkAndSort (h.bounded.append fun file hfile => ?_) hq
    exact (of_decide_eq_true (List.mem_filter.mp hfile).2).2
  | add hadd =>
    rename_i mem
    unfold AddExtra at hadd
    split at hadd
    · rwa [hadd]
    · rename_i hnew
      refine ordered_of_qsortCall (h.bounded.append fun d hd => ?_) hadd
      obtain rfl := List.mem_singleton.mp hd
      exact Nat.not_lt.mp fun hlt => hnew (.inr hlt)
  | deunicode hde =>
    unfold DeunicodeExtras at hde
    split at hde
    · rwa [hde]
    · refine ordered_of_qsortCall (h.bounded.append fun d hd => ?_) hde
      obtain ⟨data, -, hmem⟩ := List.mem_flatMap.mp hd
      exact bounded_deunicode data d hmem
  | dedup hdedup =>
    rw [dedupExtras_eq h.sorted] at hdedup
    obtain rfl := Option.some.inj hdedup
    exact ⟨fun d hd => h.bounded d (List.mem_eraseDups.mp hd),
      h.sorted.sublist (eraseDups_sublist extras)⟩

/-- De-duplication leaves the first occurrence of each token, and whatever happens to the tokens,
they are sorted. -/
theorem dedupExtras_first_sorted :
    (∀ extras, SortedByLength extras → ∃ out, dedupExtras extras = some out ∧ out.Nodup ∧
      (∀ data, data ∈ out ↔ data ∈ extras) ∧
        out.Pairwise fun a b => extras.idxOf a < extras.idxOf b) ∧
      ∀ extras, Relation.ReflTransGen ExtrasStep [] extras → SortedByLength extras := by
  refine ⟨fun extras hsorted => ?_, fun extras hrun => ?_⟩
  · have hpairwise := pairwise_eraseDups extras
    have hnodup : extras.eraseDups.Nodup := by
      refine hpairwise.imp fun hlt => ?_
      rintro rfl
      exact Nat.lt_irrefl _ hlt
    exact ⟨_, dedupExtras_eq hsorted, hnodup, fun _ => List.mem_eraseDups, hpairwise⟩
  · have hordered : Ordered extras := by
      induction hrun with
      | refl => exact ⟨fun _ h => absurd h List.not_mem_nil, .nil⟩
      | tail _ hstep ih => exact ih.step hstep
    exact hordered.sorted

end Steps

end AflPlusPlus.Dict
