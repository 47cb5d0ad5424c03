import AflPlusPlus.Cmplog.Scale

/-!
# A number text in the input and its replacement

The scratch buffer is put together from the bytes before the number, the text of the replacement
and the bytes behind the number, but it is executed with the length of the input. The executed test
case is the input with the number replaced when both texts have the same length; a longer text
pushes bytes out at the end, and a shorter one lets old bytes of the allocation in.
-/

namespace AflPlusPlus.Cmplog
open Lib Lib.Stopping

/-! ### The number text -/

theorem dropWhile_length_le (text : List Byte) :
    (text.dropWhile (· = chr ' ')).length ≤ text.length :=
  (List.dropWhile_suffix _).length_le

/-- The end of the number that is found behind the blanks of a text lies in the text. -/
theorem scanned_length_le (text : List Byte) :
    text.length - (text.dropWhile (· = chr ' ')).length +
      (scanInt none (cString ((text.dropWhile (· = chr ' ')).take 63))).length ≤ text.length := by
  have hscan : ∀ l : List Byte, (scanInt none l).length ≤ l.length := by
    intro l
    simp only [scanInt]
    split
    · exact Nat.zero_le _
    · exact Nat.sub_le _ _
  have hstring : ∀ l : List Byte, (cString l).length ≤ l.length :=
    fun l => (List.takeWhile_prefix _).length_le
  have h1 := hscan (cString ((text.dropWhile (· = chr ' ')).take 63))
  have h2 := hstring ((text.dropWhile (· = chr ' ')).take 63)
  have h3 := List.length_take_le' 63 (text.dropWhile (· = chr ' '))
  have h4 := dropWhile_length_le text
  omega

theorem strntoll_length {errno : Bool} {text : List Byte} {found : ℤ × ℕ}
    (h : (strntoll errno text).1 = some found) : found.2 ≤ text.length := by
  simp only [strntoll] at h
  split at h
  · exact absurd h (by simp)
  · split at h
    · exact absurd h (by simp)
    · obtain rfl := Option.some.inj h
      exact scanned_length_le text

theorem strntoull_length {errno : Bool} {text : List Byte} {found : ℕ × ℕ}
    (h : (strntoull errno text).1 = some found) : found.2 ≤ text.length := by
  simp only [strntoull] at h
  split at h
  · exact absurd h (by simp)
  · split at h
    · exact absurd h (by simp)
    · obtain rfl := Option.some.inj h
      exact scanned_length_le text

/-- The step fires for a number of the input and puts a decimal text of the replacement there. -/
theorem numberStep_eq_some {a : CmpArgs 64} {errno : Bool} {text : List Byte} {oldLen : ℕ}
    {new : List Byte} (h : (numberStep a errno text).1 = some (oldLen, new)) :
    oldLen ≤ text.length ∧ (new = decimalText a.repl.toInt ∨ new = decimalText a.repl.toNat) := by
  rw [numberStep] at h
  rcases hsigned : strntoll errno text with ⟨_ | ⟨num, len⟩, errno'⟩
  · simp only [hsigned] at h
    rcases hunsigned : strntoull errno' text with ⟨_ | ⟨unum, len⟩, errno''⟩
    · simp only [hunsigned] at h
      exact absurd h (by simp)
    · simp only [hunsigned] at h
      split at h
      · cases h
        exact ⟨strntoull_length (congrArg Prod.fst hunsigned), Or.inr rfl⟩
      · exact absurd h (by simp)
  · simp only [hsigned] at h
    split at h
    · cases h
      exact ⟨strntoll_length (congrArg Prod.fst hsigned), Or.inl rfl⟩
    · exact absurd h (by simp)

/-- There is no number behind the end of the input. -/
theorem numberStep_nil (a : CmpArgs 64) (errno : Bool) : (numberStep a errno []).1 = none := rfl

/-! ### The replacement -/

/-- A digit directly after the number would belong to it. -/
def blankFirstDigit : List Byte → List Byte
  | [] => []
  | c :: rest => if isdigit c then chr ' ' :: rest else c :: rest

theorem contents_blankFirst (m : Bytes) (r : ℕ) :
    contents (fun i => if i = 0 ∧ isdigit (m 0) then chr ' ' else m i) r =
      blankFirstDigit (contents m r) := by
  cases r with
  | zero => rfl
  | succ r =>
    have hsplit : ∀ n : Bytes, contents n (r + 1) = n 0 :: contents (fun i => n (i + 1)) r := by
      intro n
      rw [contents, List.range_succ_eq_map, List.map_cons, List.map_map]
      rfl
    rw [hsplit, hsplit, blankFirstDigit]
    by_cases h : isdigit (m 0) <;> simp [h]

/-- The input with the number of `oldLen` characters at the position replaced by a text. -/
def withNumber (input : List Byte) (idx oldLen : ℕ) (new : List Byte) : List Byte :=
  input.take idx ++ new ++ blankFirstDigit (input.drop (idx + oldLen))

theorem length_withNumber {input : List Byte} {idx oldLen : ℕ} (hfit : idx + oldLen ≤ input.length)
    (new : List Byte) :
    (withNumber input idx oldLen new).length = input.length - oldLen + new.length := by
  have hblank : ∀ l : List Byte, (blankFirstDigit l).length = l.length := by
    intro l
    cases l with
    | nil => rfl
    | cons c rest =>
      rw [blankFirstDigit]
      split
      · rfl
      · rfl
  rw [withNumber, List.length_append, List.length_append, hblank, List.length_take,
    List.length_drop]
  omega

/-- The scratch buffer behind the new number text. -/
theorem renumbered_tail {len idx oldLen i : ℕ} {new : List Byte} (buf scratch : Bytes)
    (hi : i < len - idx - oldLen) :
    renumbered len idx oldLen new buf scratch (idx + new.length + i) =
      if i = 0 ∧ isdigit (buf (idx + oldLen)) then chr ' ' else buf (idx + oldLen + i) := by
  have hcopy : ∀ (m : Bytes) (j : ℕ), j < len - idx - oldLen →
      copyBlock m (idx + new.length) buf (idx + oldLen) (len - idx - oldLen)
        (idx + new.length + j) = buf (idx + oldLen + j) := fun m j hj => by
    rw [copyBlock, if_pos (by omega), Nat.add_sub_cancel_left]
  have hfirst : ∀ m : Bytes,
      copyBlock m (idx + new.length) buf (idx + oldLen) (len - idx - oldLen)
        (idx + new.length) = buf (idx + oldLen) := fun m => hcopy m 0 (by omega)
  simp only [renumbered, hfirst]
  by_cases hdigit : isdigit (buf (idx + oldLen))
  · rw [if_pos hdigit, setByte]
    by_cases h0 : i = 0
    · rw [if_pos (by omega), if_pos ⟨h0, hdigit⟩]
    · rw [if_neg (by omega), if_neg (fun h => h0 h.1), hcopy _ _ hi]
  · rw [if_neg hdigit, if_neg (fun h => hdigit h.2), hcopy _ _ hi]

/-- The scratch buffer up to the end of the new number text. -/
theorem renumbered_head {len idx oldLen i : ℕ} {new : List Byte} (buf scratch : Bytes)
    (hi : i < idx + new.length) :
    renumbered len idx oldLen new buf scratch i =
      if i < idx then buf i else new.getD (i - idx) 0 := by
  have hbefore : copyBlock (copyBlock (copyBlock scratch 0 buf 0 idx) idx (fun i => new.getD i 0) 0
      new.length) (idx + new.length) buf (idx + oldLen) (len - idx - oldLen) i =
      if i < idx then buf i else new.getD (i - idx) 0 := by
    rw [copyBlock, if_neg (by omega), copyBlock]
    by_cases h : i < idx
    · rw [if_neg (by omega), if_pos h, copyBlock, if_pos (by omega)]
      simp
    · rw [if_pos (by omega), if_neg h, Nat.zero_add]
  simp only [renumbered]
  split
  · rw [setByte, if_neg (by omega), hbefore]
  · exact hbefore

/-- A text of the same length takes exactly the place of the old one. -/
theorem contents_renumbered {len idx oldLen : ℕ} {new : List Byte} (hfit : idx + oldLen ≤ len)
    (hlen : new.length = oldLen) (buf scratch : Bytes) :
    contents (renumbered len idx oldLen new buf scratch) len =
      withNumber (contents buf len) idx oldLen new := by
  obtain ⟨r, rfl⟩ := Nat.exists_eq_add_of_le hfit
  have hr : idx + oldLen + r - idx - oldLen = r := by omega
  have hhead : contents (renumbered (idx + oldLen + r) idx oldLen new buf scratch) idx =
      contents buf idx := by
    rw [contents_eq_iff]
    intro i hi
    rw [renumbered_head _ _ (by omega), if_pos hi]
  have hnew : contents (fun i => renumbered (idx + oldLen + r) idx oldLen new buf scratch (idx + i))
      oldLen = new := by
    refine List.ext_getElem (by rw [length_contents, hlen]) fun i hi hi' => ?_
    have hnot : ¬ idx + i < idx := by omega
    simp only [contents, List.getElem_map, List.getElem_range]
    rw [renumbered_head _ _ (by omega), if_neg hnot, Nat.add_sub_cancel_left,
      List.getD_eq_getElem _ _ hi']
  have htail : contents (fun i => renumbered (idx + oldLen + r) idx oldLen new buf scratch
      (idx + oldLen + i)) r = blankFirstDigit (contents (fun i => buf (idx + oldLen + i)) r) := by
    have hbyte : ∀ i, i < r → renumbered (idx + oldLen + r) idx oldLen new buf scratch
        (idx + oldLen + i) =
        if i = 0 ∧ isdigit (buf (idx + oldLen)) then chr ' ' else buf (idx + oldLen + i) := by
      intro i hi
      rw [← hlen] at hr ⊢
      exact renumbered_tail buf scratch (by omega)
    rw [← contents_blankFirst (fun i => buf (idx + oldLen + i))]
    exact contents_eq_iff.mpr hbyte
  have hbefore : (contents buf (idx + oldLen + r)).take idx = contents buf idx := by
    rw [Nat.add_assoc, contents_add, List.take_left' (length_contents _ _)]
  have hafter : (contents buf (idx + oldLen + r)).drop (idx + oldLen) =
      contents (fun i => buf (idx + oldLen + i)) r := by
    rw [contents_add, List.drop_left' (length_contents _ _)]
  rw [withNumber, hbefore, hafter, contents_add, contents_add, hhead, hnew, htail]

/-! ### The executed test case -/

theorem placeNumber_runs (t : Target) (idx oldLen : ℕ) (new : List Byte) (s : Solver) :
    (placeNumber t idx (some (oldLen, new)) s).2.runs =
      s.runs ++ [contents (renumbered t.len idx oldLen new s.buf s.scratch) t.len] := by
  rw [placeNumber, modify_bind_apply, get_bind_apply, itsFuzz_runs]

/-- Where the step fires, one test case is executed, and it is the input with the number text
replaced, its length included, exactly when the new text is as long as the old one. -/
theorem solveNumber_replaces_iff (t : Target) (a : CmpArgs 64) (s : Solver) {oldLen : ℕ}
    {new : List Byte}
    (hfires : (numberStep a s.errno ((contents s.buf t.len).drop a.idx)).1 = some (oldLen, new)) :
    (new = decimalText a.repl.toInt ∨ new = decimalText a.repl.toNat) ∧ ∃ data,
      (solveNumber t a s).2.runs = s.runs ++ [data] ∧
      (data = withNumber (contents s.buf t.len) a.idx oldLen new ↔ new.length = oldLen) := by
  obtain ⟨hold, htext⟩ := numberStep_eq_some hfires
  have hidx : a.idx < t.len := by
    refine Nat.lt_of_not_le fun hend => ?_
    rw [List.drop_of_length_le (by rwa [length_contents]), numberStep_nil] at hfires
    exact absurd hfires (by simp)
  rw [List.length_drop, length_contents] at hold
  refine ⟨htext, contents (renumbered t.len a.idx oldLen new s.buf s.scratch) t.len, ?_, ?_⟩
  · rw [solveNumber, get_bind_apply, modify_bind_apply, hfires, placeNumber_runs]
  · have hfit : a.idx + oldLen ≤ (contents s.buf t.len).length := by
      rw [length_contents]
      omega
    constructor
    · intro h
      have hlen := congrArg List.length h
      rw [length_withNumber hfit, length_contents, length_contents] at hlen
      omega
    · intro h
      exact contents_renumbered (by omega) h s.buf s.scratch

theorem solveNumber_replaces_seven :
    ((decimalText 9 = decimalText 9 ∨ decimalText 9 = decimalText 9) ∧ ∃ data,
      (solveNumber (quietTarget 2 fun _ => 0) (.equality 7 9 0 2)
        (.fresh (fun i => if i = 0 then chr '7' else chr ';') 8)).2.runs = [data] ∧
      (data = withNumber [chr '7', chr ';'] 0 1 (decimalText 9) ↔ (decimalText 9).length = 1)) :=
  solveNumber_replaces_iff (quietTarget 2 fun _ => 0) (.equality 7 9 0 2)
    (.fresh (fun i => if i = 0 then chr '7' else chr ';') 8) (by decide)

/-- The number 7 before a semicolon becomes 42, and the semicolon is not executed. -/
theorem solveNumber_cut :
    (numberStep (.equality 7 42 0 2) false [chr '7', chr ';']).1 = some (1, [chr '4', chr '2']) ∧
    (solveNumber (quietTarget 2 fun _ => 0) (.equality 7 42 0 2)
      (.fresh (fun i => if i = 0 then chr '7' else chr ';') 8)).2.runs = [[chr '4', chr '2']] ∧
    withNumber [chr '7', chr ';'] 0 1 [chr '4', chr '2'] = [chr '4', chr '2', chr ';'] := by
  decide +kernel

end AflPlusPlus.Cmplog
