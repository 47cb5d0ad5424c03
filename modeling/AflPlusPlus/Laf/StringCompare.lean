import AflPlusPlus.Lib.StringCompare

/-!
# Unrolled string comparisons

`transformCmps` of `instrumentation/compare-transform-pass.so.cc` replaces a call of a comparison
function that has one constant operand by a chain of blocks that compare one byte each. The chain
computes the C function up to the length of the constant, reduced to the signed byte the subtraction
yields, and reads the other operand only as far as it agrees with the constant.
-/

namespace AflPlusPlus.Laf

open Lib

/-- The functions whose calls are replaced, without their aliases. -/
inductive CmpFunction where
  | strcmp | memcmp | strncmp | strcasecmp | strncasecmp
  deriving DecidableEq

def CmpFunction.isMemcmp (f : CmpFunction) : Bool := f = .memcmp

def CmpFunction.isSizedcmp (f : CmpFunction) : Bool := f ∈ [.memcmp, .strncmp, .strncasecmp]

def CmpFunction.isCaseInsensitive (f : CmpFunction) : Bool := f ∈ [.strcasecmp, .strncasecmp]

/-- A call with one constant string: the bytes found for it, whether it is the first argument, and
the third argument when that is a constant. -/
structure CmpCall where
  fn : CmpFunction
  str : List Byte
  hasStr1 : Bool
  constSizedLen : Option ℕ

variable (call : CmpCall)

def CmpCall.isConstSized : Bool := call.fn.isSizedcmp && call.constSizedLen.isSome

/-- Whether the call is replaced: a constant size is at least 2, `memcmp` has a constant one, and
the string is longer than one character. -/
def CmpCall.selected : Bool :=
  (!call.fn.isSizedcmp || match call.constSizedLen with
    | some n => decide (2 ≤ n)
    | none => !call.fn.isMemcmp) &&
  !(call.str.length < 2 || (call.str.length = 2 && call.str.getD 1 0 = 0))

/-- `TmpConstStr`, terminated for the functions without a size. -/
def CmpCall.tmpConstStr : List Byte :=
  if !call.fn.isSizedcmp && call.str.getLastD 0 ≠ 0 then call.str ++ [0] else call.str

/-- `ConstStr`: cut behind the first NUL unless the function compares memory. -/
def CmpCall.constStr : List Byte :=
  if !call.fn.isMemcmp && call.tmpConstStr.contains 0 then
    call.tmpConstStr.take (call.tmpConstStr.idxOf 0 + 1)
  else call.tmpConstStr

def CmpCall.unrollLen : ℕ :=
  if call.isConstSized then min (call.constSizedLen.getD 0) call.constStr.length
  else call.constStr.length

/-- How the function looks at a byte. -/
def CmpCall.fold : Byte → Byte := if call.fn.isCaseInsensitive then tolower else id

/-- The blocks from the `i`-th on, `rest` many. With a size that is no constant a block tests it
first. The result is the value of the phi node and the number of bytes read of the variable
string. -/
def CmpCall.blocks (size : ℕ) (var : Bytes) : ℕ → ℕ → BitVec 32 × ℕ
  | 0, i => (0, i)
  | rest + 1, i =>
    if call.fn.isSizedcmp && !call.isConstSized && size = i then (0, i)
    else
      let c := call.fold (call.constStr.getD i 0)
      let load := call.fold (var i)
      let isub := if call.hasStr1 then c - load else load - c
      if rest = 0 ∨ isub ≠ 0 then (isub.signExtend 32, i + 1)
      else CmpCall.blocks size var rest (i + 1)

/-- `transformCmps` on one call; `none` for a call that stays. -/
def transformCmp (size : ℕ) (var : Bytes) : Option (BitVec 32 × ℕ) :=
  if call.selected then some (call.blocks size var call.unrollLen 0) else none

/-- The value of the third argument when the call is executed. -/
def CmpCall.SizeIs (size : ℕ) : Prop := ∀ n, call.constSizedLen = some n → size = n

/-- The constant string in memory; for a string function it is terminated. -/
def CmpCall.StoredAt (mem : Bytes) : Prop :=
  (∀ i (h : i < call.str.length), mem i = call.str[i]) ∧
    (call.fn ≠ .memcmp → (0 : Byte) ∉ call.str → mem call.str.length = 0)

/-- The function of the C library on the two strings, with a limit on the number of bytes. -/
def CmpCall.compare (mem var : Bytes) (limit : ℕ) : ℤ :=
  if call.hasStr1 then compareFrom call.fold (!call.fn.isMemcmp) mem var limit 0
  else compareFrom call.fold (!call.fn.isMemcmp) var mem limit 0

variable {call}

theorem isMemcmp_eq_false : call.fn.isMemcmp = false ↔ call.fn ≠ .memcmp := by
  simp [CmpFunction.isMemcmp]

theorem getElem?_constStr {i : ℕ} (hi : i < call.constStr.length) :
    call.constStr[i]? = call.tmpConstStr[i]? := by
  rw [CmpCall.constStr] at hi ⊢
  split at hi
  next hcut =>
    rw [List.length_take] at hi
    rw [if_pos hcut, List.getElem?_take, if_pos (by omega)]
  next hcut => rw [if_neg hcut]

/-- The constant the blocks compare with, as it lies in memory. -/
theorem getElem?_constStr_eq {mem : Bytes} (h : call.StoredAt mem) {i : ℕ}
    (hi : i < call.constStr.length) : call.constStr[i]? = some (mem i) := by
  have hlt : i < call.tmpConstStr.length := by
    rw [CmpCall.constStr] at hi
    split at hi
    · rw [List.length_take] at hi
      omega
    · exact hi
  rw [getElem?_constStr hi, CmpCall.tmpConstStr]
  rw [CmpCall.tmpConstStr] at hlt
  split at hlt
  next hnull =>
    rw [if_pos hnull]
    rw [List.length_append, List.length_singleton] at hlt
    by_cases hin : i < call.str.length
    · rw [List.getElem?_append_left hin, List.getElem?_eq_getElem hin, h.1 i hin]
    · obtain rfl : i = call.str.length := by omega
      rw [List.getElem?_append_right (Nat.le_refl _), Nat.sub_self]
      have hunsized : call.fn ≠ .memcmp := by
        intro heq
        simp [heq, CmpFunction.isSizedcmp] at hnull
      have hzero : (0 : Byte) ∉ call.str := by
        intro hmem
        have htmp : call.tmpConstStr = call.str ++ [0] := by rw [CmpCall.tmpConstStr, if_pos hnull]
        have hidx := List.idxOf_lt_length_of_mem hmem
        have hcut : call.constStr = (call.str ++ [0]).take (call.str.idxOf 0 + 1) := by
          rw [CmpCall.constStr, htmp, if_pos, List.idxOf_append_of_mem hmem]
          rw [isMemcmp_eq_false.mpr hunsized, Bool.not_false, Bool.true_and, List.contains_iff_mem]
          exact List.mem_append_left _ hmem
        rw [hcut, List.length_take] at hi
        omega
      rw [h.2 hunsized hzero]
      rfl
  next hnull => rw [if_neg hnull, List.getElem?_eq_getElem hlt, h.1 i hlt]

/-- A string function's constant has its first NUL at the end. -/
theorem constStr_ne_zero (h : call.fn ≠ .memcmp) {i : ℕ} (hi : i + 1 < call.constStr.length) :
    call.constStr[i]? ≠ some 0 := by
  have hstr := isMemcmp_eq_false.mpr h
  rw [getElem?_constStr (Nat.lt_of_succ_lt hi)]
  intro hget
  obtain ⟨hlt, heq⟩ := List.getElem?_eq_some_iff.mp hget
  have hmem : (0 : Byte) ∈ call.tmpConstStr := heq ▸ List.getElem_mem hlt
  have hfirst : call.tmpConstStr.idxOf 0 ≤ i := by
    by_contra hnot
    have hlt' : i < call.tmpConstStr.findIdx (· == 0) := Nat.not_le.mp hnot
    have := List.not_of_lt_findIdx hlt'
    simp [heq] at this
  have hcut : (!call.fn.isMemcmp && call.tmpConstStr.contains 0) = true := by
    rw [hstr, Bool.not_false, Bool.true_and, List.contains_iff_mem]
    exact hmem
  rw [CmpCall.constStr, if_pos hcut, List.length_take] at hi
  omega

/-- The size is tested by blocks of its own. -/
def CmpCall.lenChecked (call : CmpCall) : Bool := call.fn.isSizedcmp && !call.isConstSized

/-- How many of the next `rest` positions are compared. -/
def CmpCall.limit (call : CmpCall) (size rest i : ℕ) : ℕ :=
  if call.lenChecked then min rest (size - i) else rest

theorem fold_eq_zero {c : Byte} : call.fold c = 0 ↔ c = 0 := by
  rw [CmpCall.fold]
  split
  · exact tolower_eq_zero
  · exact Iff.rfl

theorem blocks_succ (size : ℕ) (var : Bytes) (rest i : ℕ) :
    call.blocks size var (rest + 1) i =
      if call.lenChecked && size = i then (0, i)
      else
        let c := call.fold (call.constStr.getD i 0)
        let load := call.fold (var i)
        let isub := if call.hasStr1 then c - load else load - c
        if rest = 0 ∨ isub ≠ 0 then (isub.signExtend 32, i + 1)
        else call.blocks size var rest (i + 1) := rfl

/-- The value of the chain: the library function up to the number of positions compared, reduced to
a signed byte. -/
theorem blocks_value {mem var : Bytes} (hmem : call.StoredAt mem) {size rest i : ℕ}
    (hlen : i + rest ≤ call.constStr.length) (hsize : call.lenChecked = true → i ≤ size) :
    (call.blocks size var rest i).1.toInt =
      (if call.hasStr1 then
        compareFrom call.fold (!call.fn.isMemcmp) mem var (call.limit size rest i) i
      else compareFrom call.fold (!call.fn.isMemcmp) var mem (call.limit size rest i) i).bmod
        256 := by
  induction rest generalizing i with
  | zero => simp [CmpCall.blocks, CmpCall.limit]
  | succ rest ih =>
    have hget : call.constStr.getD i 0 = mem i := by
      rw [List.getD_eq_getElem?_getD, getElem?_constStr_eq hmem (by omega)]
      rfl
    rw [blocks_succ]
    by_cases hcheck : (call.lenChecked && decide (size = i)) = true
    · rw [if_pos hcheck]
      rw [Bool.and_eq_true, decide_eq_true_eq] at hcheck
      simp [CmpCall.limit, hcheck]
    · rw [if_neg hcheck, hget]
      have hlimit : call.limit size (rest + 1) i = call.limit size rest (i + 1) + 1 := by
        rw [CmpCall.limit, CmpCall.limit]
        split
        next hl =>
          have := hsize hl
          have : size ≠ i := fun heq => hcheck (by simp [hl, heq])
          omega
        next hl => rfl
      rw [hlimit]
      dsimp only
      by_cases hfold : call.fold (var i) = call.fold (mem i)
      · -- equal bytes: the last block answers 0, an earlier one goes on behind a character
        simp only [hfold, BitVec.sub_self, ite_self]
        rw [compareFrom_of_eq hfold, compareFrom_of_eq hfold.symm]
        by_cases hrest : rest = 0
        · subst hrest
          have hzero : call.limit size 0 (i + 1) = 0 := by rw [CmpCall.limit]; split <;> simp
          simp [hzero]
        · have hne : (!call.fn.isMemcmp) = true → mem i ≠ 0 := by
            intro hstop hzero
            rw [Bool.not_eq_true', isMemcmp_eq_false] at hstop
            refine constStr_ne_zero hstop (i := i) (by omega) ?_
            rw [getElem?_constStr_eq hmem (by omega), hzero]
          have hvar : (!call.fn.isMemcmp) = true → var i ≠ 0 := by
            intro hstop hzero
            rw [hzero, eq_comm, fold_eq_zero.mpr rfl, fold_eq_zero] at hfold
            exact hne hstop hfold
          have hmem' : ¬ ((!call.fn.isMemcmp) = true ∧ mem i = 0) := fun hs => hne hs.1 hs.2
          have hvar' : ¬ ((!call.fn.isMemcmp) = true ∧ var i = 0) := fun hs => hvar hs.1 hs.2
          have hgo : ¬ (rest = 0 ∨ (0#8 : Byte) ≠ 0) := by simp [hrest]
          rw [if_neg hgo, if_neg hmem', if_neg hvar']
          refine ih (by omega) fun hl => ?_
          have := hsize hl
          have : size ≠ i := fun heq => hcheck (by simp [hl, heq])
          omega
      · rw [compareFrom_of_ne hfold, compareFrom_of_ne (Ne.symm hfold)]
        have hsub : ∀ x y : Byte, x ≠ y → x - y ≠ 0 := fun x y hxy hzero => hxy (by bv_omega)
        cases call.hasStr1
        · simp only [Bool.false_eq_true, if_false, if_pos (Or.inr (hsub _ _ hfold)),
            toInt_signExtend_sub]
        · simp only [if_true, if_pos (Or.inr (hsub _ _ (Ne.symm hfold))), toInt_signExtend_sub]

/-- How many positions a call compares. -/
def CmpCall.bound (call : CmpCall) (size : ℕ) : ℕ :=
  if call.fn.isSizedcmp then min size call.constStr.length else call.constStr.length

/-- The replaced call returns what the library function returns for the two strings up to the length
of the constant, as the sign extension of its last byte. -/
theorem transformCmp_value {size : ℕ} {mem var : Bytes} {r : BitVec 32 × ℕ}
    (hmem : call.StoredAt mem) (hsize : call.SizeIs size)
    (h : transformCmp call size var = some r) :
    r.1.toInt = (call.compare mem var (call.bound size)).bmod 256 := by
  rw [transformCmp] at h
  split at h
  next hsel =>
    cases h
    have hlen : 0 + call.unrollLen ≤ call.constStr.length := by
      rw [CmpCall.unrollLen, Nat.zero_add]
      split <;> omega
    have hlimit : call.limit size call.unrollLen 0 = call.bound size := by
      rw [CmpCall.limit, CmpCall.bound, CmpCall.lenChecked, CmpCall.unrollLen,
        CmpCall.isConstSized]
      cases hs : call.fn.isSizedcmp with
      | false => rfl
      | true =>
        cases hn : call.constSizedLen with
        | none => simp [Nat.min_comm]
        | some n => simp [hsize n hn]
    rw [blocks_value hmem hlen fun _ => Nat.zero_le size, hlimit, CmpCall.compare]
  next hsel => cases h

/-- The subtraction loses no difference, so a zero is a zero of the library function. -/
theorem toInt_bmod_eq_zero_iff {fold : Byte → Byte} {stop : Bool} {a b : Bytes} (n i : ℕ) :
    (compareFrom fold stop a b n i).bmod 256 = 0 ↔ compareFrom fold stop a b n i = 0 := by
  induction n generalizing i with
  | zero => rfl
  | succ n ih =>
    by_cases h : fold (a i) = fold (b i)
    · rw [compareFrom_of_eq h]
      split
      · rfl
      · exact ih (i + 1)
    · rw [compareFrom_of_ne h, bmod_sub_eq_zero_iff]
      have hne : (fold (a i)).toNat ≠ (fold (b i)).toNat := fun heq =>
        h (BitVec.eq_of_toNat_eq heq)
      exact iff_of_false h (by omega)

theorem compare_bmod_eq_zero_iff (mem var : Bytes) (n : ℕ) :
    (call.compare mem var n).bmod 256 = 0 ↔ call.compare mem var n = 0 := by
  rw [CmpCall.compare]
  split
  · exact toInt_bmod_eq_zero_iff n 0
  · exact toInt_bmod_eq_zero_iff n 0

theorem transformCmp_eq_zero_iff {size : ℕ} {mem var : Bytes} {r : BitVec 32 × ℕ}
    (hmem : call.StoredAt mem) (hsize : call.SizeIs size)
    (h : transformCmp call size var = some r) :
    r.1 = 0 ↔ call.compare mem var (call.bound size) = 0 := by
  rw [← compare_bmod_eq_zero_iff, ← transformCmp_value hmem hsize h, ← BitVec.toInt_inj]
  rfl

/-- A constant that is cut ends in its NUL. -/
theorem constStr_last_of_mem (hfn : call.fn ≠ .memcmp) (hmem : (0 : Byte) ∈ call.tmpConstStr) :
    ∃ n, call.constStr.length = n + 1 ∧ call.constStr[n]? = some 0 := by
  have hidx := List.idxOf_lt_length_of_mem hmem
  have hcut : call.constStr = call.tmpConstStr.take (call.tmpConstStr.idxOf 0 + 1) := by
    rw [CmpCall.constStr, if_pos]
    rw [isMemcmp_eq_false.mpr hfn, Bool.not_false, Bool.true_and, List.contains_iff_mem]
    exact hmem
  refine ⟨call.tmpConstStr.idxOf 0, by rw [hcut, List.length_take]; omega, ?_⟩
  rw [hcut, List.getElem?_take, if_pos (Nat.lt_succ_self _)]
  exact List.getElem?_idxOf hmem

/-- The constant of a function without a size ends in its NUL. -/
theorem constStr_last (hsized : call.fn.isSizedcmp = false) (hstr : call.str ≠ []) :
    ∃ n, call.constStr.length = n + 1 ∧ call.constStr[n]? = some 0 := by
  have hnot : call.fn ≠ .memcmp := by
    intro heq
    simp [heq, CmpFunction.isSizedcmp] at hsized
  refine constStr_last_of_mem hnot ?_
  rw [CmpCall.tmpConstStr, hsized]
  by_cases hlast : call.str.getLastD 0 = 0
  · have hin : call.str.getLast hstr ∈ call.str := List.getLast_mem hstr
    rw [List.getLastD_eq_getLast?, List.getLast?_eq_some_getLast hstr, Option.getD_some] at hlast
    rw [hlast] at hin
    rw [if_neg (by simp [List.getLastD_eq_getLast?, List.getLast?_eq_some_getLast hstr, hlast])]
    exact hin
  · rw [if_pos (by simpa using hlast)]
    exact List.mem_append_right _ List.mem_cons_self

theorem selected_length (h : call.selected = true) : 2 ≤ call.str.length := by
  rw [CmpCall.selected, Bool.and_eq_true] at h
  have := h.2
  simp at this
  omega

theorem fold_zero : call.fold 0 = 0 := fold_eq_zero.mpr rfl

/-- A larger limit matters only to strings that agree with the constant and do not end in it. -/
theorem compare_add (mem var : Bytes) (m d : ℕ) :
    call.compare mem var (m + d) = call.compare mem var m ∨
      call.compare mem var m = 0 ∧
        (∀ k, k < m → call.fold (var k) = call.fold (mem k) ∧
          (call.fn ≠ .memcmp → var k ≠ 0)) ∧
        call.compare mem var (m + d) =
          if call.hasStr1 then compareFrom call.fold (!call.fn.isMemcmp) mem var d m
          else compareFrom call.fold (!call.fn.isMemcmp) var mem d m := by
  rw [CmpCall.compare, CmpCall.compare]
  split
  · rcases compareFrom_add call.fold (!call.fn.isMemcmp) mem var m d 0 with h | ⟨hzero, hpre, hrest⟩
    · exact .inl h
    · refine .inr ⟨hzero, fun k hk => ?_, by rw [hrest, Nat.zero_add]⟩
      obtain ⟨hfold, hstop⟩ := hpre k hk
      rw [Nat.zero_add] at hfold hstop
      refine ⟨hfold.symm, fun hfn hvar => hstop ⟨?_, ?_⟩⟩
      · rw [isMemcmp_eq_false.mpr hfn]
        rfl
      · rw [hvar, fold_zero, fold_eq_zero] at hfold
        exact hfold
  · rcases compareFrom_add call.fold (!call.fn.isMemcmp) var mem m d 0 with h | ⟨hzero, hpre, hrest⟩
    · exact .inl h
    · refine .inr ⟨hzero, fun k hk => ?_, by rw [hrest, Nat.zero_add]⟩
      obtain ⟨hfold, hstop⟩ := hpre k hk
      rw [Nat.zero_add] at hfold hstop
      refine ⟨hfold, fun hfn hvar => hstop ⟨?_, hvar⟩⟩
      rw [isMemcmp_eq_false.mpr hfn]
      rfl

/-- Behind its NUL a constant has nothing to compare. -/
theorem compare_of_last {mem var : Bytes} {n N : ℕ} (hmem : call.StoredAt mem)
    (hfn : call.fn ≠ .memcmp) (hlen : call.constStr.length = n + 1)
    (hlast : call.constStr[n]? = some 0) (hN : call.constStr.length ≤ N) :
    call.compare mem var N = call.compare mem var call.constStr.length := by
  obtain ⟨d, rfl⟩ := Nat.exists_eq_add_of_le hN
  refine (compare_add mem var call.constStr.length d).resolve_right fun ⟨_, hpre, _⟩ => ?_
  obtain ⟨hfold, hvar⟩ := hpre n (by omega)
  rw [getElem?_constStr_eq hmem (by omega), Option.some.injEq] at hlast
  rw [hlast, fold_zero, fold_eq_zero] at hfold
  exact hvar hfn hfold

/-- `strcmp` and `strcasecmp`: the replaced call returns the sign-extended byte of the library
function's difference, whatever limit beyond the constant is put on that; in particular it finds the
strings equal exactly when the library function does. -/
theorem transformCmp_strcmp (call : CmpCall) (size N : ℕ) (mem var : Bytes) (r : BitVec 32 × ℕ)
    (hfn : call.fn.isSizedcmp = false) (hmem : call.StoredAt mem) (hsize : call.SizeIs size)
    (h : transformCmp call size var = some r) (hN : call.constStr.length ≤ N) :
    r.1.toInt = (call.compare mem var N).bmod 256 ∧
      (r.1 = 0 ↔ call.compare mem var N = 0) := by
  have hsel : call.selected = true := by
    rw [transformCmp] at h
    by_contra hnot
    rw [if_neg hnot] at h
    exact absurd h (by simp)
  have hne : call.str ≠ [] := by
    intro hnil
    have := selected_length hsel
    simp [hnil] at this
  obtain ⟨n, hlen, hlast⟩ := constStr_last hfn hne
  have hnot : call.fn ≠ .memcmp := by
    intro heq
    simp [heq, CmpFunction.isSizedcmp] at hfn
  have hbound : call.bound size = call.constStr.length := by rw [CmpCall.bound, hfn]; rfl
  rw [compare_of_last hmem hnot hlen hlast hN, ← hbound]
  exact ⟨transformCmp_value hmem hsize h, transformCmp_eq_zero_iff hmem hsize h⟩

/-- A text in memory, with NULs behind it. -/
def textAt (text : List Byte) : Bytes := fun i => text.getD i 0

theorem transformCmp_strcmp_case :
    (0x01#32 = 0 ↔ CmpCall.compare ⟨.strcasecmp, [65, 98], false, none⟩ (textAt [65, 98])
      (textAt [97, 66, 1]) 9 = 0) :=
  (transformCmp_strcmp ⟨.strcasecmp, [65, 98], false, none⟩ 0 9 (textAt [65, 98])
    (textAt [97, 66, 1]) (0x01#32, 3) rfl
    ⟨by decide, fun _ _ => rfl⟩ (by simp [CmpCall.SizeIs]) (by decide) (by decide)).2

/-- `strncmp` and `strncasecmp`: the replaced call answers zero where the library function does,
and, when no NUL was found with the constant, besides for every string that goes on behind the
constant when the size does too, because the terminating NUL is not compared. -/
theorem transformCmp_strncmp (call : CmpCall) (size : ℕ) (mem var : Bytes) (r : BitVec 32 × ℕ)
    (hfn : call.fn = .strncmp ∨ call.fn = .strncasecmp)
    (hmem : call.StoredAt mem) (hsize : call.SizeIs size)
    (h : transformCmp call size var = some r) :
    r.1 = 0 ↔ call.compare mem var size = 0 ∨
      (0 : Byte) ∉ call.str ∧ call.str.length < size ∧ var call.str.length ≠ 0 ∧
        ∀ k, k < call.str.length → call.fold (var k) = call.fold (mem k) := by
  have hsized : call.fn.isSizedcmp = true := by rcases hfn with hf | hf <;> rw [hf] <;> rfl
  have hnot : call.fn ≠ .memcmp := by rcases hfn with hf | hf <;> rw [hf] <;> decide
  have hstop : (!call.fn.isMemcmp) = true := by rw [isMemcmp_eq_false.mpr hnot]; rfl
  have htmp : call.tmpConstStr = call.str := by
    rw [CmpCall.tmpConstStr, hsized, Bool.not_true, Bool.false_and, if_neg Bool.false_ne_true]
  rw [transformCmp_eq_zero_iff hmem hsize h, CmpCall.bound, hsized, if_pos rfl]
  by_cases hplain : (0 : Byte) ∈ call.str
  · -- the constant is cut behind its NUL, which is compared
    rw [or_iff_left fun hor => hor.1 hplain]
    obtain ⟨n, hlen, hlast⟩ := constStr_last_of_mem hnot (htmp ▸ hplain)
    by_cases hle : size ≤ call.constStr.length
    · rw [Nat.min_eq_left hle]
    · rw [Nat.min_eq_right (by omega), compare_of_last (N := size) hmem hnot hlen hlast (by omega)]
  have hconst : call.constStr = call.str := by
    rw [CmpCall.constStr, htmp, if_neg]
    simpa using fun _ => hplain
  rw [hconst, and_iff_right hplain]
  have hnul := hmem.2 hnot hplain
  by_cases hle : size ≤ call.str.length
  · rw [Nat.min_eq_left hle]
    exact ⟨.inl, fun hor => hor.resolve_right fun hlt => absurd hlt.1 (Nat.not_lt.mpr hle)⟩
  · rw [Nat.min_eq_right (by omega)]
    obtain ⟨d, rfl⟩ : ∃ d, size = call.str.length + (d + 1) :=
      ⟨size - call.str.length - 1, by omega⟩
    -- behind the constant the library function compares with the NUL
    have hbehind : (if call.hasStr1 then
        compareFrom call.fold (!call.fn.isMemcmp) mem var (d + 1) call.str.length
        else compareFrom call.fold (!call.fn.isMemcmp) var mem (d + 1) call.str.length) = 0 ↔
        var call.str.length = 0 := by
      by_cases hvar : var call.str.length = 0
      · refine iff_of_true ?_ hvar
        split
        · rw [compareFrom_of_eq (by rw [hvar, hnul]), if_pos ⟨hstop, hnul⟩]
        · rw [compareFrom_of_eq (by rw [hvar, hnul]), if_pos ⟨hstop, hvar⟩]
      · have hne : call.fold (var call.str.length) ≠ call.fold (mem call.str.length) := by
          rw [hnul, fold_zero]
          exact fun hz => hvar (fold_eq_zero.mp hz)
        have hnat : (call.fold (var call.str.length)).toNat ≠
            (call.fold (mem call.str.length)).toNat := fun heq => hne (BitVec.eq_of_toNat_eq heq)
        refine iff_of_false ?_ hvar
        split
        · rw [compareFrom_of_ne hne.symm]
          omega
        · rw [compareFrom_of_ne hne]
          omega
    rcases compare_add mem var call.str.length (d + 1) with heq | ⟨hzero, hpre, hrest⟩
    · rw [heq]
      refine ⟨.inl, fun hor => hor.elim id fun ⟨_, _, hpre⟩ => ?_⟩
      rw [CmpCall.compare]
      split
      · exact compareFrom_of_agree fun k hk => by rw [Nat.zero_add, hpre k hk]
      · exact compareFrom_of_agree fun k hk => by rw [Nat.zero_add, hpre k hk]
    · rw [hrest, hbehind]
      refine iff_of_true hzero ?_
      by_cases hvar : var call.str.length = 0
      · exact .inl hvar
      · exact .inr ⟨by omega, hvar, fun k hk => (hpre k hk).1⟩

/-- `strncmp(x, "ab", 5)` is replaced by code that answers zero for `x = "abc"`. -/
theorem transformCmp_strncmp_longer :
    CmpCall.compare ⟨.strncmp, [97, 98], false, some 5⟩ (textAt [97, 98])
        (textAt [97, 98, 99]) 5 = 0 ∨
      (0 : Byte) ∉ ([97, 98] : List Byte) ∧ 2 < 5 ∧ textAt [97, 98, 99] 2 ≠ 0 ∧
        ∀ k, k < 2 → textAt [97, 98, 99] k = textAt [97, 98] k :=
  (transformCmp_strncmp ⟨.strncmp, [97, 98], false, some 5⟩ 5 (textAt [97, 98])
    (textAt [97, 98, 99]) (0#32, 2) (.inl rfl)
    ⟨by decide, fun _ _ => rfl⟩ (by simp [CmpCall.SizeIs]) (by decide)).mp rfl

/-- The chain reads a byte of the variable string only when all bytes before it agree with the
constant. -/
theorem blocks_reads {size rest i : ℕ} {var : Bytes} (hlen : i + rest ≤ call.constStr.length)
    (hsize : call.lenChecked = true → i ≤ size) {j : ℕ} (hi : i ≤ j)
    (hj : j < (call.blocks size var rest i).2) :
    j < i + rest ∧ (call.lenChecked = true → j < size) ∧
      ∀ k, i ≤ k → k < j → call.fold (var k) = call.fold (call.constStr.getD k 0) := by
  induction rest generalizing i with
  | zero => exact absurd hj (Nat.not_lt.mpr hi)
  | succ rest ih =>
    rw [blocks_succ] at hj
    split at hj
    next hcheck => exact absurd hj (Nat.not_lt.mpr hi)
    next hcheck =>
      have hnext : call.lenChecked = true → i < size := by
        intro hl
        have := hsize hl
        have : size ≠ i := fun heq => hcheck (by simp [hl, heq])
        omega
      dsimp only at hj
      by_cases hstop : rest = 0 ∨ (if call.hasStr1 then
          call.fold (call.constStr.getD i 0) - call.fold (var i)
        else call.fold (var i) - call.fold (call.constStr.getD i 0)) ≠ 0
      · rw [if_pos hstop] at hj
        obtain rfl : j = i := by omega
        exact ⟨by omega, hnext, fun k hik hki => absurd hki (Nat.not_lt.mpr hik)⟩
      · rw [if_neg hstop] at hj
        rw [not_or, not_not] at hstop
        have hfold : call.fold (var i) = call.fold (call.constStr.getD i 0) := by
          have hzero := hstop.2
          split at hzero <;> bv_omega
        by_cases hij : i = j
        · subst hij
          exact ⟨by omega, hnext, fun k hik hki => absurd hki (Nat.not_lt.mpr hik)⟩
        · obtain ⟨hlt, hn, hpre⟩ := ih (by omega) hnext (by omega) hj
          refine ⟨by omega, hn, fun k hik hkj => ?_⟩
          by_cases hki : k = i
          · rw [hki, hfold]
          · exact hpre k (by omega) hkj

/-- Memory safety of the replaced call: it reads a byte of the variable string only within the
constant's length and the size, and a string function only when no earlier byte was the string's
NUL; so it reads nothing the library function may not read. -/
theorem transformCmp_reads (call : CmpCall) (size j : ℕ) (var : Bytes) (r : BitVec 32 × ℕ)
    (hsize : call.SizeIs size) (h : transformCmp call size var = some r) (hj : j < r.2) :
    j < call.constStr.length ∧ (call.fn.isSizedcmp = true → j < size) ∧
      (call.fn ≠ .memcmp → ∀ k, k < j → var k ≠ 0) := by
  rw [transformCmp] at h
  split at h
  next hsel =>
    cases h
    have hlen : 0 + call.unrollLen ≤ call.constStr.length := by
      rw [CmpCall.unrollLen, Nat.zero_add]
      split <;> omega
    obtain ⟨hlt, hn, hpre⟩ := blocks_reads hlen (fun _ => Nat.zero_le size) (Nat.zero_le j) hj
    refine ⟨by omega, fun hs => ?_, fun hfn k hk hzero => ?_⟩
    · by_cases hl : call.lenChecked = true
      · exact hn hl
      · have hc : call.isConstSized = true := by simpa [CmpCall.lenChecked, hs] using hl
        rw [CmpCall.unrollLen, if_pos hc] at hlt
        obtain ⟨n, hsome⟩ := Option.isSome_iff_exists.mp (Bool.and_eq_true _ _ ▸ hc : _ ∧ _).2
        rw [hsome, Option.getD_some] at hlt
        rw [hsize n hsome]
        omega
    · have hfold := hpre k (Nat.zero_le k) hk
      rw [hzero, fold_zero, eq_comm, fold_eq_zero] at hfold
      have hklen : k < call.constStr.length := by omega
      refine constStr_ne_zero hfn (i := k) (by omega) ?_
      rw [List.getD_eq_getElem?_getD, List.getElem?_eq_getElem hklen, Option.getD_some] at hfold
      rw [List.getElem?_eq_getElem hklen, hfold]
  next hsel => cases h

theorem transformCmp_reads_shorter :
    1 < 3 ∧ (CmpFunction.isSizedcmp .strcmp = true → 1 < 0) ∧
      (CmpFunction.strcmp ≠ .memcmp → ∀ k, k < 1 → textAt [97] k ≠ 0) :=
  transformCmp_reads ⟨.strcmp, [97, 98], true, none⟩ 0 1 (textAt [97]) (98#32, 2)
    (by simp [CmpCall.SizeIs]) (by decide) (by decide)

end AflPlusPlus.Laf
