import AflPlusPlus.Lib.Digits
import AflPlusPlus.Lib.Memory
import Mathlib.Data.List.Nodup

/-!
# The traces that corpus minimization works with

`afl-cmin.py` gives a batch of files to `afl-showmap`, which writes one text of tuples for every
file into a directory under the file's base name, and reads the texts back. With distinct base names
every file gets the tuples of its own run; a tuple's code stands for one pair of an edge and a hit
count class.
-/

namespace AflPlusPlus.Cmin
open Lib

/-- `count_class_human`. -/
def countClassHuman (v : Byte) : ℕ :=
  if v.toNat < 4 then v.toNat
  else if v.toNat < 8 then 4
  else if v.toNat < 16 then 5
  else if v.toNat < 32 then 6
  else if v.toNat < 128 then 7
  else 8

/-- What a run of `afl-showmap` on one file does: skip it (not regular, or empty), reject it (a
timeout, or a crash that was not asked for), or write its trace. -/
inductive Outcome
  | skipped
  | rejected
  | traced (trace : Bytes)

structure Input where
  basename : List Byte
  digest : List Byte
  size : ℕ
  outcome : Outcome

variable (edgesOnly : Bool) (mapSize : ℕ)

/-- A byte of `trace_bits` after `classify_counts`; one hit of edge 0 is the target's mark that it
ran. -/
def resultBits (trace : Bytes) (i : ℕ) : ℕ :=
  let v := if i = 0 ∧ trace 0 ≠ 0 then trace 0 - 1 else trace i
  if edgesOnly then (if v = 0 then 0 else 1) else countClassHuman v

/-- `"%u%03u"`. -/
def resultLine (i c : ℕ) : List Byte := digitBytes i ++ (decimal 3 c).map (BitVec.ofNat 8)

/-- The text that `write_results_to_file` writes. -/
def resultLines (trace : Bytes) : List (List Byte) :=
  (List.range mapSize).filterMap fun i =>
    if resultBits edgesOnly trace i = 0 then none
    else some (resultLine i (resultBits edgesOnly trace i))

/-- The output directory: texts by base name. -/
abbrev Directory := List Byte → Option (List (List Byte))

/-- An empty text is created for a rejected file unless there is one of its name. -/
def writeResults (dir : Directory) (file : Input) : Directory :=
  match file.outcome with
  | .skipped => dir
  | .rejected =>
    if (dir file.basename).isSome then dir else Function.update dir file.basename (some [])
  | .traced trace =>
    Function.update dir file.basename (some (resultLines edgesOnly mapSize trace))

/-- `(t // 1000) * 9 + t % 1000`. -/
def tupleCode (t : ℕ) : ℕ := t / 1000 * 9 + t % 1000

/-- The result for one file: its index, its tuples, and whether it counts as a crash. -/
structure Job where
  idx : ℕ
  r : List ℕ
  crash : Bool
deriving DecidableEq

/-- Texts are removed as they are read. -/
def readResults : Directory → List (ℕ × Input) → List Job
  | _, [] => []
  | dir, (idx, file) :: batch =>
    match dir file.basename with
    | none => ⟨idx, [], true⟩ :: readResults dir batch
    | some lines =>
      let values := lines.map decimalValue
      ⟨idx, values.map tupleCode, values.isEmpty⟩ ::
        readResults (Function.update dir file.basename none) batch

/-- `afl_showmap` on a batch. -/
def aflShowmap (batch : List (ℕ × Input)) : List Job :=
  readResults (batch.foldl (fun dir e => writeResults edgesOnly mapSize dir e.2) fun _ => none)
    batch

/-- The codes of the tuples in a file's own run. -/
def Input.tuples (file : Input) : List ℕ :=
  match file.outcome with
  | .traced trace =>
    (List.range mapSize).filterMap fun i =>
      if resultBits edgesOnly trace i = 0 then none
      else some (i * 9 + resultBits edgesOnly trace i)
  | _ => []

/-! ### Tuples -/

theorem resultBits_lt (trace : Bytes) (i : ℕ) : resultBits edgesOnly trace i < 9 := by
  rw [resultBits]
  cases edgesOnly with
  | true => simp only [if_true]; split_ifs <;> decide
  | false =>
    simp only [Bool.false_eq_true, if_false, countClassHuman]
    split_ifs <;> omega

/-- Printing and reading a tuple gives its code. -/
theorem tupleCode_resultLine {i c : ℕ} (hc : c < 1000) :
    tupleCode (decimalValue (resultLine i c)) = i * 9 + c := by
  have hvalue : decimalValue (resultLine i c) = 10 ^ 3 * i + c := by
    rw [resultLine, decimalValue, List.foldl_append, foldl_map_decimal,
      printWidth_of_lt (by decide) hc]
    rw [show List.foldl (fun v c => v * 10 + digitValue c) 0 (digitBytes i) = i from
      decimalValue_digitBytes i]
  rw [hvalue, tupleCode]
  omega

/-- The codes stand for edges with a hit count class. -/
theorem mem_tuples_iff {file : Input} {t : ℕ} :
    t ∈ file.tuples edgesOnly mapSize ↔ ∃ trace, file.outcome = .traced trace ∧
      t / 9 < mapSize ∧ resultBits edgesOnly trace (t / 9) = t % 9 ∧ t % 9 ≠ 0 := by
  cases hout : file.outcome with
  | skipped => simp [Input.tuples, hout]
  | rejected => simp [Input.tuples, hout]
  | traced trace =>
    rw [Input.tuples, hout]
    simp only [Outcome.traced.injEq, exists_eq_left']
    rw [List.mem_filterMap]
    constructor
    · rintro ⟨i, hi, hsome⟩
      have hlt := resultBits_lt edgesOnly trace i
      split_ifs at hsome with hzero
      obtain rfl : i * 9 + resultBits edgesOnly trace i = t := Option.some.inj hsome
      have hdiv : (i * 9 + resultBits edgesOnly trace i) / 9 = i := by omega
      rw [hdiv]
      exact ⟨List.mem_range.mp hi, by omega, by omega⟩
    · rintro ⟨hlt, hbits, hne⟩
      refine ⟨t / 9, List.mem_range.mpr hlt, ?_⟩
      rw [hbits, if_neg hne]
      congr 1
      omega

theorem tuples_lt {file : Input} {t : ℕ} (h : t ∈ file.tuples edgesOnly mapSize) :
    t < mapSize * 9 := by
  obtain ⟨trace, -, hlt, -⟩ := (mem_tuples_iff edgesOnly mapSize).mp h
  omega

theorem nodup_tuples (file : Input) : (file.tuples edgesOnly mapSize).Nodup := by
  rw [Input.tuples]
  split
  · rename_i trace _
    refine List.Nodup.filterMap ?_ List.nodup_range
    intro i j t hi hj
    have hi' := resultBits_lt edgesOnly trace i
    have hj' := resultBits_lt edgesOnly trace j
    split_ifs at hi hj <;> simp only [Option.mem_def, Option.some.injEq, reduceCtorEq] at hi hj
    omega
  · exact List.nodup_nil

/-! ### Batches -/

/-- The text a file's own run leaves. -/
def Input.text (file : Input) : Option (List (List Byte)) :=
  match file.outcome with
  | .skipped => none
  | .rejected => some []
  | .traced trace => some (resultLines edgesOnly mapSize trace)

/-- The result that a file's own run gives. -/
def Input.job (idx : ℕ) (file : Input) : Job :=
  ⟨idx, file.tuples edgesOnly mapSize, (file.tuples edgesOnly mapSize).isEmpty⟩

variable {edgesOnly mapSize}

theorem writeResults_of_fresh {dir : Directory} {file : Input} (h : dir file.basename = none) :
    writeResults edgesOnly mapSize dir file =
      Function.update dir file.basename (file.text edgesOnly mapSize) := by
  rw [writeResults, Input.text]
  cases file.outcome with
  | skipped => exact (h ▸ Function.update_eq_self file.basename dir).symm
  | rejected =>
    simp only
    rw [h]
    rfl
  | traced trace => rfl

/-- With distinct names every text is in its place after the run. -/
theorem writeAll_spec {batch : List (ℕ × Input)} (hnodup : (batch.map (·.2.basename)).Nodup)
    {dir : Directory} (hfresh : ∀ e ∈ batch, dir e.2.basename = none) :
    (∀ e ∈ batch, (batch.foldl (fun dir e => writeResults edgesOnly mapSize dir e.2) dir)
        e.2.basename = e.2.text edgesOnly mapSize) ∧
      ∀ name, name ∉ batch.map (·.2.basename) →
        (batch.foldl (fun dir e => writeResults edgesOnly mapSize dir e.2) dir) name =
          dir name := by
  induction batch generalizing dir with
  | nil => exact ⟨fun e he => absurd he List.not_mem_nil, fun _ _ => rfl⟩
  | cons e batch ih =>
    rw [List.map_cons, List.nodup_cons] at hnodup
    rw [List.forall_mem_cons] at hfresh
    have hlater : ∀ d ∈ batch, Function.update dir e.2.basename
        (e.2.text edgesOnly mapSize) d.2.basename = none := by
      intro d hd
      have hne : d.2.basename ≠ e.2.basename := fun heq =>
        hnodup.1 (List.mem_map.mpr ⟨d, hd, heq⟩)
      rw [Function.update_of_ne hne]
      exact hfresh.2 d hd
    rw [List.foldl_cons, writeResults_of_fresh hfresh.1]
    obtain ⟨hmem, hrest⟩ := ih hnodup.2 hlater
    refine ⟨List.forall_mem_cons.mpr ⟨?_, hmem⟩, fun name hname => ?_⟩
    · rw [hrest _ hnodup.1, Function.update_self]
    · rw [List.map_cons, List.mem_cons, not_or] at hname
      rw [hrest name hname.2, Function.update_of_ne hname.1]

theorem map_tupleCode_resultLines (trace : Bytes) :
    ((resultLines edgesOnly mapSize trace).map decimalValue).map tupleCode =
      (List.range mapSize).filterMap fun i =>
        if resultBits edgesOnly trace i = 0 then none
        else some (i * 9 + resultBits edgesOnly trace i) := by
  rw [resultLines, List.map_map, List.map_filterMap]
  refine List.filterMap_congr fun i _ => ?_
  have hlt := resultBits_lt edgesOnly trace i
  split_ifs with hzero
  · rfl
  · rw [Option.map_some, Function.comp_apply, tupleCode_resultLine (by omega)]

theorem readResults_spec {batch : List (ℕ × Input)} (hnodup : (batch.map (·.2.basename)).Nodup)
    {dir : Directory} (hdir : ∀ e ∈ batch, dir e.2.basename = e.2.text edgesOnly mapSize) :
    readResults dir batch = batch.map fun e => e.2.job edgesOnly mapSize e.1 := by
  induction batch generalizing dir with
  | nil => rfl
  | cons e batch ih =>
    obtain ⟨idx, file⟩ := e
    rw [List.map_cons, List.nodup_cons] at hnodup
    rw [List.forall_mem_cons] at hdir
    have hlater (lines : Option (List (List Byte))) (d : ℕ × Input) (hd : d ∈ batch) :
        Function.update dir file.basename lines d.2.basename = dir d.2.basename :=
      Function.update_of_ne (fun heq => hnodup.1 (List.mem_map.mpr ⟨d, hd, heq⟩)) ..
    rw [readResults, hdir.1, List.map_cons, Input.text, Input.job, Input.tuples]
    cases file.outcome with
    | skipped => exact congrArg _ (ih hnodup.2 hdir.2)
    | rejected => exact congrArg _ (ih hnodup.2 fun d hd => (hlater none d hd).trans (hdir.2 d hd))
    | traced trace =>
      have hrest := ih hnodup.2 fun d hd => (hlater none d hd).trans (hdir.2 d hd)
      simp only [hrest, ← map_tupleCode_resultLines, List.isEmpty_map]

/-- Every file of a batch gets the tuples of its own run. -/
theorem aflShowmap_eq {batch : List (ℕ × Input)} (hnodup : (batch.map (·.2.basename)).Nodup) :
    aflShowmap edgesOnly mapSize batch = batch.map fun e => e.2.job edgesOnly mapSize e.1 :=
  readResults_spec hnodup (writeAll_spec hnodup fun _ _ => rfl).1

theorem length_readResults (dir : Directory) (batch : List (ℕ × Input)) :
    (readResults dir batch).length = batch.length := by
  induction batch generalizing dir with
  | nil => rfl
  | cons e batch ih =>
    rw [readResults]
    split
    · rw [List.length_cons, List.length_cons, ih]
    · rw [List.length_cons, List.length_cons, ih]

/-- There is a result for every file, whatever their names are. -/
theorem length_aflShowmap (batch : List (ℕ × Input)) :
    (aflShowmap edgesOnly mapSize batch).length = batch.length :=
  length_readResults _ batch

end AflPlusPlus.Cmin
