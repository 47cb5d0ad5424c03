import AflPlusPlus.Replay.Record
import AflPlusPlus.Resume.Depth

/-!
# Replaying a record

A target that is started with `AFL_PERSISTENT_REPLAY` reads the files of one record from the
directory and feeds them to its persistent loop. What it is fed is what the child was given whose
crash or hang was recorded: the last inputs, in order, without empty ones.
-/

namespace AflPlusPlus.Replay
open Lib

/-- `select_files` on a name. -/
def selectFiles (replayRecord : ℕ) (name : Name) : Bool :=
  name.head? ≠ some 46 && decide (ascii "RECORD:" ++ decimal 6 replayRecord <:+: name)

/-- `sscanf` with `RECORD:%*u,cnt:%06u`; what is not read stays 0. -/
def scanCnt (name : Name) : ℕ :=
  if ascii "RECORD:" <+: name then
    let number := match (name.drop 7).dropWhile isSpace with
      | 45 :: rest => rest
      | 43 :: rest => rest
      | rest => rest
    if (number.takeWhile isDigit).isEmpty then 0
    else if ascii ",cnt:" <+: number.dropWhile isDigit then
      (scanId ((number.dropWhile isDigit).drop 5)).getD 0
    else 0
  else 0

/-- `scandir` with `select_files` and `compare_files`. -/
def scandir (replayRecord : ℕ) (d : Dir) : Dir :=
  sortBy (fun f => scanCnt f.1) (d.filter fun f => selectFiles replayRecord f.1)

/-- What a call of `__afl_persistent_loop` does: it ends the loop, or it goes on with the file
opened as the input, which is missing when the index is past the end of `record_list`. -/
inductive Call
  | done
  | again (file : Option (List Byte))

/-- The static variables of the loop in the runtime. -/
structure LoopState where
  firstPass : Bool
  cycleCnt : ℕ

/-- `__afl_persistent_loop` of the runtime while a record is replayed. -/
def persistentLoop (records : Dir) (s : LoopState) : Call × LoopState :=
  if s.firstPass then
    (.again (records[0]?.map Prod.snd), { firstPass := false, cycleCnt := records.length })
  else
    let cycleCnt := (s.cycleCnt + 2 ^ 32 - 1) % 2 ^ 32
    if cycleCnt ≠ 0 then
      (.again (records[records.length - cycleCnt]?.map Prod.snd), { s with cycleCnt := cycleCnt })
    else (.done, { s with cycleCnt := cycleCnt })

/-- The static variables of the loop in `afl-record-compat.h`. -/
structure CompatState where
  inited : Bool
  cycleCnt : ℕ

/-- `__afl_persistent_loop` of `afl-record-compat.h` while a record is replayed. -/
def compatLoop (records : Dir) (s : CompatState) : Call × CompatState :=
  if s.cycleCnt ≠ 0 then
    let cycleCnt := if s.inited then s.cycleCnt else records.length
    (.again (records[records.length - cycleCnt]?.map Prod.snd),
      { inited := true, cycleCnt := cycleCnt - 1 })
  else (.done, { s with cycleCnt := 2 ^ 32 - 1 })

/-- The inputs that a harness is fed from a state of its loop to the end of it. -/
inductive Feeds {σ : Type} (call : σ → Call × σ) : σ → List (List Byte) → Prop
  | done {s : σ} : (call s).1 = .done → Feeds call s []
  | again {s : σ} {content : List Byte} {rest : List (List Byte)} :
      (call s).1 = .again (some content) → Feeds call (call s).2 rest →
      Feeds call s (content :: rest)

/-! ### The loops -/

variable {records d : Dir} {fileExtension : Option Name} {c c' j : ℕ} {name : Name}

/-- From the call on that opens file `i`, the files from `i` on are fed. -/
theorem feeds_persistentLoop_from (hlen : records.length < 2 ^ 32) {n i : ℕ}
    (hn : i + n = records.length) (hi : 0 < i) :
    Feeds (persistentLoop records) ⟨false, n + 1⟩ ((records.drop i).map Prod.snd) := by
  induction n generalizing i with
  | zero =>
    rw [List.drop_of_length_le (by omega)]
    exact .done rfl
  | succ n ih =>
    have hlt : i < records.length := by omega
    have hcycle : (n + 1 + 1 + 2 ^ 32 - 1) % 2 ^ 32 = n + 1 := by omega
    have hcall : persistentLoop records ⟨false, n + 1 + 1⟩ =
        (.again (some records[i].2), ⟨false, n + 1⟩) := by
      rw [persistentLoop, if_neg Bool.false_ne_true]
      dsimp only
      rw [hcycle, if_pos (by omega), show records.length - (n + 1) = i by omega,
        List.getElem?_eq_getElem hlt, Option.map_some]
    rw [List.drop_eq_getElem_cons hlt, List.map_cons]
    refine .again (congrArg Prod.fst hcall) ?_
    rw [hcall]
    exact ih (by omega) (by omega)

/-- The runtime feeds every file once, in the order of the list. -/
theorem feeds_persistentLoop (hne : records ≠ []) (hlen : records.length < 2 ^ 32) (n : ℕ) :
    Feeds (persistentLoop records) ⟨true, n⟩ (records.map Prod.snd) := by
  obtain ⟨f, rest, rfl⟩ := List.exists_cons_of_ne_nil hne
  exact .again rfl (feeds_persistentLoop_from (i := 1) (n := rest.length) hlen
    (Nat.add_comm ..) Nat.one_pos)

theorem feeds_compatLoop_from {n i : ℕ} (hn : i + n = records.length) :
    Feeds (compatLoop records) ⟨true, n⟩ ((records.drop i).map Prod.snd) := by
  induction n generalizing i with
  | zero =>
    rw [List.drop_of_length_le (by omega)]
    exact .done rfl
  | succ n ih =>
    have hlt : i < records.length := by omega
    have hcall : compatLoop records ⟨true, n + 1⟩ = (.again (some records[i].2), ⟨true, n⟩) := by
      rw [compatLoop, if_pos (Nat.succ_ne_zero n)]
      dsimp only
      rw [if_pos rfl, show records.length - (n + 1) = i by omega, List.getElem?_eq_getElem hlt,
        Option.map_some]
      rfl
    rw [List.drop_eq_getElem_cons hlt, List.map_cons]
    refine .again (congrArg Prod.fst hcall) ?_
    rw [hcall]
    exact ih (by omega)

/-- And so does the header for other compilers. -/
theorem feeds_compatLoop (hne : records ≠ []) :
    Feeds (compatLoop records) ⟨false, 1⟩ (records.map Prod.snd) := by
  obtain ⟨f, rest, rfl⟩ := List.exists_cons_of_ne_nil hne
  have hcall : compatLoop (f :: rest) ⟨false, 1⟩ = (.again (some f.2), ⟨true, rest.length⟩) := by
    rw [compatLoop, if_pos Nat.one_ne_zero]
    dsimp only
    rw [if_neg Bool.false_ne_true, Nat.sub_self]
    rfl
  refine .again (congrArg Prod.fst hcall) ?_
  rw [hcall]
  exact feeds_compatLoop_from (i := 1) (Nat.add_comm ..)

/-! ### The names -/

theorem record_eq : ascii "RECORD:" = [82, 69, 67, 79, 82, 68, 58] := by decide

/-- A pattern does not start in a text without its first character. -/
theorem infix_append_of_ne {a : ℕ} {p xs ys : Name} (h : ∀ x ∈ xs, x ≠ a) :
    a :: p <:+: xs ++ ys ↔ a :: p <:+: ys := by
  induction xs with
  | nil => rfl
  | cons x xs ih =>
    rw [List.cons_append, List.infix_cons_iff, ih fun y hy => h y (List.mem_cons_of_mem x hy)]
    refine or_iff_right fun hstart => ?_
    exact h x (List.mem_cons_self ..) (List.cons_prefix_cons.mp hstart).1.symm

theorem decimal_ne_R (n : ℕ) : ∀ x ∈ decimal 6 n, x ≠ 82 := by
  intro x hx
  have := fixDigits_digit hx
  omega

/-- A record's number is looked for at the start of a record's name only. -/
theorem infix_recordName_iff (hext : ¬ ascii "RECORD:" <:+: dotExtension fileExtension) (p : Name) :
    ascii "RECORD:" ++ p <:+: recordName fileExtension c j ↔
      ascii "RECORD:" ++ p <+: recordName fileExtension c j := by
  have hcomma : ∀ x ∈ ascii ",cnt:", x ≠ 82 := by decide
  have hend : ¬ 82 :: ([69, 67, 79, 82, 68, 58] ++ p) <:+: dotExtension fileExtension := by
    intro hin
    refine hext (List.IsInfix.trans ?_ hin)
    rw [record_eq]
    exact (List.prefix_append [82, 69, 67, 79, 82, 68, 58] p).isInfix
  have hname : recordName fileExtension c j = 82 :: ([69, 67, 79] ++ 82 :: ([68, 58] ++
      (decimal 6 c ++ (ascii ",cnt:" ++ (decimal 6 j ++ dotExtension fileExtension))))) := by
    rw [recordName, record_eq]
    simp only [List.append_assoc, List.cons_append, List.nil_append]
  have hpattern : ascii "RECORD:" ++ p = 82 :: ([69, 67, 79, 82, 68, 58] ++ p) := by
    rw [record_eq]
    rfl
  rw [hname, hpattern, List.infix_cons_iff, infix_append_of_ne (by decide), List.infix_cons_iff,
    infix_append_of_ne (by decide), infix_append_of_ne (decimal_ne_R c),
    infix_append_of_ne hcomma, infix_append_of_ne (decimal_ne_R j)]
  refine or_iff_left ?_
  rintro (hstart | hin)
  · have := (List.cons_prefix_cons.mp hstart).2
    rw [List.cons_append, List.cons_append] at this
    exact absurd (List.cons_prefix_cons.mp this).1 (by decide)
  · exact hend hin

/-- Below a million records, exactly the files of the record are selected. -/
theorem selectFiles_recordName (hext : ¬ ascii "RECORD:" <:+: dotExtension fileExtension)
    (hc : c < 10 ^ 6) (hc' : c' < 10 ^ 6) :
    selectFiles c (recordName fileExtension c' j) = true ↔ c' = c := by
  have hhead : (recordName fileExtension c' j).head? ≠ some 46 := by
    rw [recordName, record_eq]
    simp
  rw [selectFiles, Bool.and_eq_true, decide_eq_true_iff, decide_eq_true_iff,
    infix_recordName_iff hext, and_iff_right hhead, recordName]
  simp only [List.append_assoc]
  rw [List.prefix_append_right_inj]
  constructor
  · rintro ⟨t, ht⟩
    have hlen : (decimal 6 c).length = (decimal 6 c').length := by
      rw [decimal_length (by decide) hc, decimal_length (by decide) hc']
    exact (decimal_injective 6 (List.append_inj_left ht hlen)).symm
  · rintro rfl
    exact List.prefix_append ..

theorem selectFiles_of_not (hname : ¬ ascii "RECORD:" <:+: name) : selectFiles c name = false := by
  rw [selectFiles, Bool.and_eq_false_iff]
  refine .inr (decide_eq_false fun hin => hname ?_)
  exact List.IsInfix.trans (List.prefix_append ..).isInfix hin

/-- The number of a file is read back from its name. -/
theorem scanCnt_recordName (hj : j < 10 ^ 6) : scanCnt (recordName fileExtension c j) = j := by
  have hname : recordName fileExtension c j = ascii "RECORD:" ++ (decimal 6 c ++
      (ascii ",cnt:" ++ (decimal 6 j ++ dotExtension fileExtension))) := by
    rw [recordName]
    simp only [List.append_assoc]
  obtain ⟨x, text, htext⟩ : ∃ x text, decimal 6 c = x :: text := by
    refine List.exists_cons_of_ne_nil (List.ne_nil_of_length_pos ?_)
    rw [decimal, fixDigits_length, printWidth]
    omega
  have hx : 48 ≤ x ∧ x ≤ 57 := fixDigits_digit (htext ▸ List.mem_cons_self)
  have hdigits := isDigit_decimal 6 c
  generalize hrest : ascii ",cnt:" ++ (decimal 6 j ++ dotExtension fileExtension) = rest at hname
  have hcomma : rest.takeWhile isDigit = [] ∧ rest.dropWhile isDigit = rest := by
    rw [← hrest]
    exact ⟨List.takeWhile_cons_of_neg (by decide), List.dropWhile_cons_of_neg (by decide)⟩
  have hspace : (decimal 6 c ++ rest).dropWhile isSpace = decimal 6 c ++ rest := by
    rw [htext, List.cons_append, List.dropWhile_cons_of_neg]
    simp only [isSpace, decide_eq_true_eq]
    omega
  have htake : (decimal 6 c ++ rest).takeWhile isDigit = decimal 6 c := by
    rw [List.takeWhile_append_of_pos hdigits, hcomma.1, List.append_nil]
  have hdrop : (decimal 6 c ++ rest).dropWhile isDigit = rest := by
    rw [List.dropWhile_append_of_pos hdigits, hcomma.2]
  have hnumber : (match decimal 6 c ++ rest with
      | 45 :: rest => rest
      | 43 :: rest => rest
      | rest => rest) = decimal 6 c ++ rest := by
    rw [htext, List.cons_append]
    split
    · rename_i heq
      injection heq
      omega
    · rename_i heq
      injection heq
      omega
    · rfl
  have hseven : (ascii "RECORD:" ++ (decimal 6 c ++ rest)).drop 7 = decimal 6 c ++ rest := rfl
  rw [hname, scanCnt, if_pos (List.prefix_append ..), hseven, hspace]
  dsimp only
  rw [hnumber, htake, hdrop, htext]
  rw [if_neg (by exact Bool.false_ne_true), ← hrest, if_pos (List.prefix_append ..)]
  have hfive : (ascii ",cnt:" ++ (decimal 6 j ++ dotExtension fileExtension)).drop 5 =
      decimal 6 j ++ dotExtension fileExtension := rfl
  rw [hfive, scanId_decimal hj, Option.getD_some]

/-! ### The directory -/

/-- The files that `scandir` selects, as they stand in the directory. -/
def chosen (c : ℕ) (d : Dir) : Dir := d.filter fun f => selectFiles c f.1

/-- The files of a record, numbered from `writecnt` on. -/
def recordFiles (fileExtension : Option Name) (c : ℕ) (inputs : List (List Byte))
    (writecnt : ℕ) : Dir :=
  (inputs.zipIdx writecnt).map fun x => (recordName fileExtension c x.2, x.1)

variable {content : List Byte} {inputs : List (List Byte)} {writecnt : ℕ}

theorem chosen_write_of_not (hname : selectFiles c name = false) :
    chosen c (d.write name content) = chosen c d := by
  rw [chosen, Dir.write, List.filter_cons_of_neg (by rw [hname]; exact Bool.false_ne_true),
    List.filter_filter]
  refine List.filter_congr fun f _ => ?_
  obtain hsame | hother := eq_or_ne f.1 name
  · rw [hsame, hname, Bool.false_and]
  · rw [decide_eq_true hother, Bool.and_true]

theorem chosen_write_new (hname : selectFiles c name = true)
    (hnew : ∀ f ∈ chosen c d, f.1 ≠ name) :
    chosen c (d.write name content) = (name, content) :: chosen c d := by
  rw [chosen, Dir.write, List.filter_cons_of_pos (by exact hname), List.filter_filter]
  congr 1
  refine List.filter_congr fun f hf => ?_
  cases hsel : selectFiles c f.1 with
  | false => rfl
  | true => exact decide_eq_true (hnew f (List.mem_filter.mpr ⟨hf, hsel⟩))

section
variable (hext : ¬ ascii "RECORD:" <:+: dotExtension fileExtension)
include hext

/-- A record does not touch the files of another one. -/
theorem chosen_saveAll_of_ne (hc : c < 10 ^ 6) (hc' : c' < 10 ^ 6) (hne : c' ≠ c) :
    chosen c (saveAll fileExtension c' inputs writecnt d) = chosen c d := by
  induction inputs generalizing writecnt d with
  | nil => rfl
  | cons content inputs ih =>
    rw [saveAll, ih]
    refine chosen_write_of_not (Bool.eq_false_iff.mpr fun hsel => hne ?_)
    exact (selectFiles_recordName hext hc hc').mp hsel

theorem chosen_saveAll (hc : c < 10 ^ 6) (hlen : writecnt + inputs.length ≤ 10 ^ 6)
    (hd : ∀ f ∈ chosen c d, ∃ j < writecnt, f.1 = recordName fileExtension c j) :
    (chosen c (saveAll fileExtension c inputs writecnt d)).Perm
      (recordFiles fileExtension c inputs writecnt ++ chosen c d) := by
  induction inputs generalizing writecnt d with
  | nil => exact .refl _
  | cons content inputs ih =>
    rw [List.length_cons] at hlen
    have hnew : ∀ f ∈ chosen c d, f.1 ≠ recordName fileExtension c writecnt := by
      intro f hf heq
      obtain ⟨j, hj, hname⟩ := hd f hf
      have hscan := congrArg scanCnt (hname.symm.trans heq)
      rw [scanCnt_recordName (by omega), scanCnt_recordName (by omega)] at hscan
      omega
    have hwrite : chosen c (d.write (recordName fileExtension c writecnt) content) =
        (recordName fileExtension c writecnt, content) :: chosen c d :=
      chosen_write_new ((selectFiles_recordName hext hc hc).mpr rfl) hnew
    rw [saveAll]
    refine (ih (by omega) fun f hf => ?_).trans ?_
    · rw [hwrite] at hf
      obtain rfl | hf := List.mem_cons.mp hf
      · exact ⟨writecnt, Nat.lt_succ_self _, rfl⟩
      · obtain ⟨j, hj, hname⟩ := hd f hf
        exact ⟨j, Nat.lt_succ_of_lt hj, hname⟩
    · rw [hwrite]
      exact List.perm_middle

end

theorem map_scanCnt_recordFiles (hlen : writecnt + inputs.length ≤ 10 ^ 6) :
    (recordFiles fileExtension c inputs writecnt).map (fun f => scanCnt f.1) =
      List.range' writecnt inputs.length := by
  induction inputs generalizing writecnt with
  | nil => rfl
  | cons content inputs ih =>
    rw [List.length_cons] at hlen ⊢
    rw [recordFiles, List.zipIdx_cons, List.map_cons, List.map_cons,
      scanCnt_recordName (by omega), List.range'_succ]
    congr 1
    exact ih (by omega)

theorem map_snd_recordFiles :
    (recordFiles fileExtension c inputs writecnt).map Prod.snd = inputs := by
  rw [recordFiles, List.map_map]
  exact List.zipIdx_map_fst writecnt inputs

/-- The files of a record are listed in the order of their numbers. -/
theorem scandir_eq (hlen : inputs.length ≤ 10 ^ 6)
    (hperm : (chosen c d).Perm (recordFiles fileExtension c inputs 0)) :
    scandir c d = recordFiles fileExtension c inputs 0 := by
  have hkeys : (recordFiles fileExtension c inputs 0).map (fun f => scanCnt f.1) =
      List.range' 0 inputs.length := map_scanCnt_recordFiles (by omega)
  have hnodup : ((chosen c d).map fun f => scanCnt f.1).Nodup := by
    rw [(hperm.map _).nodup_iff, hkeys]
    exact List.nodup_range'
  have hsorted : (recordFiles fileExtension c inputs 0).Pairwise
      fun f g => scanCnt f.1 < scanCnt g.1 := by
    rw [← List.pairwise_map (f := fun f : Name × List Byte => scanCnt f.1) (R := (· < ·)), hkeys]
    exact List.pairwise_lt_range'
  refine ((sortBy_perm _ _).trans hperm).eq_of_pairwise
    (fun f g _ _ hfg hgf => absurd hfg hgf.asymm) (sortBy_pairwise_lt hnodup) hsorted

/-! ### From the execution to the replay -/

/-- Inputs are shorter than 4 GB, and no other file has the name of a record. -/
def Event.Fits : Event → Prop
  | .execute e => e.input.length < 2 ^ 32
  | .elsewhere input => input.length < 2 ^ 32
  | .save _ name _ => ¬ ascii "RECORD:" <:+: name

/-- The event gives an input to the child and records it, or has nothing to do with both. -/
def Event.Given : Event → Prop
  | .execute e => e.trimming = false
  | .elsewhere _ => False
  | .save _ _ _ => True

instance : (event : Event) → Decidable event.Fits
  | .execute e => inferInstanceAs (Decidable (e.input.length < 2 ^ 32))
  | .elsewhere input => inferInstanceAs (Decidable (input.length < 2 ^ 32))
  | .save _ name _ => inferInstanceAs (Decidable (¬ ascii "RECORD:" <:+: name))

variable {size : ℕ} {events before after : List Event} {event : Event} {e : Execution} {f : Fuzzer}
  {kind : Kind}

instance : (event : Event) → Decidable event.Given
  | .execute e => inferInstanceAs (Decidable (e.trimming = false))
  | .elsewhere _ => inferInstanceAs (Decidable False)
  | .save _ _ _ => inferInstanceAs (Decidable True)

theorem Event.Given.recorded_eq (hgiven : event.Given) :
    event.recorded = event.execution.map Execution.input := by
  cases event with
  | execute e => exact if_neg (Bool.eq_false_iff.mp hgiven)
  | elsewhere input => exact hgiven.elim
  | save kind name content => rfl

theorem cnt_le_handle : f.recorder.cnt ≤ (handle size fileExtension f event).recorder.cnt := by
  cases event with
  | execute e =>
    rw [handle, cnt_execute]
    exact Nat.le_add_right ..
  | elsewhere input => exact Nat.le_refl _
  | save kind name content => exact Nat.le_refl _

theorem cnt_le_foldl : f.recorder.cnt ≤
    (events.foldl (handle size fileExtension) f).recorder.cnt := by
  induction events generalizing f with
  | nil => exact Nat.le_refl _
  | cons event events ih => exact cnt_le_handle.trans ih

theorem ring_handle (hr : Ring size f.recorder (kept events)) (hfits : event.Fits) :
    Ring size (handle size fileExtension f event).recorder (kept (events ++ [event])) := by
  cases event with
  | execute e => exact ring_execute hr hfits
  | elsewhere input =>
    rw [kept_concat]
    exact hr.write hfits
  | save kind name content =>
    rw [kept_concat, keep, Event.recorded, Option.toList_none, List.append_nil]
    exact hr

section
variable (hext : ¬ ascii "RECORD:" <:+: dotExtension fileExtension)
include hext

/-- Only a new record changes which files of a record there are. -/
theorem chosen_handle (hr : Ring size f.recorder (kept events)) (hfits : event.Fits)
    (hc : c < 10 ^ 6) (hcnt : (handle size fileExtension f event).recorder.cnt ≤ 10 ^ 6)
    (hne : f.recorder.cnt ≠ c ∨ (handle size fileExtension f event).recorder.cnt ≤ c) :
    chosen c ((handle size fileExtension f event).dirs kind) = chosen c (f.dirs kind) := by
  cases event with
  | execute e =>
    rw [handle, dirs_execute hr hfits]
    rw [handle, cnt_execute] at hcnt hne
    split_ifs with houtcome
    · rw [houtcome, Option.isSome_some, if_pos rfl] at hcnt hne
      exact chosen_saveAll_of_ne hext hc (by omega) (by omega)
    · rfl
  | elsewhere input => rfl
  | save kind' name content =>
    rw [handle]
    dsimp only
    obtain rfl | hkind := eq_or_ne kind kind'
    · rw [Function.update_self]
      exact chosen_write_of_not (selectFiles_of_not hfits)
    · rw [Function.update_of_ne hkind]

/-- The ring follows the executions, and no file has the number of a record to come. -/
theorem play_ring (hsize : 0 < size) (hfits : ∀ event ∈ events, event.Fits)
    (hcnt : (play size fileExtension events).recorder.cnt ≤ 10 ^ 6) :
    Ring size (play size fileExtension events).recorder (kept events) ∧
      ∀ kind c, (play size fileExtension events).recorder.cnt ≤ c → c < 10 ^ 6 →
        chosen c ((play size fileExtension events).dirs kind) = [] := by
  induction events using List.reverseRecOn with
  | nil => exact ⟨ring_start hsize, fun _ _ _ _ => rfl⟩
  | append_singleton events event ih =>
    have hplay : play size fileExtension (events ++ [event]) =
        handle size fileExtension (play size fileExtension events) event := by
      rw [play, List.foldl_append]
      rfl
    have hevent : event.Fits := hfits event (by simp)
    rw [hplay] at hcnt ⊢
    obtain ⟨hr, hclean⟩ := ih (fun x hx => hfits x (List.mem_append_left _ hx))
      (cnt_le_handle.trans hcnt)
    refine ⟨ring_handle hr hevent, fun kind c hle hc => ?_⟩
    rw [chosen_handle hext hr hevent hc hcnt (.inr hle)]
    exact hclean kind c (cnt_le_handle.trans hle) hc

/-- The files of a record stay as they are. -/
theorem chosen_foldl (hr : Ring size f.recorder (kept before))
    (hfits : ∀ event ∈ after, event.Fits) (hc : c < f.recorder.cnt)
    (hcnt : (after.foldl (handle size fileExtension) f).recorder.cnt ≤ 10 ^ 6) :
    chosen c ((after.foldl (handle size fileExtension) f).dirs kind) = chosen c (f.dirs kind) := by
  induction after generalizing f before with
  | nil => rfl
  | cons event after ih =>
    have hevent := hfits event (List.mem_cons_self ..)
    have hstep : (handle size fileExtension f event).recorder.cnt ≤ 10 ^ 6 :=
      cnt_le_foldl.trans hcnt
    have hle : f.recorder.cnt ≤ (handle size fileExtension f event).recorder.cnt := cnt_le_handle
    rw [List.foldl_cons, ih (ring_handle hr hevent)
      (fun x hx => hfits x (List.mem_cons_of_mem event hx)) (by omega) hcnt]
    exact chosen_handle hext hr hevent (by omega) hstep (.inl (by omega))

/-- When a crash or a hang was recorded and the fuzzer has gone on, the files of the record are
still those of the inputs that were kept. -/
theorem scandir_play (hsize : 0 < size) (hsmall : size ≤ 10 ^ 6)
    (hfits : ∀ event ∈ before ++ .execute e :: after, event.Fits)
    (hcnt : (play size fileExtension (before ++ .execute e :: after)).recorder.cnt ≤ 10 ^ 6)
    (houtcome : e.outcome = some kind) :
    scandir (play size fileExtension before).recorder.cnt
        ((play size fileExtension (before ++ .execute e :: after)).dirs kind) =
      recordFiles fileExtension (play size fileExtension before).recorder.cnt
        (saved size (kept (before ++ [.execute e])).2) 0 := by
  have hplay : play size fileExtension (before ++ .execute e :: after) =
      after.foldl (handle size fileExtension)
        (execute size fileExtension (play size fileExtension before) e) := by
    rw [play, List.foldl_append]
    rfl
  rw [hplay] at hcnt ⊢
  have hstored : (execute size fileExtension (play size fileExtension before) e).recorder.cnt =
      (play size fileExtension before).recorder.cnt + 1 := by
    rw [cnt_execute, houtcome, Option.isSome_some, if_pos rfl]
  have hgrown := cnt_le_foldl.trans hcnt
  rw [hstored] at hgrown
  have he : (Event.execute e).Fits := hfits _ (by simp)
  obtain ⟨hr, hnone⟩ := play_ring hext hsize
    (fun x hx => hfits x (List.mem_append_left _ hx)) (Nat.le_of_succ_le hgrown)
  have hlen : (saved size (kept (before ++ [.execute e])).2).length ≤ 10 ^ 6 :=
    (List.length_filter_le ..).trans (length_lastN_le.trans hsmall)
  have hnext : Ring size (execute size fileExtension (play size fileExtension before) e).recorder
      (kept (before ++ [.execute e])) := ring_handle hr he
  have hempty := hnone kind _ (Nat.le_refl _) (by omega)
  refine scandir_eq hlen ?_
  rw [chosen_foldl hext hnext
    (fun x hx => hfits x (List.mem_append_right _ (List.mem_cons_of_mem _ hx))) (by omega) hcnt,
    dirs_execute hr he, if_pos houtcome]
  refine (chosen_saveAll hext (by omega) (by omega) ?_).trans ?_
  · rw [hempty]
    exact fun f hf => absurd hf List.not_mem_nil
  · rw [hempty, List.append_nil]

/-- The two loops that a harness can be built with feed these inputs. -/
def FeedsBoth (records : Dir) (inputs : List (List Byte)) : Prop :=
  Feeds (persistentLoop records) ⟨true, 0⟩ inputs ∧ Feeds (compatLoop records) ⟨false, 1⟩ inputs

theorem feedsBoth_play (hsize : 0 < size) (hsmall : size ≤ 10 ^ 6)
    (hfits : ∀ event ∈ before ++ .execute e :: after, event.Fits)
    (hcnt : (play size fileExtension (before ++ .execute e :: after)).recorder.cnt ≤ 10 ^ 6)
    (houtcome : e.outcome = some kind)
    (hne : saved size (kept (before ++ [.execute e])).2 ≠ []) :
    FeedsBoth (scandir (play size fileExtension before).recorder.cnt
        ((play size fileExtension (before ++ .execute e :: after)).dirs kind))
      (saved size (kept (before ++ [.execute e])).2) := by
  have hlen : (saved size (kept (before ++ [.execute e])).2).length ≤ 10 ^ 6 :=
    (List.length_filter_le ..).trans (length_lastN_le.trans hsmall)
  rw [scandir_play hext hsize hsmall hfits hcnt houtcome]
  generalize (play size fileExtension before).recorder.cnt = c
  generalize saved size (kept (before ++ [.execute e])).2 = inputs at hne hlen
  have hsnd : (recordFiles fileExtension c inputs 0).map Prod.snd = inputs := map_snd_recordFiles
  have hfiles : recordFiles fileExtension c inputs 0 ≠ [] := by
    intro hnil
    rw [hnil] at hsnd
    exact hne hsnd.symm
  have hcount : (recordFiles fileExtension c inputs 0).length < 2 ^ 32 := by
    rw [recordFiles, List.length_map, List.length_zipIdx]
    omega
  have hruntime := feeds_persistentLoop hfiles hcount 0
  have hcompat := feeds_compatLoop hfiles
  rw [hsnd] at hruntime hcompat
  exact ⟨hruntime, hcompat⟩

end

/-! ### A run -/

def sampleBefore : List Event :=
  [.elsewhere [1], .execute ⟨[1], false, 5, none⟩, .execute ⟨[2], false, 5, none⟩]

/-- Trimming starts a new child, and CmpLog runs an input of its own. -/
def sampleMixed : List Event :=
  sampleBefore ++ [.execute ⟨[3], true, 6, none⟩, .elsewhere [8]]

def sampleAfter : List Event :=
  [.save .crashes (ascii "README.txt") [9], .execute ⟨[4], false, 6, none⟩]

end AflPlusPlus.Replay
