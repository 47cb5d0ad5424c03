import AflPlusPlus.Resume.Names
import Mathlib.Data.List.TakeWhile

/-!
# The depth of the entries on resume

The depth of a queue entry is not saved. `pivot_inputs` takes it from the name: a number behind the
first colon is the id of the parent. `describe_op` puts the parent there for a find of a mutation,
but a name that `pivot_inputs` invents for a seed has the time there, and it is zero.
-/

namespace AflPlusPlus
open Lib

/-! ### The description of a find -/

inductive StageValType
  | none
  | le
  | be
  deriving DecidableEq

/-- What `describe_op` reads besides `current_entry`. -/
structure OpState where
  syncingParty : Option Name
  foreignFile : Option Name
  syncingCase : ℕ
  splicingWith : ℤ
  time : ℕ
  totalExecs : ℕ
  /-- What a custom mutator with `afl_custom_describe` returns; empty when it fails. -/
  customDescription : Option Name
  stageShort : Name
  stageCurByte : ℤ
  stageValType : StageValType
  stageCurVal : ℤ
  isTimeout : Bool
  newCoverage : Bool
  sanCrashOnly : Bool
  nonCovIncr : Bool

/-- `%d`. -/
def signedText (x : ℤ) : Name :=
  if x < 0 then ascii "-" ++ decimal 1 x.natAbs else decimal 1 x.natAbs

/-- `%+d`. -/
def plusText (x : ℤ) : Name := ascii (if x < 0 then "-" else "+") ++ decimal 1 x.natAbs

/-- `NAME_MAX - strlen("id:000000,")`. -/
def maxDescriptionLen : ℕ := 245

namespace OpState

/-- "Normal testcase descriptions". -/
def operation (op : OpState) : Name :=
  ascii ",op:" ++ op.stageShort ++
    if op.stageCurByte ≥ 0 then
      ascii ",pos:" ++ signedText op.stageCurByte ++
        match op.stageValType with
        | .none => []
        | .le => ascii ",val:" ++ plusText op.stageCurVal
        | .be => ascii ",val:be:" ++ plusText op.stageCurVal
    else ascii ",rep:" ++ signedText op.stageCurVal

/-- What is left for a custom description behind `ret`. -/
def sizeLeft (op : OpState) (ret : Name) : ℤ :=
  maxDescriptionLen - ret.length - 5 - 2 - if op.isTimeout then 6 else 0

/-- What a custom mutator says of its mutation; `none` is the fatal "filename got too long". -/
def customText (op : OpState) (text ret : Name) : Option Name :=
  let ret := ret ++ ascii ","
  if op.sizeLeft ret ≤ 0 then none
  else if text = [] then some (ret ++ ascii "op:" ++ op.stageShort)
  else some (ret ++ text.take (op.sizeLeft ret).toNat)

/-- The parent of a find of a mutation, and the input that was spliced in. -/
def source (op : OpState) (currentEntry : ℕ) : Name :=
  ascii "src:" ++ decimal 6 currentEntry ++
    if op.splicingWith ≥ 0 then ascii "+" ++ decimal 6 op.splicingWith.toNat else []

def flags (op : OpState) : Name :=
  (if op.isTimeout then ascii ",+tout" else []) ++ (if op.newCoverage then ascii ",+cov" else []) ++
    (if op.sanCrashOnly then ascii ",+san" else []) ++
      if op.nonCovIncr then ascii ",+noncov" else []

def body (op : OpState) (currentEntry : ℕ) : Option Name :=
  match op.syncingParty with
  | some party =>
    match op.foreignFile with
    | some file => some (ascii "sync:" ++ party ++ ascii ",src:" ++ file.take 20)
    | none => some (ascii "sync:" ++ party ++ ascii ",src:" ++ decimal 6 op.syncingCase)
  | none =>
    let ret := op.source currentEntry ++ ascii ",time:" ++ decimal 1 op.time ++ ascii ",execs:" ++
      decimal 1 op.totalExecs
    match op.customDescription with
    | some text => op.customText text ret
    | none => some (ret ++ op.operation)

/-- `describe_op`; `none` when it is fatal. -/
def describeOp (op : OpState) (currentEntry : ℕ) : Option Name :=
  (op.body currentEntry).bind fun ret =>
    let ret := ret ++ op.flags
    if ret.length ≥ maxDescriptionLen then none else some ret

end OpState

/-! ### The depths that a resumed session gives -/

/-- `strchr(text, ':')`, and what stands behind it. -/
def behindColon (text : Name) : Option Name :=
  match text.dropWhile (· ≠ 58) with
  | [] => none
  | _ :: rest => some rest

/-- The number that is taken for the parent's id. -/
def scanParent (rsl : Name) : Option ℕ := (behindColon (rsl.drop 3)).bind scanId

namespace NameConfig

/-- The entry from which the file `rsl` at position `id` gets its depth, if any of the `n`
entries. -/
def parentEntry (cfg : NameConfig) (n id : ℕ) (rsl : Name) : Option ℕ :=
  if cfg.keepsName id rsl then (scanParent rsl).filter (· < n) else none

/-- The body of the loop of `pivot_inputs`, for the depths. -/
def pivotEntry (cfg : NameConfig) (n id : ℕ) (rsl : Name) (depth : ℕ → ℕ) : ℕ → ℕ :=
  match cfg.parentEntry n id rsl with
  | some src => Function.update depth id (depth src + 1)
  | none => depth

def pivotLoop (cfg : NameConfig) (n : ℕ) : ℕ → List Name → (ℕ → ℕ) → ℕ → ℕ
  | _, [], depth => depth
  | id, rsl :: rest, depth => pivotLoop cfg n (id + 1) rest (cfg.pivotEntry n id rsl depth)

/-- The depths of the entries with these files, all of which `add_to_queue` gives depth one. -/
def pivotDepths (cfg : NameConfig) (names : List Name) : ℕ → ℕ :=
  cfg.pivotLoop names.length 0 names fun _ => 1

end NameConfig

/-! ### A session with depths -/

/-- What a session has added to its queue, and the members that the depth of a find depends on. -/
structure SessionState where
  depths : List ℕ
  finds : List Find
  curDepth : ℕ
  currentEntry : ℕ

inductive SessionEvent
  /-- `fuzz_one` on an entry; with an input of the IJON map the depth is not set. -/
  | turn (entry : ℕ) (ijon : Bool)
  /-- `sync_fuzzers` starts. -/
  | sync
  /-- `save_if_interesting` keeps an input. -/
  | find (op : OpState) (hash : Sha1Hex)

namespace SessionState

def step (p : SessionState) : SessionEvent → SessionState
  | .turn entry ijon =>
    match p.depths[entry]? with
    | none => p
    | some depth => { p with currentEntry := entry, curDepth := if ijon then p.curDepth else depth }
  | .sync => { p with curDepth := 0 }
  | .find op hash =>
    match op.describeOp p.currentEntry with
    -- the session ends without the find
    | none => p
    | some description =>
      { p with
        depths := p.depths ++ [p.curDepth + 1]
        finds := p.finds ++ [⟨description, hash⟩] }

end SessionState

/-- A session as a run from its seeds. -/
structure Campaign where
  cfg : NameConfig
  scan : ScanOptions
  draw : List Name → ℕ → ℕ
  depth : ℕ
  subdirs : Bool
  input : List DirEntry
  events : List SessionEvent

/-- A queue entry with what is compared after a resume. -/
structure QueueFile where
  name : Name
  depth : ℕ

namespace Campaign

def seeds (c : Campaign) : List Seed :=
  readTestcases c.scan c.draw c.depth c.subdirs [] c.input

def seedDepths (c : Campaign) : List ℕ :=
  (List.range c.seeds.length).map (c.cfg.pivotDepths (c.seeds.map Seed.name))

def progress (c : Campaign) : SessionState :=
  c.events.foldl SessionState.step ⟨c.seedDepths, [], 0, 0⟩

def session (c : Campaign) : Session :=
  ⟨c.cfg, c.scan, c.draw, c.depth, c.subdirs, c.input, c.progress.finds⟩

def queue (c : Campaign) : List QueueFile :=
  List.zipWith QueueFile.mk c.session.names c.progress.depths

end Campaign

/-- Every entry is read again, and with its depth. -/
def DepthsSurvive (resume : NameConfig) (queue : List QueueFile) (files : List Name) : Prop :=
  ∀ e ∈ queue, ∃ p, files[p]? = some e.name ∧ resume.pivotDepths files p = e.depth

/-- The depth is one more than that of the entry whose file is at the position that the name of the
file at position `p` is taken to tell, where a later one still has depth one. Without such a
position the depth is one. -/
def DepthFromName (resume : NameConfig) (queue : List QueueFile) (files : List Name) (p : ℕ)
    (e : QueueFile) : Prop :=
  match resume.parentEntry files.length p e.name with
  | none => e.depth = 1
  | some src =>
    if src < p then ∀ parent ∈ queue, files[src]? = some parent.name → e.depth = parent.depth + 1
    else e.depth = 2

/-! ### The loop of `pivot_inputs` -/

section Pivot

variable {cfg : NameConfig} {n id q : ℕ} {depth : ℕ → ℕ}

theorem pivotEntry_ne {rsl : Name} (h : q ≠ id) : cfg.pivotEntry n id rsl depth q = depth q := by
  unfold NameConfig.pivotEntry
  cases cfg.parentEntry n id rsl with
  | some src => exact Function.update_of_ne h _ _
  | none => rfl

/-- Only the entries that the loop passes change. -/
theorem pivotLoop_frame (rest : List Name) (h : q < id ∨ id + rest.length ≤ q) :
    cfg.pivotLoop n id rest depth q = depth q := by
  induction rest generalizing id depth with
  | nil => rfl
  | cons rsl rest ih =>
    rw [List.length_cons] at h
    rw [NameConfig.pivotLoop, ih (by omega), pivotEntry_ne (by omega)]

theorem pivotLoop_append (before rest : List Name) :
    cfg.pivotLoop n id (before ++ rest) depth =
      cfg.pivotLoop n (id + before.length) rest (cfg.pivotLoop n id before depth) := by
  induction before generalizing id depth with
  | nil => rfl
  | cons rsl before ih =>
    rw [List.cons_append, NameConfig.pivotLoop, ih, NameConfig.pivotLoop, List.length_cons,
      Nat.add_assoc, Nat.add_comm 1]

/-- The depth that an entry gets: earlier ones have their new depth already, later ones and the
entry itself still the first. -/
theorem pivotDepths_eq {names : List Name} {p : ℕ} {name : Name} (hp : names[p]? = some name) :
    cfg.pivotDepths names p = match cfg.parentEntry names.length p name with
      | none => 1
      | some src => if src < p then cfg.pivotDepths names src + 1 else 2 := by
  obtain ⟨hlt, hname⟩ := List.getElem?_eq_some_iff.mp hp
  have hlen : (names.take p).length = p := by rw [List.length_take]; omega
  have hsplit : names = names.take p ++ name :: names.drop (p + 1) := by
    rw [← hname, List.getElem_cons_drop, List.take_append_drop]
  have hloop :
      ∀ q, cfg.pivotDepths names q = cfg.pivotLoop names.length (p + 1) (names.drop (p + 1))
      (cfg.pivotEntry names.length p name (cfg.pivotLoop names.length 0 (names.take p) fun _ => 1))
        q := by
    intro q
    rw [NameConfig.pivotDepths]
    generalize names.length = n
    conv_lhs => rw [hsplit, pivotLoop_append, hlen, Nat.zero_add, NameConfig.pivotLoop]
  -- neither the rest of the loop nor this round changes an earlier entry
  have hearlier : ∀ q, q < p →
      cfg.pivotDepths names q = cfg.pivotLoop names.length 0 (names.take p) (fun _ => 1) q := by
    intro q hq
    rw [hloop, pivotLoop_frame _ (by omega), pivotEntry_ne (by omega)]
  have hlater : ∀ q, p ≤ q → cfg.pivotLoop names.length 0 (names.take p) (fun _ => 1) q = 1 := by
    intro q hq
    exact pivotLoop_frame _ (by omega)
  rw [hloop, pivotLoop_frame _ (by omega), NameConfig.pivotEntry]
  cases hsrc : cfg.parentEntry names.length p name with
  | none => exact hlater p le_rfl
  | some src =>
    dsimp only
    rw [Function.update_self]
    by_cases hcase : src < p
    · rw [if_pos hcase, hearlier src hcase]
    · rw [if_neg hcase, hlater src (by omega)]

end Pivot

/-! ### What a name tells -/

theorem behindColon_append {a : Name} (h : ∀ c ∈ a, c ≠ 58) (b : Name) :
    behindColon (a ++ 58 :: b) = some b := by
  have hdrop : (a ++ 58 :: b).dropWhile (· ≠ 58) = 58 :: b := by
    rw [List.dropWhile_append_of_pos (by simpa using h)]
    exact List.dropWhile_cons_of_neg (by decide)
  rw [behindColon, hdrop]

theorem isDigit_decimal (w n : ℕ) : ∀ c ∈ decimal w n, isDigit c = true := by
  intro c hc
  simpa [isDigit] using fixDigits_digit hc

/-- A number of at most six digits is read in full, whatever follows. -/
theorem scanId_decimal {n : ℕ} (hn : n < 10 ^ 6) (rest : Name) :
    scanId (decimal 6 n ++ rest) = some n := by
  have hlen := decimal_length (w := 6) (by decide) hn
  have hvalue : digitsValue (decimal 6 n) = n := foldl_decimal 6 n
  have hdigits := isDigit_decimal 6 n
  have htake : ((decimal 6 n ++ rest).take 6).takeWhile isDigit = decimal 6 n := by
    rw [List.take_left' hlen, List.takeWhile_eq_self_iff]
    exact hdigits
  obtain ⟨c, text, htext⟩ := List.exists_cons_of_ne_nil
    (List.ne_nil_of_length_pos (by rw [hlen]; decide) : decimal 6 n ≠ [])
  have hc : 48 ≤ c ∧ c ≤ 57 := by simpa [isDigit] using hdigits c (htext ▸ List.mem_cons_self)
  have hspace : (decimal 6 n ++ rest).dropWhile isSpace = decimal 6 n ++ rest := by
    rw [htext, List.cons_append, List.dropWhile_cons_of_neg]
    simp only [isSpace, decide_eq_true_eq]
    omega
  unfold scanId
  rw [hspace]
  split
  · rename_i heq
    rw [htext, List.cons_append] at heq
    injection heq
    omega
  · rename_i heq
    rw [htext, List.cons_append] at heq
    injection heq
    omega
  · rw [htake, htext]
    dsimp only
    rw [← htext, hvalue]

theorem customText_prefix {op : OpState} {text ret ret' : Name}
    (h : op.customText text ret = some ret') : ∃ tail, ret' = ret ++ tail := by
  simp only [OpState.customText] at h
  split at h
  · cases h
  · split at h <;> cases h
    · exact ⟨ascii "," ++ (ascii "op:" ++ op.stageShort), by simp only [List.append_assoc]⟩
    · exact ⟨_, List.append_assoc _ _ _⟩

theorem describeOp_body {op : OpState} {currentEntry : ℕ} {description : Name}
    (h : op.describeOp currentEntry = some description) :
    ∃ ret, op.body currentEntry = some ret ∧ description = ret ++ op.flags := by
  obtain ⟨ret, hret, hrest⟩ := Option.bind_eq_some_iff.mp h
  dsimp only at hrest
  split at hrest
  · cases hrest
  · cases hrest
    exact ⟨ret, hret, rfl⟩

/-- The parent's id is at the start, in every shape of a description that is not imported. -/
theorem describeOp_source {op : OpState} {currentEntry : ℕ} {description : Name}
    (hparty : op.syncingParty = none) (h : op.describeOp currentEntry = some description) :
    ∃ rest, description = ascii "src:" ++ decimal 6 currentEntry ++ rest := by
  have hbody : ∀ ret, op.body currentEntry = some ret →
      ascii "src:" ++ decimal 6 currentEntry <+: ret := by
    intro ret hret
    have hsource : ascii "src:" ++ decimal 6 currentEntry <+: op.source currentEntry :=
      List.prefix_append _ _
    rw [OpState.body, hparty] at hret
    dsimp only at hret
    split at hret
    · obtain ⟨tail, htail⟩ := customText_prefix hret
      rw [htail]
      simp only [List.append_assoc]
      exact hsource.trans (List.prefix_append _ _)
    · cases hret
      simp only [List.append_assoc]
      exact hsource.trans (List.prefix_append _ _)
  obtain ⟨ret, hret, hdesc⟩ := describeOp_body h
  obtain ⟨rest, hpre⟩ := hbody ret hret
  exact ⟨rest ++ op.flags, by rw [hdesc, ← hpre]; simp only [List.append_assoc]⟩

section Shapes

variable {cfg : NameConfig}

/-- No colon in an id and a text behind it. -/
theorem decimal_append_ne_colon (id : ℕ) {text : Name} (h : ∀ c ∈ text, c ≠ 58) :
    ∀ c ∈ decimal 6 id ++ text, c ≠ 58 := by
  intro c hc
  rcases List.mem_append.mp hc with hdigit | htext
  · have hrange := fixDigits_digit hdigit
    omega
  · exact h c htext

theorem drop_queueFn (hsimple : cfg.simpleFiles = false) (hsha1 : cfg.sha1Filenames = false)
    (id : ℕ)
    (find : Find) : (cfg.queueFn id find).drop 3 =
      decimal 6 id ++ (ascii "," ++ (find.description ++ cfg.extension)) := by
  rw [NameConfig.queueFn, hsimple, hsha1, if_neg Bool.false_ne_true, if_neg Bool.false_ne_true]
  simp only [List.append_assoc]
  exact List.drop_left' rfl

/-- A find of a mutation tells its parent. -/
theorem scanParent_find (hsimple : cfg.simpleFiles = false) (hsha1 : cfg.sha1Filenames = false)
    {op : OpState} {currentEntry : ℕ} {description : Name} (hparty : op.syncingParty = none)
    (hdesc : op.describeOp currentEntry = some description) (hid : currentEntry < 10 ^ 6) (id : ℕ)
    (hash : Sha1Hex) : scanParent (cfg.queueFn id ⟨description, hash⟩) = some currentEntry := by
  obtain ⟨rest, hrest⟩ := describeOp_source hparty hdesc
  have hname : (cfg.queueFn id ⟨description, hash⟩).drop 3 =
      (decimal 6 id ++ ascii ",src") ++
        58 :: (decimal 6 currentEntry ++ (rest ++ cfg.extension)) := by
    rw [drop_queueFn hsimple hsha1, hrest]
    simp [ascii]
  rw [scanParent, hname, behindColon_append (decimal_append_ne_colon id (by decide)),
    Option.bind_some, scanId_decimal hid]

/-- An invented name has the time behind its first colon. -/
theorem scanParent_invented (hsimple : cfg.simpleFiles = false) (hsha1 : cfg.sha1Filenames = false)
    {id : ℕ} {seed : Seed} (hnew : cfg.keepsName id seed.name = false) :
    scanParent (cfg.pivotName id seed) = some 0 := by
  have hplain : ∀ c ∈ ascii "id:" ++ (decimal 6 id ++ (ascii ",time" ++ ascii ":0,")), c ≠ 32 := by
    intro c hc
    simp only [List.mem_append] at hc
    rcases hc with hc | hc | hc | hc
    · revert c
      decide
    · exact decimal_ne_space 6 id c hc
    · revert c
      decide
    · revert c
      decide
  have hzero : ∀ rest, scanId (48 :: 44 :: rest) = some 0 := by
    intro rest
    simp [scanId, isSpace, isDigit, digitsValue]
  have hname : ∃ rest, cfg.pivotName id seed =
      ascii "id:" ++ ((decimal 6 id ++ ascii ",time") ++ 58 :: 48 :: 44 :: rest) := by
    rw [NameConfig.pivotName, hnew, hsimple, hsha1, if_neg Bool.false_ne_true,
      if_neg Bool.false_ne_true, if_neg Bool.false_ne_true]
    have hsplit : ascii ",time:0,execs:" = ascii ",time" ++ (ascii ":0," ++ ascii "execs:") := by
      decide
    have hcolon : ascii ":0," = [58, 48, 44] := by decide
    rw [hsplit]
    simp only [List.append_assoc] at hplain ⊢
    rw [← List.append_assoc (ascii ",time"), ← List.append_assoc (decimal 6 id),
      ← List.append_assoc (ascii "id:"), noSpaces_append hplain, hcolon]
    generalize noSpaces _ _ = rest
    exact ⟨rest, by simp only [List.append_assoc, List.cons_append, List.nil_append]⟩
  obtain ⟨rest, hrest⟩ := hname
  have hdrop : (cfg.pivotName id seed).drop 3 =
      (decimal 6 id ++ ascii ",time") ++ 58 :: 48 :: 44 :: rest := by
    rw [hrest]
    exact List.drop_left' rfl
  rw [scanParent, hdrop, behindColon_append (decimal_append_ne_colon id (by decide)),
    Option.bind_some, hzero]

/-- For an import the name of the other fuzzer is scanned. -/
theorem scanParent_import (hsimple : cfg.simpleFiles = false) (hsha1 : cfg.sha1Filenames = false)
    {op : OpState} {currentEntry : ℕ} {description party : Name}
    (hparty : op.syncingParty = some party)
    (hdesc : op.describeOp currentEntry = some description) (id : ℕ) (hash : Sha1Hex) :
    ∃ rest, scanParent (cfg.queueFn id ⟨description, hash⟩) = scanId (party ++ rest) := by
  obtain ⟨ret, hret, hflags⟩ := describeOp_body hdesc
  have hbody : ∃ tail, ret = ascii "sync:" ++ (party ++ tail) := by
    rw [OpState.body, hparty] at hret
    dsimp only at hret
    split at hret
    · rename_i file _
      cases hret
      exact ⟨ascii ",src:" ++ file.take 20, by simp only [List.append_assoc]⟩
    · cases hret
      exact ⟨ascii ",src:" ++ decimal 6 op.syncingCase, by simp only [List.append_assoc]⟩
  obtain ⟨tail, htail⟩ := hbody
  refine ⟨tail ++ op.flags ++ cfg.extension, ?_⟩
  have hname : (cfg.queueFn id ⟨description, hash⟩).drop 3 = (decimal 6 id ++ ascii ",sync") ++
      58 :: (party ++ (tail ++ op.flags ++ cfg.extension)) := by
    rw [drop_queueFn hsimple hsha1, hflags, htail]
    simp [ascii]
  rw [scanParent, hname, behindColon_append (decimal_append_ne_colon id (by decide)),
    Option.bind_some]

end Shapes

/-! ### Which depths survive -/

theorem parentEntry_lt {cfg : NameConfig} {n id src : ℕ} {rsl : Name}
    (h : cfg.parentEntry n id rsl = some src) : src < n := by
  unfold NameConfig.parentEntry at h
  split at h
  · exact of_decide_eq_true (Option.mem_filter_iff.mp h).2
  · cases h

/-- For distinct files of a queue. -/
theorem depthsSurvive_iff_of_nodup (resume : NameConfig) {queue : List QueueFile}
    {files : List Name}
    (hnodup : files.Nodup) (hfiles : ∀ name ∈ files, ∃ e ∈ queue, e.name = name) :
    DepthsSurvive resume queue files ↔ ∀ e ∈ queue, ∃ p, files[p]? = some e.name ∧
      DepthFromName resume queue files p e := by
  have hunique : ∀ {p q : ℕ} {name : Name}, files[p]? = some name → files[q]? = some name →
      p = q := by
    intro p q name hp hq
    exact (List.getElem?_inj (List.getElem?_eq_some_iff.mp hp).1 hnodup).mp (hp.trans hq.symm)
  constructor
  · intro h e he
    obtain ⟨p, hp, hdepth⟩ := h e he
    refine ⟨p, hp, ?_⟩
    rw [pivotDepths_eq hp] at hdepth
    unfold DepthFromName
    cases hsrc : resume.parentEntry files.length p e.name with
    | none =>
      rw [hsrc] at hdepth
      exact hdepth.symm
    | some src =>
      rw [hsrc] at hdepth
      dsimp only at hdepth ⊢
      split
      · rename_i hcase
        rw [if_pos hcase] at hdepth
        intro parent hparent hname
        obtain ⟨q, hq, hqdepth⟩ := h parent hparent
        rw [← hdepth, ← hqdepth, hunique hq hname]
      · rename_i hcase
        rw [if_neg hcase] at hdepth
        exact hdepth.symm
  · intro h
    have hall :
        ∀ p, ∀ e ∈ queue, files[p]? = some e.name → resume.pivotDepths files p = e.depth := by
      intro p
      induction p using Nat.strong_induction_on with
      | _ p ih =>
        intro e he hp
        obtain ⟨q, hq, hlocal⟩ := h e he
        rw [hunique hq hp] at hlocal
        rw [pivotDepths_eq hp]
        unfold DepthFromName at hlocal
        cases hsrc : resume.parentEntry files.length p e.name with
        | none =>
          rw [hsrc] at hlocal
          exact hlocal.symm
        | some src =>
          rw [hsrc] at hlocal
          dsimp only at hlocal ⊢
          split
          · rename_i hcase
            rw [if_pos hcase] at hlocal
            have hfile := List.getElem?_eq_getElem (parentEntry_lt hsrc)
            obtain ⟨parent, hparent, hname⟩ := hfiles _ (List.getElem_mem (parentEntry_lt hsrc))
            rw [← hname] at hfile
            rw [ih src hcase parent hparent hfile, hlocal parent hparent hfile]
          · rename_i hcase
            rw [if_neg hcase] at hlocal
            exact hlocal.symm
    intro e he
    obtain ⟨p, hp, -⟩ := h e he
    exact ⟨p, hp, hall p e he hp⟩

namespace Campaign

/-- Every entry has a depth. -/
theorem length_depths (c : Campaign) : c.progress.depths.length = c.session.names.length := by
  have hrun : ∀ (events : List SessionEvent) (p : SessionState),
      p.depths.length = c.seeds.length + p.finds.length →
        (events.foldl SessionState.step p).depths.length =
          c.seeds.length + (events.foldl SessionState.step p).finds.length := by
    intro events
    induction events with
    | nil => exact fun _ h => h
    | cons event events ih =>
      intro p h
      refine ih (p.step event) ?_
      cases event with
      | turn entry ijon =>
        rw [SessionState.step]
        split <;> exact h
      | sync => exact h
      | find op hash =>
        rw [SessionState.step]
        split
        · exact h
        · simp only [List.length_append, List.length_singleton]
          omega
  have hlen := hrun c.events ⟨c.seedDepths, [], 0, 0⟩ (by simp [seedDepths])
  have hnames : c.session.names.length = c.session.seeds.length + c.session.finds.length := by
    simp [Session.names, Session.entries]
  rw [hnames]
  exact hlen

/-- The depths of the seeds stay. -/
theorem seedDepths_prefix (c : Campaign) : c.seedDepths <+: c.progress.depths := by
  have hrun : ∀ (events : List SessionEvent) (p : SessionState),
      p.depths <+: (events.foldl SessionState.step p).depths := by
    intro events
    induction events with
    | nil => exact fun _ => List.prefix_refl _
    | cons event events ih =>
      intro p
      refine List.IsPrefix.trans ?_ (ih (p.step event))
      cases event with
      | turn entry ijon =>
        rw [SessionState.step]
        split <;> exact List.prefix_refl _
      | sync => exact List.prefix_refl _
      | find op hash =>
        rw [SessionState.step]
        split
        · exact List.prefix_refl _
        · exact List.prefix_append _ _
  exact hrun c.events ⟨c.seedDepths, [], 0, 0⟩

/-- A seed under an invented name has depth one. -/
theorem invented_mem_queue (c : Campaign) {k : ℕ} {seed : Seed} (hk : c.seeds[k]? = some seed)
    (hnew : c.cfg.keepsName k seed.name = false) : ⟨c.cfg.pivotName k seed, 1⟩ ∈ c.queue := by
  obtain ⟨hlt, -⟩ := List.getElem?_eq_some_iff.mp hk
  have hentry : c.session.entries[k]? = some (.seed seed) := by
    rw [c.session.entries_getElem?]
    exact (if_pos hlt).trans (congrArg (Option.map Origin.seed) hk)
  have hname : c.session.names[k]? = some (c.cfg.pivotName k seed) := by
    rw [Session.names, List.getElem?_mapIdx, hentry]
    rfl
  have hone : c.cfg.pivotDepths (c.seeds.map Seed.name) k = 1 := by
    have hfile : (c.seeds.map Seed.name)[k]? = some seed.name := by rw [List.getElem?_map, hk]; rfl
    rw [pivotDepths_eq hfile, NameConfig.parentEntry, hnew]
    rfl
  have hdepth : c.progress.depths[k]? = some 1 := by
    obtain ⟨rest, hrest⟩ := c.seedDepths_prefix
    have hseed : c.seedDepths[k]? = some 1 := by
      rw [seedDepths, List.getElem?_map, List.getElem?_range hlt, Option.map_some, hone]
    have hin : k < c.seedDepths.length := (List.getElem?_eq_some_iff.mp hseed).1
    rw [← hrest, List.getElem?_append_left hin, hseed]
  refine List.mem_of_getElem? (i := k) ?_
  rw [queue, List.getElem?_zipWith, hname, hdepth]

theorem names_queue (c : Campaign) : c.queue.map QueueFile.name = c.session.names := by
  rw [queue, List.map_zipWith]
  refine List.ext_getElem ?_ fun i hi hi' => ?_
  · rw [List.length_zipWith, c.length_depths, min_self]
  · simp only [List.getElem_zipWith]

end Campaign

theorem one_le_pivotDepths (cfg : NameConfig) {names : List Name} {p : ℕ} (hp : p < names.length) :
    1 ≤ cfg.pivotDepths names p := by
  rw [pivotDepths_eq (List.getElem?_eq_getElem hp)]
  cases cfg.parentEntry names.length p names[p] with
  | none => exact le_rfl
  | some src =>
    dsimp only
    split
    · exact Nat.le_add_left 1 _
    · exact Nat.le_succ 1

/-- Seeds under invented names come back deeper than they were. -/
theorem not_depthsSurvive_of_invented (c : Campaign) (hsimple : c.cfg.simpleFiles = false)
    (hsha1 : c.cfg.sha1Filenames = false) {k : ℕ} {seed : Seed} (hk : c.seeds[k]? = some seed)
    (hnew : c.cfg.keepsName k seed.name = false) {resume : NameConfig} {files : List Name}
    (hkeep : ∀ p, files[p]? = some (c.cfg.pivotName k seed) →
      resume.keepsName p (c.cfg.pivotName k seed) = true) :
    ¬ DepthsSurvive resume c.queue files := by
  intro h
  obtain ⟨p, hp, hdepth⟩ := h _ (c.invented_mem_queue hk hnew)
  dsimp only at hp hdepth
  have hlt : p < files.length := (List.getElem?_eq_some_iff.mp hp).1
  have hparent : resume.parentEntry files.length p (c.cfg.pivotName k seed) = some 0 := by
    rw [NameConfig.parentEntry, hkeep p hp, if_pos rfl, scanParent_invented hsimple hsha1 hnew]
    exact Option.filter_some_pos (decide_eq_true (by omega))
  rw [pivotDepths_eq hp, hparent] at hdepth
  have hdeeper : (if 0 < p then resume.pivotDepths files 0 + 1 else 2) = 1 := hdepth
  have hfirst := one_le_pivotDepths resume (show 0 < files.length by omega)
  split at hdeeper <;> omega

/-- The files of the queue as `read_testcases` lists them on resume. -/
def resumedFiles (scan : ScanOptions) (draw : List Name → ℕ → ℕ) (depth : ℕ) (subdirs : Bool)
    (dir : List Name) (entries : List DirEntry) : List Name :=
  (readTestcases scan draw (depth + 1) subdirs dir entries).map Seed.name

/-- The depths of a queue survive exactly when every file is read again and tells the depth of its
entry, in whatever order the directory is listed. -/
theorem depths_survive_iff (c : Campaign) (resume : NameConfig) (scan : ScanOptions)
    (draw : List Name → ℕ → ℕ) (depth : ℕ) (subdirs : Bool) (dir : List Name)
    (entries : List DirEntry) (h : IsQueueDir c.session.names entries) :
    DepthsSurvive resume c.queue (resumedFiles scan draw depth subdirs dir entries) ↔
      ∀ e ∈ c.queue, ∃ p, (resumedFiles scan draw depth subdirs dir entries)[p]? = some e.name ∧
        DepthFromName resume c.queue (resumedFiles scan draw depth subdirs dir entries) p e := by
  refine depthsSurvive_iff_of_nodup resume (h.readTestcases_nodup depth) ?_
  intro name hname
  have hmem := ((h.mem_readTestcases depth name).mp hname).1
  rw [← c.names_queue] at hmem
  exact List.mem_map.mp hmem

/-- A session that starts from one file with the name of a queue file, and finds one input. -/
def keptCampaign : Campaign where
  cfg := ⟨false, false, false, none, 0⟩
  scan := ⟨false, false⟩
  draw := fun _ _ => 0
  depth := 1
  subdirs := true
  input := [.file (ascii "id:000000") 1 sha1OfA]
  events :=
    [.turn 0 false, .find ⟨none, none, 0, -1, 7, 9, none, ascii "flip1", 0, .none, 0, false, true,
    false, false⟩ sha1OfC]

/-- Its two entries come back with the depths one and two. -/
theorem depths_survive_kept : ∃ entries, IsQueueDir keptCampaign.session.names entries ∧
    DepthsSurvive keptCampaign.cfg keptCampaign.queue
      (resumedFiles ⟨false, false⟩ (fun _ _ => 0) 0 true [] entries) := by
  obtain ⟨entries, hentries⟩ := exists_isQueueDir keptCampaign.session.names
  refine ⟨entries, hentries, (depths_survive_iff keptCampaign keptCampaign.cfg ⟨false, false⟩
    (fun _ _ => 0) 0 true [] entries hentries).mpr ?_⟩
  have hfiles : resumedFiles ⟨false, false⟩ (fun _ _ => 0) 0 true [] entries =
      keptCampaign.session.names :=
    (aligned_iff_pairwise rfl).mpr (by decide) _ _ _ _ _ hentries
  have hqueue : keptCampaign.queue = [⟨ascii "id:000000", 1⟩,
      ⟨ascii "id:000001,src:000000,time:7,execs:9,op:flip1,pos:0,+cov", 2⟩] := rfl
  have hnames : keptCampaign.session.names = keptCampaign.queue.map QueueFile.name :=
    keptCampaign.names_queue.symm
  rw [hfiles, hnames, hqueue]
  intro e he
  rcases List.mem_pair.mp he with rfl | rfl
  · exact ⟨0, rfl, rfl⟩
  · refine ⟨1, rfl, ?_⟩
    show ∀ parent ∈ _, _ → _
    intro parent hparent hname
    rcases List.mem_pair.mp hparent with rfl | rfl
    · rfl
    · cases hname

/-- A session that starts from one file, and is resumed in place. -/
def freshCampaign : Campaign where
  cfg := ⟨false, false, false, none, 0⟩
  scan := ⟨false, false⟩
  draw := fun _ _ => 0
  depth := 1
  subdirs := true
  input := [.file (ascii "seed") 1 sha1OfA]
  events := []

/-- The seed comes back with depth two. -/
theorem depths_not_survive :
    ¬ ∀ (c : Campaign) (resume : NameConfig) (scan : ScanOptions) (draw : List Name → ℕ → ℕ)
      (depth : ℕ) (subdirs : Bool) (dir : List Name) (entries : List DirEntry),
      IsQueueDir c.session.names entries →
        DepthsSurvive resume c.queue (resumedFiles scan draw depth subdirs dir entries) := by
  intro hall
  obtain ⟨entries, hentries⟩ := exists_isQueueDir freshCampaign.session.names
  have hseed : freshCampaign.seeds[0]? = some ⟨ascii "seed", sha1OfA⟩ := rfl
  refine not_depthsSurvive_of_invented freshCampaign rfl rfl hseed (by decide) (fun p _ => ?_)
    (hall freshCampaign ⟨false, false, true, none, 0⟩ ⟨false, false⟩ (fun _ _ => 0) 0 true []
      entries hentries)
  rfl

end AflPlusPlus
