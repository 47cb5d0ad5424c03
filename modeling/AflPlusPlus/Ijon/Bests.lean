import AflPlusPlus.Lib.Files
import AflPlusPlus.Lib.Loop
import AflPlusPlus.Lib.Memory
import AflPlusPlus.Lib.NameOrder
import AflPlusPlus.Lib.Tally
import Mathlib.Data.List.Induction

/-!
# The best inputs of IJON

`ijon_update_max_dynamic` and what it calls. A slot that an execution raises gets its new value and
the length of the input first, and the file of the input after that; the exits in between leave the
file of an older input behind.
-/

namespace AflPlusPlus.Ijon
open Lib

/-- `MAP_SIZE_IJON_ENTRIES`. -/
def mapSizeIjonEntries : ℕ := 512

/-- `ijon_input_info`. -/
structure InputInfo where
  filename : Name
  slotId : ℕ
  len : ℕ

/-- `ijon_min_state`. -/
structure MinState where
  maxMap : ℕ → BitVec 64
  infos : ℕ → InputInfo
  numEntries : ℕ
  numUpdates : ℕ
  maxDir : Name

/-- The static variables of the history. -/
structure History where
  globalHistoryIndex : ℕ
  discovered : ℕ → Bool
  numDiscoveredVars : ℕ

/-- The state, with the files of the directory tree. -/
structure State where
  self : MinState
  history : History
  files : Files Name Byte

/-- What the system calls for a slot return, for its file and for the file of the history. -/
structure SlotIo where
  store : ReplaceIo
  history : ReplaceIo

/-- `snprintf(temp_filename, 512, "%s.tmp", filename)`. -/
def tempFilename (filename : Name) : Name := (filename ++ ascii ".tmp").take 511

/-- The name of the file of slot `i`. -/
def slotFile (maxDir : Name) (i : ℕ) : Name := maxDir ++ ascii "/" ++ decimal 1 i

def newInputInfo (maxDir : Name) (i : ℕ) : InputInfo := ⟨slotFile maxDir i, i, 0⟩

/-- `new_ijon_min_state`. -/
def newMinState (maxDir : Name) : MinState where
  maxMap := fun _ => 0
  infos := newInputInfo maxDir
  numEntries := 0
  numUpdates := 0
  maxDir := maxDir

def historyFilename (maxDir : Name) (limit idx : ℕ) : Name :=
  maxDir ++ ascii "/finding_" ++ decimal (max 3 (printWidth 1 (limit - 1))) idx ++ ascii ".dat"

/-- `ijon_store_history_unconditional`, with `limit` the value of `AFL_IJON_HISTORY_LIMIT`; `none`
is `FATAL`. -/
def storeHistoryUnconditional (limit : ℕ) (io : ReplaceIo) (i : ℕ) (data : List Byte) (s : State) :
    Option State :=
  if limit > 0 then
    let history := s.history
    if !history.discovered i ∧ history.numDiscoveredVars + 1 > limit then none
    else
      let history :=
        if !history.discovered i then
          { history with
            discovered := Function.update history.discovered i true
            numDiscoveredVars := history.numDiscoveredVars + 1 }
        else history
      let filename := historyFilename s.self.maxDir limit (history.globalHistoryIndex % limit)
      some { s with
        history := { history with globalHistoryIndex := history.globalHistoryIndex + 1 }
        files := (replaceFile io (tempFilename filename) filename data s.files).2 }
  else some s

/-- `inf->len = len`. -/
def State.setLen (s : State) (i len : ℕ) : State :=
  { s with self := { s.self with
    infos := Function.update s.self.infos i { s.self.infos i with len := len } } }

/-- `ijon_store_max_input`. -/
def storeMaxInput (limit : ℕ) (io : SlotIo) (i : ℕ) (data : List Byte) (s : State) : Option State :=
  let s := s.setLen i data.length
  let filename := (s.self.infos i).filename
  let (written, files) := replaceFile io.store (tempFilename filename) filename data s.files
  let s := { s with files := files }
  if written then
    (storeHistoryUnconditional limit io.history i data s).map fun s =>
      { s with self := { s.self with numUpdates := s.self.numUpdates + 1 } }
  else some s

/-- An input that was executed, the maxima it reached, and how the system calls for it end. -/
structure Call where
  shared : ℕ → BitVec 64
  data : List Byte
  io : ℕ → SlotIo

/-- The body of the loop over the slots. -/
def updateSlot (limit : ℕ) (c : Call) (i : ℕ) (s : State) : Option State :=
  if c.shared i > s.self.maxMap i then
    storeMaxInput limit (c.io i) i c.data { s with
      self := { s.self with
        numEntries := if s.self.maxMap i = 0 then s.self.numEntries + 1 else s.self.numEntries
        maxMap := Function.update s.self.maxMap i (c.shared i)
        numUpdates := s.self.numUpdates + 1 } }
  else some s

/-- `ijon_update_max_dynamic`. -/
def updateMaxDynamic (limit : ℕ) (c : Call) (s : State) : Option State :=
  forLoop mapSizeIjonEntries (fun i s => s.bind (updateSlot limit c i)) (some s)

/-- The loop of `ijon_get_input` over the slots from `i` on, of which there are `n`. -/
def findEntry (self : MinState) : ℕ → ℕ → ℕ → Option InputInfo
  | 0, _, _ => none
  | n + 1, i, rnd =>
    if self.maxMap i > 0 then
      if rnd = 0 then some (self.infos i) else findEntry self n (i + 1) (rnd - 1)
    else findEntry self n (i + 1) rnd

/-- `ijon_get_input`, where `random()` returns `random`. -/
def getInput (random : ℕ) (self : MinState) : Option InputInfo :=
  if self.numEntries = 0 then none
  else findEntry self mapSizeIjonEntries 0 (random % self.numEntries)

/-- The state after some calls, from a new state. -/
def run (limit : ℕ) (maxDir : Name) (files : Files Name Byte) (calls : List Call) : Option State :=
  calls.foldl (fun s c => s.bind (updateMaxDynamic limit c))
    (some ⟨newMinState maxDir, ⟨0, fun _ => false, 0⟩, files⟩)

/-! ### What is meant to hold -/

/-- The largest value of slot `i` in some calls. -/
def seenMax (calls : List Call) (i : ℕ) : ℕ := calls.foldr (fun c m => max (c.shared i).toNat m) 0

/-- Slot `i` belongs to an input that attained its value. -/
def SlotKept (calls : List Call) (s : State) (i : ℕ) : Prop :=
  ∃ c ∈ calls, c.shared i = s.self.maxMap i ∧ (s.self.infos i).len = c.data.length ∧
    s.files (s.self.infos i).filename = some c.data

structure Bests (calls : List Call) (s : State) : Prop where
  maxMap : ∀ i, i < mapSizeIjonEntries → (s.self.maxMap i).toNat = seenMax calls i
  numEntries : s.self.numEntries = tally mapSizeIjonEntries (· ≠ 0) s.self.maxMap
  getInput : 0 < s.self.numEntries → ∀ random, ∃ i, i < mapSizeIjonEntries ∧
    s.self.maxMap i ≠ 0 ∧ getInput random s.self = some (s.self.infos i)
  kept : ∀ i, i < mapSizeIjonEntries → s.self.maxMap i ≠ 0 → SlotKept calls s i

/-- No name of a temporary file, cut to its buffer, is the name of a slot's file. -/
def TempsApart (maxDir : Name) : Prop :=
  ∀ i j, i < mapSizeIjonEntries → j < mapSizeIjonEntries →
    tempFilename (slotFile maxDir i) ≠ slotFile maxDir j

/-- The call stores its input for every slot that it raises, unless the same bytes are there. -/
def StoresAll (s : State) (c : Call) : Prop :=
  ∀ i, i < mapSizeIjonEntries → c.shared i > s.self.maxMap i →
    (c.io i).store.Stores c.data ∨ s.files (s.self.infos i).filename = some c.data

/-! ### Names -/

section Files

variable {maxDir : Name} {i j limit : ℕ}

theorem slotFile_inj (h : slotFile maxDir i = slotFile maxDir j) : i = j := by
  unfold slotFile at h
  exact decimal_injective 1 (List.append_cancel_left h)

/-- Behind the slash a slot's file has a digit. -/
theorem slotFile_digit (maxDir : Name) (i : ℕ) :
    ∃ d, (slotFile maxDir i)[maxDir.length + 1]? = some d ∧ d ≤ 57 := by
  have hpos : 0 < (decimal 1 i).length := by
    rw [decimal, fixDigits_length]
    exact lt_of_lt_of_le Nat.one_pos (le_max_left _ _)
  refine ⟨(decimal 1 i)[0], ?_, (fixDigits_digit (List.getElem_mem hpos)).2⟩
  have hlen : (maxDir ++ ascii "/").length = maxDir.length + 1 := by simp [ascii]
  unfold slotFile
  rw [List.getElem?_append_right (by omega), hlen, Nat.sub_self, List.getElem?_eq_getElem hpos]

theorem historyFilename_letter (maxDir : Name) (limit idx : ℕ) (rest : Name) :
    (historyFilename maxDir limit idx ++ rest)[maxDir.length + 1]? = some 102 := by
  unfold historyFilename
  rw [List.append_assoc, List.append_assoc, List.append_assoc,
    List.getElem?_append_right (by omega)]
  have hsub : maxDir.length + 1 - maxDir.length = 1 := by omega
  rw [hsub]
  rfl

theorem slotFile_ne_history (maxDir : Name) (i limit idx : ℕ) :
    slotFile maxDir i ≠ historyFilename maxDir limit idx := by
  intro h
  obtain ⟨d, hd, hle⟩ := slotFile_digit maxDir i
  have hletter := historyFilename_letter maxDir limit idx []
  rw [List.append_nil, ← h, hd] at hletter
  have := Option.some.inj hletter
  omega

theorem slotFile_ne_tempHistory (maxDir : Name) (i limit idx : ℕ) :
    slotFile maxDir i ≠ tempFilename (historyFilename maxDir limit idx) := by
  intro h
  obtain ⟨d, hd, hle⟩ := slotFile_digit maxDir i
  rw [h, tempFilename, List.getElem?_take] at hd
  split at hd
  · rw [historyFilename_letter] at hd
    have := Option.some.inj hd
    omega
  · cases hd

/-- A directory whose name is short enough for the buffer. -/
theorem tempsApart_of_length_le (h : maxDir.length ≤ 506) : TempsApart maxDir := by
  intro i j hi hj heq
  have hdigits : (decimal 1 i).length ≤ 3 := by
    have hi : i < 512 := hi
    have hlog : Nat.log 10 i < 3 := Nat.log_lt_of_lt_pow' (by decide) (by omega)
    rw [decimal, fixDigits_length, printWidth]
    omega
  have hname : (slotFile maxDir i).length = maxDir.length + 1 + (decimal 1 i).length := by
    simp [slotFile, ascii]
    omega
  -- the dot of the suffix stands in its place, and the other name has no dot
  have hdot : (tempFilename (slotFile maxDir i))[(slotFile maxDir i).length]? = some 46 := by
    rw [tempFilename, List.getElem?_take, if_pos (by omega), List.getElem?_append_right (le_refl _),
      Nat.sub_self]
    rfl
  rw [heq, slotFile, List.getElem?_append_right (by simp [ascii]; omega)] at hdot
  have hdigit := fixDigits_digit (List.mem_of_getElem? hdot)
  omega

end Files

/-! ### One slot -/

section Slots

variable {maxDir : Name} {limit i : ℕ} {c : Call} {s t : State}

/-- The slots have the file names they were made with. -/
structure Named (maxDir : Name) (s : State) : Prop where
  dir : s.self.maxDir = maxDir
  filename : ∀ i, (s.self.infos i).filename = slotFile maxDir i

theorem setLen_len (s : State) (i len j : ℕ) :
    ((s.setLen i len).self.infos j).len = if j = i then len else (s.self.infos j).len := by
  unfold State.setLen
  dsimp only
  by_cases hji : j = i
  · subst hji
    rw [Function.update_self, if_pos rfl]
  · rw [Function.update_of_ne hji, if_neg hji]

theorem Named.setLen (hs : Named maxDir s) (i len : ℕ) : Named maxDir (s.setLen i len) := by
  refine ⟨hs.dir, fun j => ?_⟩
  unfold State.setLen
  dsimp only
  by_cases hji : j = i
  · subst hji
    rw [Function.update_self]
    exact hs.filename j
  · rw [Function.update_of_ne hji]
    exact hs.filename j

theorem storeHistory_frame {io : ReplaceIo} {data : List Byte}
    (h : storeHistoryUnconditional limit io i data s = some t) (hdir : s.self.maxDir = maxDir) :
    t.self = s.self ∧ ∀ j, t.files (slotFile maxDir j) = s.files (slotFile maxDir j) := by
  unfold storeHistoryUnconditional at h
  dsimp only at h
  rw [hdir] at h
  split at h
  · split at h
    · cases h
    · obtain rfl := Option.some.inj h
      exact ⟨rfl, fun j =>
        replaceFile_other (slotFile_ne_tempHistory maxDir j _ _) (slotFile_ne_history maxDir j _ _)⟩
  · obtain rfl := Option.some.inj h
    exact ⟨rfl, fun _ => rfl⟩

/-- What the round for slot `i` makes of the state. -/
structure SlotStep (maxDir : Name) (c : Call) (i : ℕ) (s t : State) : Prop where
  named : Named maxDir t
  maxMap : t.self.maxMap = Function.update s.self.maxMap i
    (if c.shared i > s.self.maxMap i then c.shared i else s.self.maxMap i)
  numEntries : t.self.numEntries = s.self.numEntries +
    if c.shared i > s.self.maxMap i ∧ s.self.maxMap i = 0 then 1 else 0
  len : ∀ j, (t.self.infos j).len =
    if j = i ∧ c.shared i > s.self.maxMap i then c.data.length else (s.self.infos j).len
  file : ∀ j, j < mapSizeIjonEntries → t.files (slotFile maxDir j) =
    if j = i ∧ c.shared i > s.self.maxMap i ∧ (c.io i).store.Stores c.data then some c.data
    else s.files (slotFile maxDir j)

/-- What `ijon_store_max_input` makes of the state. -/
structure StoreStep (maxDir : Name) (io : SlotIo) (i : ℕ) (data : List Byte) (s t : State) :
    Prop where
  named : Named maxDir t
  maxMap : t.self.maxMap = s.self.maxMap
  numEntries : t.self.numEntries = s.self.numEntries
  len : ∀ j, (t.self.infos j).len = if j = i then data.length else (s.self.infos j).len
  file : ∀ j, j < mapSizeIjonEntries → t.files (slotFile maxDir j) =
    if j = i ∧ io.store.Stores data then some data else s.files (slotFile maxDir j)

theorem storeMaxInput_step {io : SlotIo} {data : List Byte}
    (h : storeMaxInput limit io i data s = some t) (hdir : TempsApart maxDir)
    (hi : i < mapSizeIjonEntries) (hs : Named maxDir s) : StoreStep maxDir io i data s t := by
  have hfile : ∀ j, j < mapSizeIjonEntries →
      (replaceFile io.store (tempFilename (slotFile maxDir i)) (slotFile maxDir i) data s.files).2
        (slotFile maxDir j) =
      if j = i ∧ io.store.Stores data then some data else s.files (slotFile maxDir j) := by
    intro j hj
    by_cases hji : j = i
    · subst hji
      rw [replaceFile_path (hdir j j hj hj).symm]
      simp
    · rw [if_neg fun h => hji h.1,
        replaceFile_other (hdir i j hi hj).symm fun h => hji (slotFile_inj h)]
  have hset := hs.setLen i data.length
  unfold storeMaxInput at h
  dsimp only at h
  rw [hset.filename i] at h
  split at h
  · obtain ⟨u, hu, rfl⟩ := Option.map_eq_some_iff.mp h
    obtain ⟨hself, hfiles⟩ := storeHistory_frame hu hset.dir
    refine ⟨⟨?_, fun j => ?_⟩, ?_, ?_, fun j => ?_, fun j hj => (hfiles j).trans (hfile j hj)⟩ <;>
      dsimp only <;> rw [hself]
    · exact hset.dir
    · exact hset.filename j
    · rfl
    · rfl
    · exact setLen_len s i _ j
  · obtain rfl := Option.some.inj h
    exact ⟨⟨hset.dir, hset.filename⟩, rfl, rfl, setLen_len s i _, hfile⟩

theorem updateSlot_step (hdir : TempsApart maxDir) (hi : i < mapSizeIjonEntries)
    (hs : Named maxDir s) (h : updateSlot limit c i s = some t) : SlotStep maxDir c i s t := by
  unfold updateSlot at h
  split at h
  · rename_i hraised
    have hstep := storeMaxInput_step h hdir hi ⟨hs.dir, hs.filename⟩
    refine ⟨hstep.named, ?_, ?_, fun j => ?_, fun j hj => ?_⟩
    · rw [if_pos hraised]
      exact hstep.maxMap
    · rw [hstep.numEntries]
      dsimp only
      by_cases hzero : s.self.maxMap i = 0
      · rw [if_pos hzero, if_pos ⟨hraised, hzero⟩]
      · rw [if_neg hzero, if_neg fun h => hzero h.2, Nat.add_zero]
    · rw [hstep.len]
      simp [hraised]
    · rw [hstep.file j hj]
      simp [hraised]
  · rename_i hraised
    obtain rfl := Option.some.inj h
    refine ⟨hs, ?_, ?_, fun j => ?_, fun j _ => ?_⟩
    · rw [if_neg hraised, Function.update_eq_self]
    · rw [if_neg fun h => hraised h.1, Nat.add_zero]
    · rw [if_neg fun h => hraised h.2]
    · rw [if_neg fun h => hraised h.2.1]

/-- The slots that a call raises. -/
def Raises (c : Call) (s : State) (j : ℕ) : Prop := c.shared j > s.self.maxMap j

instance (c : Call) (s : State) (j : ℕ) : Decidable (Raises c s j) :=
  inferInstanceAs (Decidable (_ > _))

/-- The number of entries is right. -/
def Counted (s : State) : Prop :=
  s.self.numEntries = tally mapSizeIjonEntries (· ≠ 0) s.self.maxMap

/-- What the rounds for the slots below `n` make of the state. -/
structure Updated (maxDir : Name) (c : Call) (s : State) (n : ℕ) (t : State) : Prop where
  named : Named maxDir t
  counted : Counted t
  maxMap : ∀ j, t.self.maxMap j = if j < n ∧ Raises c s j then c.shared j else s.self.maxMap j
  len : ∀ j, (t.self.infos j).len =
    if j < n ∧ Raises c s j then c.data.length else (s.self.infos j).len
  file : ∀ j, j < mapSizeIjonEntries → t.files (slotFile maxDir j) =
    if j < n ∧ Raises c s j ∧ (c.io j).store.Stores c.data then some c.data
    else s.files (slotFile maxDir j)

theorem Counted.slotStep (hs : Counted s) (hi : i < mapSizeIjonEntries)
    (h : SlotStep maxDir c i s t) : Counted t := by
  have hupdate := tally_update (p := fun x : BitVec 64 => x ≠ 0) s.self.maxMap
    (if c.shared i > s.self.maxMap i then c.shared i else s.self.maxMap i) hi
  unfold Counted at hs ⊢
  rw [h.numEntries, h.maxMap]
  by_cases hraised : c.shared i > s.self.maxMap i
  · have hne : c.shared i ≠ 0 := by bv_omega
    rw [if_pos hraised] at hupdate ⊢
    rw [if_pos hne] at hupdate
    by_cases hzero : s.self.maxMap i = 0
    · rw [if_neg (not_not.mpr hzero)] at hupdate
      rw [if_pos ⟨hraised, hzero⟩]
      omega
    · rw [if_pos hzero] at hupdate
      rw [if_neg fun h => hzero h.2]
      omega
  · rw [if_neg hraised] at hupdate ⊢
    rw [if_neg fun h => hraised h.1]
    omega

theorem updateMaxDynamic_updated (h : updateMaxDynamic limit c s = some t)
    (hdir : TempsApart maxDir)
    (hs : Named maxDir s) (hcount : Counted s) : Updated maxDir c s mapSizeIjonEntries t := by
  refine forLoop_induct (fun n o => ∀ u, o = some u → Updated maxDir c s n u) ?_ ?_ t h
  · intro u hu
    obtain rfl := Option.some.inj hu
    exact ⟨hs, hcount, fun j => by simp, fun j => by simp, fun j _ => by simp⟩
  · intro i o hi ho v hv
    obtain ⟨u, rfl, hstep⟩ := Option.bind_eq_some_iff.mp hv
    have hu := ho u rfl
    have hslot := updateSlot_step hdir hi hu.named hstep
    have hold : u.self.maxMap i = s.self.maxMap i := by
      rw [hu.maxMap, if_neg fun h => absurd h.1 (Nat.lt_irrefl i)]
    have hnow : c.shared i > u.self.maxMap i ↔ Raises c s i := by
      rw [hold]
      rfl
    refine ⟨hslot.named, hu.counted.slotStep hi hslot, fun j => ?_, fun j => ?_, fun j hj => ?_⟩
    · rw [hslot.maxMap]
      by_cases hji : j = i
      · subst hji
        rw [Function.update_self, hold]
        simp only [Nat.lt_succ_self, true_and]
        rfl
      · have hlt : j < i + 1 ↔ j < i := by omega
        rw [Function.update_of_ne hji, hu.maxMap]
        simp only [hlt]
    · rw [hslot.len, hu.len]
      by_cases hji : j = i
      · subst hji
        simp [hnow]
      · have hlt : j < i + 1 ↔ j < i := by omega
        rw [if_neg fun h => hji h.1]
        simp only [hlt]
    · rw [hslot.file j hj, hu.file j hj]
      by_cases hji : j = i
      · subst hji
        simp [hnow]
      · have hlt : j < i + 1 ↔ j < i := by omega
        rw [if_neg fun h => hji h.1]
        simp only [hlt]

end Slots

/-! ### A run -/

section Runs

variable {maxDir : Name} {limit : ℕ} {files : Files Name Byte} {calls pre : List Call} {c : Call}
  {s t : State}

/-- `ijon_get_input` finds the entry with the drawn number among the non-zero slots. -/
theorem findEntry_spec {m : MinState} {n i rnd : ℕ}
    (h : tally i (· ≠ 0) m.maxMap + rnd < tally (i + n) (· ≠ 0) m.maxMap) :
    ∃ j, j < i + n ∧ m.maxMap j ≠ 0 ∧ findEntry m n i rnd = some (m.infos j) := by
  induction n generalizing i rnd with
  | zero =>
    rw [Nat.add_zero] at h
    omega
  | succ n ih =>
    have hassoc : i + (n + 1) = i + 1 + n := by omega
    have hsucc := tally_succ (p := fun x : BitVec 64 => x ≠ 0) i m.maxMap
    rw [hassoc] at h ⊢
    unfold findEntry
    by_cases hzero : m.maxMap i = 0
    · have hnot : ¬ m.maxMap i > 0 := by bv_omega
      rw [if_neg (not_not.mpr hzero), Nat.add_zero] at hsucc
      rw [if_neg hnot]
      exact ih (by rw [hsucc]; exact h)
    · have hpos : m.maxMap i > 0 := by bv_omega
      rw [if_pos hzero] at hsucc
      rw [if_pos hpos]
      by_cases hrnd : rnd = 0
      · rw [if_pos hrnd]
        exact ⟨i, by omega, hzero, rfl⟩
      · rw [if_neg hrnd]
        exact ih (by rw [hsucc]; omega)

theorem getInput_spec (hcount : Counted s) (hpos : 0 < s.self.numEntries) (random : ℕ) :
    ∃ i, i < mapSizeIjonEntries ∧ s.self.maxMap i ≠ 0 ∧
      getInput random s.self = some (s.self.infos i) := by
  have hrnd : tally 0 (· ≠ 0) s.self.maxMap + random % s.self.numEntries <
      tally (0 + mapSizeIjonEntries) (· ≠ 0) s.self.maxMap := by
    unfold Counted at hcount
    rw [Nat.zero_add, ← hcount]
    simpa [tally] using Nat.mod_lt random hpos
  have hfind := findEntry_spec hrnd
  rw [Nat.zero_add] at hfind
  unfold getInput
  rw [if_neg (by omega)]
  exact hfind

theorem run_append (limit : ℕ) (maxDir : Name) (files : Files Name Byte) (pre : List Call)
    (c : Call) : run limit maxDir files (pre ++ [c]) =
      (run limit maxDir files pre).bind (updateMaxDynamic limit c) := by
  unfold run
  rw [List.foldl_append]
  rfl

theorem seenMax_append (pre : List Call) (c : Call) (i : ℕ) :
    seenMax (pre ++ [c]) i = max (seenMax pre i) (c.shared i).toNat := by
  induction pre with
  | nil => simp [seenMax]
  | cons d pre ih =>
    have hcons : ∀ l, seenMax (d :: l) i = max (d.shared i).toNat (seenMax l i) := fun _ => rfl
    rw [List.cons_append, hcons, hcons, ih, max_assoc]

theorem le_seenMax (h : c ∈ pre) (i : ℕ) : (c.shared i).toNat ≤ seenMax pre i := by
  induction pre with
  | nil => cases h
  | cons d pre ih =>
    have hcons : seenMax (d :: pre) i = max (d.shared i).toNat (seenMax pre i) := rfl
    rw [hcons]
    rcases List.mem_cons.mp h with rfl | h
    · exact le_max_left _ _
    · exact (ih h).trans (le_max_right _ _)

/-- What no failing call touches. -/
structure Tracked (maxDir : Name) (calls : List Call) (s : State) : Prop where
  named : Named maxDir s
  counted : Counted s
  maxMap : ∀ i, i < mapSizeIjonEntries → (s.self.maxMap i).toNat = seenMax calls i

theorem Tracked.updated (hs : Tracked maxDir pre s) (h : Updated maxDir c s mapSizeIjonEntries t) :
    Tracked maxDir (pre ++ [c]) t := by
  refine ⟨h.named, h.counted, fun i hi => ?_⟩
  have hseen := hs.maxMap i hi
  rw [h.maxMap, seenMax_append]
  by_cases hraised : Raises c s i
  · rw [if_pos ⟨hi, hraised⟩]
    have hlt : (s.self.maxMap i).toNat < (c.shared i).toNat := hraised
    omega
  · rw [if_neg fun h => hraised h.2]
    have hle : (c.shared i).toNat ≤ (s.self.maxMap i).toNat := Nat.not_lt.mp hraised
    omega

theorem tracked_run (hdir : TempsApart maxDir) (h : run limit maxDir files pre = some s) :
    Tracked maxDir pre s := by
  induction pre using List.reverseRecOn generalizing s with
  | nil =>
    obtain rfl := Option.some.inj h
    refine ⟨⟨rfl, fun _ => rfl⟩, ?_, fun _ _ => rfl⟩
    simp [Counted, tally, newMinState]
  | append_singleton pre c ih =>
    rw [run_append] at h
    obtain ⟨s', hs', hstep⟩ := Option.bind_eq_some_iff.mp h
    have htracked := ih hs'
    exact htracked.updated (updateMaxDynamic_updated hstep hdir htracked.named htracked.counted)

/-- A raised slot belongs to the call exactly if the call left its input in the file. -/
theorem slotKept_raised (hs : Tracked maxDir pre s) (h : Updated maxDir c s mapSizeIjonEntries t)
    {i : ℕ} (hi : i < mapSizeIjonEntries) (hraised : Raises c s i) :
    SlotKept (pre ++ [c]) t i ↔
      (c.io i).store.Stores c.data ∨ s.files (s.self.infos i).filename = some c.data := by
  have hmap : t.self.maxMap i = c.shared i := by rw [h.maxMap, if_pos ⟨hi, hraised⟩]
  have hlen : (t.self.infos i).len = c.data.length := by rw [h.len, if_pos ⟨hi, hraised⟩]
  have hfile : t.files (slotFile maxDir i) =
      if (c.io i).store.Stores c.data then some c.data else s.files (slotFile maxDir i) := by
    rw [h.file i hi]
    simp only [hi, hraised, true_and]
  have hlt : (s.self.maxMap i).toNat < (c.shared i).toNat := hraised
  have hold := hs.maxMap i hi
  unfold SlotKept
  rw [hmap, hlen, h.named.filename, hfile, hs.named.filename]
  constructor
  · rintro ⟨d, hd, hvalue, -, hdata⟩
    -- an earlier input stayed below the new value
    have hdc : d = c := by
      rcases List.mem_append.mp hd with hd | hd
      · have hle := le_seenMax hd i
        rw [hvalue] at hle
        omega
      · exact List.mem_singleton.mp hd
    subst hdc
    by_cases hstores : (d.io i).store.Stores d.data
    · exact .inl hstores
    · rw [if_neg hstores] at hdata
      exact .inr hdata
  · intro hstored
    refine ⟨c, List.mem_append_right _ (List.mem_singleton_self c), rfl, rfl, ?_⟩
    by_cases hstores : (c.io i).store.Stores c.data
    · rw [if_pos hstores]
    · rw [if_neg hstores]
      exact hstored.resolve_left hstores

theorem slotKept_unraised (hs : Tracked maxDir pre s) (h : Updated maxDir c s mapSizeIjonEntries t)
    {i : ℕ} (hi : i < mapSizeIjonEntries) (hraised : ¬ Raises c s i) (hkept : SlotKept pre s i) :
    SlotKept (pre ++ [c]) t i := by
  obtain ⟨d, hd, hvalue, hlen, hfile⟩ := hkept
  refine ⟨d, List.mem_append_left _ hd, ?_, ?_, ?_⟩
  · rw [h.maxMap, if_neg fun h => hraised h.2, hvalue]
  · rw [h.len, if_neg fun h => hraised h.2, hlen]
  · rw [h.named.filename, h.file i hi, if_neg fun h => hraised h.2.1, ← hs.named.filename, hfile]

theorem kept_run (hdir : TempsApart maxDir)
    (hall : ∀ pre c, pre ++ [c] <+: calls → ∀ s t, run limit maxDir files pre = some s →
      updateMaxDynamic limit c s = some t → StoresAll s c) :
    pre <+: calls → ∀ s, run limit maxDir files pre = some s →
      ∀ i, i < mapSizeIjonEntries → s.self.maxMap i ≠ 0 → SlotKept pre s i := by
  induction pre using List.reverseRecOn with
  | nil =>
    intro _ s hs i _ hne
    obtain rfl := Option.some.inj hs
    exact absurd rfl hne
  | append_singleton pre c ih =>
    intro hpre t ht i hi hne
    rw [run_append] at ht
    obtain ⟨s, hs, hstep⟩ := Option.bind_eq_some_iff.mp ht
    have htracked := tracked_run hdir hs
    have hupdated := updateMaxDynamic_updated hstep hdir htracked.named htracked.counted
    by_cases hraised : Raises c s i
    · exact (slotKept_raised htracked hupdated hi hraised).mpr
        (hall pre c hpre s t hs hstep i hi hraised)
    · refine slotKept_unraised htracked hupdated hi hraised
        (ih ((List.prefix_append pre [c]).trans hpre) s hs i hi ?_)
      rwa [hupdated.maxMap, if_neg fun h => hraised h.2] at hne

/-- The bests are right in every state of a run if and only if every call of the run stores its
input for the slots it raises. -/
theorem bests_iff (hdir : TempsApart maxDir) :
    (∀ pre, pre <+: calls → ∀ s, run limit maxDir files pre = some s → Bests pre s) ↔
      ∀ pre c, pre ++ [c] <+: calls → ∀ s t, run limit maxDir files pre = some s →
        updateMaxDynamic limit c s = some t → StoresAll s c := by
  constructor
  · intro hbests pre c hpre s t hs hstep i hi hraised
    have htracked := tracked_run hdir hs
    have hupdated := updateMaxDynamic_updated hstep hdir htracked.named htracked.counted
    have ht : run limit maxDir files (pre ++ [c]) = some t := by
      rw [run_append, hs, Option.bind_some, hstep]
    refine (slotKept_raised htracked hupdated hi hraised).mp ((hbests _ hpre t ht).kept i hi ?_)
    rw [hupdated.maxMap, if_pos ⟨hi, hraised⟩]
    bv_omega
  · intro hall pre hpre s hs
    have htracked := tracked_run hdir hs
    exact ⟨htracked.maxMap, htracked.counted, getInput_spec htracked.counted,
      kept_run hdir hall hpre s hs⟩

/-- Without a history no call is fatal. -/
theorem storeMaxInput_zero (io : SlotIo) (i : ℕ) (data : List Byte) (s : State) :
    ∃ t, storeMaxInput 0 io i data s = some t := by
  unfold storeMaxInput
  dsimp only
  split
  · exact ⟨_, rfl⟩
  · exact ⟨_, rfl⟩

theorem updateMaxDynamic_zero (c : Call) (s : State) : ∃ t, updateMaxDynamic 0 c s = some t := by
  refine forLoop_invariant (fun o => ∃ t, o = some t) ⟨s, rfl⟩ ?_
  rintro i _ - ⟨u, rfl⟩
  rw [Option.bind_some]
  unfold updateSlot
  split
  · exact storeMaxInput_zero _ _ _ _
  · exact ⟨_, rfl⟩

theorem exists_run_zero (maxDir : Name) (files : Files Name Byte) (calls : List Call) :
    ∃ s, run 0 maxDir files calls = some s := by
  induction calls using List.reverseRecOn with
  | nil => exact ⟨_, rfl⟩
  | append_singleton pre c ih =>
    obtain ⟨s, hs⟩ := ih
    obtain ⟨t, ht⟩ := updateMaxDynamic_zero c s
    exact ⟨t, by rw [run_append, hs, Option.bind_some, ht]⟩

end Runs

/-- A call whose only value is in slot 0. -/
def callZero (value : BitVec 64) (data : List Byte) (opened : Bool) : Call where
  shared := fun i => if i = 0 then value else 0
  data := data
  io := fun _ => ⟨⟨opened, data.length, true⟩, ⟨true, data.length, true⟩⟩

theorem callZero_stores (value : BitVec 64) (data : List Byte) (i : ℕ) :
    ((callZero value data true).io i).store.Stores data :=
  ⟨rfl, rfl, rfl⟩

/-- Two calls that raise the slot, each of which stores its input. -/
theorem bests_two : ∃ s,
    run 0 (ascii "m") (fun _ => none) [callZero 5 [1] true, callZero 7 [2, 3] true] = some s ∧
      Bests [callZero 5 [1] true, callZero 7 [2, 3] true] s := by
  obtain ⟨s, hs⟩ := exists_run_zero (ascii "m") (fun _ => none)
    [callZero 5 [1] true, callZero 7 [2, 3] true]
  have hdir : TempsApart (ascii "m") := tempsApart_of_length_le (by decide)
  refine ⟨s, hs, (bests_iff hdir).mpr ?_ _ (List.prefix_refl _) s hs⟩
  intro pre c hpre s t _ _ i _ _
  have hc := hpre.subset (List.mem_append_right _ (List.mem_singleton_self c))
  rcases List.mem_pair.mp hc with rfl | rfl
  · exact .inl (callZero_stores 5 [1] i)
  · exact .inl (callZero_stores 7 [2, 3] i)

/-- The file of the raised slot cannot be opened: the slot has the new length and the old file. -/
theorem bests_not_kept : ∃ s,
    run 0 (ascii "m") (fun _ => none) [callZero 5 [1] true, callZero 7 [2, 3] false] = some s ∧
      ¬ Bests [callZero 5 [1] true, callZero 7 [2, 3] false] s := by
  have hdir : TempsApart (ascii "m") := tempsApart_of_length_le (by decide)
  obtain ⟨s, hs⟩ := updateMaxDynamic_zero (callZero 5 [1] true)
    ⟨newMinState (ascii "m"), ⟨0, fun _ => false, 0⟩, fun _ => none⟩
  obtain ⟨t, ht⟩ := updateMaxDynamic_zero (callZero 7 [2, 3] false) s
  have hnil : run 0 (ascii "m") (fun _ => none) [] =
      some ⟨newMinState (ascii "m"), ⟨0, fun _ => false, 0⟩, fun _ => none⟩ := rfl
  have hrun := run_append 0 (ascii "m") (fun _ => none) [] (callZero 5 [1] true)
  rw [hnil, Option.bind_some, hs, List.nil_append] at hrun
  have hnext := run_append 0 (ascii "m") (fun _ => none) [callZero 5 [1] true]
    (callZero 7 [2, 3] false)
  rw [hrun, Option.bind_some, ht] at hnext
  refine ⟨t, hnext, fun hbests => ?_⟩
  have htracked := tracked_run hdir hrun
  have hvalue : (s.self.maxMap 0).toNat = 5 := htracked.maxMap 0 (by decide)
  have hfirst := tracked_run hdir hnil
  have hold := updateMaxDynamic_updated hs hdir hfirst.named hfirst.counted
  have hupdated := updateMaxDynamic_updated ht hdir htracked.named htracked.counted
  have hraised : Raises (callZero 7 [2, 3] false) s 0 := by
    have hseven : (callZero 7 [2, 3] false).shared 0 = 7 := rfl
    unfold Raises
    rw [hseven]
    bv_omega
  have hkept := (slotKept_raised htracked hupdated (by decide) hraised).mp
    (hbests.kept 0 (by decide) (by
      rw [hupdated.maxMap, if_pos ⟨by decide, hraised⟩]
      decide))
  rcases hkept with hstored | hsame
  · exact absurd hstored.1 (by decide)
  · rw [htracked.named.filename, hold.file 0 (by decide), if_pos (by decide)] at hsame
    exact absurd hsame (by decide)

end AflPlusPlus.Ijon
