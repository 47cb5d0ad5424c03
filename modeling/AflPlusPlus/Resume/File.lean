import AflPlusPlus.Queue.Score

/-!
# The file `fastresume.bin`

What the end of a session writes and what the next session reads. The file is a sequence of chunks,
one for each `ZLIBWRITE` and `ZLIBREAD`; the raw bytes of the members `colorized … mother` of an
entry are one chunk. Reading back a written file restores the maps, the metadata and the mini
traces; the slots of `top_rated` are not in the file.
-/

namespace AflPlusPlus
open Lib

/-- The first `n` bytes of a buffer. -/
def slice (n : ℕ) (m : Bytes) : List Byte := (List.range n).map m

/-- The buffer `m` with its first bytes overwritten by `l`. -/
def blit (l : List Byte) (m : Bytes) : Bytes := fun i => l.getD i (m i)

@[simp]
theorem slice_length (n : ℕ) (m : Bytes) : (slice n m).length = n := by
  simp [slice]

theorem blit_slice (n : ℕ) (src dst : Bytes) (i : ℕ) :
    blit (slice n src) dst i = if i < n then src i else dst i := by
  unfold blit slice
  by_cases h : i < n
  · simp [h]
  · simp [h]

/-- `ijon_fastresume_state_t`. -/
structure IjonState where
  isInitialized : Bool
  ijonOffset : U32
  mapSize : U32
  realMapSize : U32
  targetMapSize : U32

inductive Chunk
  | version (ver : U64)
  | mapSize (n : U32)
  | bytes (l : List Byte)
  | ijonState (state : IjonState)
  | queueData (data : QueueMeta)
  | hasMini (on : Bool)

/-- The sizes of the structures that go into the version. -/
structure ResumeLayout where
  sizeofQueueEntry : ℕ
  sizeofIjonState : ℕ
  ijonState_lt : sizeofIjonState < 2 ^ 32

def fastResumeVersion : ℕ := 0x01000000

def ResumeLayout.version (layout : ResumeLayout) (cmplogMode useIjon : Bool) : U64 :=
  BitVec.ofNat 64 (fastResumeVersion + cmplogMode.toNat + (layout.sizeofQueueEntry <<< 1) +
    if useIjon then 4 + layout.sizeofIjonState else 0)

/-- `((map_size + 7) >> 3)`. -/
def miniLength (mapSize : ℕ) : ℕ := (mapSize + 7) >>> 3

/-! ### Saving -/

def saveMaps (s : AflState) : List Chunk :=
  [.bytes (slice s.mapSize.val s.virginBits), .bytes (slice s.mapSize.val s.virginTmout),
    .bytes (slice s.mapSize.val s.virginCrash), .bytes (slice s.mapSize.val s.varBytes)]

def saveEntry (s : AflState) (i : ℕ) : List Chunk :=
  .queueData (s.queueBuf i).toQueueMeta ::
    match (s.queueBuf i).traceMini with
    | none => [.hasMini false]
    | some mini => [.hasMini true, .bytes (slice (miniLength s.mapSize.val) mini)]

def saveEntries (s : AflState) (n : ℕ) : List Chunk := (List.range n).flatMap (saveEntry s)

/-- The file written at the end of a session; `ijon` is the state of the IJON extension when it is
in use. -/
def saveFastResume (layout : ResumeLayout) (ijon : Option IjonState) (s : AflState) : List Chunk :=
  .version (layout.version s.cmplogMode ijon.isSome) ::
    match ijon with
    | some state =>
      .mapSize (BitVec.ofNat 32 s.mapSize.val) ::
        (saveMaps s ++ .ijonState state :: saveEntries s s.queuedItems)
    | none => saveMaps s ++ saveEntries s s.queuedItems

/-! ### Loading -/

/-- The four maps, `n` bytes each. -/
def loadMaps (n : ℕ) (s : AflState) : List Chunk → Option (AflState × List Chunk)
  | .bytes bits :: .bytes tmout :: .bytes crash :: .bytes var :: rest =>
    if bits.length = n ∧ tmout.length = n ∧ crash.length = n ∧ var.length = n then
      some ({ s with
        virginBits := blit bits s.virginBits
        virginTmout := blit tmout s.virginTmout
        virginCrash := blit crash s.virginCrash
        varBytes := blit var s.varBytes }, rest)
    else none
  | _ => none

/-- The counters that the loader adjusts for an entry with metadata `data`. -/
def loadCounters (s : AflState) (data : QueueMeta) : AflState :=
  { s with
    pendingNotFuzzed :=
      if data.wasFuzzed || data.disabled then s.pendingNotFuzzed - 1 else s.pendingNotFuzzed
    activeItems := if data.disabled then s.activeItems - 1 else s.activeItems
    queuedVariable := if data.varBehavior then s.queuedVariable + 1 else s.queuedVariable
    queuedFavored := if data.favored then s.queuedFavored + 1 else s.queuedFavored
    pendingFavored :=
      if data.favored && !data.wasFuzzed then s.pendingFavored + 1 else s.pendingFavored }

/-- The body of the loop over the queue for entry `i`, once its record is read. -/
def loadRecord (s : AflState) (i : ℕ) (data : QueueMeta) (mini : Option Bytes) : AflState :=
  let s := s.modify i fun e =>
    { e with toQueueMeta := data, traceMini := mini.orElse fun _ => e.traceMini }
  let s := { s with
    totalBitmapSize := s.totalBitmapSize + data.bitmapSize.setWidth 64
    totalBitmapEntries := s.totalBitmapEntries + 1 }
  -- `update_bitmap_score(afl, q, false)`: there is no trace, so that no slot is taken
  loadCounters (updateBitmapScore s i false) data

/-- The record of entry `i`; a mini trace goes into freshly allocated memory. -/
def loadEntry (miniLen : ℕ) (s : AflState) (i : ℕ) : List Chunk → Option (AflState × List Chunk)
  | .queueData data :: .hasMini false :: rest => some (loadRecord s i data none, rest)
  | .queueData data :: .hasMini true :: .bytes l :: rest =>
    if l.length = miniLen then some (loadRecord s i data (some (blit l fun _ => 0)), rest) else none
  | _ => none

/-- The records of the entries below `n`. -/
def loadEntries (miniLen : ℕ) (s : AflState) : ℕ → List Chunk → Option (AflState × List Chunk)
  | 0, file => some (s, file)
  | n + 1, file => (loadEntries miniLen s n file).bind fun r => loadEntry miniLen r.1 n r.2

/-- The queue records; nothing may follow them. -/
def loadQueue (mapSize : ℕ) (s : AflState) (file : List Chunk) : Option AflState :=
  (loadEntries (miniLength mapSize) s s.queuedItems file).bind fun r =>
    if r.2.isEmpty then some { r.1 with reinitTable := true } else none

def loadIjonState (r : AflState × List Chunk) : Option (AflState × List Chunk) :=
  match r.2 with
  | .ijonState _ :: rest => some (r.1, rest)
  | _ => none

/-- A file with the IJON fields names the map size it was written with. -/
def loadIjonFile (s : AflState) : List Chunk → Option AflState
  | .mapSize n :: file =>
    ((loadMaps n.toNat s file).bind loadIjonState).bind fun r => loadQueue n.toNat r.1 r.2
  | _ => none

/-- The fast resume of a session that has read its queue. `none` also stands for a file of another
version, with which no fast resume is done. -/
def loadFastResume (layout : ResumeLayout) (s : AflState) : List Chunk → Option AflState
  | .version ver :: file =>
    if ver = layout.version s.cmplogMode true then loadIjonFile s file
    else if ver = layout.version s.cmplogMode false then
      (loadMaps s.mapSize.val s file).bind fun r => loadQueue s.mapSize.val r.1 r.2
    else none
  | _ => none

/-! ### Reading back a written file -/

/-- Without a trace `update_bitmap_score` does nothing. -/
theorem updateBitmapScore_no_trace (s : AflState) (q : ℕ) : updateBitmapScore s q false = s := by
  unfold updateBitmapScore
  split <;> rfl

/-- `s'` differs from `s` only in what a fast resume writes. -/
structure LoadFrame (s s' : AflState) : Prop where
  rest : s' = { s with
    queueBuf := s'.queueBuf
    virginBits := s'.virginBits
    virginTmout := s'.virginTmout
    virginCrash := s'.virginCrash
    varBytes := s'.varBytes
    totalBitmapSize := s'.totalBitmapSize
    totalBitmapEntries := s'.totalBitmapEntries
    pendingNotFuzzed := s'.pendingNotFuzzed
    activeItems := s'.activeItems
    queuedVariable := s'.queuedVariable
    queuedFavored := s'.queuedFavored
    pendingFavored := s'.pendingFavored
    reinitTable := s'.reinitTable }

theorem LoadFrame.trans {s t u : AflState} (h : LoadFrame s t) (h' : LoadFrame t u) :
    LoadFrame s u := ⟨by rw [h'.rest, h.rest]⟩

/-- The maps of `t` are those of `s`. -/
structure SameMaps (s t : AflState) : Prop where
  virginBits : ∀ i, i < s.mapSize.val → t.virginBits i = s.virginBits i
  virginTmout : ∀ i, i < s.mapSize.val → t.virginTmout i = s.virginTmout i
  virginCrash : ∀ i, i < s.mapSize.val → t.virginCrash i = s.virginCrash i
  varBytes : ∀ i, i < s.mapSize.val → t.varBytes i = s.varBytes i

/-- Entry `e` after its record, saved from `e₀`, has been loaded into it. -/
def QueueEntry.resumed (miniLen : ℕ) (e₀ e : QueueEntry) : QueueEntry :=
  { e with
    toQueueMeta := e₀.toQueueMeta
    traceMini := (e₀.traceMini.map fun m => blit (slice miniLen m) fun _ => 0).orElse
      fun _ => e.traceMini }

theorem loadRecord_spec (s : AflState) (i : ℕ) (data : QueueMeta) (mini : Option Bytes) :
    LoadFrame s (loadRecord s i data mini) ∧
      (loadRecord s i data mini).queueBuf = Function.update s.queueBuf i
        { s.queueBuf i with
          toQueueMeta := data, traceMini := mini.orElse fun _ => (s.queueBuf i).traceMini } ∧
      (loadRecord s i data mini).virginBits = s.virginBits ∧
      (loadRecord s i data mini).virginTmout = s.virginTmout ∧
      (loadRecord s i data mini).virginCrash = s.virginCrash ∧
      (loadRecord s i data mini).varBytes = s.varBytes := by
  unfold loadRecord
  dsimp only
  rw [updateBitmapScore_no_trace]
  exact ⟨⟨rfl⟩, rfl, rfl, rfl, rfl, rfl⟩

theorem loadEntry_saveEntry (s u : AflState) (i : ℕ) (rest : List Chunk) :
    ∃ t, loadEntry (miniLength s.mapSize.val) u i (saveEntry s i ++ rest) = some (t, rest) ∧
      LoadFrame u t ∧
      t.queueBuf = Function.update u.queueBuf i
        ((s.queueBuf i).resumed (miniLength s.mapSize.val) (u.queueBuf i)) ∧
      SameMaps u t := by
  have hspec : ∀ mini : Option Bytes, mini = ((s.queueBuf i).traceMini.map fun m =>
      blit (slice (miniLength s.mapSize.val) m) fun _ => 0) →
      LoadFrame u (loadRecord u i (s.queueBuf i).toQueueMeta mini) ∧
        (loadRecord u i (s.queueBuf i).toQueueMeta mini).queueBuf = Function.update u.queueBuf i
          ((s.queueBuf i).resumed (miniLength s.mapSize.val) (u.queueBuf i)) ∧
        SameMaps u (loadRecord u i (s.queueBuf i).toQueueMeta mini) := by
    intro mini hmini
    obtain ⟨hf, hbuf, h1, h2, h3, h4⟩ := loadRecord_spec u i (s.queueBuf i).toQueueMeta mini
    refine ⟨hf, ?_, ⟨fun j _ => ?_, fun j _ => ?_, fun j _ => ?_, fun j _ => ?_⟩⟩
    · rw [hbuf, hmini]
      rfl
    · rw [h1]
    · rw [h2]
    · rw [h3]
    · rw [h4]
  -- the byte after the metadata says whether a mini trace follows
  unfold saveEntry
  cases hm : (s.queueBuf i).traceMini with
  | none => exact ⟨_, rfl, hspec none (by rw [hm]; rfl)⟩
  | some m =>
    refine ⟨loadRecord u i (s.queueBuf i).toQueueMeta
      (some (blit (slice (miniLength s.mapSize.val) m) fun _ => 0)), ?_, hspec _ (by rw [hm]; rfl)⟩
    simp [loadEntry]

theorem saveEntries_succ (s : AflState) (n : ℕ) (rest : List Chunk) :
    saveEntries s (n + 1) ++ rest = saveEntries s n ++ (saveEntry s n ++ rest) := by
  simp [saveEntries, List.range_succ]

/-- The records of a written file end up in the entries they were written from. -/
theorem loadEntries_saveEntries (s u : AflState) (n : ℕ) (rest : List Chunk) :
    ∃ t, loadEntries (miniLength s.mapSize.val) u n (saveEntries s n ++ rest) = some (t, rest) ∧
      LoadFrame u t ∧ SameMaps u t ∧
      ∀ r, t.queueBuf r = if r < n then
        (s.queueBuf r).resumed (miniLength s.mapSize.val) (u.queueBuf r) else u.queueBuf r := by
  induction n generalizing rest with
  | zero =>
    refine ⟨u, rfl, ⟨rfl⟩, ⟨fun _ _ => rfl, fun _ _ => rfl, fun _ _ => rfl, fun _ _ => rfl⟩, ?_⟩
    intro r
    rw [if_neg (Nat.not_lt_zero r)]
  | succ n ih =>
    obtain ⟨t, hload, hf, hmaps, hbuf⟩ := ih (saveEntry s n ++ rest)
    obtain ⟨v, hentry, hf', hbuf', hmaps'⟩ := loadEntry_saveEntry s t n rest
    have hsize : t.mapSize = u.mapSize := by rw [hf.rest]
    rw [saveEntries_succ]
    refine ⟨v, ?_, hf.trans hf', ⟨fun j hj => ?_, fun j hj => ?_, fun j hj => ?_, fun j hj => ?_⟩,
      fun r => ?_⟩
    · rw [loadEntries, hload]
      exact hentry
    · rw [hmaps'.virginBits j (hsize ▸ hj), hmaps.virginBits j hj]
    · rw [hmaps'.virginTmout j (hsize ▸ hj), hmaps.virginTmout j hj]
    · rw [hmaps'.virginCrash j (hsize ▸ hj), hmaps.virginCrash j hj]
    · rw [hmaps'.varBytes j (hsize ▸ hj), hmaps.varBytes j hj]
    · rw [hbuf']
      by_cases hr : r = n
      · subst hr
        rw [Function.update_self, if_pos (Nat.lt_succ_self r), hbuf, if_neg (lt_irrefl r)]
      · have hlt : r < n + 1 ↔ r < n := by omega
        rw [Function.update_of_ne hr, hbuf]
        simp only [hlt]

theorem loadMaps_saveMaps (s u : AflState) (rest : List Chunk) :
    ∃ t, loadMaps s.mapSize.val u (saveMaps s ++ rest) = some (t, rest) ∧
      LoadFrame u t ∧ t.queueBuf = u.queueBuf ∧ SameMaps s t := by
  have hread : ∀ (src dst : Bytes) i, i < s.mapSize.val →
      blit (slice s.mapSize.val src) dst i = src i := by
    intro src dst i hi
    rw [blit_slice, if_pos hi]
  refine ⟨_, if_pos (by simp), ⟨rfl⟩, rfl, ⟨fun i hi => ?_, fun i hi => ?_, fun i hi => ?_,
    fun i hi => ?_⟩⟩
  · exact hread s.virginBits u.virginBits i hi
  · exact hread s.virginTmout u.virginTmout i hi
  · exact hread s.virginCrash u.virginCrash i hi
  · exact hread s.varBytes u.varBytes i hi

/-- The version tells whether the IJON fields are in the file. -/
theorem ResumeLayout.version_ne (layout : ResumeLayout) (cmplogMode : Bool) :
    layout.version cmplogMode false ≠ layout.version cmplogMode true := by
  unfold ResumeLayout.version
  intro h
  have hnat := congrArg BitVec.toNat h
  have hlt := layout.ijonState_lt
  simp only [BitVec.toNat_ofNat, if_true, Bool.false_eq_true, if_false] at hnat
  omega

/-- A new session over the same queue before the file is loaded: same settings and map size, the
entries in the same order with their lengths and ids, no slot owned and no mini trace. -/
structure Restarted (s u : AflState) : Prop where
  mapSize : u.mapSize = s.mapSize
  queuedItems : u.queuedItems = s.queuedItems
  cmplogMode : u.cmplogMode = s.cmplogMode
  nonInstrumentedMode : u.nonInstrumentedMode = s.nonInstrumentedMode
  aflDisableRedundant : u.aflDisableRedundant = s.aflDisableRedundant
  topRated : ∀ i, u.topRated i = none
  scoreChanged : u.scoreChanged = false
  traceMini : ∀ q, (u.queueBuf q).traceMini = none
  entry : ∀ q, q < s.queuedItems → (u.queueBuf q).len = (s.queueBuf q).len ∧
    (u.queueBuf q).id = (s.queueBuf q).id

/-- What loading the file of `s` makes of the new session `u`. -/
structure Loaded (s u t : AflState) : Prop where
  frame : LoadFrame u t
  maps : SameMaps s t
  entry : ∀ q, q < s.queuedItems →
    t.queueBuf q = (s.queueBuf q).resumed (miniLength s.mapSize.val) (u.queueBuf q)

theorem loadQueue_saveEntries {s u v : AflState} (h : Restarted s u) (hf : LoadFrame u v)
    (hbuf : v.queueBuf = u.queueBuf) (hmaps : SameMaps s v) :
    ∃ t, loadQueue s.mapSize.val v (saveEntries s s.queuedItems) = some t ∧ Loaded s u t := by
  have hsize : v.mapSize = s.mapSize := by rw [hf.rest]; exact h.mapSize
  have hitems : v.queuedItems = s.queuedItems := by rw [hf.rest]; exact h.queuedItems
  obtain ⟨t, hload, hf', hmaps', hentry⟩ := loadEntries_saveEntries s v s.queuedItems []
  rw [List.append_nil] at hload
  refine ⟨{ t with reinitTable := true }, ?_, ⟨?_⟩, ⟨fun i hi => ?_, fun i hi => ?_, fun i hi => ?_,
    fun i hi => ?_⟩, fun q hq => ?_⟩
  · rw [loadQueue, hitems, hload]
    rfl
  · rw [(hf.trans hf').rest]
  · exact (hmaps'.virginBits i (hsize.symm ▸ hi)).trans (hmaps.virginBits i hi)
  · exact (hmaps'.virginTmout i (hsize.symm ▸ hi)).trans (hmaps.virginTmout i hi)
  · exact (hmaps'.virginCrash i (hsize.symm ▸ hi)).trans (hmaps.virginCrash i hi)
  · exact (hmaps'.varBytes i (hsize.symm ▸ hi)).trans (hmaps.varBytes i hi)
  · rw [hentry, if_pos hq, hbuf]

/-- A new session over the same queue can load what was written, and gets back the maps, the
metadata and the mini traces. -/
theorem loadFastResume_saveFastResume (layout : ResumeLayout) (ijon : Option IjonState)
    {s u : AflState} (h : Restarted s u) :
    ∃ t, loadFastResume layout u (saveFastResume layout ijon s) = some t ∧ Loaded s u t := by
  cases ijon with
  | none =>
    obtain ⟨v, hv, hf, hbuf, hmaps⟩ := loadMaps_saveMaps s u (saveEntries s s.queuedItems)
    obtain ⟨t, ht, hloaded⟩ := loadQueue_saveEntries h hf hbuf hmaps
    refine ⟨t, ?_, hloaded⟩
    rw [saveFastResume, loadFastResume, h.cmplogMode, Option.isSome_none,
      if_neg (layout.version_ne s.cmplogMode), if_pos rfl, h.mapSize, hv, Option.bind_some]
    exact ht
  | some state =>
    have hsize : (BitVec.ofNat 32 s.mapSize.val).toNat = s.mapSize.val := by
      rw [BitVec.toNat_ofNat, Nat.mod_eq_of_lt s.mapSize.lt]
    obtain ⟨v, hv, hf, hbuf, hmaps⟩ := loadMaps_saveMaps s u
      (.ijonState state :: saveEntries s s.queuedItems)
    obtain ⟨t, ht, hloaded⟩ := loadQueue_saveEntries h hf hbuf hmaps
    refine ⟨t, ?_, hloaded⟩
    rw [saveFastResume, loadFastResume, h.cmplogMode, Option.isSome_some, if_pos rfl, loadIjonFile,
      hsize, hv, Option.bind_some]
    exact ht

end AflPlusPlus
