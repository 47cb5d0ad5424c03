import AflPlusPlus.Runtime.MapLayout
import AflPlusPlus.Runtime.PcFilter
import Mathlib.Algebra.GroupWithZero.Nat
import Mathlib.Data.List.Infix

/-!
# The PC map of the code coverage runtime

`__sanitizer_cov_trace_pc_guard_init` numbers the guards of a module and `__sanitizer_cov_pcs_init`
writes the program counter of every edge into the PC map and filters the guards. The modules come
one after the other before the forkserver is up, with their edges all instrumented; the shared
memory is attached and `dladdr` finds every module. A run that aborts has no result.
-/

namespace AflPlusPlus.Runtime
open Lib

/-- A module with its guards and the PC table of the same length. -/
structure SancovModule where
  name : List Byte
  baseAddress : BitVec 64
  edges : ℕ
  edges_pos : 0 < edges
  pc : ℕ → BitVec 64

/-- `afl_module_info_t`, with the guards from `start` to `stop` and the table from `pcs_beg` to
`pcs_end`. -/
structure ModuleInfo where
  name : List Byte
  baseAddress : BitVec 64
  guards : ℕ → BitVec 32
  guardCount : ℕ
  pc : ℕ → BitVec 64
  pcCount : ℕ
  mapped : Bool

/-- `AFL_PC_FILTER`, what the sanitizer writes for a PC, and what `afl_read_pc_filter_file` has
read; the module name is missing when the file has no line. -/
structure PcFilters where
  pcFilter : Option (List Byte)
  symbolizePc : BitVec 64 → List Byte
  filterPcs : Option FilterPcs
  filterPcsModule : Option (List Byte)

structure PcState where
  sizes : MapSizes
  moduleInfo : List ModuleInfo
  pcmap : Option (ℕ → BitVec 64)

/-- `strstr(text, pattern) != NULL`. -/
def occursIn (pattern text : List Byte) : Bool := decide (pattern <:+: text)

/-! ### The two callbacks -/

/-- `__afl_final_loc` before the first guard of the next module is numbered. -/
def MapSizes.lastNumber (s : MapSizes) : BitVec 32 := if s.finalLoc < 4 then 4 else s.finalLoc

/-- `*(start++) = ++__afl_final_loc;` for every guard. -/
def numberGuards (edges : ℕ) (finalLoc : BitVec 32) : (ℕ → BitVec 32) × BitVec 32 :=
  forLoop edges (fun i st => (Function.update st.1 i (st.2 + 1), st.2 + 1)) (fun _ => 0, finalLoc)

def guardInit (m : SancovModule) (s : PcState) : PcState :=
  let modInfo : ModuleInfo :=
    { name := m.name
      baseAddress := m.baseAddress
      guards := (numberGuards m.edges s.sizes.lastNumber).1
      guardCount := m.edges
      pc := fun _ => 0
      pcCount := 0
      mapped := false }
  { s with
    sizes := s.sizes.guardInit ⟨false, List.replicate m.edges true⟩
    moduleInfo := s.moduleInfo ++ [modInfo] }

section PcsInit

variable (env : PcFilters)

def PcFilters.rejectsSymbol (pc : BitVec 64) : Bool :=
  match env.pcFilter with
  | none => false
  | some filter => !occursIn filter (env.symbolizePc pc)

/-- `strstr` on a module name that was never read has no result. -/
def PcFilters.rejectsRange (name : List Byte) (pc : BitVec 64) : Option Bool :=
  match env.filterPcs with
  | none => some false
  | some pcs => env.filterPcsModule.bind fun filterModule =>
    if occursIn filterModule name then (locateInPcs pcs pc).map Option.isNone else some false

/-- One turn of the loop over the PC table, on the guards and the PC map. `last` is
`!mod_info->next`. -/
def pcsEntry (mapSize : BitVec 32) (last : Bool) (modInfo : ModuleInfo) (inModuleIndex : ℕ)
    (st : (ℕ → BitVec 32) × Option (ℕ → BitVec 64)) :
    Option ((ℕ → BitVec 32) × Option (ℕ → BitVec 64)) :=
  let index := st.1 0 + BitVec.ofNat 32 inModuleIndex
  if index ≥ mapSize then none
  else
    let start := modInfo.pc inModuleIndex
    let pc := start - 1#64 - modInfo.baseAddress
    let pcmap := st.2.map fun pcmap => Function.update pcmap index.toNat pc
    let guards :=
      if last && env.rejectsSymbol start then Function.update st.1 inModuleIndex 0 else st.1
    if last then
      (env.rejectsRange modInfo.name pc).map fun rejected =>
        (if rejected then Function.update guards inModuleIndex 0 else guards, pcmap)
    else some (guards, pcmap)

def pcsModule (mapSize : BitVec 32) (last : Bool) (modInfo : ModuleInfo)
    (pcmap : Option (ℕ → BitVec 64)) : Option (ModuleInfo × Option (ℕ → BitVec 64)) :=
  if modInfo.mapped then some (modInfo, pcmap)
  else if modInfo.guards (modInfo.guardCount - 1) = 0 then some (modInfo, pcmap)
  else
    (forLoop modInfo.pcCount (fun i st => st.bind (pcsEntry env mapSize last modInfo i))
      (some (modInfo.guards, pcmap))).map fun st =>
        ({ modInfo with guards := st.1, mapped := st.2.isSome || modInfo.mapped }, st.2)

def pcsModules (mapSize : BitVec 32) : List ModuleInfo → Option (ℕ → BitVec 64) →
    Option (List ModuleInfo × Option (ℕ → BitVec 64))
  | [], pcmap => some ([], pcmap)
  | modInfo :: next, pcmap =>
    (pcsModule env mapSize next.isEmpty modInfo pcmap).bind fun st =>
      (pcsModules mapSize next st.2).map fun rest => (st.1 :: rest.1, rest.2)

def pcsInit (m : SancovModule) (s : PcState) : Option PcState :=
  match s.moduleInfo.getLast? with
  | none => none
  | some lastModuleInfo =>
    if m.name ≠ lastModuleInfo.name then some s
    else
      let modInfo := { lastModuleInfo with pc := m.pc, pcCount := m.edges }
      (pcsModules env s.sizes.mapSize (s.moduleInfo.dropLast ++ [modInfo]) s.pcmap).map fun st =>
        { s with moduleInfo := st.1, pcmap := st.2 }

/-- The constructor of the module. -/
def loadModule (s : PcState) (m : SancovModule) : Option PcState := pcsInit env m (guardInit m s)

end PcsInit

/-! ### What is claimed -/

def SancovModule.relativePc (m : SancovModule) (i : ℕ) : BitVec 64 := m.pc i - 1#64 - m.baseAddress

/-- One of the filters rejects edge `i`. -/
def PcFilters.rejects (env : PcFilters) (m : SancovModule) (i : ℕ) : Bool :=
  env.rejectsSymbol (m.pc i) || env.rejectsRange m.name (m.relativePc i) == some true

/-- The PC map and the guards of a module whose guards got the numbers after `n`. -/
structure Recorded (env : PcFilters) (n : ℕ) (m : SancovModule) (info : ModuleInfo)
    (pcmap : ℕ → BitVec 64) : Prop where
  pcs : ∀ i < m.edges, pcmap (n + 1 + i) = m.relativePc i
  guards : ∀ i < m.edges, info.guards i =
    if env.rejects m i then 0 else BitVec.ofNat 32 (n + 1 + i)

/-- The same for the modules `ms`, numbered one after the other. -/
def AllRecorded (env : PcFilters) (pcmap : ℕ → BitVec 64) :
    ℕ → List SancovModule → List ModuleInfo → Prop
  | _, [], infos => infos = []
  | _, _ :: _, [] => False
  | n, m :: ms, info :: infos =>
    Recorded env n m info pcmap ∧ AllRecorded env pcmap (n + m.edges) ms infos

/-- The modules are loaded, whatever the PC map held before, and everything is recorded. -/
def PcMapRight (env : PcFilters) (s : PcState) (ms : List SancovModule) : Prop :=
  ∀ pcmap, ∃ s' pcmap', ms.foldlM (loadModule env) { s with pcmap := some pcmap } = some s' ∧
    s'.pcmap = some pcmap' ∧ AllRecorded env pcmap' s.sizes.lastNumber.toNat ms s'.moduleInfo

/-! ### The numbers -/

/-- The shared memory is attached. -/
structure MapSizes.Attached (s : MapSizes) : Prop where
  early : s.alreadyInitializedEarly = true
  shm : s.alreadyInitializedShm = true

/-- The map, with the areas of IJON, has room for `edges` more numbers. -/
def MapSizes.Fits (s : MapSizes) (edges : ℕ) : Prop :=
  s.lastNumber.toNat + edges + 69696 < 2 ^ 32

instance (s : MapSizes) (edges : ℕ) : Decidable (s.Fits edges) :=
  inferInstanceAs (Decidable (_ < _))

theorem MapSizes.toNat_lastNumber (s : MapSizes) :
    s.lastNumber.toNat = max 4 s.finalLoc.toNat := by
  have hfour : (4 : BitVec 32).toNat = 4 := rfl
  rw [MapSizes.lastNumber]
  split
  · next h =>
    rw [BitVec.lt_def, hfour] at h
    omega
  · next h =>
    rw [BitVec.lt_def, hfour] at h
    omega

theorem MapSizes.Attached.increase {s : MapSizes} (h : s.Attached) : s.increase.Attached := by
  cases s
  exact ⟨h.early, h.shm⟩

/-- Attaching the shared memory again keeps the last number. -/
theorem MapSizes.Attached.remap {s : MapSizes} (h : s.Attached) :
    s.unmapShm.mapShm.Attached ∧ s.unmapShm.mapShm.finalLoc = s.finalLoc := by
  have hshm : ¬ s.unmapShm.alreadyInitializedShm = true := Bool.false_ne_true
  rw [mapShm, if_neg hshm]
  dsimp only
  split
  · split
    · exact ⟨.increase ⟨h.early, rfl⟩, increase_finalLoc _⟩
    · exact ⟨⟨h.early, rfl⟩, rfl⟩
  · exact ⟨⟨h.early, rfl⟩, rfl⟩

theorem MapSizes.toNat_assignIds {s : MapSizes} {edges : ℕ} (hpos : 0 < edges)
    (hfits : s.Fits edges) :
    (s.assignIds ⟨false, List.replicate edges true⟩).finalLoc.toNat =
      s.lastNumber.toNat + edges := by
  obtain ⟨k, rfl⟩ : ∃ k, edges = k + 1 := ⟨edges - 1, by omega⟩
  have hone : (1 : BitVec 32).toNat = 1 := rfl
  rw [Fits] at hfits
  rw [assignIds]
  simp only [List.replicate_succ, List.tail_cons]
  rw [foldl_count, List.count_replicate_self, ← lastNumber, BitVec.toNat_add, BitVec.toNat_add,
    BitVec.toNat_ofNat, hone]
  omega

theorem MapSizes.lt_increase {s : MapSizes} (h : s.mapSize = s.finalLoc + 1)
    (hlt : s.finalLoc.toNat + 69696 < 2 ^ 32) :
    s.increase.finalLoc.toNat < s.increase.mapSize.toNat := by
  have hsum : (mapSizeIjonMap + mapSizeIjonBytes).toNat = 69632 := rfl
  have hsize : s.mapSize.toNat = s.finalLoc.toNat + 1 := by
    have hone : (1 : BitVec 32).toNat = 1 := rfl
    rw [h, BitVec.toNat_add, hone]
    omega
  have hround : (roundUp64 s.mapSize).toNat = (s.finalLoc.toNat + 64) / 64 * 64 := by
    have h63 : (63 : BitVec 32).toNat = 63 := rfl
    simp only [roundUp64, BitVec.toNat_shiftLeft, BitVec.toNat_ushiftRight, BitVec.toNat_add,
      hsize, h63, Nat.shiftLeft_eq, Nat.shiftRight_eq_div_pow]
    omega
  have hdef : s.increase.mapSize = roundUp64 s.mapSize + (mapSizeIjonMap + mapSizeIjonBytes) := by
    simp only [increase]
  rw [hdef, increase_finalLoc, BitVec.toNat_add, hround, hsum]
  omega

/-- What a guard initialiser leaves of the sizes. -/
theorem MapSizes.Attached.guardInit {s : MapSizes} (h : s.Attached) {edges : ℕ} (hpos : 0 < edges)
    (hfits : s.Fits edges) :
    (s.guardInit ⟨false, List.replicate edges true⟩).Attached ∧
      (s.guardInit ⟨false, List.replicate edges true⟩).finalLoc.toNat =
        s.lastNumber.toNat + edges ∧
      s.lastNumber.toNat + edges <
        (s.guardInit ⟨false, List.replicate edges true⟩).mapSize.toNat := by
  have hnumber := toNat_assignIds hpos hfits
  have hactive : (⟨false, List.replicate edges true⟩ : Module).active = true := by
    simp [Module.active, Nat.ne_of_gt hpos]
  have hearly : s.autoEarly = s := by rw [autoEarly, if_pos h.early]
  have hids : (s.assignIds ⟨false, List.replicate edges true⟩).Attached := ⟨h.early, h.shm⟩
  rw [MapSizes.guardInit, hearly]
  simp only [hactive, Bool.not_true, Bool.false_eq_true, if_false]
  generalize s.assignIds ⟨false, List.replicate edges true⟩ = t at hnumber hids
  rw [if_pos hids.shm, resize]
  obtain ⟨u, hu, huloc, hueq⟩ : ∃ u : MapSizes, u.Attached ∧ u.finalLoc = t.finalLoc ∧
      (if t.finalLoc > t.mapSize then t.unmapShm.mapShm else t) = u := by
    split
    · exact ⟨_, hids.remap.1, hids.remap.2, rfl⟩
    · exact ⟨_, hids, rfl, rfl⟩
  rw [hueq]
  rw [Fits] at hfits
  have hlt : u.finalLoc.toNat + 69696 < 2 ^ 32 := by
    rw [huloc, hnumber]
    exact hfits
  dsimp only
  split
  · have hinc := lt_increase (s := { u with mapSize := u.finalLoc + 1 }) rfl hlt
    rw [increase_finalLoc] at hinc ⊢
    refine ⟨.increase ⟨hu.early, hu.shm⟩, ?_, ?_⟩
    · rw [← hnumber, ← huloc]
    · rw [← hnumber, ← huloc]
      exact hinc
  · refine ⟨⟨hu.early, hu.shm⟩, by rw [← hnumber, ← huloc], ?_⟩
    have hone : (1 : BitVec 32).toNat = 1 := rfl
    show _ < (u.finalLoc + 1).toNat
    rw [BitVec.toNat_add, hone, ← hnumber, huloc]
    omega

/-- The guards get the numbers after the last one. -/
theorem numberGuards_apply (edges : ℕ) (loc : BitVec 32) {i : ℕ} (hi : i < edges) :
    (numberGuards edges loc).1 i = loc + BitVec.ofNat 32 (i + 1) := by
  suffices hinv : (numberGuards edges loc).2 = loc + BitVec.ofNat 32 edges ∧
      ∀ j < edges, (numberGuards edges loc).1 j = loc + BitVec.ofNat 32 (j + 1) from hinv.2 i hi
  refine forLoop_induct (fun k (st : (ℕ → BitVec 32) × BitVec 32) =>
    st.2 = loc + BitVec.ofNat 32 k ∧ ∀ j < k, st.1 j = loc + BitVec.ofNat 32 (j + 1)) ?_ ?_
  · refine ⟨by simp, fun j hj => absurd hj (Nat.not_lt_zero j)⟩
  · rintro k ⟨g, l⟩ hk ⟨hl, hg⟩
    have hnext : l + 1 = loc + BitVec.ofNat 32 (k + 1) := by
      dsimp only at hl
      rw [hl, BitVec.ofNat_add, BitVec.add_assoc]
      rfl
    refine ⟨hnext, fun j hj => ?_⟩
    by_cases hjk : j = k
    · rw [hjk]
      exact (Function.update_self k _ g).trans hnext
    · exact (Function.update_of_ne hjk _ g).trans (hg j (by omega))

/-! ### The filters -/

/-- A filter file that was read has at least one line. -/
def PcFilters.Readable (env : PcFilters) : Prop :=
  env.filterPcs.isSome = true → env.filterPcsModule.isSome = true

theorem PcFilters.Readable.rejectsRange {env : PcFilters} (h : env.Readable) (name : List Byte)
    (pc : BitVec 64) : ∃ rejected, env.rejectsRange name pc = some rejected := by
  rw [PcFilters.rejectsRange]
  cases hpcs : env.filterPcs with
  | none => exact ⟨false, rfl⟩
  | some pcs =>
    obtain ⟨filterModule, hmodule⟩ := Option.isSome_iff_exists.mp (h (by rw [hpcs]; rfl))
    dsimp only
    rw [hmodule, Option.bind_some]
    split
    · obtain ⟨s, hs, -, -⟩ :=
        locate_total pcs pc (fun _ => True) trivial fun _ _ _ _ _ _ _ _ => trivial
      exact ⟨s.index.isNone, by rw [hs, Option.map_some]⟩
    · exact ⟨false, rfl⟩

theorem PcFilters.rejectsRange_none {env : PcFilters} (h : ¬ env.Readable) (name : List Byte)
    (pc : BitVec 64) : env.rejectsRange name pc = none := by
  rw [PcFilters.Readable, Classical.not_imp] at h
  obtain ⟨pcs, hpcs⟩ := Option.isSome_iff_exists.mp h.1
  have hmodule := Option.not_isSome_iff_eq_none.mp h.2
  rw [PcFilters.rejectsRange, hpcs]
  dsimp only
  rw [hmodule, Option.bind_none]

/-- With ranges that lie apart, the range filter rejects the PCs of its module that no range
contains. -/
theorem PcFilters.rejectsRange_iff {env : PcFilters} {pcs : FilterPcs} {filterModule : List Byte}
    (hpcs : env.filterPcs = some pcs) (hmodule : env.filterPcsModule = some filterModule)
    (ha : pcs.Apart) (name : List Byte) (pc : BitVec 64) :
    env.rejectsRange name pc = some true ↔
      occursIn filterModule name = true ∧ ¬ ∃ i, pcs.ContainsAt i pc := by
  obtain ⟨r, hr, hfound, -⟩ := ha.locates pc
  rw [PcFilters.rejectsRange, hpcs]
  dsimp only
  rw [hmodule, Option.bind_some, hr, Option.map_some, ← hfound]
  cases occursIn filterModule name <;> cases r <;> simp

/-! ### One module -/

section Entries

variable (env : PcFilters) (m : SancovModule) (n : ℕ)

/-- Where the PC of edge `i` is written: the first guard is read anew for every edge. -/
def writtenAt (i : ℕ) : ℕ := if 0 < i ∧ env.rejects m 0 = true then i else n + 1 + i

/-- The PC map after `k` edges. -/
def pcsWritten (k : ℕ) (pcmap : ℕ → BitVec 64) : ℕ → BitVec 64 :=
  forLoop k (fun i pcmap => Function.update pcmap (writtenAt env m n i) (m.relativePc i)) pcmap

/-- The guards after `k` edges. -/
def guardsFiltered (k : ℕ) (guards : ℕ → BitVec 32) : ℕ → BitVec 32 :=
  fun i => if i < k ∧ env.rejects m i = true then 0 else guards i

variable {env m n} {info : ModuleInfo} {mapSize : BitVec 32} {guards : ℕ → BitVec 32}

/-- The module's entry in the list of modules has been filled in. -/
structure SancovModule.Filled (m : SancovModule) (info : ModuleInfo) : Prop where
  name : info.name = m.name
  base : info.baseAddress = m.baseAddress
  pc : info.pc = m.pc
  count : info.pcCount = m.edges

theorem toNat_index (hguards : guards 0 = BitVec.ofNat 32 (n + 1)) {k : ℕ}
    (hk : n + 1 + k < 2 ^ 32) :
    (guardsFiltered env m k guards 0 + BitVec.ofNat 32 k).toNat = writtenAt env m n k := by
  rw [guardsFiltered, writtenAt]
  split
  · rw [BitVec.toNat_add, BitVec.toNat_ofNat]
    show (0 + k % 2 ^ 32) % 2 ^ 32 = k
    omega
  · rw [hguards, BitVec.toNat_add, BitVec.toNat_ofNat, BitVec.toNat_ofNat]
    omega

variable (env m n) in
theorem writtenAt_le (k : ℕ) : writtenAt env m n k ≤ n + 1 + k := by
  rw [writtenAt]
  split <;> omega

theorem pcsEntry_eq (hread : env.Readable) (hinfo : m.Filled info)
    (hguards : guards 0 = BitVec.ofNat 32 (n + 1)) {k : ℕ} (hk : n + 1 + k < mapSize.toNat)
    (pcmap : ℕ → BitVec 64) :
    pcsEntry env mapSize true info k
        (guardsFiltered env m k guards, some (pcsWritten env m n k pcmap)) =
      some (guardsFiltered env m (k + 1) guards, some (pcsWritten env m n (k + 1) pcmap)) := by
  have hindex : (guardsFiltered env m k guards 0 + BitVec.ofNat 32 k).toNat =
      writtenAt env m n k := toNat_index hguards (lt_trans hk mapSize.isLt)
  obtain ⟨rejected, hrejected⟩ := hread.rejectsRange m.name (m.relativePc k)
  have hpc : m.pc k - 1#64 - info.baseAddress = m.relativePc k := by
    rw [hinfo.base, SancovModule.relativePc]
  have hrejects : env.rejects m k = (env.rejectsSymbol (m.pc k) || rejected) := by
    rw [PcFilters.rejects, hrejected]
    cases rejected <;> rfl
  have hlt : ¬ guardsFiltered env m k guards 0 + BitVec.ofNat 32 k ≥ mapSize := by
    rw [ge_iff_le, BitVec.le_def, hindex]
    have hle := writtenAt_le env m n k
    omega
  have hnext : guardsFiltered env m (k + 1) guards =
      if env.rejects m k = true then Function.update (guardsFiltered env m k guards) k 0
      else guardsFiltered env m k guards := by
    funext i
    by_cases hi : i = k
    · subst hi
      by_cases hr : env.rejects m i = true <;> simp [guardsFiltered, hr]
    · have hiff : i < k + 1 ↔ i < k := by omega
      by_cases hr : env.rejects m k = true <;> simp [guardsFiltered, hr, hi, hiff]
  rw [pcsEntry]
  simp only [if_neg hlt, hpc, hinfo.name, hinfo.pc, hrejected, Option.map_some, Bool.true_and,
    if_true, hindex]
  rw [hnext, hrejects, pcsWritten, pcsWritten, forLoop_succ]
  cases env.rejectsSymbol (m.pc k) <;> cases rejected <;> simp

/-- The loop over the PC table of the last module. -/
theorem pcsEntries_eq (hread : env.Readable) (hinfo : m.Filled info)
    (hguards : guards 0 = BitVec.ofNat 32 (n + 1)) {k : ℕ} (hk : n + k < mapSize.toNat)
    (pcmap : ℕ → BitVec 64) :
    forLoop k (fun i st => st.bind (pcsEntry env mapSize true info i))
        (some (guards, some pcmap)) =
      some (guardsFiltered env m k guards, some (pcsWritten env m n k pcmap)) := by
  induction k with
  | zero =>
    have hsame : guardsFiltered env m 0 guards = guards := by
      funext i
      simp [guardsFiltered]
    rw [hsame]
    rfl
  | succ k ih =>
    rw [forLoop_succ, ih (by omega), Option.bind_some]
    exact pcsEntry_eq hread hinfo hguards (by omega) pcmap

/-- Without a module name of the filter file, the first edge already has no result. -/
theorem pcsEntries_none (hread : ¬ env.Readable) (info : ModuleInfo) {k : ℕ} (hk : 0 < k)
    (st : (ℕ → BitVec 32) × Option (ℕ → BitVec 64)) :
    forLoop k (fun i st => st.bind (pcsEntry env mapSize true info i)) (some st) = none := by
  have hentry (i st) : pcsEntry env mapSize true info i st = none := by
    rw [pcsEntry]
    dsimp only
    rw [env.rejectsRange_none hread]
    simp
  have hinv : k = 0 ∨
      forLoop k (fun i st => st.bind (pcsEntry env mapSize true info i)) (some st) = none := by
    refine forLoop_induct (fun i st => i = 0 ∨ st = none) (Or.inl rfl) fun i st _ _ => Or.inr ?_
    cases st with
    | none => rfl
    | some st => exact hentry i st
  exact hinv.resolve_left (by omega)

end Entries

/-! ### Loading a module -/

/-- The runtime before a module is loaded: what came earlier is mapped. -/
structure PcState.Ready (s : PcState) : Prop where
  sizes : s.sizes.Attached
  mapped : ∀ info ∈ s.moduleInfo, info.mapped = true
  pcmap : s.pcmap.isSome = true

section Load

variable (env : PcFilters) (s : PcState) (m : SancovModule)

/-- The module's entry when the loop over its PC table starts. -/
def filledInfo : ModuleInfo where
  name := m.name
  baseAddress := m.baseAddress
  guards := (numberGuards m.edges s.sizes.lastNumber).1
  guardCount := m.edges
  pc := m.pc
  pcCount := m.edges
  mapped := false

def loadedInfo : ModuleInfo where
  name := m.name
  baseAddress := m.baseAddress
  guards := guardsFiltered env m m.edges (numberGuards m.edges s.sizes.lastNumber).1
  guardCount := m.edges
  pc := m.pc
  pcCount := m.edges
  mapped := true

/-- The state after the module was loaded. -/
def loaded : PcState where
  sizes := s.sizes.guardInit ⟨false, List.replicate m.edges true⟩
  moduleInfo := s.moduleInfo ++ [loadedInfo env s m]
  pcmap := s.pcmap.map (pcsWritten env m s.sizes.lastNumber.toNat m.edges)

variable {env s m}

/-- The earlier modules are skipped. -/
theorem pcsModules_append {mapSize : BitVec 32} {infos : List ModuleInfo}
    (h : ∀ info ∈ infos, info.mapped = true) (last : ModuleInfo) (pcmap : Option (ℕ → BitVec 64)) :
    pcsModules env mapSize (infos ++ [last]) pcmap =
      (pcsModule env mapSize true last pcmap).map fun st => (infos ++ [st.1], st.2) := by
  induction infos with
  | nil =>
    rw [List.nil_append, pcsModules, List.isEmpty_nil]
    cases pcsModule env mapSize true last pcmap <;> rfl
  | cons info infos ih =>
    have hskip (l) : pcsModule env mapSize l info pcmap = some (info, pcmap) := by
      rw [pcsModule, if_pos (h info List.mem_cons_self)]
    rw [List.cons_append, pcsModules, hskip, Option.bind_some,
      ih fun info' hinfo => h info' (List.mem_cons_of_mem info hinfo), Option.map_map]
    rfl

theorem pcsInit_guardInit :
    loadModule env s m =
      (pcsModules env (guardInit m s).sizes.mapSize (s.moduleInfo ++ [filledInfo s m])
        s.pcmap).map fun st => ⟨(guardInit m s).sizes, st.1, st.2⟩ := by
  rw [loadModule, pcsInit]
  simp [guardInit, filledInfo]

theorem toNat_guard (hfits : s.sizes.Fits m.edges) {i : ℕ} (hi : i < m.edges) :
    ((filledInfo s m).guards i).toNat = s.sizes.lastNumber.toNat + 1 + i := by
  rw [MapSizes.Fits] at hfits
  show ((numberGuards m.edges s.sizes.lastNumber).1 i).toNat = _
  rw [numberGuards_apply _ _ hi, BitVec.toNat_add, BitVec.toNat_ofNat]
  omega

theorem pcsModule_filled (hfits : s.sizes.Fits m.edges) (mapSize : BitVec 32)
    (pcmap : Option (ℕ → BitVec 64)) :
    pcsModule env mapSize true (filledInfo s m) pcmap =
      (forLoop m.edges (fun i st => st.bind (pcsEntry env mapSize true (filledInfo s m) i))
        (some ((filledInfo s m).guards, pcmap))).map fun st =>
          ({ filledInfo s m with guards := st.1, mapped := st.2.isSome }, st.2) := by
  have hpos := m.edges_pos
  have hstop : (filledInfo s m).guards ((filledInfo s m).guardCount - 1) ≠ 0 := by
    intro h0
    have hguard := toNat_guard hfits (show m.edges - 1 < m.edges by omega)
    rw [show m.edges = (filledInfo s m).guardCount from rfl, h0] at hguard
    have hzero : (0 : BitVec 32).toNat = 0 := rfl
    omega
  rw [pcsModule, if_neg (show ¬ (filledInfo s m).mapped = true from Bool.false_ne_true),
    if_neg hstop]
  simp [filledInfo]

theorem load_eq (hread : env.Readable) (hs : s.Ready) (hfits : s.sizes.Fits m.edges) :
    loadModule env s m = some (loaded env s m) := by
  obtain ⟨pcmap, hpcmap⟩ := Option.isSome_iff_exists.mp hs.pcmap
  have hlt : s.sizes.lastNumber.toNat + m.edges < (guardInit m s).sizes.mapSize.toNat :=
    (hs.sizes.guardInit m.edges_pos hfits).2.2
  have hfirst : (filledInfo s m).guards 0 = BitVec.ofNat 32 (s.sizes.lastNumber.toNat + 1) := by
    apply BitVec.eq_of_toNat_eq
    rw [toNat_guard hfits m.edges_pos, BitVec.toNat_ofNat]
    rw [MapSizes.Fits] at hfits
    omega
  rw [pcsInit_guardInit, pcsModules_append hs.mapped, pcsModule_filled hfits, hpcmap,
    pcsEntries_eq (m := m) hread ⟨rfl, rfl, rfl, rfl⟩ hfirst hlt]
  simp [loaded, loadedInfo, filledInfo, guardInit, hpcmap]

theorem load_none (hread : ¬ env.Readable) (hs : s.Ready) (hfits : s.sizes.Fits m.edges) :
    loadModule env s m = none := by
  rw [pcsInit_guardInit, pcsModules_append hs.mapped, pcsModule_filled hfits,
    pcsEntries_none hread _ m.edges_pos]
  rfl

variable (env) in
theorem PcState.Ready.loaded (hs : s.Ready) (hfits : s.sizes.Fits m.edges) :
    (loaded env s m).Ready := by
  refine ⟨(hs.sizes.guardInit m.edges_pos hfits).1, ?_, ?_⟩
  · intro info hinfo
    rcases List.mem_append.mp hinfo with hinfo | hinfo
    · exact hs.mapped info hinfo
    · rw [List.mem_singleton.mp hinfo]
      rfl
  · show (s.pcmap.map _).isSome = true
    rw [Option.isSome_map, hs.pcmap]

variable (env) in
theorem lastNumber_loaded (hs : s.Ready) (hfits : s.sizes.Fits m.edges) :
    (loaded env s m).sizes.lastNumber.toNat = s.sizes.lastNumber.toNat + m.edges := by
  have hloc := (hs.sizes.guardInit m.edges_pos hfits).2.1
  have hfour := s.sizes.toNat_lastNumber
  rw [MapSizes.toNat_lastNumber]
  show max 4 (s.sizes.guardInit _).finalLoc.toNat = _
  rw [hloc]
  omega

end Load

/-! ### The PC map after a run -/

/-- No guard has been zeroed when the second edge is looked at, or there is no second edge. -/
def PcFilters.FirstKept (env : PcFilters) (m : SancovModule) : Prop :=
  m.edges ≤ 1 ∨ env.rejects m 0 = false

section PcMap

variable {env : PcFilters} {m : SancovModule}

/-- Entries that no edge is written to stay. -/
theorem pcsWritten_frame {n k x : ℕ} (h : ∀ i < k, x ≠ writtenAt env m n i)
    (pcmap : ℕ → BitVec 64) : pcsWritten env m n k pcmap x = pcmap x :=
  forLoop_frame (fun pcmap => pcmap x) fun i t hi => Function.update_of_ne (h i hi) _ t

theorem pcsWritten_above {n x : ℕ} (h : n + m.edges < x) (pcmap : ℕ → BitVec 64) :
    pcsWritten env m n m.edges pcmap x = pcmap x := by
  refine pcsWritten_frame (fun i hi => ?_) pcmap
  have hle := writtenAt_le env m n i
  omega

theorem PcFilters.FirstKept.writtenAt (h : env.FirstKept m) (n : ℕ) {i : ℕ} (hi : i < m.edges) :
    writtenAt env m n i = n + 1 + i := by
  refine if_neg fun hzeroed => ?_
  rcases h with hone | hkept
  · omega
  · rw [hkept] at hzeroed
    exact Bool.false_ne_true hzeroed.2

theorem PcFilters.FirstKept.below (h : env.FirstKept m) {n x : ℕ} (hx : x ≤ n)
    (pcmap : ℕ → BitVec 64) : pcsWritten env m n m.edges pcmap x = pcmap x := by
  refine pcsWritten_frame (fun i hi => ?_) pcmap
  rw [h.writtenAt n hi]
  omega

/-- As long as the first guard is there, every PC is written to its own number. -/
theorem PcFilters.FirstKept.recorded (h : env.FirstKept m) (n : ℕ) (pcmap : ℕ → BitVec 64) :
    ∀ i < m.edges, pcsWritten env m n m.edges pcmap (n + 1 + i) = m.relativePc i := by
  refine forLoop_induct
    (fun k (pcmap : ℕ → BitVec 64) => ∀ i < k, pcmap (n + 1 + i) = m.relativePc i)
    (fun i hi => absurd hi (Nat.not_lt_zero i)) ?_
  intro k pcmap hk hrec i hi
  rw [h.writtenAt n hk]
  by_cases hik : i = k
  · rw [hik, Function.update_self]
  · rw [Function.update_of_ne (by omega), hrec i (by omega)]

/-- Otherwise the entry of the last edge is never written. -/
theorem pcsWritten_last (h : ¬ env.FirstKept m) (n : ℕ) (pcmap : ℕ → BitVec 64) :
    pcsWritten env m n m.edges pcmap (n + m.edges) = pcmap (n + m.edges) := by
  rw [PcFilters.FirstKept, not_or, Bool.not_eq_false] at h
  refine pcsWritten_frame (fun i hi => ?_) pcmap
  rw [writtenAt]
  split
  · omega
  · next hfirst =>
    have hzero : ¬ 0 < i := fun hpos => hfirst ⟨hpos, h.2⟩
    omega

/-- The PC map after the modules `ms`, numbered from `n` on. -/
def pcmapAfter (env : PcFilters) : ℕ → List SancovModule → (ℕ → BitVec 64) → ℕ → BitVec 64
  | _, [], pcmap => pcmap
  | n, m :: ms, pcmap => pcmapAfter env (n + m.edges) ms (pcsWritten env m n m.edges pcmap)

def AllPcs (pcmap : ℕ → BitVec 64) : ℕ → List SancovModule → Prop
  | _, [] => True
  | n, m :: ms =>
    (∀ i < m.edges, pcmap (n + 1 + i) = m.relativePc i) ∧ AllPcs pcmap (n + m.edges) ms

theorem pcmapAfter_below {ms : List SancovModule} (h : ∀ m ∈ ms, env.FirstKept m) {n x : ℕ}
    (hx : x ≤ n) (pcmap : ℕ → BitVec 64) : pcmapAfter env n ms pcmap x = pcmap x := by
  induction ms generalizing n pcmap with
  | nil => rfl
  | cons m ms ih =>
    rw [pcmapAfter, ih (fun m' hm' => h m' (List.mem_cons_of_mem m hm')) (by omega),
      (h m List.mem_cons_self).below hx]

theorem allPcs_of_firstKept {ms : List SancovModule} (h : ∀ m ∈ ms, env.FirstKept m) (n : ℕ)
    (pcmap : ℕ → BitVec 64) : AllPcs (pcmapAfter env n ms pcmap) n ms := by
  induction ms generalizing n pcmap with
  | nil => trivial
  | cons m ms ih =>
    have hrest : ∀ m' ∈ ms, env.FirstKept m' := fun m' hm' => h m' (List.mem_cons_of_mem m hm')
    refine ⟨fun i hi => ?_, ih hrest (n + m.edges) _⟩
    rw [pcmapAfter, pcmapAfter_below hrest (by omega)]
    exact (h m List.mem_cons_self).recorded n pcmap i hi

/-- A module whose first guard was zeroed leaves an entry that should hold `pc` and is not written
in the whole run: the one of its last edge, if no such module follows. -/
theorem exists_unwritten {ms : List SancovModule} (h : ∃ m ∈ ms, ¬ env.FirstKept m) (n : ℕ) :
    ∃ x pc, n < x ∧ (∀ pcmap, pcmapAfter env n ms pcmap x = pcmap x) ∧
      ∀ pcmap, AllPcs pcmap n ms → pcmap x = pc := by
  induction ms generalizing n with
  | nil =>
    obtain ⟨m, hm, -⟩ := h
    exact absurd hm List.not_mem_nil
  | cons m ms ih =>
    by_cases hrest : ∃ m' ∈ ms, ¬ env.FirstKept m'
    · obtain ⟨x, pc, hx, hsame, hpc⟩ := ih hrest (n + m.edges)
      refine ⟨x, pc, by omega, fun pcmap => ?_, fun pcmap hall => hpc pcmap hall.2⟩
      rw [pcmapAfter, hsame, pcsWritten_above hx]
    · push Not at hrest
      have hm : ¬ env.FirstKept m := by
        obtain ⟨m', hm', hbad⟩ := h
        rcases List.mem_cons.mp hm' with rfl | hmem
        · exact hbad
        · exact absurd (hrest m' hmem) hbad
      have hpos := m.edges_pos
      refine ⟨n + m.edges, m.relativePc (m.edges - 1), by omega, fun pcmap => ?_,
        fun pcmap hall => ?_⟩
      · rw [pcmapAfter, pcmapAfter_below hrest (Nat.le_refl _), pcsWritten_last hm]
      · have hlast := hall.1 (m.edges - 1) (by omega)
        rwa [show n + 1 + (m.edges - 1) = n + m.edges by omega] at hlast

/-- The PC map is right, whatever it held before, when no first guard was zeroed too early. -/
theorem allPcs_iff (ms : List SancovModule) (n : ℕ) :
    (∀ pcmap, AllPcs (pcmapAfter env n ms pcmap) n ms) ↔ ∀ m ∈ ms, env.FirstKept m := by
  refine ⟨fun hall => ?_, fun h pcmap => allPcs_of_firstKept h n pcmap⟩
  by_contra hbad
  push Not at hbad
  obtain ⟨x, pc, -, hsame, hpc⟩ := exists_unwritten hbad n
  have heq := hpc _ (hall fun _ => pc + 1)
  rw [hsame] at heq
  exact absurd heq (by simp)

end PcMap

/-! ### Loading any number of modules -/

section Run

variable {env : PcFilters} {s : PcState} {ms : List SancovModule}

/-- The number of guards of the modules. -/
def edgesOf (ms : List SancovModule) : ℕ := (ms.map SancovModule.edges).sum

theorem fits_head {m : SancovModule} (h : s.sizes.Fits (edgesOf (m :: ms))) :
    s.sizes.Fits m.edges := by
  rw [edgesOf, List.map_cons, List.sum_cons] at h
  rw [MapSizes.Fits] at h ⊢
  omega

theorem fits_tail {m : SancovModule} (hs : s.Ready) (h : s.sizes.Fits (edgesOf (m :: ms))) :
    (loaded env s m).sizes.Fits (edgesOf ms) := by
  have hlast := lastNumber_loaded env hs (fits_head h)
  rw [edgesOf, List.map_cons, List.sum_cons] at h
  rw [MapSizes.Fits] at h ⊢
  rw [hlast, edgesOf]
  omega

theorem loadModules_eq (hread : env.Readable) (hs : s.Ready) (hfits : s.sizes.Fits (edgesOf ms)) :
    ms.foldlM (loadModule env) s = some (ms.foldl (loaded env) s) := by
  induction ms generalizing s with
  | nil => rfl
  | cons m ms ih =>
    rw [List.foldlM_cons, load_eq hread hs (fits_head hfits), List.foldl_cons]
    exact ih (hs.loaded env (fits_head hfits)) (fits_tail hs hfits)

variable (env) in
theorem pcmap_loadModules (hs : s.Ready) (hfits : s.sizes.Fits (edgesOf ms)) :
    (ms.foldl (loaded env) s).pcmap =
      s.pcmap.map (pcmapAfter env s.sizes.lastNumber.toNat ms) := by
  induction ms generalizing s with
  | nil => exact (Option.map_id' ..).symm
  | cons m ms ih =>
    rw [List.foldl_cons, ih (hs.loaded env (fits_head hfits)) (fits_tail hs hfits),
      lastNumber_loaded env hs (fits_head hfits), loaded, Option.map_map]
    rfl

/-- The guards are right in any case. -/
theorem guards_loaded (hfits : s.sizes.Fits m.edges) {i : ℕ} (hi : i < m.edges) :
    (loadedInfo env s m).guards i = if env.rejects m i then 0
      else BitVec.ofNat 32 (s.sizes.lastNumber.toNat + 1 + i) := by
  have hguard := toNat_guard hfits hi
  show guardsFiltered env m m.edges (filledInfo s m).guards i = _
  rw [guardsFiltered]
  split
  · next h => rw [if_pos h.2]
  · next h =>
    rw [if_neg fun hr => h ⟨hi, hr⟩]
    apply BitVec.eq_of_toNat_eq
    rw [hguard, BitVec.toNat_ofNat]
    rw [MapSizes.Fits] at hfits
    omega

variable (env) in
/-- What is recorded of the modules depends on the PC map only. -/
theorem allRecorded_loadModules (hs : s.Ready) (hfits : s.sizes.Fits (edgesOf ms)) :
    ∃ infos, (ms.foldl (loaded env) s).moduleInfo = s.moduleInfo ++ infos ∧
      ∀ pcmap, AllRecorded env pcmap s.sizes.lastNumber.toNat ms infos ↔
        AllPcs pcmap s.sizes.lastNumber.toNat ms := by
  induction ms generalizing s with
  | nil => exact ⟨[], (List.append_nil _).symm, fun pcmap => ⟨fun _ => trivial, fun _ => rfl⟩⟩
  | cons m ms ih =>
    obtain ⟨infos, hinfos, hiff⟩ :=
      ih (hs.loaded env (fits_head hfits)) (fits_tail hs hfits)
    refine ⟨loadedInfo env s m :: infos, ?_, fun pcmap => ?_⟩
    · rw [List.foldl_cons, hinfos, loaded, List.append_assoc]
      rfl
    · rw [lastNumber_loaded env hs (fits_head hfits)] at hiff
      rw [AllRecorded, AllPcs, ← hiff pcmap]
      refine and_congr ⟨fun h => h.pcs, fun h => ⟨h, fun i hi => ?_⟩⟩ Iff.rfl
      exact guards_loaded (fits_head hfits) hi

/-- No module has been loaded yet. -/
theorem PcState.ready_first (hsizes : s.sizes.Attached) (hmodules : s.moduleInfo = [])
    (pcmap : ℕ → BitVec 64) : ({ s with pcmap := some pcmap } : PcState).Ready := by
  refine ⟨hsizes, ?_, rfl⟩
  rw [hmodules]
  intro info hinfo
  exact absurd hinfo List.not_mem_nil

theorem pcMapRight_of (hsizes : s.sizes.Attached) (hmodules : s.moduleInfo = [])
    (hfits : s.sizes.Fits (edgesOf ms)) (hread : env.Readable) :
    PcMapRight env s ms ↔ ∀ pcmap, AllPcs (pcmapAfter env s.sizes.lastNumber.toNat ms pcmap)
      s.sizes.lastNumber.toNat ms := by
  refine forall_congr' fun pcmap => ?_
  have hs := PcState.ready_first hsizes hmodules pcmap
  have hrun := loadModules_eq hread hs hfits
  have hpcmap := pcmap_loadModules env hs hfits
  obtain ⟨infos, hinfos, hiff⟩ := allRecorded_loadModules env hs hfits
  have hlist : (ms.foldl (loaded env) { s with pcmap := some pcmap }).moduleInfo = infos := by
    rw [hinfos]
    exact (congrArg (· ++ infos) hmodules).trans (List.nil_append infos)
  constructor
  · rintro ⟨s', pcmap', hs', hpcmap', hall⟩
    obtain rfl := Option.some.inj (hrun.symm.trans hs')
    obtain rfl := Option.some.inj (hpcmap.symm.trans hpcmap')
    rw [hlist] at hall
    exact (hiff _).mp hall
  · intro hall
    refine ⟨_, _, hrun, hpcmap, ?_⟩
    rw [hlist]
    exact (hiff _).mpr hall

/-- Everything is recorded, whatever the PC map held before, exactly when the filter file has a line
and no module with two edges or more has its first PC rejected. -/
theorem pcMapRight_iff (hsizes : s.sizes.Attached) (hmodules : s.moduleInfo = [])
    (hfits : s.sizes.Fits (edgesOf ms)) :
    PcMapRight env s ms ↔ ∀ m ∈ ms, env.Readable ∧ env.FirstKept m := by
  by_cases hread : env.Readable
  · rw [pcMapRight_of hsizes hmodules hfits hread, allPcs_iff]
    simp [hread]
  · cases ms with
    | nil =>
      refine iff_of_true (fun pcmap => ⟨_, pcmap, rfl, rfl, ?_⟩)
        fun m hm => absurd hm List.not_mem_nil
      exact hmodules
    | cons m ms =>
      refine iff_of_false (fun h => ?_) fun h => hread (h m List.mem_cons_self).1
      obtain ⟨s', pcmap', hs', -⟩ := h fun _ => 0
      have hs := PcState.ready_first hsizes hmodules fun _ => 0
      rw [List.foldlM_cons, load_none hread hs (fits_head hfits)] at hs'
      cases hs'

/-- The second of the two edges is rejected. -/
theorem pcMapRight_second_rejected : PcMapRight
    ⟨some [1], fun pc => if pc = 0x401010 then [0] else [1], none, none⟩
    ⟨MapSizes.attached, [], none⟩
    [⟨[], 0x400000, 2, by decide, fun i => if i = 0 then 0x401000 else 0x401010⟩] := by
  refine (pcMapRight_iff ⟨rfl, rfl⟩ rfl (by decide)).mpr fun m hm => ⟨?_, Or.inr ?_⟩
  · intro h
    cases h
  · rw [List.mem_singleton.mp hm]
    decide

/-- The first of the two edges is rejected. -/
theorem not_pcMapRight_first_rejected : ¬ PcMapRight
    ⟨some [1], fun pc => if pc = 0x401000 then [0] else [1], none, none⟩
    ⟨MapSizes.attached, [], none⟩
    [⟨[], 0x400000, 2, by decide, fun i => if i = 0 then 0x401000 else 0x401010⟩] := by
  rw [pcMapRight_of ⟨rfl, rfl⟩ rfl (by decide) (fun h => by cases h), allPcs_iff]
  intro h
  rcases h _ (List.mem_singleton_self _) with hone | hkept
  · exact absurd hone (by decide)
  · exact absurd hkept (by decide)

end Run

end AflPlusPlus.Runtime
