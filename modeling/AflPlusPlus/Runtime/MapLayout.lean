import AflPlusPlus.Lib.Memory

/-!
# The layout of the coverage map with IJON

With IJON the shared map holds the edge counters, then the area of `ijon_set` and `ijon_inc`, then
the area of `ijon_max`. The sizes are four globals that `__afl_map_shm`, the guard initialiser of
every module and the start of the forkserver recompute, under a flag that the map was increased
already. The runtime is taken as it runs under the fuzzer: the shared memory id is set, neither
`AFL_NO_IJON` nor `AFL_DUMP_MAP_SIZE` is.
-/

namespace AflPlusPlus.Runtime

def mapSizeIjonMap : BitVec 32 := 65536

def mapSizeIjonBytes : BitVec 32 := 4096

/-- The globals the layout depends on. -/
structure MapSizes where
  finalLoc : BitVec 32
  mapSize : BitVec 32
  covMapSize : BitVec 32
  setMapSize : BitVec 32
  ijonEnabled : Bool
  ijonMapIncreased : Bool
  alreadyInitializedShm : Bool
  alreadyInitializedEarly : Bool
  deriving DecidableEq, Repr

/-- The initial values, `MAP_SIZE` three times, in a target with IJON. -/
def MapSizes.ijonStart : MapSizes := ⟨0, 65536, 65536, 65536, true, false, false, false⟩

/-- Round up to a multiple of 64. -/
def roundUp64 (size : BitVec 32) : BitVec 32 := ((size + 63) >>> 6) <<< 6

/-- Make room for the IJON areas behind the map. -/
def MapSizes.increase (s : MapSizes) : MapSizes :=
  { s with
    covMapSize := roundUp64 s.mapSize
    mapSize := roundUp64 s.mapSize + (mapSizeIjonMap + mapSizeIjonBytes)
    setMapSize := roundUp64 s.mapSize + (mapSizeIjonMap + mapSizeIjonBytes) - mapSizeIjonBytes
    ijonMapIncreased := true }

/-- `__afl_map_shm`, as far as it concerns the sizes. -/
def MapSizes.mapShm (s : MapSizes) : MapSizes :=
  if s.alreadyInitializedShm then s
  else
    let s := { s with alreadyInitializedShm := true }
    if s.finalLoc ≠ 0 then
      let s := { s with mapSize := s.finalLoc + 1 }
      if s.ijonEnabled && !s.ijonMapIncreased then s.increase
      else { s with covMapSize := s.mapSize, setMapSize := s.mapSize }
    else { s with covMapSize := s.mapSize, setMapSize := s.mapSize }

def MapSizes.unmapShm (s : MapSizes) : MapSizes := { s with alreadyInitializedShm := false }

def MapSizes.autoEarly (s : MapSizes) : MapSizes :=
  if s.alreadyInitializedEarly then s
  else { s with alreadyInitializedEarly := true }.mapShm

/-- The guards of a module: whether its first guard is set already, and for each edge whether the
instrumentation ratio picks it. The first edge always gets an id. -/
structure Module where
  firstGuardSet : Bool
  edges : List Bool
  deriving DecidableEq, Repr

/-- The module is given ids at all. -/
def Module.active (m : Module) : Bool := !m.firstGuardSet && !m.edges.isEmpty

/-- The number of ids an active module gets. -/
def Module.ids (m : Module) : ℕ := 1 + m.edges.tail.count true

/-- The ids are given out by counting `__afl_final_loc` up. -/
def MapSizes.assignIds (s : MapSizes) (m : Module) : MapSizes :=
  let finalLoc := if s.finalLoc < 4 then 4 else s.finalLoc
  { s with
    finalLoc := m.edges.tail.foldl (fun loc pick => if pick then loc + 1 else loc) (finalLoc + 1) }

/-- The end of `__sanitizer_cov_trace_pc_guard_init`, when the shared memory is attached. -/
def MapSizes.resize (s : MapSizes) : MapSizes :=
  let s := if s.finalLoc > s.mapSize then s.unmapShm.mapShm else s
  let s := { s with mapSize := s.finalLoc + 1 }
  if s.ijonEnabled && !s.ijonMapIncreased then s.increase else s

/-- `__sanitizer_cov_trace_pc_guard_init`, before the forkserver is up. -/
def MapSizes.guardInit (s : MapSizes) (m : Module) : MapSizes :=
  let s := s.autoEarly
  if !m.active then s
  else
    let s := s.assignIds m
    if s.alreadyInitializedShm then s.resize else s

/-- The sizes when `__afl_start_forkserver` has prepared the handshake. -/
def MapSizes.handshake (s : MapSizes) : MapSizes :=
  let s := s.autoEarly
  if s.ijonEnabled && !s.ijonMapIncreased then s.increase
  else if s.covMapSize = 0 then { s with covMapSize := s.mapSize, setMapSize := s.mapSize }
  else s

/-- The sizes that are reported after the modules were initialised. -/
def MapSizes.reported (ms : List Module) : MapSizes :=
  (ms.foldl MapSizes.guardInit .ijonStart).handshake

/-- The three areas follow each other and fill the map. -/
structure MapSizes.Layout (s : MapSizes) : Prop where
  edges : s.finalLoc.toNat + 1 ≤ s.covMapSize.toNat
  set : s.setMapSize.toNat = s.covMapSize.toNat + mapSizeIjonMap.toNat
  map : s.mapSize.toNat = s.setMapSize.toNat + mapSizeIjonBytes.toNat

/-! ### Where the hooks write -/

/-- The byte of `ijon_set` and `ijon_inc`. -/
def MapSizes.ijonSetAt (s : MapSizes) (locAddr val : BitVec 32) : ℕ :=
  s.covMapSize.toNat + ((locAddr ^^^ val) % mapSizeIjonMap).toNat

/-- The bytes of entry `varId` of `ijon_max`. -/
def MapSizes.ijonMaxAt (s : MapSizes) (varId byte : ℕ) : ℕ := s.setMapSize.toNat + 8 * varId + byte

/-- With the layout, the hooks write behind the edge counters, apart from each other and inside the
reported map. -/
theorem MapSizes.Layout.separate {s : MapSizes} (h : s.Layout) {loc : ℕ}
    (hloc : loc ≤ s.finalLoc.toNat) (locAddr val : BitVec 32) {varId byte : ℕ} (hvar : varId < 512)
    (hbyte : byte < 8) :
    loc < s.ijonSetAt locAddr val ∧ s.ijonSetAt locAddr val < s.ijonMaxAt varId byte ∧
      s.ijonMaxAt varId byte < s.mapSize.toNat := by
  have hset : ((locAddr ^^^ val) % mapSizeIjonMap).toNat < 65536 := by
    rw [BitVec.toNat_umod]
    exact Nat.mod_lt _ (by decide)
  have hedges := h.edges
  have hmap := h.map
  have hsetSize := h.set
  have hm : mapSizeIjonMap.toNat = 65536 := rfl
  have hb : mapSizeIjonBytes.toNat = 4096 := rfl
  simp only [ijonSetAt, ijonMaxAt]
  omega

/-! ### One module -/

/-- The shared memory is attached, in a target with IJON. -/
structure MapSizes.Ready (s : MapSizes) : Prop where
  early : s.alreadyInitializedEarly = true
  shm : s.alreadyInitializedShm = true
  ijon : s.ijonEnabled = true

/-- The sizes before the first module. -/
def MapSizes.attached : MapSizes := ⟨0, 65536, 65536, 65536, true, false, true, true⟩

/-- The map ends right behind the edge counters, and it will not be increased any more. -/
structure MapSizes.Spoilt (s : MapSizes) : Prop extends s.Ready where
  increased : s.ijonMapIncreased = true
  map : s.mapSize = s.finalLoc + 1

theorem foldl_count (edges : List Bool) (loc : BitVec 32) :
    edges.foldl (fun loc pick => if pick then loc + 1 else loc) loc =
      loc + BitVec.ofNat 32 (edges.count true) := by
  induction edges generalizing loc with
  | nil => simp
  | cons pick edges ih =>
    rw [List.foldl_cons, ih]
    cases pick with
    | false => simp
    | true =>
      rw [List.count_cons_self, Nat.add_comm (edges.count true), BitVec.ofNat_add]
      exact BitVec.add_assoc _ _ _

/-- The last id of the first module. -/
theorem MapSizes.assignIds_attached (m : Module) :
    (MapSizes.attached.assignIds m).finalLoc.toNat = (4 + m.ids) % 4294967296 := by
  have hstart : MapSizes.attached.finalLoc < 4 := by decide
  have hfive : (4 + 1 : BitVec 32).toNat = 5 := by decide
  rw [assignIds]
  simp only [hstart, if_true]
  rw [foldl_count, BitVec.toNat_add, hfive, BitVec.toNat_ofNat, Module.ids]
  omega

theorem MapSizes.guardInit_inactive {s : MapSizes} (h : s.Ready) {m : Module}
    (hm : m.active = false) : s.guardInit m = s := by
  simp [guardInit, autoEarly, h.early, hm]

theorem MapSizes.guardInit_active {s : MapSizes} (h : s.Ready) {m : Module}
    (hm : m.active = true) : s.guardInit m = (s.assignIds m).resize := by
  have hshm : (s.assignIds m).alreadyInitializedShm = true := h.shm
  simp [guardInit, autoEarly, h.early, hm, hshm]

theorem MapSizes.Ready.assignIds {s : MapSizes} (h : s.Ready) (m : Module) :
    (s.assignIds m).Ready := ⟨h.early, h.shm, h.ijon⟩

theorem MapSizes.increase_increased (s : MapSizes) : s.increase.ijonMapIncreased = true := rfl

theorem MapSizes.increase_finalLoc (s : MapSizes) : s.increase.finalLoc = s.finalLoc := by
  -- comparing the two records first would unfold the arithmetic of the other fields
  cases s
  rfl

theorem MapSizes.Ready.increase {s : MapSizes} (h : s.Ready) : s.increase.Ready := by
  cases s
  exact ⟨h.early, h.shm, h.ijon⟩

/-- Attaching the shared memory anew keeps the ids and makes room for IJON if nobody did. -/
theorem MapSizes.Ready.remap {s : MapSizes} (h : s.Ready) (hloc : s.finalLoc ≠ 0) :
    s.unmapShm.mapShm.Ready ∧ s.unmapShm.mapShm.ijonMapIncreased = true ∧
      s.unmapShm.mapShm.finalLoc = s.finalLoc := by
  have hloc' : s.unmapShm.finalLoc ≠ 0 := hloc
  have hshm : ¬ s.unmapShm.alreadyInitializedShm = true := Bool.false_ne_true
  rw [mapShm, if_neg hshm]
  simp only [if_pos hloc']
  cases hinc : s.ijonMapIncreased with
  | false =>
    have hcond : (s.unmapShm.ijonEnabled && !s.unmapShm.ijonMapIncreased) = true := by
      simp [unmapShm, h.ijon, hinc]
    rw [if_pos hcond]
    exact ⟨.increase ⟨h.early, rfl, h.ijon⟩, increase_increased _, increase_finalLoc _⟩
  | true =>
    have hcond : ¬ (s.unmapShm.ijonEnabled && !s.unmapShm.ijonMapIncreased) = true := by
      simp [unmapShm, hinc]
    rw [if_neg hcond]
    exact ⟨⟨h.early, rfl, h.ijon⟩, hinc, rfl⟩

/-- Once the map was increased, every module leaves a map without the IJON areas. -/
theorem MapSizes.Ready.spoilt {s : MapSizes} (h : s.Ready) (hinc : s.ijonMapIncreased = true) :
    (let s := { s with mapSize := s.finalLoc + 1 }
      if s.ijonEnabled && !s.ijonMapIncreased then s.increase else s).Spoilt := by
  have hcond : ¬ (s.ijonEnabled && !s.ijonMapIncreased) = true := by simp [hinc]
  simp only [if_neg hcond]
  exact ⟨⟨h.early, h.shm, h.ijon⟩, hinc, rfl⟩

theorem MapSizes.resize_large {s : MapSizes} (h : s.Ready) (hlarge : s.finalLoc > s.mapSize) :
    s.resize.Spoilt := by
  have hloc : s.finalLoc ≠ 0 := by
    intro h0
    rw [h0] at hlarge
    exact absurd hlarge (BitVec.not_lt_zero)
  obtain ⟨hready, hinc, -⟩ := h.remap hloc
  rw [resize, if_pos hlarge]
  exact hready.spoilt hinc

theorem MapSizes.resize_increased {s : MapSizes} (h : s.Ready) (hinc : s.ijonMapIncreased = true) :
    s.resize.Spoilt := by
  by_cases hlarge : s.finalLoc > s.mapSize
  · exact resize_large h hlarge
  · rw [resize, if_neg hlarge]
    exact h.spoilt hinc

/-- A map of at most 65537 edge counters is increased to the full layout. -/
theorem MapSizes.increase_layout {s : MapSizes} (hmap : s.mapSize = s.finalLoc + 1)
    (hloc : s.finalLoc.toNat ≤ 65536) : s.increase.Layout := by
  have hsize : s.mapSize.toNat = s.finalLoc.toNat + 1 := by
    rw [hmap, BitVec.toNat_add]
    have hone : (1 : BitVec 32).toNat = 1 := rfl
    omega
  have hcov : s.increase.covMapSize.toNat = (s.finalLoc.toNat + 64) / 64 * 64 := by
    have h63 : (63 : BitVec 32).toNat = 63 := rfl
    simp only [increase, roundUp64, BitVec.toNat_shiftLeft, BitVec.toNat_ushiftRight,
      BitVec.toNat_add, hsize,
      h63, Nat.shiftLeft_eq, Nat.shiftRight_eq_div_pow]
    omega
  have hmapSize : s.increase.mapSize.toNat = s.increase.covMapSize.toNat + 69632 := by
    have hsum : (mapSizeIjonMap + mapSizeIjonBytes).toNat = 69632 := rfl
    have hdef : s.increase.mapSize =
        s.increase.covMapSize + (mapSizeIjonMap + mapSizeIjonBytes) := by simp only [increase]
    rw [hdef, BitVec.toNat_add, hcov, hsum]
    omega
  have hset : s.increase.setMapSize.toNat = s.increase.covMapSize.toNat + 65536 := by
    have hbytes : mapSizeIjonBytes.toNat = 4096 := rfl
    have hdef : s.increase.setMapSize = s.increase.mapSize - mapSizeIjonBytes := by
      simp only [increase]
    rw [hdef, BitVec.toNat_sub, hmapSize, hcov, hbytes]
    omega
  refine ⟨?_, hset, ?_⟩
  · rw [hcov, increase_finalLoc]
    omega
  · rw [hmapSize, hset]
    rfl

theorem MapSizes.resize_small {s : MapSizes} (h : s.Ready) (hinc : s.ijonMapIncreased = false)
    (hsmall : ¬ s.finalLoc > s.mapSize) (hloc : s.finalLoc.toNat ≤ 65536) :
    s.resize.Ready ∧ s.resize.ijonMapIncreased = true ∧ s.resize.covMapSize ≠ 0 ∧
      s.resize.Layout := by
  have hcond : (s.ijonEnabled && !s.ijonMapIncreased) = true := by simp [h.ijon, hinc]
  rw [resize, if_neg hsmall]
  simp only [if_pos hcond]
  have hlayout : ({ s with mapSize := s.finalLoc + 1 } : MapSizes).increase.Layout :=
    increase_layout rfl hloc
  refine ⟨.increase ⟨h.early, h.shm, h.ijon⟩, increase_increased _, ?_, hlayout⟩
  intro h0
  have hedges := hlayout.edges
  rw [h0] at hedges
  simp at hedges

/-! ### Any number of modules -/

theorem MapSizes.attached_ready : MapSizes.attached.Ready := ⟨rfl, rfl, rfl⟩

theorem MapSizes.foldl_inactive {s : MapSizes} (h : s.Ready) {ms : List Module}
    (hms : ∀ m ∈ ms, m.active = false) : ms.foldl MapSizes.guardInit s = s := by
  induction ms with
  | nil => rfl
  | cons m ms ih =>
    rw [List.foldl_cons, guardInit_inactive h (hms m List.mem_cons_self)]
    exact ih fun m' hm' => hms m' (List.mem_cons_of_mem m hm')

theorem MapSizes.Spoilt.foldl {s : MapSizes} (h : s.Spoilt) (ms : List Module) :
    (ms.foldl MapSizes.guardInit s).Spoilt := by
  induction ms generalizing s with
  | nil => exact h
  | cons m ms ih =>
    rw [List.foldl_cons]
    cases hm : m.active with
    | false =>
      rw [guardInit_inactive h.toReady hm]
      exact ih h
    | true =>
      rw [guardInit_active h.toReady hm]
      exact ih (resize_increased (h.toReady.assignIds m) h.increased)

/-- A module that is given ids after the map was increased spoils it, whatever comes around it. -/
theorem MapSizes.Ready.foldl_spoilt {s : MapSizes} (h : s.Ready) (hinc : s.ijonMapIncreased = true)
    {ms : List Module} (hms : ∃ m ∈ ms, m.active = true) :
    (ms.foldl MapSizes.guardInit s).Spoilt := by
  induction ms with
  | nil =>
    obtain ⟨m, hmem, -⟩ := hms
    exact absurd hmem List.not_mem_nil
  | cons m ms ih =>
    rw [List.foldl_cons]
    cases hm : m.active with
    | false =>
      obtain ⟨m', hmem, hact⟩ := hms
      rw [guardInit_inactive h hm]
      rcases List.mem_cons.mp hmem with rfl | hmem
      · rw [hm] at hact
        exact absurd hact Bool.false_ne_true
      · exact ih ⟨m', hmem, hact⟩
    | true =>
      rw [guardInit_active h hm]
      exact (resize_increased (h.assignIds m) hinc).foldl ms

/-- A spoilt map is reported as it is. -/
theorem MapSizes.Spoilt.not_layout {s : MapSizes} (h : s.Spoilt) : ¬ s.handshake.Layout := by
  intro hlayout
  have hsame : s.handshake.mapSize = s.mapSize ∧ s.handshake.finalLoc = s.finalLoc := by
    have hcond : ¬ (s.ijonEnabled && !s.ijonMapIncreased) = true := by simp [h.increased]
    simp only [handshake, autoEarly, h.early, if_true, if_neg hcond]
    split <;> exact ⟨rfl, rfl⟩
  have hedges := hlayout.edges
  have hset := hlayout.set
  have hmap := hlayout.map
  rw [hsame.2] at hedges
  rw [hsame.1, h.map, BitVec.toNat_add] at hmap
  have hone : (1 : BitVec 32).toNat = 1 := rfl
  have hm : mapSizeIjonMap.toNat = 65536 := rfl
  omega

/-- Where the layout stands and no module follows, the handshake leaves it alone. -/
theorem MapSizes.handshake_increased {s : MapSizes} (h : s.Ready)
    (hinc : s.ijonMapIncreased = true) (hcov : s.covMapSize ≠ 0) : s.handshake = s := by
  have hcond : ¬ (s.ijonEnabled && !s.ijonMapIncreased) = true := by simp [hinc]
  simp only [handshake, autoEarly, h.early, if_true, if_neg hcond, if_neg hcov]

/-- The first module attaches the shared memory before it does anything else. -/
theorem MapSizes.reported_eq (ms : List Module) :
    MapSizes.reported ms = (ms.foldl MapSizes.guardInit .attached).handshake := by
  have hstart : MapSizes.ijonStart.autoEarly = .attached := by decide
  have hattached : MapSizes.attached.autoEarly = .attached := by decide
  cases ms with
  | nil => simp only [reported, List.foldl_nil, handshake, hstart, hattached]
  | cons m ms => simp only [reported, List.foldl_cons, guardInit, hstart, hattached]

theorem MapSizes.guardInit_attached {m : Module} (hm : m.active = true) :
    MapSizes.attached.guardInit m = (MapSizes.attached.assignIds m).resize ∧
      ((MapSizes.attached.assignIds m).finalLoc > (MapSizes.attached.assignIds m).mapSize ↔
        65536 < (4 + m.ids) % 4294967296) := by
  refine ⟨guardInit_active attached_ready hm, ?_⟩
  rw [gt_iff_lt, BitVec.lt_def, assignIds_attached]
  exact Iff.rfl

/-- The layout is what the modules leave exactly when at most one of them was given ids and the last
of these ids fits the initial map. Where it stands, the areas are apart and inside the map. -/
theorem ijon_layout_iff (ms : List Module) :
    ((MapSizes.reported ms).Layout ↔ (ms.filter Module.active).length ≤ 1 ∧
      ∀ m ∈ ms, m.active → (4 + m.ids) % 4294967296 ≤ 65536) ∧
    ((MapSizes.reported ms).Layout → ∀ loc, loc ≤ (MapSizes.reported ms).finalLoc.toNat →
      ∀ locAddr val varId byte, varId < 512 → byte < 8 →
        loc < (MapSizes.reported ms).ijonSetAt locAddr val ∧
          (MapSizes.reported ms).ijonSetAt locAddr val <
            (MapSizes.reported ms).ijonMaxAt varId byte ∧
          (MapSizes.reported ms).ijonMaxAt varId byte < (MapSizes.reported ms).mapSize.toNat) := by
  refine ⟨?_, fun h loc hloc locAddr val varId byte hvar hbyte =>
    h.separate hloc locAddr val hvar hbyte⟩
  rw [MapSizes.reported_eq]
  induction ms with
  | nil =>
    refine iff_of_true ?_ ⟨by simp, by simp⟩
    exact ⟨by decide, by decide, by decide⟩
  | cons m ms ih =>
    rw [List.foldl_cons]
    cases hm : m.active with
    | false =>
      rw [MapSizes.guardInit_inactive MapSizes.attached_ready hm, ih]
      simp [hm]
    | true =>
      obtain ⟨hresize, hlarge⟩ := MapSizes.guardInit_attached hm
      have hready := MapSizes.attached_ready.assignIds m
      have hlength : (List.filter Module.active (m :: ms)).length =
          (ms.filter Module.active).length + 1 := by simp [hm]
      rw [hresize, hlength]
      by_cases hfit : 65536 < (4 + m.ids) % 4294967296
      · -- the module does not fit
        have hspoilt := (MapSizes.resize_large hready (hlarge.mpr hfit)).foldl ms
        refine iff_of_false hspoilt.not_layout ?_
        rintro ⟨-, hall⟩
        have hm' := hall m List.mem_cons_self hm
        omega
      · have hsmall : (MapSizes.attached.assignIds m).finalLoc.toNat ≤ 65536 := by
          rw [MapSizes.assignIds_attached]
          omega
        obtain ⟨hready', hinc, hcov, hlayout⟩ :=
          MapSizes.resize_small hready rfl (fun h => hfit (hlarge.mp h)) hsmall
        by_cases hrest : ∀ m' ∈ ms, m'.active = false
        · -- no other module is given ids
          rw [MapSizes.foldl_inactive hready' hrest, MapSizes.handshake_increased hready' hinc hcov]
          refine iff_of_true hlayout ⟨?_, ?_⟩
          · rw [List.filter_eq_nil_iff.mpr fun m' hm' => by simp [hrest m' hm']]
            simp
          · intro m' hm' hact
            rcases List.mem_cons.mp hm' with rfl | hmem
            · omega
            · rw [hrest m' hmem] at hact
              exact absurd hact Bool.false_ne_true
        · -- the next active module finds the map increased
          push Not at hrest
          obtain ⟨m', hmem, hact⟩ := hrest
          have htrue : m'.active = true := eq_true_of_ne_false hact
          refine iff_of_false (hready'.foldl_spoilt hinc ⟨m', hmem, htrue⟩).not_layout ?_
          rintro ⟨hle, -⟩
          have hpos : 0 < (ms.filter Module.active).length :=
            List.length_pos_of_mem (List.mem_filter.mpr ⟨hmem, htrue⟩)
          omega

/-- Two modules of one edge each: the second one shrinks the reported map to its edge counters. -/
theorem second_module_spoils_layout :
    let sizes := MapSizes.reported [⟨false, [true]⟩, ⟨false, [true]⟩]
    sizes.finalLoc = 6 ∧ sizes.mapSize = 7 ∧ sizes.setMapSize = 65600 ∧
      sizes.mapSize ≠ sizes.setMapSize + mapSizeIjonBytes := by
  decide

end AflPlusPlus.Runtime
