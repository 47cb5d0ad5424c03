import AflPlusPlus.Frida.Ranges

/-!
# Which addresses Frida mode leaves out

The configuration of the ranges as a run: variables of the environment, additions by the script,
initialization. It is accepted exactly when the ranges asked for do not overlap, and an address is
left out exactly when the formula over the sets says so.
-/

namespace AflPlusPlus.Frida
open Lib

variable {r ra rb : GumMemoryRange} {a b l : List GumMemoryRange} {x : ℕ}

/-! ### Collecting -/

theorem gArraySort_perm (l : List GumMemoryRange) : (gArraySort l).Perm l :=
  List.perm_insertionSort _ l

theorem rangeSort_nonpos_iff : rangeSort ra rb ≤ 0 ↔ ra.lo ≤ rb.lo := by
  have hlt : ra.baseAddress < rb.baseAddress ↔ ra.lo < rb.lo := BitVec.lt_def
  have hgt : rb.baseAddress < ra.baseAddress ↔ rb.lo < ra.lo := BitVec.lt_def
  simp only [rangeSort, hlt, hgt]
  split_ifs <;> omega

theorem gArraySort_sorted (l : List GumMemoryRange) :
    (gArraySort l).Pairwise fun r s => r.lo ≤ s.lo := by
  have htotal : Std.Total fun a b : GumMemoryRange => rangeSort a b ≤ 0 :=
    ⟨fun a b => by rw [rangeSort_nonpos_iff, rangeSort_nonpos_iff]; exact le_total _ _⟩
  have htrans : IsTrans GumMemoryRange fun a b => rangeSort a b ≤ 0 :=
    ⟨fun a b c => by
      rw [rangeSort_nonpos_iff, rangeSort_nonpos_iff, rangeSort_nonpos_iff]
      exact le_trans⟩
  exact (List.pairwise_insertionSort _ l).imp rangeSort_nonpos_iff.mp

/-- The check passes exactly on ordered lists. -/
theorem checkForOverlaps_iff (h : ∀ r ∈ l, r.NoWrap) :
    checkForOverlaps l = .ok () ↔ Ordered GumMemoryRange.lo GumMemoryRange.hi l := by
  induction l with
  | nil => exact iff_of_true rfl ordered_nil
  | cons r l ih =>
    rw [List.forall_mem_cons] at h
    cases l with
    | nil => exact iff_of_true rfl (ordered_cons.mpr ⟨r.lo_le_hi, by simp, ordered_nil⟩)
    | cons t l =>
      have hlt : t.baseAddress < r.limit ↔ t.lo < r.hi := by
        rw [BitVec.lt_def, toNat_limit h.1]
        rfl
      rw [checkForOverlaps, ordered_cons, ← ih h.2]
      split_ifs with hover
      · refine iff_of_false (by simp) ?_
        rintro ⟨-, hnext, -⟩
        have := hnext t List.mem_cons_self
        rw [hlt] at hover
        omega
      · refine ⟨fun hok => ⟨r.lo_le_hi, ?_, hok⟩, fun hok => hok.2.2⟩
        have hord := ordered_cons.mp ((ih h.2).mp hok)
        rw [hlt] at hover
        rw [List.forall_mem_cons]
        refine ⟨by omega, fun s hs => ?_⟩
        have := hord.2.1 s hs
        have := t.lo_le_hi
        omega

theorem sortAndCheck_eq_ok (h : ∀ r ∈ l, r.NoWrap) :
    sortAndCheck l = .ok a ↔ a = gArraySort l ∧ Regions a := by
  have hsorted : ∀ r ∈ gArraySort l, r.NoWrap :=
    fun r hr => h r ((gArraySort_perm l).mem_iff.mp hr)
  rw [sortAndCheck]
  cases hcheck : checkForOverlaps (gArraySort l) with
  | error e =>
    refine iff_of_false (by simp [Except.map]) ?_
    rintro ⟨rfl, hregions⟩
    rw [(checkForOverlaps_iff hsorted).mpr hregions.ordered] at hcheck
    exact absurd hcheck (by simp)
  | ok _ =>
    have hord := (checkForOverlaps_iff hsorted).mp hcheck
    simp only [Except.map, Except.ok.injEq]
    exact ⟨fun heq => ⟨heq.symm, heq ▸ ⟨hsorted, hord⟩⟩, fun heq => heq.1.symm⟩

/-! ### Configurations -/

/-- What the tokens of a variable stand for. -/
def tokenRanges (modules : List GumModule) : Option (List Byte) → List GumMemoryRange
  | none => []
  | some text =>
    (gStrsplit text (chr ',') maxRanges).filterMap fun token =>
      (convertToken modules token).toOption

def Addition.included : Addition → Option GumMemoryRange
  | includeRange r => some r
  | excludeRange _ => none

def Addition.excluded : Addition → Option GumMemoryRange
  | includeRange _ => none
  | excludeRange r => some r

/-- All ranges that the environment and the script ask to instrument. -/
def includeRequests (env : Environment) (modules : List GumModule) (adds : List Addition) :
    List GumMemoryRange :=
  tokenRanges modules env.instRanges ++ adds.filterMap Addition.included

/-- All ranges that they ask to leave out. -/
def excludeRequests (env : Environment) (modules : List GumModule) (adds : List Addition) :
    List GumMemoryRange :=
  tokenRanges modules env.excludeRanges ++ adds.filterMap Addition.excluded

/-- Every token of a variable is a range. -/
def Converts (modules : List GumModule) (envVal : Option (List Byte)) : Prop :=
  ∀ text, envVal = some text →
    ∀ token ∈ gStrsplit text (chr ',') maxRanges, ∃ r, convertToken modules token = .ok r

variable {env : Environment} {modules : List GumModule} {adds : List Addition} {proc : Process}
  {st st' : RangesState}

/-- A token stands for the range between two addresses, or for a module. -/
theorem convertToken_eq_ok {token : List Byte} (h : convertToken modules token = .ok r) :
    (∃ start stop : BitVec 64, start < stop ∧ r = ⟨start, stop - start⟩) ∨
      ∃ m ∈ modules, r = m.range := by
  rw [convertToken] at h
  split_ifs at h
  · rw [convertAddressToken] at h
    split at h
    · dsimp only at h
      split_ifs at h with _ _ _ _ _ _ hle
      cases h
      exact Or.inl ⟨_, _, BitVec.not_le.mp hle, rfl⟩
    · cases h
  · rw [convertNameToken] at h
    split at h
    · rename_i m hfind
      cases h
      exact Or.inr ⟨m, List.mem_of_find?_eq_some hfind, rfl⟩
    · cases h

theorem forall_tokenRanges {P : GumMemoryRange → Prop}
    (hrange : ∀ start stop : BitVec 64, start < stop → P ⟨start, stop - start⟩)
    (hmodules : ∀ m ∈ modules, P m.range) (envVal : Option (List Byte)) :
    ∀ r ∈ tokenRanges modules envVal, P r := by
  intro r hr
  cases envVal with
  | none => exact absurd hr List.not_mem_nil
  | some text =>
    obtain ⟨token, -, hconv⟩ := List.mem_filterMap.mp hr
    have hok : convertToken modules token = .ok r := by
      cases h : convertToken modules token with
      | error e =>
        rw [h] at hconv
        cases hconv
      | ok s =>
        rw [h] at hconv
        cases hconv
        rfl
    obtain ⟨start, stop, hlt, rfl⟩ | ⟨m, hm, rfl⟩ := convertToken_eq_ok hok
    · exact hrange start stop hlt
    · exact hmodules m hm

theorem noWrap_tokenRanges (hmodules : ∀ m ∈ modules, m.range.NoWrap)
    (envVal : Option (List Byte)) : ∀ r ∈ tokenRanges modules envVal, r.NoWrap :=
  forall_tokenRanges (fun _ _ hlt => (range_between (BitVec.le_of_lt hlt)).1) hmodules envVal

theorem convertTokens_eq_ok {tokens : List (List Byte)} :
    convertTokens modules tokens = .ok l ↔
      (∀ token ∈ tokens, ∃ r, convertToken modules token = .ok r) ∧
        l = tokens.filterMap fun token => (convertToken modules token).toOption := by
  induction tokens generalizing l with
  | nil => simp [convertTokens, eq_comm]
  | cons token tokens ih =>
    rw [convertTokens, List.forall_mem_cons]
    cases hconv : convertToken modules token with
    | error e => simp
    | ok r =>
      rw [List.filterMap_cons_some (by rw [hconv]; rfl)]
      cases hrest : convertTokens modules tokens with
      | error e =>
        refine iff_of_false (by simp [Except.map]) ?_
        rintro ⟨⟨-, hall⟩, -⟩
        have := (ih (l := _)).mpr ⟨hall, rfl⟩
        rw [hrest] at this
        cases this
      | ok rest =>
        obtain ⟨hall, hrest⟩ := ih.mp hrest
        simp only [Except.map, Except.ok.injEq]
        rw [← hrest, eq_comm]
        exact (and_iff_right ⟨⟨r, rfl⟩, hall⟩).symm

/-- `collect_ranges` succeeds on ranges that do not overlap, and sorts them. -/
theorem collectRanges_eq_ok (hmodules : ∀ m ∈ modules, m.range.NoWrap)
    {envVal : Option (List Byte)} :
    collectRanges modules envVal = .ok l ↔
      Converts modules envVal ∧ l = gArraySort (tokenRanges modules envVal) ∧ Regions l := by
  cases envVal with
  | none =>
    have hconv : Converts modules none := by simp [Converts]
    have hnil : gArraySort (tokenRanges modules none) = [] := rfl
    rw [and_iff_right hconv, hnil]
    constructor
    · rintro ⟨⟩
      exact ⟨rfl, by simp, ordered_nil⟩
    · rintro ⟨rfl, -⟩
      rfl
  | some text =>
    have hwrap := noWrap_tokenRanges hmodules (some text)
    have hconv : Converts modules (some text) ↔
        ∀ token ∈ gStrsplit text (chr ',') maxRanges, ∃ r, convertToken modules token = .ok r := by
      simp [Converts]
    rw [← sortAndCheck_eq_ok hwrap, hconv, collectRanges]
    cases hall : convertTokens modules (gStrsplit text (chr ',') maxRanges) with
    | error e =>
      refine iff_of_false (by simp) ?_
      rintro ⟨htokens, -⟩
      rw [convertTokens_eq_ok.mpr ⟨htokens, rfl⟩] at hall
      cases hall
    | ok rs =>
      obtain ⟨htokens, rfl⟩ := convertTokens_eq_ok.mp hall
      exact (and_iff_right htokens).symm

/-- What a run of additions has done. -/
structure Added (st : RangesState) (adds : List Addition) (st' : RangesState) : Prop where
  included : st'.includeRanges.Perm (st.includeRanges ++ adds.filterMap Addition.included)
  excluded : st'.excludeRanges.Perm (st.excludeRanges ++ adds.filterMap Addition.excluded)
  includeRegions : Regions st'.includeRanges
  excludeRegions : Regions st'.excludeRanges
  frame : st' = { st with includeRanges := st'.includeRanges, excludeRanges := st'.excludeRanges }

theorem forall_noWrap_concat (h : ∀ r ∈ l, r.NoWrap) (hr : r.NoWrap) :
    ∀ s ∈ l ++ [r], s.NoWrap :=
  List.forall_mem_append.mpr ⟨h, List.forall_mem_singleton.mpr hr⟩

theorem Addition.run_added {add : Addition} (hadd : add.range.NoWrap)
    (hinc : Regions st.includeRanges) (hexc : Regions st.excludeRanges)
    (h : add.run st = .ok st') : Added st [add] st' := by
  cases add with
  | includeRange r =>
    rw [Addition.run, rangesAddInclude] at h
    cases hsort : sortAndCheck (st.includeRanges ++ [r]) with
    | error e =>
      rw [hsort] at h
      cases h
    | ok l =>
      rw [hsort] at h
      cases h
      obtain ⟨rfl, hl⟩ := (sortAndCheck_eq_ok (forall_noWrap_concat hinc.noWrap hadd)).mp hsort
      have hnone : [includeRange r].filterMap Addition.excluded = [] := rfl
      exact ⟨gArraySort_perm _, by rw [hnone, List.append_nil], hl, hexc, rfl⟩
  | excludeRange r =>
    rw [Addition.run, rangesAddExclude] at h
    cases hsort : sortAndCheck (st.excludeRanges ++ [r]) with
    | error e =>
      rw [hsort] at h
      cases h
    | ok l =>
      rw [hsort] at h
      cases h
      obtain ⟨rfl, hl⟩ := (sortAndCheck_eq_ok (forall_noWrap_concat hexc.noWrap hadd)).mp hsort
      have hnone : [excludeRange r].filterMap Addition.included = [] := rfl
      exact ⟨by rw [hnone, List.append_nil], gArraySort_perm _, hinc, hl, rfl⟩

theorem Added.trans {st₁ : RangesState} {add : Addition} (h₁ : Added st [add] st₁)
    (h₂ : Added st₁ adds st') : Added st (add :: adds) st' := by
  have hinc := h₂.included.trans (h₁.included.append_right _)
  have hexc := h₂.excluded.trans (h₁.excluded.append_right _)
  rw [List.append_assoc, ← List.filterMap_append, List.singleton_append] at hinc hexc
  refine ⟨hinc, hexc, h₂.includeRegions, h₂.excludeRegions, ?_⟩
  rw [h₂.frame, h₁.frame]

theorem runAdditions_added (hadds : ∀ add ∈ adds, add.range.NoWrap)
    (hinc : Regions st.includeRanges) (hexc : Regions st.excludeRanges)
    (h : runAdditions st adds = .ok st') : Added st adds st' := by
  induction adds generalizing st with
  | nil =>
    cases h
    exact ⟨by simp, by simp, hinc, hexc, rfl⟩
  | cons add adds ih =>
    rw [List.forall_mem_cons] at hadds
    rw [runAdditions] at h
    cases hrun : add.run st with
    | error e =>
      rw [hrun] at h
      cases h
    | ok st₁ =>
      rw [hrun] at h
      have hone := Addition.run_added hadds.1 hinc hexc hrun
      exact hone.trans (ih hadds.2 hone.includeRegions hone.excludeRegions h)

/-- The state of a configuration that was accepted. -/
structure Configured (env : Environment) (modules : List GumModule) (adds : List Addition)
    (st : RangesState) : Prop where
  included : st.includeRanges.Perm (includeRequests env modules adds)
  excluded : st.excludeRanges.Perm (excludeRequests env modules adds)
  includeRegions : Regions st.includeRanges
  excludeRegions : Regions st.excludeRanges
  instLibs : st.rangesInstLibs = env.instLibs
  instJit : st.rangesInstJit = env.instJit
  dynamicLoad : st.rangesInstDynamicLoad = !env.instNoDynamicLoad
  whole : st.wholeMemoryRanges = [wholeMemory]

theorem configure_configured (hmodules : ∀ m ∈ modules, m.range.NoWrap)
    (hadds : ∀ add ∈ adds, add.range.NoWrap) (h : configure env modules adds = .ok st) :
    Configured env modules adds st := by
  rw [configure, rangesConfig] at h
  cases hinc : collectRanges modules env.instRanges with
  | error e =>
    rw [hinc] at h
    cases h
  | ok includeRanges =>
    cases hexc : collectRanges modules env.excludeRanges with
    | error e =>
      rw [hinc, hexc] at h
      cases h
    | ok excludeRanges =>
      rw [hinc, hexc] at h
      obtain ⟨-, rfl, hincRegions⟩ := (collectRanges_eq_ok hmodules).mp hinc
      obtain ⟨-, rfl, hexcRegions⟩ := (collectRanges_eq_ok hmodules).mp hexc
      have hadded := runAdditions_added hadds hincRegions hexcRegions h
      have hframe := hadded.frame
      exact ⟨hadded.included.trans ((gArraySort_perm _).append_right _),
        hadded.excluded.trans ((gArraySort_perm _).append_right _),
        hadded.includeRegions, hadded.excludeRegions, by rw [hframe], by rw [hframe],
        by rw [hframe], by rw [hframe]⟩

/-! ### What is excluded -/

def GumMemoryRange.Contains (r : GumMemoryRange) (address : BitVec 64) : Prop :=
  r.lo ≤ address.toNat ∧ address.toNat < r.hi

/-- The addresses of the process that its instrumentation is wanted for. -/
structure Instrumented (env : Environment) (modules : List GumModule) (adds : List Addition)
    (proc : Process) (address : BitVec 64) : Prop where
  mapped : ∃ d ∈ proc.details, d.range.Contains address
  text : env.instLibs = true ∨ proc.textBase ≤ address ∧ address < proc.textLimit
  included : includeRequests env modules adds = [] ∨
    ∃ r ∈ includeRequests env modules adds, r.Contains address
  notExcluded : ∀ r ∈ excludeRequests env modules adds, ¬ r.Contains address
  notJit : env.instJit = true ∨
    ∀ d ∈ proc.details, d.executable = true → d.fileBacked = false → ¬ d.range.Contains address

/-- The addresses left out: of the mapped ones, or of all but the last, those not instrumented. -/
def Excluded (env : Environment) (modules : List GumModule) (adds : List Addition)
    (proc : Process) (address : BitVec 64) : Prop :=
  (if env.instNoDynamicLoad then address ≠ BitVec.allOnes 64
    else ∃ d ∈ proc.details, d.range.Contains address) ∧
  ¬ Instrumented env modules adds proc address

theorem regions_singleton (h : r.NoWrap) : Regions [r] :=
  regions_cons.mpr ⟨h, by simp, ⟨by simp, ordered_nil⟩⟩

theorem noWrap_wholeMemory : wholeMemory.NoWrap := by decide

theorem mem_wholeMemory : x ∈ addresses [wholeMemory] ↔ x < 2 ^ 64 - 1 := by
  have hlo : wholeMemory.lo = 0 := rfl
  have hhi : wholeMemory.hi = 2 ^ 64 - 1 := by decide
  rw [mem_cover_cons, or_iff_left not_mem_cover_nil, hlo, hhi]
  omega

theorem Regions.sublist (h : Regions l) (hsub : a.Sublist l) : Regions a :=
  ⟨fun r hr => h.noWrap r (hsub.subset hr), fun r hr => h.ordered.valid r (hsub.subset hr),
    h.ordered.pairwise.sublist hsub⟩

theorem libsRanges_spec (st : RangesState) (htext : proc.textBase ≤ proc.textLimit) :
    Regions (collectLibsRanges st proc) ∧ ∀ y, y < 2 ^ 64 - 1 →
      (y ∈ addresses (collectLibsRanges st proc) ↔
        st.rangesInstLibs = true ∨ proc.textBase.toNat ≤ y ∧ y < proc.textLimit.toNat) := by
  obtain ⟨hwrap, hlo, hhi⟩ := range_between htext
  rw [collectLibsRanges]
  by_cases hlibs : st.rangesInstLibs = true
  · rw [if_pos hlibs]
    refine ⟨regions_singleton noWrap_wholeMemory, fun y hy => ?_⟩
    exact iff_of_true (mem_wholeMemory.mpr hy) (Or.inl hlibs)
  · rw [if_neg hlibs]
    refine ⟨regions_singleton hwrap, fun y _ => ?_⟩
    rw [mem_cover_cons, or_iff_left not_mem_cover_nil, hlo, hhi, or_iff_right hlibs]

theorem jitRanges_spec (st : RangesState) (hproc : Regions (collectModuleRanges proc)) :
    Regions (collectJitRanges st proc) ∧ ∀ y, (y ∈ addresses (collectJitRanges st proc) ↔
      st.rangesInstJit = false ∧ ∃ d ∈ proc.details, d.executable = true ∧ d.fileBacked = false ∧
        d.range.lo ≤ y ∧ y < d.range.hi) := by
  rw [collectJitRanges]
  by_cases hjit : st.rangesInstJit = true
  · rw [if_pos hjit, hjit]
    exact ⟨⟨by simp, ordered_nil⟩, by simp⟩
  · rw [if_neg hjit]
    refine ⟨hproc.sublist (List.filter_sublist.map _), fun y => ?_⟩
    rw [Bool.not_eq_true] at hjit
    rw [and_iff_right hjit]
    constructor
    · rintro ⟨r, hr, hy⟩
      obtain ⟨d, hd, rfl⟩ := List.mem_map.mp hr
      rw [List.mem_filter, Bool.and_eq_true, Bool.not_eq_true'] at hd
      exact ⟨d, hd.1, hd.2.1, hd.2.2, hy⟩
    · rintro ⟨d, hd, hexe, hfile, hy⟩
      refine ⟨d.range, List.mem_map.mpr ⟨d, List.mem_filter.mpr ⟨hd, ?_⟩, rfl⟩, hy⟩
      rw [hexe, hfile]
      rfl

/-- The include ranges that `ranges_init` works with. -/
theorem includeRanges_spec (h : Configured env modules adds st) :
    Regions (if st.includeRanges = [] then [wholeMemory] else st.includeRanges) ∧
      ∀ y, y < 2 ^ 64 - 1 →
        (y ∈ addresses (if st.includeRanges = [] then [wholeMemory] else st.includeRanges) ↔
          includeRequests env modules adds = [] ∨
            ∃ r ∈ includeRequests env modules adds, r.lo ≤ y ∧ y < r.hi) := by
  by_cases hnil : st.includeRanges = []
  · rw [if_pos hnil]
    have hreq : includeRequests env modules adds = [] := (hnil ▸ h.included).nil_eq.symm
    refine ⟨regions_singleton noWrap_wholeMemory, fun y hy => ?_⟩
    exact iff_of_true (mem_wholeMemory.mpr hy) (Or.inl hreq)
  · rw [if_neg hnil]
    refine ⟨h.includeRegions, fun y _ => ?_⟩
    have hreq : includeRequests env modules adds ≠ [] := fun heq =>
      hnil (List.Perm.eq_nil (heq ▸ h.included))
    rw [or_iff_right hreq]
    change y ∈ cover _ _ st.includeRanges ↔ _
    rw [cover_perm h.included]
    rfl

/-- What `ranges_init` leaves in `ranges`. -/
theorem rangesInit_ranges (h : Configured env modules adds st)
    (hproc : Regions (collectModuleRanges proc)) (htext : proc.textBase ≤ proc.textLimit) :
    ∃ l, (rangesInit st proc).ranges = some l ∧
      Separated GumMemoryRange.lo GumMemoryRange.hi l ∧ (∀ r ∈ l, r.NoWrap) ∧
      ∀ address : BitVec 64,
        address.toNat ∈ addresses l ↔ Excluded env modules adds proc address := by
  obtain ⟨hlibs, hlibsMem⟩ := libsRanges_spec st htext
  obtain ⟨hjit, hjitMem⟩ := jitRanges_spec st hproc
  obtain ⟨hinc, hincMem⟩ := includeRanges_spec h
  obtain ⟨h₁, hcover₁⟩ := intersectRanges_spec hproc hlibs
  obtain ⟨h₂, hcover₂⟩ := intersectRanges_spec h₁ hinc
  obtain ⟨h₃, -, hcover₃⟩ := subtractRanges_spec h₂ h.excludeRegions
  obtain ⟨h₄, -, hcover₄⟩ := subtractRanges_spec h₃ hjit
  set step4 := (subtractRanges (subtractRanges (intersectRanges (intersectRanges
    (collectModuleRanges proc) (collectLibsRanges st proc))
    (if st.includeRanges = [] then [wholeMemory] else st.includeRanges)) st.excludeRanges).1
    (collectJitRanges st proc)).1 with hstep4
  have hmapped (y : ℕ) : y ∈ addresses (collectModuleRanges proc) ↔
      ∃ d ∈ proc.details, d.range.lo ≤ y ∧ y < d.range.hi := by
    simp [cover, collectModuleRanges]
  -- no mapped range reaches the last address
  have hsmall (y : ℕ) (hy : y ∈ addresses (collectModuleRanges proc)) : y < 2 ^ 64 - 1 := by
    obtain ⟨r, hr, -, hlt⟩ := hy
    have := hproc.noWrap r hr
    rw [GumMemoryRange.NoWrap] at this
    omega
  have hinst (address : BitVec 64) :
      address.toNat ∈ addresses step4 ↔ Instrumented env modules adds proc address := by
    rw [hcover₄, hcover₃, hcover₂, hcover₁]
    constructor
    · rintro ⟨⟨⟨⟨hmod, hlib⟩, hin⟩, hex⟩, hj⟩
      have hlt := hsmall _ hmod
      refine ⟨(hmapped _).mp hmod, h.instLibs ▸ (hlibsMem _ hlt).mp hlib, (hincMem _ hlt).mp hin,
        fun r hr hc => hex ⟨r, h.excluded.mem_iff.mpr hr, hc⟩, ?_⟩
      rw [hjitMem, h.instJit] at hj
      refine or_iff_not_imp_left.mpr fun hoff d hd hexe hfile hc => hj ⟨?_, d, hd, hexe, hfile, hc⟩
      rwa [Bool.not_eq_true] at hoff
    · rintro ⟨hmod, hlib, hin, hex, hj⟩
      have hmod := (hmapped _).mpr hmod
      have hlt := hsmall _ hmod
      refine ⟨⟨⟨⟨hmod, (hlibsMem _ hlt).mpr (h.instLibs ▸ hlib)⟩, (hincMem _ hlt).mpr hin⟩, ?_⟩, ?_⟩
      · rintro ⟨r, hr, hc⟩
        exact hex r (h.excluded.mem_iff.mp hr) hc
      · rw [hjitMem, h.instJit]
        rintro ⟨hoff, d, hd, hexe, hfile, hc⟩
        obtain hon | hj := hj
        · rw [hoff] at hon
          exact Bool.false_ne_true hon
        · exact hj d hd hexe hfile hc
  rw [rangesInit]
  simp only [← hstep4, h.dynamicLoad, h.whole]
  by_cases hdyn : env.instNoDynamicLoad = true
  · obtain ⟨h₅, hne, hcover₅⟩ := subtractRanges_spec (regions_singleton noWrap_wholeMemory) h₄
    obtain ⟨hsep, hwrap, hcover⟩ := mergeRanges_spec h₅ hne
    refine ⟨_, by rw [hdyn]; rfl, hsep, hwrap, fun address => ?_⟩
    have hlast : address.toNat < 2 ^ 64 - 1 ↔ address ≠ BitVec.allOnes 64 := by
      have := address.isLt
      rw [Ne, ← BitVec.toNat_inj, BitVec.toNat_allOnes]
      omega
    rw [hcover, hcover₅, Excluded, if_pos hdyn, ← hinst, ← hlast, ← mem_wholeMemory]
    rfl
  · obtain ⟨h₅, hne, hcover₅⟩ := subtractRanges_spec hproc h₄
    obtain ⟨hsep, hwrap, hcover⟩ := mergeRanges_spec h₅ hne
    refine ⟨_, by rw [Bool.not_eq_true] at hdyn; rw [hdyn]; rfl, hsep, hwrap, fun address => ?_⟩
    rw [hcover, hcover₅, Excluded, if_neg hdyn, ← hinst]
    exact and_congr_left fun _ => hmapped _

/-- An address is excluded exactly when it is in reach of the stalker and not instrumented. -/
theorem rangeIsExcluded_iff (hmodules : ∀ m ∈ modules, m.range.NoWrap)
    (hadds : ∀ add ∈ adds, add.range.NoWrap) (hproc : Regions (collectModuleRanges proc))
    (htext : proc.textBase ≤ proc.textLimit) (hconf : configure env modules adds = .ok st)
    (address : BitVec 64) :
    rangeIsExcluded (rangesInit st proc) address = true ↔
      Excluded env modules adds proc address := by
  obtain ⟨l, hl, hsep, hwrap, hmem⟩ :=
    rangesInit_ranges (configure_configured hmodules hadds hconf) hproc htext
  rw [← hmem, rangeIsExcluded, hl]
  simp only
  rw [excludedFrom_eq_scan hwrap]
  exact hsep.ordered.scan_iff

/-- Two mapped ranges, one of them JIT code; `AFL_FRIDA_EXCLUDE_RANGES` cuts a hole. -/
theorem rangeIsExcluded_iff_hole :
    let env : Environment := ⟨true, false, false, none, some ("0x1400-0x1800".toList.map chr)⟩
    let proc : Process := ⟨[⟨⟨4096, 4096⟩, true, true⟩, ⟨⟨12288, 4096⟩, true, false⟩], 4096, 8192⟩
    ∃ st, configure env [] [] = .ok st ∧
      (rangeIsExcluded (rangesInit st proc) 0x1500 = true ↔ Excluded env [] [] proc 0x1500) ∧
      rangeIsExcluded (rangesInit st proc) 0x1500 = true ∧
      rangeIsExcluded (rangesInit st proc) 0x1900 = false ∧
      rangeIsExcluded (rangesInit st proc) 0x3000 = true := by
  intro env proc
  obtain ⟨st, hst⟩ : ∃ st, configure env [] [] = .ok st := ⟨_, rfl⟩
  refine ⟨st, hst, ?_⟩
  have hproc : Regions (collectModuleRanges proc) :=
    regions_cons.mpr ⟨by decide, by decide, regions_singleton (by decide)⟩
  refine ⟨rangeIsExcluded_iff (by simp) (by simp) hproc (by decide) hst _, ?_⟩
  cases hst
  decide

/-- The ends of a range determine it. -/
theorem eq_of_ends (hlo : ra.lo = rb.lo) (hhi : ra.hi = rb.hi) : ra = rb := by
  obtain ⟨abase, asize⟩ := ra
  obtain ⟨bbase, bsize⟩ := rb
  have hbase : abase = bbase := BitVec.eq_of_toNat_eq hlo
  have hsize : asize = bsize := BitVec.eq_of_toNat_eq <| by
    change abase.toNat + asize.toNat = bbase.toNat + bsize.toNat at hhi
    change abase.toNat = bbase.toNat at hlo
    omega
  rw [hbase, hsize]

theorem instrumented_congr {env' : Environment} {modules' : List GumModule}
    {adds' : List Addition} (hlibs : env'.instLibs = env.instLibs)
    (hjit : env'.instJit = env.instJit)
    (hempty : includeRequests env' modules' adds' = [] ↔ includeRequests env modules adds = [])
    (hinc : ∀ address, (∃ r ∈ includeRequests env' modules' adds', r.Contains address) ↔
      ∃ r ∈ includeRequests env modules adds, r.Contains address)
    (hexc : ∀ address, (∃ r ∈ excludeRequests env' modules' adds', r.Contains address) ↔
      ∃ r ∈ excludeRequests env modules adds, r.Contains address) (address : BitVec 64)
    (h : Instrumented env modules adds proc address) :
    Instrumented env' modules' adds' proc address := by
  refine ⟨h.mapped, hlibs ▸ h.text, ?_, ?_, hjit ▸ h.notJit⟩
  · rw [hempty, hinc]
    exact h.included
  · intro r hr hc
    obtain ⟨s, hs, hc⟩ := (hexc address).mp ⟨r, hr, hc⟩
    exact h.notExcluded s hs hc

/-- The ranges given to the stalker ascend with a gap between any two, and configurations that ask
for the same addresses end with the same ranges. -/
theorem rangesInit_canonical {env' : Environment} {modules' : List GumModule}
    {adds' : List Addition} (hmodules : ∀ m ∈ modules ++ modules', m.range.NoWrap)
    (hadds : ∀ add ∈ adds ++ adds', add.range.NoWrap)
    (hproc : Regions (collectModuleRanges proc)) (htext : proc.textBase ≤ proc.textLimit)
    (hconf : configure env modules adds = .ok st)
    (hconf' : configure env' modules' adds' = .ok st')
    (hlibs : env'.instLibs = env.instLibs) (hjit : env'.instJit = env.instJit)
    (hload : env'.instNoDynamicLoad = env.instNoDynamicLoad)
    (hempty : includeRequests env' modules' adds' = [] ↔ includeRequests env modules adds = [])
    (hinc : ∀ address, (∃ r ∈ includeRequests env' modules' adds', r.Contains address) ↔
      ∃ r ∈ includeRequests env modules adds, r.Contains address)
    (hexc : ∀ address, (∃ r ∈ excludeRequests env' modules' adds', r.Contains address) ↔
      ∃ r ∈ excludeRequests env modules adds, r.Contains address) :
    ∃ l, (rangesInit st proc).ranges = some l ∧ (rangesInit st' proc).ranges = some l ∧
      Separated GumMemoryRange.lo GumMemoryRange.hi l := by
  rw [List.forall_mem_append] at hmodules hadds
  obtain ⟨l, hl, hsep, hwrap, hmem⟩ :=
    rangesInit_ranges (configure_configured hmodules.1 hadds.1 hconf) hproc htext
  obtain ⟨l', hl', hsep', hwrap', hmem'⟩ :=
    rangesInit_ranges (configure_configured hmodules.2 hadds.2 hconf') hproc htext
  have hsame (address : BitVec 64) : Excluded env modules adds proc address ↔
      Excluded env' modules' adds' proc address := by
    rw [Excluded, Excluded, hload]
    refine and_congr_right fun _ => not_congr ⟨?_, ?_⟩
    · exact instrumented_congr hlibs hjit hempty hinc hexc address
    · exact instrumented_congr hlibs.symm hjit.symm hempty.symm (fun a => (hinc a).symm)
        (fun a => (hexc a).symm) address
  have hsmall (k : List GumMemoryRange) (hk : ∀ r ∈ k, r.NoWrap) (x : ℕ) (hx : x ∈ addresses k) :
      (BitVec.ofNat 64 x).toNat = x := by
    obtain ⟨r, hr, -, hlt⟩ := hx
    exact Nat.mod_eq_of_lt (hlt.trans (hk r hr))
  have hcover : addresses l = addresses l' := by
    ext x
    constructor
    · intro hx
      have hval := hsmall l hwrap x hx
      rw [← hval] at hx ⊢
      rwa [hmem', ← hsame, ← hmem]
    · intro hx
      have hval := hsmall l' hwrap' x hx
      rw [← hval] at hx ⊢
      rwa [hmem, hsame, ← hmem']
  have hinj : Function.Injective fun r : GumMemoryRange => (r.lo, r.hi) :=
    fun _ _ heq => eq_of_ends (congrArg Prod.fst heq) (congrArg Prod.snd heq)
  have heq : l = l' := hinj.list_map (hsep.map_eq hsep' hcover)
  exact ⟨l, hl, heq ▸ hl', hsep⟩

/-- The order of the tokens does not matter, nor whether the script or the environment names a
range. -/
theorem rangesInit_canonical_orders :
    let env : Environment :=
      ⟨true, true, false, some ("0x1000-0x2000,0x3000-0x4000".toList.map chr), none⟩
    let env' : Environment := ⟨true, true, false, some ("0x3000-0x4000".toList.map chr), none⟩
    let adds' := [Addition.includeRange ⟨4096, 4096⟩]
    let proc : Process := ⟨[⟨⟨4096, 16384⟩, true, true⟩], 4096, 8192⟩
    ∃ st st', configure env [] [] = .ok st ∧ configure env' [] adds' = .ok st' ∧
      ∃ l, (rangesInit st proc).ranges = some l ∧ (rangesInit st' proc).ranges = some l ∧
        Separated GumMemoryRange.lo GumMemoryRange.hi l := by
  intro env env' adds' proc
  obtain ⟨st, hst⟩ : ∃ st, configure env [] [] = .ok st := ⟨_, rfl⟩
  obtain ⟨st', hst'⟩ : ∃ st', configure env' [] adds' = .ok st' := ⟨_, rfl⟩
  have hreq : includeRequests env [] [] = [⟨4096, 4096⟩, ⟨12288, 4096⟩] := by decide
  have hreq' : includeRequests env' [] adds' = [⟨12288, 4096⟩, ⟨4096, 4096⟩] := by decide
  refine ⟨st, st', hst, hst', rangesInit_canonical (by simp) (by decide)
    (regions_singleton (by decide)) (by decide) hst hst' rfl rfl rfl ?_ ?_ ?_⟩
  · rw [hreq, hreq']
    simp
  · intro address
    rw [hreq, hreq']
    simp [or_comm]
  · intro address
    exact Iff.rfl

/-! ### Accepted configurations -/

/-- Sorted ranges that are not empty pass the check exactly when no two of them overlap. -/
theorem sortAndCheck_succeeds_iff (h : ∀ r ∈ l, r.NoWrap) (hne : ∀ r ∈ l, r.lo < r.hi) :
    (∃ a, sortAndCheck l = .ok a) ↔ l.Pairwise (Apart GumMemoryRange.lo GumMemoryRange.hi) := by
  have hperm := gArraySort_perm l
  rw [← hperm.pairwise_iff fun h => h.symm]
  constructor
  · rintro ⟨a, ha⟩
    obtain ⟨rfl, hregions⟩ := (sortAndCheck_eq_ok h).mp ha
    exact hregions.ordered.apart
  · intro hapart
    refine ⟨_, (sortAndCheck_eq_ok h).mpr ⟨rfl, fun r hr => h r (hperm.mem_iff.mp hr), ?_⟩⟩
    exact ordered_of_sorted (fun r hr => hne r (hperm.mem_iff.mp hr)) (gArraySort_sorted l) hapart

/-- Both lists of requests are free of overlaps. -/
def NoOverlaps (incl excl : List GumMemoryRange) : Prop :=
  incl.Pairwise (Apart GumMemoryRange.lo GumMemoryRange.hi) ∧
    excl.Pairwise (Apart GumMemoryRange.lo GumMemoryRange.hi)

theorem Addition.run_succeeds_iff {add : Addition} (hadd : add.range.NoWrap)
    (hne : add.range.lo < add.range.hi) (hinc : Regions st.includeRanges)
    (hexc : Regions st.excludeRanges) (hincNe : ∀ r ∈ st.includeRanges, r.lo < r.hi)
    (hexcNe : ∀ r ∈ st.excludeRanges, r.lo < r.hi) :
    (∃ st', add.run st = .ok st') ↔
      NoOverlaps (st.includeRanges ++ [add].filterMap Addition.included)
        (st.excludeRanges ++ [add].filterMap Addition.excluded) := by
  have hmap (l : List GumMemoryRange) (f : List GumMemoryRange → RangesState) :
      (∃ st', (sortAndCheck l).map f = .ok st') ↔ ∃ a, sortAndCheck l = .ok a := by
    cases sortAndCheck l <;> simp [Except.map]
  have hconcat (l : List GumMemoryRange) (r : GumMemoryRange) (hl : ∀ r ∈ l, r.lo < r.hi)
      (hr : r.lo < r.hi) : ∀ s ∈ l ++ [r], s.lo < s.hi :=
    List.forall_mem_append.mpr ⟨hl, List.forall_mem_singleton.mpr hr⟩
  cases add with
  | includeRange r =>
    have hnone : [includeRange r].filterMap Addition.excluded = [] := rfl
    have hsome : [includeRange r].filterMap Addition.included = [r] := rfl
    rw [NoOverlaps, hnone, hsome, List.append_nil, and_iff_left hexc.ordered.apart, Addition.run,
      rangesAddInclude, hmap]
    exact sortAndCheck_succeeds_iff (forall_noWrap_concat hinc.noWrap hadd) (hconcat _ r hincNe hne)
  | excludeRange r =>
    have hnone : [excludeRange r].filterMap Addition.included = [] := rfl
    have hsome : [excludeRange r].filterMap Addition.excluded = [r] := rfl
    rw [NoOverlaps, hnone, hsome, List.append_nil, and_iff_right hinc.ordered.apart, Addition.run,
      rangesAddExclude, hmap]
    exact sortAndCheck_succeeds_iff (forall_noWrap_concat hexc.noWrap hadd) (hconcat _ r hexcNe hne)

theorem NoOverlaps.perm {incl incl' excl excl' : List GumMemoryRange} (hincl : incl.Perm incl')
    (hexcl : excl.Perm excl') : NoOverlaps incl excl ↔ NoOverlaps incl' excl' :=
  and_congr (hincl.pairwise_iff fun h => h.symm) (hexcl.pairwise_iff fun h => h.symm)

theorem forall_nonempty_perm (h : a.Perm (l ++ b)) (hl : ∀ r ∈ l, r.lo < r.hi)
    (hb : ∀ r ∈ b, r.lo < r.hi) : ∀ r ∈ a, r.lo < r.hi := by
  intro r hr
  obtain hr | hr := List.mem_append.mp (h.mem_iff.mp hr)
  · exact hl r hr
  · exact hb r hr

theorem included_nonempty (h : ∀ add ∈ adds, add.range.lo < add.range.hi) :
    (∀ r ∈ adds.filterMap Addition.included, r.lo < r.hi) ∧
      ∀ r ∈ adds.filterMap Addition.excluded, r.lo < r.hi := by
  constructor
  · intro r hr
    obtain ⟨add, hadd, hsome⟩ := List.mem_filterMap.mp hr
    cases add <;> cases hsome
    exact h _ hadd
  · intro r hr
    obtain ⟨add, hadd, hsome⟩ := List.mem_filterMap.mp hr
    cases add <;> cases hsome
    exact h _ hadd

theorem runAdditions_succeeds_iff (hadds : ∀ add ∈ adds, add.range.NoWrap)
    (hne : ∀ add ∈ adds, add.range.lo < add.range.hi) (hinc : Regions st.includeRanges)
    (hexc : Regions st.excludeRanges) (hincNe : ∀ r ∈ st.includeRanges, r.lo < r.hi)
    (hexcNe : ∀ r ∈ st.excludeRanges, r.lo < r.hi) :
    (∃ st', runAdditions st adds = .ok st') ↔
      NoOverlaps (st.includeRanges ++ adds.filterMap Addition.included)
        (st.excludeRanges ++ adds.filterMap Addition.excluded) := by
  induction adds generalizing st with
  | nil =>
    simp only [List.filterMap_nil, List.append_nil]
    exact iff_of_true ⟨st, rfl⟩ ⟨hinc.ordered.apart, hexc.ordered.apart⟩
  | cons add adds ih =>
    rw [List.forall_mem_cons] at hadds hne
    have hone := Addition.run_succeeds_iff hadds.1 hne.1 hinc hexc hincNe hexcNe
    have hsplit (f : Addition → Option GumMemoryRange) (l : List GumMemoryRange) :
        l ++ (add :: adds).filterMap f = l ++ [add].filterMap f ++ adds.filterMap f := by
      rw [List.append_assoc, ← List.filterMap_append, List.singleton_append]
    rw [hsplit, hsplit, runAdditions]
    cases hrun : add.run st with
    | error e =>
      refine iff_of_false (by simp) fun h => ?_
      obtain ⟨st', hst'⟩ := hone.mpr ⟨(List.pairwise_append.mp h.1).1,
        (List.pairwise_append.mp h.2).1⟩
      rw [hrun] at hst'
      cases hst'
    | ok st₁ =>
      have hadded := Addition.run_added hadds.1 hinc hexc hrun
      have hnonempty := included_nonempty (List.forall_mem_singleton.mpr hne.1)
      have hrest := ih hadds.2 hne.2 hadded.includeRegions hadded.excludeRegions
        (forall_nonempty_perm hadded.included hincNe hnonempty.1)
        (forall_nonempty_perm hadded.excluded hexcNe hnonempty.2)
      exact hrest.trans (NoOverlaps.perm (hadded.included.append_right _)
        (hadded.excluded.append_right _))

theorem nonempty_tokenRanges (hmodules : ∀ m ∈ modules, m.range.lo < m.range.hi)
    (envVal : Option (List Byte)) : ∀ r ∈ tokenRanges modules envVal, r.lo < r.hi := by
  refine forall_tokenRanges (fun start stop hlt => ?_) hmodules envVal
  obtain ⟨-, hlo, hhi⟩ := range_between (BitVec.le_of_lt hlt)
  rw [hlo, hhi]
  exact BitVec.lt_def.mp hlt

theorem collectRanges_succeeds_iff (hmodules : ∀ m ∈ modules, m.range.NoWrap)
    (hne : ∀ m ∈ modules, m.range.lo < m.range.hi) (envVal : Option (List Byte)) :
    (∃ l, collectRanges modules envVal = .ok l) ↔ Converts modules envVal ∧
      (tokenRanges modules envVal).Pairwise (Apart GumMemoryRange.lo GumMemoryRange.hi) := by
  rw [← sortAndCheck_succeeds_iff (noWrap_tokenRanges hmodules envVal)
    (nonempty_tokenRanges hne envVal)]
  constructor
  · rintro ⟨l, hl⟩
    obtain ⟨hconv, hsorted⟩ := (collectRanges_eq_ok hmodules).mp hl
    exact ⟨hconv, l, (sortAndCheck_eq_ok (noWrap_tokenRanges hmodules envVal)).mpr hsorted⟩
  · rintro ⟨hconv, l, hl⟩
    have hsorted := (sortAndCheck_eq_ok (noWrap_tokenRanges hmodules envVal)).mp hl
    exact ⟨l, (collectRanges_eq_ok hmodules).mpr ⟨hconv, hsorted⟩⟩

/-- The mode starts exactly when every token is a range and no two ranges asked for overlap among
those to include, nor among those to exclude, in whatever order they were named. -/
theorem configure_succeeds_iff (hmodules : ∀ m ∈ modules, m.range.NoWrap)
    (hmodulesNe : ∀ m ∈ modules, m.range.lo < m.range.hi)
    (hadds : ∀ add ∈ adds, add.range.NoWrap)
    (haddsNe : ∀ add ∈ adds, add.range.lo < add.range.hi) :
    (∃ st, configure env modules adds = .ok st) ↔
      Converts modules env.instRanges ∧ Converts modules env.excludeRanges ∧
      NoOverlaps (includeRequests env modules adds) (excludeRequests env modules adds) := by
  have hincl := collectRanges_succeeds_iff hmodules hmodulesNe env.instRanges
  have hexcl := collectRanges_succeeds_iff hmodules hmodulesNe env.excludeRanges
  rw [configure, rangesConfig]
  cases hinc : collectRanges modules env.instRanges with
  | error e =>
    rw [hinc] at hincl
    refine iff_of_false (by simp) ?_
    rintro ⟨hconv, -, hno, -⟩
    obtain ⟨l, hl⟩ := hincl.mpr ⟨hconv, (List.pairwise_append.mp hno).1⟩
    cases hl
  | ok includeRanges =>
    cases hexc : collectRanges modules env.excludeRanges with
    | error e =>
      rw [hexc] at hexcl
      refine iff_of_false (by simp) ?_
      rintro ⟨-, hconv, -, hno⟩
      obtain ⟨l, hl⟩ := hexcl.mpr ⟨hconv, (List.pairwise_append.mp hno).1⟩
      cases hl
    | ok excludeRanges =>
      obtain ⟨hinConv, rfl, hinRegions⟩ := (collectRanges_eq_ok hmodules).mp hinc
      obtain ⟨hexConv, rfl, hexRegions⟩ := (collectRanges_eq_ok hmodules).mp hexc
      have hsorted (envVal : Option (List Byte)) (r : GumMemoryRange)
          (hr : r ∈ gArraySort (tokenRanges modules envVal)) : r.lo < r.hi :=
        nonempty_tokenRanges hmodulesNe envVal r ((gArraySort_perm _).mem_iff.mp hr)
      rw [and_iff_right hinConv, and_iff_right hexConv]
      refine (runAdditions_succeeds_iff hadds haddsNe hinRegions hexRegions (hsorted _)
        (hsorted _)).trans ?_
      exact NoOverlaps.perm ((gArraySort_perm _).append_right _)
        ((gArraySort_perm _).append_right _)

theorem configure_succeeds_iff_overlap :
    let env : Environment := ⟨true, true, false, some ("0x1000-0x2000".toList.map chr), none⟩
    let adds := [Addition.excludeRange ⟨4096, 16⟩, Addition.includeRange ⟨8191, 16⟩]
    ((∃ st, configure env [] adds = .ok st) ↔
      Converts [] env.instRanges ∧ Converts [] env.excludeRanges ∧
        NoOverlaps (includeRequests env [] adds) (excludeRequests env [] adds)) ∧
      ¬ ∃ st, configure env [] adds = .ok st := by
  intro env adds
  refine ⟨configure_succeeds_iff (by simp) (by simp) (by decide) (by decide), ?_⟩
  · rintro ⟨st, hst⟩
    cases hst

end AflPlusPlus.Frida
