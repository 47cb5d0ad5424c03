import AflPlusPlus.Lib.Ctype
import AflPlusPlus.Lib.Intervals
import Mathlib.Data.List.Sort

/-!
# The address ranges of Frida mode

`ranges_config` reads ranges to include and exclude from the environment, the script adds more, and
`ranges_init` computes from them and from the maps of the process which ranges the stalker skips.
The loops over lists of ranges compute intersections and differences, and merging leaves gaps.
-/

namespace AflPlusPlus.Frida
open Lib

/-- Half-open: `size` bytes from `baseAddress` on. -/
structure GumMemoryRange where
  baseAddress : BitVec 64
  size : BitVec 64
deriving DecidableEq

def GumMemoryRange.limit (r : GumMemoryRange) : BitVec 64 := r.baseAddress + r.size

/-- The calls of `FFATAL` on the way. -/
inductive Fatal
  | twoAddresses
  | startPrefix
  | endPrefix
  | startDigits
  | endDigits
  | startConversion
  | endConversion
  | startNotBelowEnd
  | unresolvedModule
  | overlappingRanges
deriving DecidableEq

/-! ### Tokens -/

/-- `g_strsplit` from the middle of a token; at most `cuts` delimiters still end one. -/
def strsplitFrom (delimiter : Byte) : ℕ → List Byte → List Byte → List (List Byte)
  | _, token, [] => [token]
  | cuts, token, c :: text =>
    if c = delimiter ∧ 0 < cuts then token :: strsplitFrom delimiter (cuts - 1) [] text
    else strsplitFrom delimiter cuts (token ++ [c]) text

/-- At most `maxTokens` pieces, the last with all that is left; an empty text has none. -/
def gStrsplit (text : List Byte) (delimiter : Byte) (maxTokens : ℕ) : List (List Byte) :=
  if text = [] then [] else strsplitFrom delimiter (maxTokens - 1) [] text

def hexPrefix : List Byte := [chr '0', chr 'x']

/-- `g_ascii_strtoull` in base 16 on a text of hex digits; too large numbers become the largest. -/
def gAsciiStrtoull (digits : List Byte) : BitVec 64 :=
  BitVec.ofNat 64 (min (digits.foldl (fun v c => v * 16 + digitValue c) 0) (2 ^ 64 - 1))

def convertAddressToken (token : List Byte) : Except Fatal GumMemoryRange :=
  match gStrsplit token (chr '-') 2 with
  | [fromStr, toStr] =>
    if !hexPrefix.isPrefixOf fromStr then .error .startPrefix
    else if !hexPrefix.isPrefixOf toStr then .error .endPrefix
    else if !(fromStr.drop 2).all isxdigit then .error .startDigits
    else if !(toStr.drop 2).all isxdigit then .error .endDigits
    else
      let start := gAsciiStrtoull (fromStr.drop 2)
      let stop := gAsciiStrtoull (toStr.drop 2)
      if start = 0 then .error .startConversion
      else if stop = 0 then .error .endConversion
      else if stop ≤ start then .error .startNotBelowEnd
      else .ok ⟨start, stop - start⟩
  | _ => .error .twoAddresses

/-- A loaded module, with its path where it has one. -/
structure GumModule where
  path : Option (List Byte)
  range : GumMemoryRange

/-- The first module whose path ends in `/` and the token. -/
def convertNameToken (modules : List GumModule) (token : List Byte) : Except Fatal GumMemoryRange :=
  match modules.find? fun m => m.path.any fun path => (chr '/' :: token).isSuffixOf path with
  | some m => .ok m.range
  | none => .error .unresolvedModule

def convertToken (modules : List GumModule) (token : List Byte) : Except Fatal GumMemoryRange :=
  if hexPrefix.isPrefixOf token then convertAddressToken token else convertNameToken modules token

def convertTokens (modules : List GumModule) :
    List (List Byte) → Except Fatal (List GumMemoryRange)
  | [] => .ok []
  | token :: tokens =>
    match convertToken modules token with
    | .error e => .error e
    | .ok r => (convertTokens modules tokens).map fun rest => r :: rest

/-! ### Collecting ranges -/

def rangeSort (a b : GumMemoryRange) : ℤ :=
  if a.baseAddress < b.baseAddress then -1 else if b.baseAddress < a.baseAddress then 1 else 0

/-- `g_array_sort`, which keeps the order of equal elements. -/
def gArraySort (l : List GumMemoryRange) : List GumMemoryRange :=
  l.insertionSort fun a b => rangeSort a b ≤ 0

def checkForOverlaps : List GumMemoryRange → Except Fatal Unit
  | prev :: curr :: rest =>
    if curr.baseAddress < prev.limit then .error .overlappingRanges
    else checkForOverlaps (curr :: rest)
  | _ => .ok ()

/-- Sort, and stop when two neighbours overlap. -/
def sortAndCheck (l : List GumMemoryRange) : Except Fatal (List GumMemoryRange) :=
  (checkForOverlaps (gArraySort l)).map fun _ => gArraySort l

def maxRanges : ℕ := 20

def collectRanges (modules : List GumModule) (envVal : Option (List Byte)) :
    Except Fatal (List GumMemoryRange) :=
  match envVal with
  | none => .ok []
  | some text =>
    match convertTokens modules (gStrsplit text (chr ',') maxRanges) with
    | .error e => .error e
    | .ok l => sortAndCheck l

/-- The variables that `ranges_config` reads. -/
structure Environment where
  instLibs : Bool
  instJit : Bool
  instNoDynamicLoad : Bool
  instRanges : Option (List Byte)
  excludeRanges : Option (List Byte)

/-- The variables of `ranges.c`. -/
structure RangesState where
  rangesInstLibs : Bool
  rangesInstJit : Bool
  rangesInstDynamicLoad : Bool
  moduleRanges : List GumMemoryRange
  libsRanges : List GumMemoryRange
  jitRanges : List GumMemoryRange
  includeRanges : List GumMemoryRange
  excludeRanges : List GumMemoryRange
  ranges : Option (List GumMemoryRange)
  wholeMemoryRanges : List GumMemoryRange

/-- The range of every address but the last one. -/
def wholeMemory : GumMemoryRange := ⟨0, BitVec.ofNat 64 (2 ^ 64 - 1)⟩

def rangesConfig (env : Environment) (modules : List GumModule) : Except Fatal RangesState :=
  match collectRanges modules env.instRanges with
  | .error e => .error e
  | .ok includeRanges =>
    match collectRanges modules env.excludeRanges with
    | .error e => .error e
    | .ok excludeRanges =>
      .ok { rangesInstLibs := env.instLibs, rangesInstJit := env.instJit,
            rangesInstDynamicLoad := !env.instNoDynamicLoad, moduleRanges := [], libsRanges := [],
            jitRanges := [], includeRanges, excludeRanges, ranges := none,
            wholeMemoryRanges := [wholeMemory] }

def rangesAddInclude (st : RangesState) (r : GumMemoryRange) : Except Fatal RangesState :=
  (sortAndCheck (st.includeRanges ++ [r])).map fun l => { st with includeRanges := l }

def rangesAddExclude (st : RangesState) (r : GumMemoryRange) : Except Fatal RangesState :=
  (sortAndCheck (st.excludeRanges ++ [r])).map fun l => { st with excludeRanges := l }

/-- What a script asks for between `ranges_config` and `ranges_init`. -/
inductive Addition
  | includeRange (r : GumMemoryRange)
  | excludeRange (r : GumMemoryRange)

def Addition.range : Addition → GumMemoryRange
  | includeRange r => r
  | excludeRange r => r

def Addition.run (st : RangesState) : Addition → Except Fatal RangesState
  | includeRange r => rangesAddInclude st r
  | excludeRange r => rangesAddExclude st r

def runAdditions : RangesState → List Addition → Except Fatal RangesState
  | st, [] => .ok st
  | st, a :: adds =>
    match a.run st with
    | .error e => .error e
    | .ok st => runAdditions st adds

/-- The state in front of `ranges_init`. -/
def configure (env : Environment) (modules : List GumModule) (adds : List Addition) :
    Except Fatal RangesState :=
  match rangesConfig env modules with
  | .error e => .error e
  | .ok st => runAdditions st adds

/-! ### Sets of ranges -/

/-- `none` when `rb` starts behind `ra`; else their intersection, of size 0 when it is empty. -/
def intersectRange (ra rb : GumMemoryRange) : Option GumMemoryRange :=
  if ra.limit < rb.baseAddress then none
  else if rb.limit < ra.baseAddress then some ⟨0, 0⟩
  else
    let rrb := if rb.baseAddress < ra.baseAddress then ra.baseAddress else rb.baseAddress
    let rrl := if ra.limit < rb.limit then ra.limit else rb.limit
    some ⟨rrb, rrl - rrb⟩

/-- The inner loop of `intersect_ranges`. -/
def intersectRow (ra : GumMemoryRange) : List GumMemoryRange → List GumMemoryRange
  | [] => []
  | rb :: b =>
    match intersectRange ra rb with
    | none => []
    | some ri => if ri.size = 0 then intersectRow ra b else ri :: intersectRow ra b

def intersectRanges (a b : List GumMemoryRange) : List GumMemoryRange :=
  a.flatMap fun ra => intersectRow ra b

/-- The inner loop of `subtract_ranges`: what it appends, and what it leaves of `ra`, which the loop
changes in place. -/
def subtractRow (ral : BitVec 64) :
    GumMemoryRange → List GumMemoryRange → List GumMemoryRange × GumMemoryRange
  | ra, [] => ([], ra)
  | ra, rb :: b =>
    match intersectRange ra rb with
    | none => ([], ra)
    | some ri =>
      if ri.size = 0 then subtractRow ral ra b
      else
        let kept := if ra.baseAddress < ri.baseAddress
          then [⟨ra.baseAddress, ri.baseAddress - ra.baseAddress⟩] else []
        if ral < ri.limit then (kept, ⟨ral, 0⟩)
        else
          let rest := subtractRow ral ⟨ri.limit, ral - ri.limit⟩ b
          (kept ++ rest.1, rest.2)

/-- One round of the outer loop. -/
def subtractRange (b : List GumMemoryRange) (ra : GumMemoryRange) : List GumMemoryRange :=
  let row := subtractRow ra.limit ra b
  row.1 ++ if row.2.size ≠ 0 then [row.2] else []

/-- The result, and the array `a` afterwards. -/
def subtractRanges (a b : List GumMemoryRange) : List GumMemoryRange × List GumMemoryRange :=
  (a.flatMap (subtractRange b), a.map fun ra => (subtractRow ra.limit ra b).2)

def mergeFrom (rp : GumMemoryRange) : List GumMemoryRange → List GumMemoryRange
  | [] => [rp]
  | r :: a =>
    if rp.limit = r.baseAddress then mergeFrom ⟨rp.baseAddress, rp.size + r.size⟩ a
    else rp :: mergeFrom r a

def mergeRanges : List GumMemoryRange → List GumMemoryRange
  | [] => []
  | rp :: a => mergeFrom rp a

/-! ### Initialization -/

/-- One line of the process's maps. -/
structure GumRangeDetails where
  range : GumMemoryRange
  executable : Bool
  fileBacked : Bool

/-- What `ranges_init` sees of the process: its maps and the `.text` section of its executable. -/
structure Process where
  details : List GumRangeDetails
  textBase : BitVec 64
  textLimit : BitVec 64

def collectModuleRanges (proc : Process) : List GumMemoryRange := proc.details.map (·.range)

def collectLibsRanges (st : RangesState) (proc : Process) : List GumMemoryRange :=
  if st.rangesInstLibs then [wholeMemory] else [⟨proc.textBase, proc.textLimit - proc.textBase⟩]

def collectJitRanges (st : RangesState) (proc : Process) : List GumMemoryRange :=
  if st.rangesInstJit then []
  else (proc.details.filter fun d => d.executable && !d.fileBacked).map (·.range)

def rangesInit (st : RangesState) (proc : Process) : RangesState :=
  let moduleRanges := collectModuleRanges proc
  let libsRanges := collectLibsRanges st proc
  let jitRanges := collectJitRanges st proc
  let includeRanges := if st.includeRanges = [] then [wholeMemory] else st.includeRanges
  let step1 := intersectRanges moduleRanges libsRanges
  let step2 := intersectRanges step1 includeRanges
  let step3 := (subtractRanges step2 st.excludeRanges).1
  let step4 := (subtractRanges step3 jitRanges).1
  let st := { st with moduleRanges, libsRanges, jitRanges, includeRanges }
  if st.rangesInstDynamicLoad then
    let step5 := subtractRanges moduleRanges step4
    { st with moduleRanges := step5.2, ranges := some (mergeRanges step5.1) }
  else
    let step5 := subtractRanges st.wholeMemoryRanges step4
    { st with wholeMemoryRanges := step5.2, ranges := some (mergeRanges step5.1) }

/-- The loop of `range_is_excluded`. -/
def excludedFrom (address : BitVec 64) : List GumMemoryRange → Bool
  | [] => false
  | curr :: rest =>
    if address < curr.baseAddress then false
    else if address < curr.limit then true
    else excludedFrom address rest

def rangeIsExcluded (st : RangesState) (address : BitVec 64) : Bool :=
  match st.ranges with
  | none => false
  | some ranges => excludedFrom address ranges

/-! ### Addresses as numbers -/

def GumMemoryRange.lo (r : GumMemoryRange) : ℕ := r.baseAddress.toNat

def GumMemoryRange.hi (r : GumMemoryRange) : ℕ := r.baseAddress.toNat + r.size.toNat

/-- The range does not run over the end of the address space. -/
def GumMemoryRange.NoWrap (r : GumMemoryRange) : Prop := r.hi < 2 ^ 64

instance (r : GumMemoryRange) : Decidable r.NoWrap := inferInstanceAs (Decidable (r.hi < 2 ^ 64))

/-- The addresses in a list of ranges. -/
abbrev addresses (l : List GumMemoryRange) : Set ℕ := cover GumMemoryRange.lo GumMemoryRange.hi l

/-- Ascending ranges without overlaps, none of which wraps around. -/
structure Regions (l : List GumMemoryRange) : Prop where
  noWrap : ∀ r ∈ l, r.NoWrap
  ordered : Ordered GumMemoryRange.lo GumMemoryRange.hi l

variable {r ra rb ri : GumMemoryRange} {a b l : List GumMemoryRange} {x : ℕ}

theorem GumMemoryRange.lo_le_hi (r : GumMemoryRange) : r.lo ≤ r.hi := Nat.le_add_right _ _

theorem toNat_limit (h : r.NoWrap) : r.limit.toNat = r.hi := by
  rw [GumMemoryRange.limit, BitVec.toNat_add]
  exact Nat.mod_eq_of_lt h

theorem limit_lt_iff (ha : ra.NoWrap) : ra.limit < rb.baseAddress ↔ ra.hi < rb.lo := by
  rw [BitVec.lt_def, toNat_limit ha]
  rfl

theorem size_eq_zero_iff : r.size = 0 ↔ r.hi = r.lo := by
  rw [GumMemoryRange.hi, GumMemoryRange.lo, Nat.add_eq_left, ← BitVec.toNat_inj]
  rfl

theorem regions_cons : Regions (r :: l) ↔ r.NoWrap ∧ (∀ s ∈ l, r.hi ≤ s.lo) ∧ Regions l := by
  constructor
  · rintro ⟨hwrap, hord⟩
    rw [List.forall_mem_cons] at hwrap
    exact ⟨hwrap.1, (ordered_cons.mp hord).2.1, hwrap.2, hord.tail⟩
  · rintro ⟨hr, hrest, hwrap, hord⟩
    exact ⟨List.forall_mem_cons.mpr ⟨hr, hwrap⟩, ordered_cons.mpr ⟨r.lo_le_hi, hrest, hord⟩⟩

/-- Between two addresses there is a range with them as its ends. -/
theorem range_between {lower upper : BitVec 64} (h : lower ≤ upper) :
    (GumMemoryRange.mk lower (upper - lower)).NoWrap ∧
      (GumMemoryRange.mk lower (upper - lower)).lo = lower.toNat ∧
      (GumMemoryRange.mk lower (upper - lower)).hi = upper.toNat := by
  have hhi : (GumMemoryRange.mk lower (upper - lower)).hi = upper.toNat := by
    change lower.toNat + (upper - lower).toNat = upper.toNat
    rw [BitVec.toNat_sub_of_le h]
    exact Nat.add_sub_of_le h
  refine ⟨?_, rfl, hhi⟩
  rw [GumMemoryRange.NoWrap, hhi]
  exact upper.isLt

/-! ### Intersections -/

/-- All that `intersect_range` can do. -/
theorem intersectRange_cases (ha : ra.NoWrap) (hb : rb.NoWrap) :
    (intersectRange ra rb = none ∧ ra.hi < rb.lo) ∨
    ∃ ri, intersectRange ra rb = some ri ∧
      ((ri.size = 0 ∧ min ra.hi rb.hi ≤ max ra.lo rb.lo) ∨
        (ri.size ≠ 0 ∧ ri.NoWrap ∧ ri.lo = max ra.lo rb.lo ∧ ri.hi = min ra.hi rb.hi)) := by
  have hla := toNat_limit ha
  have hlb := toNat_limit hb
  have hba : ra.baseAddress.toNat = ra.lo := rfl
  have hbb : rb.baseAddress.toNat = rb.lo := rfl
  have := ra.lo_le_hi
  have := rb.lo_le_hi
  rw [intersectRange]
  by_cases hbefore : ra.limit < rb.baseAddress
  · rw [if_pos hbefore]
    exact Or.inl ⟨rfl, (limit_lt_iff ha).mp hbefore⟩
  · rw [if_neg hbefore]
    right
    by_cases hafter : rb.limit < ra.baseAddress
    · rw [if_pos hafter]
      have := (limit_lt_iff hb).mp hafter
      exact ⟨_, rfl, Or.inl ⟨rfl, by omega⟩⟩
    · rw [if_neg hafter]
      rw [limit_lt_iff ha] at hbefore
      rw [limit_lt_iff hb] at hafter
      set rrb := if rb.baseAddress < ra.baseAddress then ra.baseAddress else rb.baseAddress
        with hrrb
      set rrl := if ra.limit < rb.limit then ra.limit else rb.limit with hrrl
      have hlow : rrb.toNat = max ra.lo rb.lo := by
        rw [hrrb]
        split_ifs with h <;> rw [BitVec.lt_def] at h <;> omega
      have hupp : rrl.toNat = min ra.hi rb.hi := by
        rw [hrrl]
        split_ifs with h <;> rw [BitVec.lt_def] at h <;> omega
      have hle : rrb ≤ rrl := by
        rw [BitVec.le_def]
        omega
      obtain ⟨hwrap, hlo, hhi⟩ := range_between hle
      refine ⟨_, rfl, ?_⟩
      by_cases hsize : rrl - rrb = 0
      · refine Or.inl ⟨hsize, ?_⟩
        have := size_eq_zero_iff (r := ⟨rrb, rrl - rrb⟩).mp hsize
        omega
      · exact Or.inr ⟨hsize, hwrap, hlo.trans hlow, hhi.trans hupp⟩

theorem mem_intersectRow (ha : ra.NoWrap) (hb : Regions b) :
    x ∈ addresses (intersectRow ra b) ↔ (ra.lo ≤ x ∧ x < ra.hi) ∧ x ∈ addresses b := by
  induction b with
  | nil => simp [intersectRow]
  | cons rb b ih =>
    obtain ⟨hrb, -, hrest⟩ := regions_cons.mp hb
    rw [intersectRow]
    obtain ⟨hnone, hlt⟩ | ⟨ri, hsome, h⟩ := intersectRange_cases ha hrb
    · rw [hnone]
      refine iff_of_false not_mem_cover_nil ?_
      rintro ⟨hx, hmem⟩
      exact hb.ordered.not_mem_cover (hx.2.trans hlt) hmem
    · rw [hsome]
      obtain ⟨hsize, hle⟩ | ⟨hsize, -, hlo, hhi⟩ := h
      · simp only [hsize, if_true]
        rw [ih hrest, mem_cover_cons]
        refine and_congr_right fun hx => ?_
        rw [or_iff_right (by omega)]
      · simp only [hsize, if_false]
        rw [mem_cover_cons, ih hrest, mem_cover_cons, hlo, hhi, and_or_left]
        refine or_congr_left ?_
        omega

/-- Pieces cut out of one range, in order and none of them empty. -/
structure PiecesOf (ra : GumMemoryRange) (l : List GumMemoryRange) : Prop where
  regions : Regions l
  nonempty : ∀ s ∈ l, s.lo < s.hi
  inside : ∀ s ∈ l, ra.lo ≤ s.lo ∧ s.hi ≤ ra.hi

theorem piecesOf_nil : PiecesOf ra [] :=
  ⟨⟨by simp, ordered_nil⟩, by simp, by simp⟩

theorem PiecesOf.cons (hr : r.NoWrap) (hne : r.size ≠ 0) (hlo : ra.lo ≤ r.lo) (hhi : r.hi ≤ ra.hi)
    (hrest : ∀ s ∈ l, r.hi ≤ s.lo) (h : PiecesOf ra l) : PiecesOf ra (r :: l) := by
  have hpos : r.lo < r.hi :=
    lt_of_le_of_ne r.lo_le_hi fun heq => hne (size_eq_zero_iff.mpr heq.symm)
  exact ⟨regions_cons.mpr ⟨hr, hrest, h.regions⟩, List.forall_mem_cons.mpr ⟨hpos, h.nonempty⟩,
    List.forall_mem_cons.mpr ⟨⟨hlo, hhi⟩, h.inside⟩⟩

/-- Cutting pieces out of every range of an ordered list. -/
theorem Regions.flatMap {f : GumMemoryRange → List GumMemoryRange} (h : Regions a)
    (hf : ∀ r ∈ a, PiecesOf r (f r)) :
    Regions (a.flatMap f) ∧ ∀ s ∈ a.flatMap f, s.lo < s.hi := by
  refine ⟨⟨?_, h.ordered.flatMap fun r hr => ⟨(hf r hr).regions.ordered, (hf r hr).inside⟩⟩, ?_⟩
  · intro s hs
    obtain ⟨r, hr, hs⟩ := List.mem_flatMap.mp hs
    exact (hf r hr).regions.noWrap s hs
  · intro s hs
    obtain ⟨r, hr, hs⟩ := List.mem_flatMap.mp hs
    exact (hf r hr).nonempty s hs

/-- What the row has starts inside one of the ranges it was cut out of. -/
theorem lo_le_of_mem_intersectRow {s : GumMemoryRange} (ha : ra.NoWrap) (hb : Regions b)
    (hs : s ∈ intersectRow ra b) : ∃ r ∈ b, r.lo ≤ s.lo := by
  induction b with
  | nil => exact absurd hs List.not_mem_nil
  | cons rb b ih =>
    obtain ⟨hrb, -, hrest⟩ := regions_cons.mp hb
    rw [intersectRow] at hs
    obtain ⟨hnone, -⟩ | ⟨ri, hsome, h⟩ := intersectRange_cases ha hrb
    · rw [hnone] at hs
      exact absurd hs List.not_mem_nil
    · rw [hsome] at hs
      obtain ⟨hsize, -⟩ | ⟨hsize, -, hlo, -⟩ := h
      · simp only [hsize, if_true] at hs
        obtain ⟨r, hr, hle⟩ := ih hrest hs
        exact ⟨r, List.mem_cons_of_mem rb hr, hle⟩
      · simp only [hsize, if_false] at hs
        obtain rfl | hs := List.mem_cons.mp hs
        · exact ⟨rb, List.mem_cons_self, by omega⟩
        · obtain ⟨r, hr, hle⟩ := ih hrest hs
          exact ⟨r, List.mem_cons_of_mem rb hr, hle⟩

theorem piecesOf_intersectRow (ha : ra.NoWrap) (hb : Regions b) :
    PiecesOf ra (intersectRow ra b) := by
  induction b with
  | nil => exact piecesOf_nil
  | cons rb b ih =>
    obtain ⟨hrb, hnext, hrest⟩ := regions_cons.mp hb
    rw [intersectRow]
    obtain ⟨hnone, -⟩ | ⟨ri, hsome, h⟩ := intersectRange_cases ha hrb
    · rw [hnone]
      exact piecesOf_nil
    · rw [hsome]
      obtain ⟨hsize, -⟩ | ⟨hsize, hwrap, hlo, hhi⟩ := h
      · simp only [hsize, if_true]
        exact ih hrest
      · simp only [hsize, if_false]
        refine PiecesOf.cons hwrap hsize (by omega) (by omega) ?_ (ih hrest)
        intro s hs
        obtain ⟨r, hr, hle⟩ := lo_le_of_mem_intersectRow ha hrest hs
        have := hnext r hr
        omega

/-- `intersect_ranges` computes the intersection. -/
theorem intersectRanges_spec (ha : Regions a) (hb : Regions b) :
    Regions (intersectRanges a b) ∧
      addresses (intersectRanges a b) = addresses a ∩ addresses b := by
  refine ⟨(ha.flatMap fun r hr => piecesOf_intersectRow (ha.noWrap r hr) hb).1, ?_⟩
  ext x
  rw [intersectRanges, mem_cover_flatMap]
  constructor
  · rintro ⟨r, hr, hx⟩
    have hx := (mem_intersectRow (ha.noWrap r hr) hb).mp hx
    exact ⟨⟨r, hr, hx.1⟩, hx.2⟩
  · rintro ⟨⟨r, hr, hx⟩, hxb⟩
    exact ⟨r, hr, (mem_intersectRow (ha.noWrap r hr) hb).mpr ⟨hx, hxb⟩⟩

/-! ### Differences -/

theorem subtractRange_nil : subtractRange [] ra = if ra.size ≠ 0 then [ra] else [] := rfl

/-- The rest of the range goes on as a range with the same limit. -/
theorem subtractRange_cons : subtractRange (rb :: b) ra =
    match intersectRange ra rb with
    | none => if ra.size ≠ 0 then [ra] else []
    | some ri =>
      if ri.size = 0 then subtractRange b ra
      else
        (if ra.baseAddress < ri.baseAddress
          then [⟨ra.baseAddress, ri.baseAddress - ra.baseAddress⟩] else []) ++
        if ra.limit < ri.limit then [] else subtractRange b ⟨ri.limit, ra.limit - ri.limit⟩ := by
  have hsame (l u : BitVec 64) : (GumMemoryRange.mk l (u - l)).limit = u := by
    change l + (u - l) = u
    rw [BitVec.add_comm, BitVec.sub_add_cancel]
  rw [subtractRange, subtractRow]
  cases intersectRange ra rb with
  | none => rfl
  | some ri =>
    simp only
    by_cases hsize : ri.size = 0
    · rw [if_pos hsize, if_pos hsize]
      rfl
    · rw [if_neg hsize, if_neg hsize]
      by_cases hpast : ra.limit < ri.limit
      · rw [if_pos hpast, if_pos hpast]
        rfl
      · rw [if_neg hpast, if_neg hpast, List.append_assoc, subtractRange, hsame]

/-- All that one round of `subtract_ranges` can do with the next range. -/
theorem subtractRange_cases (ha : ra.NoWrap) (hb : rb.NoWrap) :
    (subtractRange (rb :: b) ra = subtractRange [] ra ∧ ra.hi < rb.lo) ∨
    (subtractRange (rb :: b) ra = subtractRange b ra ∧ min ra.hi rb.hi ≤ max ra.lo rb.lo) ∨
    ∃ kept rest, subtractRange (rb :: b) ra = kept ++ subtractRange b rest ∧
      ra.lo < rb.hi ∧ rb.lo < ra.hi ∧ rest.NoWrap ∧ rest.lo = min ra.hi rb.hi ∧ rest.hi = ra.hi ∧
      ((kept = [] ∧ rb.lo ≤ ra.lo) ∨
        ∃ k : GumMemoryRange,
          kept = [k] ∧ k.NoWrap ∧ ra.lo < rb.lo ∧ k.lo = ra.lo ∧ k.hi = rb.lo) := by
  rw [subtractRange_cons, subtractRange_nil]
  obtain ⟨hnone, hlt⟩ | ⟨ri, hsome, h⟩ := intersectRange_cases ha hb
  · rw [hnone]
    exact Or.inl ⟨rfl, hlt⟩
  · rw [hsome]
    right
    obtain ⟨hsize, hle⟩ | ⟨hsize, hwrap, hlo, hhi⟩ := h
    · exact Or.inl ⟨if_pos hsize, hle⟩
    · right
      have hne : ri.hi ≠ ri.lo := fun heq => hsize (size_eq_zero_iff.mpr heq)
      have hpos := ri.lo_le_hi
      have hlimit : ri.limit ≤ ra.limit := by
        rw [BitVec.le_def, toNat_limit hwrap, toNat_limit ha]
        omega
      obtain ⟨hrest, hrestlo, hresthi⟩ := range_between hlimit
      rw [toNat_limit hwrap] at hrestlo
      rw [toNat_limit ha] at hresthi
      simp only [hsize, if_false, if_neg (BitVec.not_lt.mpr hlimit)]
      refine ⟨_, _, rfl, by omega, by omega, hrest, by omega, hresthi, ?_⟩
      have hstart : ra.baseAddress < ri.baseAddress ↔ ra.lo < ri.lo := BitVec.lt_def
      by_cases hkept : ra.lo < ri.lo
      · rw [if_pos (hstart.mpr hkept)]
        obtain ⟨hk, hklo, hkhi⟩ := range_between (BitVec.le_of_lt (hstart.mpr hkept))
        have hri : ri.baseAddress.toNat = ri.lo := rfl
        exact Or.inr ⟨_, rfl, hk, by omega, hklo, by omega⟩
      · rw [if_neg fun h => hkept (hstart.mp h)]
        exact Or.inl ⟨rfl, by omega⟩

theorem mem_subtractRange_nil : x ∈ addresses (subtractRange [] ra) ↔ ra.lo ≤ x ∧ x < ra.hi := by
  rw [subtractRange_nil]
  by_cases hsize : ra.size = 0
  · have := size_eq_zero_iff.mp hsize
    rw [if_neg (not_not_intro hsize)]
    exact iff_of_false not_mem_cover_nil (by omega)
  · rw [if_pos hsize, mem_cover_cons, or_iff_left not_mem_cover_nil]

theorem mem_subtractRange (ha : ra.NoWrap) (hb : Regions b) :
    x ∈ addresses (subtractRange b ra) ↔ (ra.lo ≤ x ∧ x < ra.hi) ∧ x ∉ addresses b := by
  induction b generalizing ra with
  | nil => rw [mem_subtractRange_nil, and_iff_left not_mem_cover_nil]
  | cons rb b ih =>
    obtain ⟨hrb, -, hrest⟩ := regions_cons.mp hb
    obtain ⟨heq, hlt⟩ | ⟨heq, hle⟩ | ⟨kept, rest, heq, hlo, hhi, hwrap, hrlo, hrhi, hkept⟩ :=
      subtractRange_cases (b := b) ha hrb
    · rw [heq, mem_subtractRange_nil]
      refine (and_iff_left_of_imp fun hx => ?_).symm
      exact hb.ordered.not_mem_cover (hx.2.trans hlt)
    · rw [heq, ih ha hrest, mem_cover_cons]
      refine and_congr_right fun hx => ?_
      rw [or_iff_right (by omega)]
    · rw [heq, mem_cover_append, ih hwrap hrest, mem_cover_cons, not_or, hrlo, hrhi]
      have hbefore (hx : x < rb.lo) : x ∉ addresses b :=
        fun h => hb.ordered.not_mem_cover hx (mem_cover_cons.mpr (Or.inr h))
      obtain ⟨rfl, hle⟩ | ⟨k, rfl, -, hlt, hklo, hkhi⟩ := hkept
      · rw [or_iff_right not_mem_cover_nil]
        constructor
        · rintro ⟨hx, hmem⟩
          exact ⟨by omega, by omega, hmem⟩
        · rintro ⟨hx, hnot, hmem⟩
          exact ⟨by omega, hmem⟩
      · rw [mem_cover_cons, or_iff_left not_mem_cover_nil, hklo, hkhi]
        constructor
        · rintro (hx | ⟨hx, hmem⟩)
          · exact ⟨by omega, by omega, hbefore hx.2⟩
          · exact ⟨by omega, by omega, hmem⟩
        · rintro ⟨hx, hnot, hmem⟩
          by_cases hlow : x < rb.lo
          · exact Or.inl ⟨hx.1, hlow⟩
          · exact Or.inr ⟨by omega, hmem⟩

theorem piecesOf_subtractRange (ha : ra.NoWrap) (hb : Regions b) :
    PiecesOf ra (subtractRange b ra) := by
  have hwhole (ra : GumMemoryRange) (ha : ra.NoWrap) : PiecesOf ra (subtractRange [] ra) := by
    rw [subtractRange_nil]
    by_cases hsize : ra.size = 0
    · rw [if_neg (not_not_intro hsize)]
      exact piecesOf_nil
    · rw [if_pos hsize]
      exact PiecesOf.cons ha hsize le_rfl le_rfl (by simp) piecesOf_nil
  induction b generalizing ra with
  | nil => exact hwhole ra ha
  | cons rb b ih =>
    obtain ⟨hrb, -, hrest⟩ := regions_cons.mp hb
    obtain ⟨heq, -⟩ | ⟨heq, -⟩ | ⟨kept, rest, heq, hlo, hhi, hwrap, hrlo, hrhi, hkept⟩ :=
      subtractRange_cases (b := b) ha hrb
    · rw [heq]
      exact hwhole ra ha
    · rw [heq]
      exact ih ha hrest
    · rw [heq]
      have := ra.lo_le_hi
      have hlater := ih hwrap hrest
      have hpieces : PiecesOf ra (subtractRange b rest) := by
        refine ⟨hlater.regions, hlater.nonempty, fun s hs => ?_⟩
        have := hlater.inside s hs
        omega
      obtain ⟨rfl, -⟩ | ⟨k, rfl, hk, hlt, hklo, hkhi⟩ := hkept
      · exact hpieces
      · have hne : k.size ≠ 0 := fun h => by
          have := size_eq_zero_iff.mp h
          omega
        refine PiecesOf.cons hk hne (by omega) (by omega) ?_ hpieces
        intro s hs
        have := hlater.inside s hs
        have := rb.lo_le_hi
        omega

/-- `subtract_ranges` computes the difference, without empty ranges. -/
theorem subtractRanges_spec (ha : Regions a) (hb : Regions b) :
    Regions (subtractRanges a b).1 ∧ (∀ s ∈ (subtractRanges a b).1, s.lo < s.hi) ∧
      addresses (subtractRanges a b).1 = addresses a \ addresses b := by
  obtain ⟨hregions, hne⟩ := ha.flatMap fun r hr => piecesOf_subtractRange (ha.noWrap r hr) hb
  refine ⟨hregions, hne, ?_⟩
  ext x
  rw [subtractRanges, mem_cover_flatMap]
  constructor
  · rintro ⟨r, hr, hx⟩
    have hx := (mem_subtractRange (ha.noWrap r hr) hb).mp hx
    exact ⟨⟨r, hr, hx.1⟩, hx.2⟩
  · rintro ⟨⟨r, hr, hx⟩, hxb⟩
    exact ⟨r, hr, (mem_subtractRange (ha.noWrap r hr) hb).mpr ⟨hx, hxb⟩⟩

/-! ### Merging and looking up -/

/-- Merging neighbours keeps the addresses and leaves a gap between any two ranges. -/
theorem mergeFrom_spec (h : Regions (r :: l)) (hne : ∀ s ∈ r :: l, s.lo < s.hi) :
    Separated GumMemoryRange.lo GumMemoryRange.hi (mergeFrom r l) ∧
      (∀ s ∈ mergeFrom r l, s.NoWrap ∧ r.lo ≤ s.lo) ∧
      addresses (mergeFrom r l) = addresses (r :: l) := by
  induction l generalizing r with
  | nil =>
    rw [List.forall_mem_singleton] at hne
    refine ⟨separated_cons.mpr ⟨hne, by simp, separated_nil⟩, ?_, rfl⟩
    rw [mergeFrom, List.forall_mem_singleton]
    exact ⟨h.noWrap r List.mem_cons_self, le_rfl⟩
  | cons t l ih =>
    obtain ⟨hr, hnext, hrest⟩ := regions_cons.mp h
    obtain ⟨ht, htnext, hlast⟩ := regions_cons.mp hrest
    rw [List.forall_mem_cons, List.forall_mem_cons] at hne
    obtain ⟨hrne, htne, hlne⟩ := hne
    have hrt := hnext t List.mem_cons_self
    rw [mergeFrom]
    split_ifs with htouch
    · -- the two ranges become one
      have htouch : r.hi = t.lo := by rw [← toNat_limit hr, htouch, GumMemoryRange.lo]
      obtain ⟨m, hm⟩ : ∃ m : GumMemoryRange, m = ⟨r.baseAddress, r.size + t.size⟩ := ⟨_, rfl⟩
      have hlo : m.lo = r.lo := by rw [hm, GumMemoryRange.lo, GumMemoryRange.lo]
      have hhi : m.hi = t.hi := by
        rw [GumMemoryRange.NoWrap, GumMemoryRange.hi] at ht
        rw [GumMemoryRange.hi, GumMemoryRange.lo] at htouch
        subst hm
        change r.baseAddress.toNat + (r.size + t.size).toNat = t.baseAddress.toNat + t.size.toNat
        rw [BitVec.toNat_add]
        omega
      rw [← hm]
      have hwrap : m.NoWrap := by
        rw [GumMemoryRange.NoWrap, hhi]
        exact ht
      obtain ⟨hsep, hfirst, hcover⟩ := ih
        (regions_cons.mpr ⟨hwrap, fun s hs => by rw [hhi]; exact htnext s hs, hlast⟩)
        (List.forall_mem_cons.mpr ⟨by omega, hlne⟩)
      refine ⟨hsep, fun s hs => ⟨(hfirst s hs).1, hlo.ge.trans (hfirst s hs).2⟩, ?_⟩
      ext x
      rw [hcover, mem_cover_cons, mem_cover_cons, mem_cover_cons, ← or_assoc]
      refine or_congr_left ?_
      omega
    · obtain ⟨hsep, hfirst, hcover⟩ := ih hrest (List.forall_mem_cons.mpr ⟨htne, hlne⟩)
      have hgap : r.hi < t.lo := lt_of_le_of_ne hrt fun heq => htouch <| by
        rw [← BitVec.toNat_inj, toNat_limit hr, heq, GumMemoryRange.lo]
      refine ⟨separated_cons.mpr ⟨hrne, fun s hs => hgap.trans_le (hfirst s hs).2, hsep⟩, ?_, ?_⟩
      · rw [List.forall_mem_cons]
        refine ⟨⟨hr, le_rfl⟩, fun s hs => ⟨(hfirst s hs).1, ?_⟩⟩
        exact r.lo_le_hi.trans (hrt.trans (hfirst s hs).2)
      · ext x
        rw [mem_cover_cons, mem_cover_cons]
        exact or_congr_right (iff_of_eq (congrArg (x ∈ ·) hcover))

theorem mergeRanges_spec (h : Regions l) (hne : ∀ s ∈ l, s.lo < s.hi) :
    Separated GumMemoryRange.lo GumMemoryRange.hi (mergeRanges l) ∧
      (∀ s ∈ mergeRanges l, s.NoWrap) ∧ addresses (mergeRanges l) = addresses l := by
  cases l with
  | nil => exact ⟨separated_nil, by simp [mergeRanges], rfl⟩
  | cons r l =>
    obtain ⟨hsep, hfirst, hcover⟩ := mergeFrom_spec h hne
    exact ⟨hsep, fun s hs => (hfirst s hs).1, hcover⟩

theorem excludedFrom_eq_scan (h : ∀ r ∈ l, r.NoWrap) (address : BitVec 64) :
    excludedFrom address l = scan GumMemoryRange.lo GumMemoryRange.hi address.toNat l := by
  induction l with
  | nil => rfl
  | cons r l ih =>
    rw [List.forall_mem_cons] at h
    have hlimit : address < r.limit ↔ address.toNat < r.hi := by
      rw [BitVec.lt_def, toNat_limit h.1]
    have hbase : address < r.baseAddress ↔ address.toNat < r.lo := BitVec.lt_def
    simp only [excludedFrom, scan, ih h.2, hlimit, hbase]

end AflPlusPlus.Frida
