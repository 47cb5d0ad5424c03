import AflPlusPlus.Lib.Memory
import AflPlusPlus.Lib.RingLog

/-!
# The comparison log of one site

The comparison hooks of the target write into a header and a ring of slots that are chosen by the
return address. A hook first decides from its arguments whether it logs at all and what; the rest
of its work is the same in all hooks of a kind. Both kinds share the slots: an instruction hook
stores words into them and a routine hook stores byte strings with their lengths.
-/

namespace AflPlusPlus.Cmplog
open Lib

inductive CmpType
  | ins
  | rtn
  deriving DecidableEq, Repr

/-- The number of slots: `CMP_MAP_H` and `CMP_MAP_RTN_H`. -/
def CmpType.height : CmpType → ℕ
  | .ins => 32
  | .rtn => 16

/-- `struct cmp_header`, with the widths of its bit fields. -/
structure CmpHeader where
  hits : BitVec 6
  shape : BitVec 5
  type : CmpType
  /-- The field `attribute`. -/
  attr : BitVec 4
  deriving DecidableEq, Repr

/-- `headers[k]` and `log[k]` for one `k`. A slot is 72 bytes, in both of its layouts. -/
structure Site where
  header : CmpHeader
  log : ℕ → Bytes

/-- A header as the fuzzer clears it before it runs the target. -/
def CmpHeader.cleared : CmpHeader := ⟨0, 0, .ins, 0⟩

/-- What the runtime knows: `__afl_cmplog_max_len` and the page size. -/
structure Runtime where
  maxLen : ℕ
  pageSize : ℕ
  maxLen_ge : 16 ≤ maxLen
  maxLen_le : maxLen ≤ 32
  pageSize_pos : 0 < pageSize

/-- Count one hit. The result has the number of the hit as the field held it. -/
def CmpHeader.countHit (h : CmpHeader) (type : CmpType) (low : ℕ → Bool) (shape : ℕ) :
    ℕ × CmpHeader :=
  if h.type ≠ type then (0, { h with type := type, hits := 1, shape := BitVec.ofNat 5 shape })
  else (h.hits.toNat, { h with
    hits := h.hits + 1
    shape := if low h.shape.toNat then BitVec.ofNat 5 shape else h.shape })

/-- Store `n` bytes at offset `off` of a slot. -/
def putBytes (slot : Bytes) (off n : ℕ) (src : Bytes) : Bytes := fun j =>
  if off ≤ j ∧ j < off + n then src (j - off) else slot j

/-! ### Instruction hooks -/

/-- What an instruction hook logs. -/
structure InsEntry where
  low : ℕ → Bool
  shape : ℕ
  attr : Byte
  v0 : BitVec 64
  v1 : BitVec 64
  /-- `v0_128` and `v1_128`, if the hook stores them. -/
  wide : Option (BitVec 64 × BitVec 64)

def cmplogInsHook2 (arg1 arg2 : BitVec 16) (attr : Byte) : Option InsEntry :=
  if arg1 = arg2 then none
  else some ⟨fun shape => shape = 0, 1, attr, arg1.setWidth 64, arg2.setWidth 64, none⟩

def cmplogInsHook4 (arg1 arg2 : BitVec 32) (attr : Byte) : Option InsEntry :=
  if arg1 = arg2 then none
  else some ⟨fun shape => shape < 3, 3, attr, arg1.setWidth 64, arg2.setWidth 64, none⟩

def cmplogInsHook8 (arg1 arg2 : BitVec 64) (attr : Byte) : Option InsEntry :=
  if arg1 = arg2 then none
  else some ⟨fun shape => shape < 7, 7, attr, arg1, arg2, none⟩

def cmplogInsHookN (rt : Runtime) (arg1 arg2 : BitVec 128) (attr size : Byte) : Option InsEntry :=
  if arg1 = arg2 ∨ size.toNat > rt.maxLen then none
  else some ⟨fun shape => shape < size.toNat, size.toNat, attr, arg1.setWidth 64, arg2.setWidth 64,
    if size.toNat > 7 then some ((arg1 >>> 64).setWidth 64, (arg2 >>> 64).setWidth 64) else none⟩

/-- The one hook that also logs equal operands. -/
def cmplogInsHook16 (rt : Runtime) (arg1 arg2 : BitVec 128) (attr : Byte) : Option InsEntry :=
  if 16 > rt.maxLen then none
  else some ⟨fun shape => shape < 15, 15, attr, arg1.setWidth 64, arg2.setWidth 64,
    some ((arg1 >>> 64).setWidth 64, (arg2 >>> 64).setWidth 64)⟩

/-- The part all instruction hooks share. -/
def Site.insLog (s : Site) (e : InsEntry) : Site :=
  let counted := s.header.countHit .ins e.low e.shape
  let hits := counted.1 &&& (CmpType.height .ins - 1)
  let narrow := putBytes (putBytes (s.log hits) 0 8 (wordByte e.v0)) 32 8 (wordByte e.v1)
  { header := { counted.2 with attr := e.attr.setWidth 4 }
    log := Function.update s.log hits (match e.wide with
      | some (v0, v1) => putBytes (putBytes narrow 8 8 (wordByte v0)) 40 8 (wordByte v1)
      | none => narrow) }

/-! ### Routine hooks -/

/-- A pointer argument and what the hooks can find out about it. -/
structure Pointer where
  addr : ℕ
  /-- The bytes from the pointer on. -/
  bytes : Bytes
  /-- `__asan_region_is_poisoned(ptr, len)`. -/
  poisoned : ℕ → Bool
  /-- The result of writing `len` bytes from the pointer into the dummy pipe. -/
  written : ℕ → ℤ
  /-- `get_prog_addr_attr(ptr)`. -/
  progAddrAttr : Byte

def areaIsValid (rt : Runtime) (ptr : Pointer) (len : ℕ) : ℕ :=
  if ptr.addr = 0 ∨ ptr.poisoned len then 0
  else
    let r := ptr.written len
    if r ≤ 0 ∨ r > len then 0
    else
      let page := ptr.addr / rt.pageSize * rt.pageSize + rt.pageSize
      if page > ptr.addr + len then r.toNat else page - ptr.addr

def strnlen (s : Bytes) (n : ℕ) : ℕ := ((List.range n).takeWhile fun i => s i ≠ 0).length

/-- `ADDR_ATTR_COMBINE`. -/
def addrAttrCombine (v0attr v1attr : Byte) : Byte := (v0attr &&& 3) + ((v1attr &&& 3) <<< 2)

/-- What a routine hook logs. -/
structure RtnEntry where
  /-- The length the shape is raised to. -/
  l : ℕ
  v0 : Bytes
  v1 : Bytes
  v0Len : Byte
  v1Len : Byte
  addrAttr : Byte

def RtnEntry.make (l v0Len v1Len : ℕ) (ptr1 ptr2 : Pointer) : RtnEntry :=
  ⟨l, ptr1.bytes, ptr2.bytes, BitVec.ofNat 8 v0Len, BitVec.ofNat 8 v1Len,
    addrAttrCombine ptr1.progAddrAttr ptr2.progAddrAttr⟩

/-- The longer of two lengths of which 0 stands for a useless string. -/
def pickLen (len1 len2 : ℕ) : ℕ :=
  if len1 = 0 then len2 else if len2 = 0 then len1 else max len1 len2

/-- `len1` and `len2` of `__cmplog_rtn_hook_strn`. -/
def strnLen (rt : Runtime) (ptr : Pointer) (len0 : ℕ) : ℕ :=
  let len1 := strnlen ptr.bytes len0
  let len1 := if len1 ≤ 32 then areaIsValid rt ptr (len1 + 1) else len1
  if len1 > rt.maxLen then 0 else len1

/-- `len1` and `len2` of `__cmplog_rtn_hook_str`. -/
def strLen (rt : Runtime) (ptr : Pointer) : ℕ :=
  let len1 := strnlen ptr.bytes 31 + 1
  if len1 > rt.maxLen then 0 else len1

def cmplogRtnHookStrn (rt : Runtime) (ptr1 ptr2 : Pointer) (len : ℕ) : Option RtnEntry :=
  if len = 0 ∨ len > rt.maxLen then none
  else
    let len0 := min len 32
    let l := pickLen (strnLen rt ptr1 len0) (strnLen rt ptr2 len0)
    if l < 2 then none else some (.make l (0x80 + l) (0x80 + l) ptr1 ptr2)

def cmplogRtnHookStr (rt : Runtime) (ptr1 ptr2 : Pointer) : Option RtnEntry :=
  if ptr1.addr = 0 ∨ ptr2.addr = 0 then none
  else
    let len1 := strLen rt ptr1
    let len2 := strLen rt ptr2
    let l := pickLen len1 len2
    if l < 2 then none else some (.make l (0x80 + len1) (0x80 + len2) ptr1 ptr2)

def cmplogRtnHook (rt : Runtime) (ptr1 ptr2 : Pointer) : Option RtnEntry :=
  let l1 := areaIsValid rt ptr1 32
  let l2 := areaIsValid rt ptr2 32
  if l1 = 0 ∨ l2 = 0 then none
  else
    let len := min rt.maxLen (min l1 l2)
    some (.make len len len ptr1 ptr2)

/-- The length argument is ignored. -/
def cmplogRtnHookN (rt : Runtime) (ptr1 ptr2 : Pointer) (_len : ℕ) : Option RtnEntry :=
  cmplogRtnHook rt ptr1 ptr2

/-- The hooks for C++ strings look at the string objects first and pass on the pointers to the
characters, of either library. -/
def cmplogRtnStdstring (rt : Runtime) (string1 string2 ptr1 ptr2 : Pointer) : Option RtnEntry :=
  if areaIsValid rt string1 32 = 0 ∨ areaIsValid rt string2 32 = 0 then none
  else cmplogRtnHook rt ptr1 ptr2

/-- The part all routine hooks share. The address attributes go through `cmpfn`, which is slot 0,
and not through `cmpfn[hits]`. -/
def Site.rtnLog (s : Site) (e : RtnEntry) : Site :=
  let counted := s.header.countHit .rtn (fun shape => shape < e.l) (e.l - 1)
  let hits := counted.1 &&& (CmpType.height .rtn - 1)
  let slot := putBytes (putBytes (s.log hits) 64 1 fun _ => e.v0Len) 65 1 fun _ => e.v1Len
  let log := Function.update s.log hits (putBytes (putBytes slot 0 32 e.v0) 32 32 e.v1)
  { header := counted.2
    log := Function.update log 0 (putBytes (log 0) 66 1 fun _ => e.addrAttr) }

/-! ### Calls at one site -/

/-- The calls of the hooks of one kind. -/
inductive HookCall : CmpType → Type
  | hook2 (arg1 arg2 : BitVec 16) (attr : Byte) : HookCall .ins
  | hook4 (arg1 arg2 : BitVec 32) (attr : Byte) : HookCall .ins
  | hook8 (arg1 arg2 : BitVec 64) (attr : Byte) : HookCall .ins
  | hookN (arg1 arg2 : BitVec 128) (attr size : Byte) : HookCall .ins
  | hook16 (arg1 arg2 : BitVec 128) (attr : Byte) : HookCall .ins
  | rtnStrn (ptr1 ptr2 : Pointer) (len : ℕ) : HookCall .rtn
  | rtnStr (ptr1 ptr2 : Pointer) : HookCall .rtn
  | rtn (ptr1 ptr2 : Pointer) : HookCall .rtn
  | rtnN (ptr1 ptr2 : Pointer) (len : ℕ) : HookCall .rtn
  | rtnStdstring (string1 string2 ptr1 ptr2 : Pointer) : HookCall .rtn

abbrev CmpType.Entry : CmpType → Type
  | .ins => InsEntry
  | .rtn => RtnEntry

/-- What the call logs, or `none` if the hook returns before it looks at its site. -/
def HookCall.entry (rt : Runtime) : {kind : CmpType} → HookCall kind → Option kind.Entry
  | _, .hook2 arg1 arg2 attr => cmplogInsHook2 arg1 arg2 attr
  | _, .hook4 arg1 arg2 attr => cmplogInsHook4 arg1 arg2 attr
  | _, .hook8 arg1 arg2 attr => cmplogInsHook8 arg1 arg2 attr
  | _, .hookN arg1 arg2 attr size => cmplogInsHookN rt arg1 arg2 attr size
  | _, .hook16 arg1 arg2 attr => cmplogInsHook16 rt arg1 arg2 attr
  | _, .rtnStrn ptr1 ptr2 len => cmplogRtnHookStrn rt ptr1 ptr2 len
  | _, .rtnStr ptr1 ptr2 => cmplogRtnHookStr rt ptr1 ptr2
  | _, .rtn ptr1 ptr2 => cmplogRtnHook rt ptr1 ptr2
  | _, .rtnN ptr1 ptr2 len => cmplogRtnHookN rt ptr1 ptr2 len
  | _, .rtnStdstring string1 string2 ptr1 ptr2 => cmplogRtnStdstring rt string1 string2 ptr1 ptr2

def Site.store : {kind : CmpType} → Site → kind.Entry → Site
  | .ins, s, e => s.insLog e
  | .rtn, s, e => s.rtnLog e

def Site.call (rt : Runtime) {kind : CmpType} (s : Site) (c : HookCall kind) : Site :=
  match c.entry rt with
  | none => s
  | some e => s.store e

def Site.calls (rt : Runtime) {kind : CmpType} (s : Site) (cs : List (HookCall kind)) : Site :=
  cs.foldl (Site.call rt) s

/-! ### What a run of calls leaves in the header -/

variable {kind : CmpType}

/-- A call that returns early is as good as no call. -/
theorem Site.calls_eq (rt : Runtime) (s : Site) (cs : List (HookCall kind)) :
    s.calls rt cs = (cs.filterMap (HookCall.entry rt)).foldl Site.store s := by
  induction cs generalizing s with
  | nil => rfl
  | cons c cs ih =>
    rw [Site.calls, List.foldl_cons]
    change Site.calls rt (s.call rt c) cs = _
    rw [ih, Site.call]
    cases hc : c.entry rt with
    | none => rw [List.filterMap_cons_none hc]
    | some e => rw [List.filterMap_cons_some hc, List.foldl_cons]

theorem CmpHeader.countHit_of_ne {h : CmpHeader} (hne : h.type ≠ kind) (low : ℕ → Bool)
    (shape : ℕ) : h.countHit kind low shape =
      (0, { h with type := kind, hits := 1, shape := BitVec.ofNat 5 shape }) := if_pos hne

theorem CmpHeader.countHit_of_eq {h : CmpHeader} (he : h.type = kind) (low : ℕ → Bool)
    (shape : ℕ) : h.countHit kind low shape = (h.hits.toNat, { h with
      hits := h.hits + 1
      shape := if low h.shape.toNat then BitVec.ofNat 5 shape else h.shape }) :=
  if_neg (not_not.mpr he)

/-- What storing an entry does to the type and the count. -/
theorem Site.store_header (s : Site) (e : kind.Entry) :
    (s.store e).header.type = kind ∧ (s.store e).header.hits =
      if s.header.type = kind then s.header.hits + 1 else 1 := by
  by_cases h : s.header.type = kind
  · cases kind <;> simp [store, insLog, rtnLog, CmpHeader.countHit_of_eq h, h]
  · cases kind <;> simp [store, insLog, rtnLog, CmpHeader.countHit_of_ne h, h]

/-- The count of a site that only sees one kind of hook is the number of entries, as far as six
bits can hold it. -/
theorem Site.stores_hits (s : Site) (es : List kind.Entry)
    (h0 : s.header.type = kind → s.header.hits = 0) (hne : es ≠ []) :
    (es.foldl Site.store s).header.type = kind ∧
      (es.foldl Site.store s).header.hits = BitVec.ofNat 6 es.length := by
  induction es using List.reverseRecOn with
  | nil => exact absurd rfl hne
  | append_singleton es e ih =>
    rw [List.foldl_append, List.foldl_cons, List.foldl_nil]
    obtain ⟨htype, hhits⟩ := (es.foldl Site.store s).store_header e
    refine ⟨htype, ?_⟩
    rw [hhits, List.length_append, List.length_singleton, BitVec.ofNat_add]
    cases hes : es with
    | nil =>
      by_cases hk : s.header.type = kind
      · simp [hk, h0 hk]
      · simp [hk]
    | cons e' es' =>
      rw [← hes]
      obtain ⟨hk, hn⟩ := ih (by rw [hes]; exact List.cons_ne_nil _ _)
      rw [if_pos hk, hn]
      rfl

end AflPlusPlus.Cmplog
