import AflPlusPlus.Lib.PagedMemory
import Mathlib.Tactic.Tauto

/-!
# libdislocator's heap

Every request gets pages of its own. The block is pushed against their end, its length and a canary
stand in the eight bytes before it, and the page behind it cannot be accessed. `free` takes away all
access to the pages and never gives them back.
-/

namespace AflPlusPlus.Dislocator
open Lib PagedMemory

/-- A call returns, is stopped by `abort()`, or dies on a signal. -/
inductive Outcome (α : Type)
  | ok (a : α)
  | abort
  | fault

namespace Outcome

variable {α β : Type}

def bind : Outcome α → (α → Outcome β) → Outcome β
  | .ok a, f => f a
  | .abort, _ => .abort
  | .fault, _ => .fault

instance : Monad Outcome where
  pure := .ok
  bind := bind

@[simp] theorem ok_bind (a : α) (f : α → Outcome β) : (Outcome.ok a >>= f) = f a := rfl
@[simp] theorem abort_bind (f : α → Outcome β) : (Outcome.abort >>= f) = .abort := rfl
@[simp] theorem fault_bind (f : α → Outcome β) : (Outcome.fault >>= f) = .fault := rfl
@[simp] theorem pure_eq (a : α) : (pure a : Outcome α) = .ok a := rfl

theorem bind_eq_ok {x : Outcome α} {f : α → Outcome β} {b : β} :
    (x >>= f) = .ok b ↔ ∃ a, x = .ok a ∧ f a = .ok b := by
  cases x <;> simp

def toOption : Outcome α → Option α
  | .ok a => some a
  | .abort => none
  | .fault => none

theorem toOption_eq_some {x : Outcome α} {a : α} : x.toOption = some a ↔ x = .ok a := by
  cases x <;> simp [toOption]

end Outcome

/-- The settings `__dislocator_init` reads from the environment. -/
structure Config where
  maxMem : ℕ
  hardFail : Bool
  noCallocOver : Bool
  alignAllocations : Bool
  allocCanary : BitVec 32

/-- What the kernel does with a request: `mmap` fails, access to the guard page cannot be taken
away, or the block gets pages of its own. -/
inductive Mapping
  | failed
  | unguarded
  | pages (page : ℕ)
deriving DecidableEq

structure Heap where
  pages : PagedMemory
  totalMem : ℕ

variable (cfg : Config)

def allocClobber : Byte := 0xCC
def tailAllocCanary : Byte := 0xAC

/-- `PG_COUNT` on a `size_t`. -/
def pgCount (l : ℕ) : ℕ := (l + (pageSize - 1)) / pageSize

/-- `rlen`: a whole number of `max_align_t` when `AFL_ALIGNED_ALLOC` is set. -/
def roundedLen (len : ℕ) : ℕ :=
  if cfg.alignAllocations = true ∧ len % 16 ≠ 0 then len / 16 * 16 + 16 else len

def overLimit (h : Heap) (len : ℕ) : Bool :=
  cfg.maxMem < (h.totalMem + len) % 2 ^ 64 || (h.totalMem + len) % 2 ^ 64 < h.totalMem

/-- The pages of a block, its guard page included. -/
def layOut (m : PagedMemory) (page len : ℕ) : PagedMemory :=
  let rlen := roundedLen cfg len
  let n := pgCount (rlen + 8)
  let ret := (page + n) * pageSize - rlen
  let m := (m.map page (n + 1)).protect (page + n) 1
  let m := (m.store32 (ret - 8) (BitVec.ofNat 32 len)).store32 (ret - 4) cfg.allocCanary
  m.fill (ret + len) (rlen - len) tailAllocCanary

/-- The address returned for a block that `mmap` put on `page`. -/
def blockPtr (page len : ℕ) : ℕ :=
  (page + pgCount (roundedLen cfg len + 8)) * pageSize - roundedLen cfg len

/-- `__dislocator_alloc`. The null pointer is 0. -/
def dislocatorAlloc (place : Mapping) (h : Heap) (len : ℕ) : Outcome (ℕ × Heap) :=
  if overLimit cfg h len then if cfg.hardFail then .abort else .ok (0, h)
  else
    match place with
    | .failed => if cfg.hardFail then .abort else .ok (0, h)
    | .unguarded => .abort
    | .pages page =>
      .ok (blockPtr cfg page len,
        { pages := layOut cfg h.pages page len, totalMem := (h.totalMem + len) % 2 ^ 64 })

/-- The `memset` behind a request, which is skipped for a null pointer. -/
def clobber (ret : ℕ) (h : Heap) (len : ℕ) : Heap :=
  if ret = 0 then h else { h with pages := h.pages.fill ret len allocClobber }

def calloc (place : Mapping) (h : Heap) (elemLen elemCnt : ℕ) : Outcome (ℕ × Heap) :=
  let len := elemLen * elemCnt % 2 ^ 64
  if elemCnt ≠ 0 ∧ len / elemCnt ≠ elemLen then
    if cfg.noCallocOver then .ok (0, h) else .abort
  else dislocatorAlloc cfg place h len

def malloc (place : Mapping) (h : Heap) (len : ℕ) : Outcome (ℕ × Heap) := do
  let (ret, h) ← dislocatorAlloc cfg place h len
  pure (ret, clobber ret h len)

/-- A 32-bit load through a pointer. -/
def load (m : PagedMemory) (a : ℕ) : Outcome (BitVec 32) :=
  if m.Readable a 4 then .ok (m.load32 a) else .fault

/-- The loop over the bytes between the length and `rlen`. -/
def checkTail (m : PagedMemory) (ptr : ℕ) : List ℕ → Outcome Unit
  | [] => .ok ()
  | i :: is =>
    if ¬ m.Accessible (ptr + i) then .fault
    else if m.mem (ptr + i) ≠ tailAllocCanary then .abort
    else checkTail m ptr is

/-- `mprotect(…, PROT_NONE)` works on whole pages that are mapped. -/
def mprotect (m : PagedMemory) (a n : ℕ) : Outcome PagedMemory :=
  if a % pageSize = 0 ∧ ∀ i < n, m.mapped (a / pageSize + i) = true then
    .ok (m.protect (a / pageSize) n)
  else .abort

/-- `PG_COUNT(len + 8)` on the `u32` of `free`. -/
def freeCount (rlen : ℕ) : ℕ := ((rlen + 8) % 2 ^ 32 + (pageSize - 1)) % 2 ^ 32 / pageSize

/-- `PAGE_SIZE * PG_COUNT(len + 8) - len - 8` on the `u32` of `free`. -/
def freeOffset (rlen : ℕ) : ℕ := (freeCount rlen * pageSize + 2 ^ 33 - rlen - 8) % 2 ^ 32

def free (h : Heap) (ptr : ℕ) : Outcome Heap := do
  if ptr = 0 then pure h
  else
    let canary ← load h.pages (ptr - 4)
    if canary ≠ cfg.allocCanary then .abort
    else
      let len ← load h.pages (ptr - 8)
      let totalMem := (h.totalMem + (2 ^ 64 - len.toNat)) % 2 ^ 64
      let rlen := roundedLen cfg len.toNat
      checkTail h.pages ptr (List.range' len.toNat (rlen - len.toNat))
      let pages ← mprotect h.pages (ptr - freeOffset rlen - 8) (freeCount rlen)
      pure { pages := pages, totalMem := totalMem }

/-- The `memcpy` of `realloc` reads `n` bytes of the old block. -/
def copyOld (m : PagedMemory) (ret ptr n : ℕ) : Outcome PagedMemory :=
  if m.Readable ptr n then .ok (m.copy ret ptr n) else .fault

def realloc (place : Mapping) (h : Heap) (ptr len : ℕ) : Outcome (ℕ × Heap) := do
  let (ret, h) ← malloc cfg place h len
  if ret ≠ 0 ∧ ptr ≠ 0 then
    let canary ← load h.pages (ptr - 4)
    if canary ≠ cfg.allocCanary then .abort
    else
      let old ← load h.pages (ptr - 8)
      let pages ← copyOld h.pages ret ptr (min len old.toNat)
      let h ← free cfg { h with pages := pages } ptr
      pure (ret, h)
  else pure (ret, h)

/-- The length `posix_memalign` asks for. -/
def alignedLen (align len : ℕ) : ℕ :=
  if len % align ≠ 0 then (len + (align - len % align)) % 2 ^ 64 else len

/-- No pointer stands for `EINVAL`. A remainder by 0 is a signal. -/
def posixMemalign (place : Mapping) (h : Heap) (align len : ℕ) :
    Outcome (Option ℕ × Heap) := do
  if align % 2 ≠ 0 ∨ align % 8 ≠ 0 then pure (none, h)
  else if len = 0 then pure (some 0, h)
  else if align = 0 then .fault
  else
    let (ret, h) ← dislocatorAlloc cfg place h (alignedLen align len)
    pure (some ret, clobber ret h (alignedLen align len))

def memalign (place : Mapping) (h : Heap) (align len : ℕ) : Outcome (ℕ × Heap) := do
  let (ret, h) ← posixMemalign cfg place h align len
  pure (ret.getD 0, h)

def alignedAlloc (place : Mapping) (h : Heap) (align len : ℕ) : Outcome (ℕ × Heap) :=
  if align = 0 then .fault
  else if len % align ≠ 0 then pure (0, h)
  else memalign cfg place h align len

def reallocarray (place : Mapping) (h : Heap) (ptr elemLen elemCnt : ℕ) :
    Outcome (ℕ × Heap) :=
  if (2 ^ 32 ≤ elemLen ∨ 2 ^ 32 ≤ elemCnt) ∧ 0 < elemLen ∧ (2 ^ 64 - 1) / elemLen < elemCnt then
    pure (0, h)
  else realloc cfg place h ptr (elemLen * elemCnt % 2 ^ 64)

def mallocUsableSize (h : Heap) (ptr : ℕ) : Outcome ℕ := do
  if ptr = 0 then pure 0
  else
    let len ← load h.pages (ptr - 8)
    pure len.toNat

/-- A block: the page it starts on and the length asked for. -/
structure Block where
  page : ℕ
  len : ℕ
deriving DecidableEq

namespace Block

def rlen (b : Block) : ℕ := roundedLen cfg b.len

/-- The number of pages that can be accessed. -/
def pages (b : Block) : ℕ := pgCount (b.rlen cfg + 8)

def ptr (b : Block) : ℕ := blockPtr cfg b.page b.len

/-- The page is one of the block, its guard page included. -/
def Owns (b : Block) (p : ℕ) : Prop := OneOf b.page (b.pages cfg + 1) p

instance (b : Block) (p : ℕ) : Decidable (b.Owns cfg p) := inferInstanceAs (Decidable (OneOf ..))

end Block

variable {place : Mapping} {h h' : Heap} {b : Block} {len ret i p : ℕ} {v : Byte}

theorem le_pgCount (l : ℕ) : l ≤ pgCount l * pageSize := by
  rw [pgCount, pageSize]
  omega

theorem pgCount_lt (l : ℕ) : pgCount l * pageSize < l + pageSize := by
  rw [pgCount, pageSize]
  omega

theorem len_le_roundedLen (len : ℕ) : len ≤ roundedLen cfg len := by
  rw [roundedLen]
  split_ifs <;> omega

theorem roundedLen_lt (len : ℕ) : roundedLen cfg len < len + 16 := by
  rw [roundedLen]
  split_ifs <;> omega

namespace Block

/-- The block ends where its guard page starts. -/
theorem ptr_add_rlen (b : Block) : b.ptr cfg + b.rlen cfg = (b.page + b.pages cfg) * pageSize := by
  have hn := le_pgCount (roundedLen cfg b.len + 8)
  have hle : roundedLen cfg b.len ≤
      (b.page + pgCount (roundedLen cfg b.len + 8)) * pageSize := by
    rw [Nat.add_mul]
    omega
  exact Nat.sub_add_cancel hle

/-- The first page has room for the length and the canary. -/
theorem page_le_ptr (b : Block) : b.page * pageSize + 8 ≤ b.ptr cfg := by
  have hend := b.ptr_add_rlen cfg
  have hn := le_pgCount (b.rlen cfg + 8)
  rw [Nat.add_mul, pages] at hend
  omega

theorem ptr_pos (b : Block) : 0 < b.ptr cfg := by
  have := b.page_le_ptr cfg
  omega

variable {cfg}

/-- The bytes from the length to the end of the block lie in the pages that can be accessed. -/
theorem oneOf_pages (hl : b.ptr cfg ≤ i + 8) (hr : i < b.ptr cfg + b.rlen cfg) :
    OneOf b.page (b.pages cfg) (i / pageSize) := by
  have hstart := b.page_le_ptr cfg
  rw [oneOf_iff, ← b.ptr_add_rlen]
  omega

theorem owns_of_pages (hp : OneOf b.page (b.pages cfg) p) : b.Owns cfg p := by
  have hlt := hp.2
  exact ⟨hp.1, by omega⟩

theorem owns_guard : b.Owns cfg (b.page + b.pages cfg) := ⟨by omega, by omega⟩

theorem owns_of_mem (hl : b.ptr cfg ≤ i + 8) (hr : i < b.ptr cfg + b.rlen cfg) :
    b.Owns cfg (i / pageSize) :=
  owns_of_pages (oneOf_pages hl hr)

end Block

variable {cfg}

/-- `h'` is `h` with the block `b` added, its bytes all `v`. -/
structure Placed (cfg : Config) (h : Heap) (b : Block) (v : Byte) (h' : Heap) : Prop where
  mapped : ∀ p, h'.pages.mapped p = true ↔ b.Owns cfg p ∨ h.pages.mapped p = true
  usable : ∀ p, h'.pages.usable p = true ↔
    OneOf b.page (b.pages cfg) p ∨ ¬ b.Owns cfg p ∧ h.pages.usable p = true
  total : h'.totalMem = h.totalMem + b.len
  within : h.totalMem + b.len ≤ cfg.maxMem
  header : h'.pages.load32 (b.ptr cfg - 8) = BitVec.ofNat 32 b.len
  canary : h'.pages.load32 (b.ptr cfg - 4) = cfg.allocCanary
  body : ∀ i, i < b.len → h'.pages.mem (b.ptr cfg + i) = v
  tail : ∀ i, b.len ≤ i → i < b.rlen cfg → h'.pages.mem (b.ptr cfg + i) = tailAllocCanary
  frame : ∀ i, ¬ b.Owns cfg (i / pageSize) → h'.pages.mem i = h.pages.mem i

theorem layOut_eq (m : PagedMemory) (b : Block) :
    layOut cfg m b.page b.len =
      ((((m.map b.page (b.pages cfg + 1)).protect (b.page + b.pages cfg) 1).store32
        (b.ptr cfg - 8) (BitVec.ofNat 32 b.len)).store32 (b.ptr cfg - 4) cfg.allocCanary).fill
        (b.ptr cfg + b.len) (b.rlen cfg - b.len) tailAllocCanary := rfl

theorem usable_layOut {m : PagedMemory} : (layOut cfg m b.page b.len).usable p = true ↔
    OneOf b.page (b.pages cfg) p ∨ ¬ b.Owns cfg p ∧ m.usable p = true := by
  have hguard : OneOf (b.page + b.pages cfg) 1 p ↔ p = b.page + b.pages cfg := by
    rw [OneOf]
    omega
  have howns : b.Owns cfg p ↔ OneOf b.page (b.pages cfg) p ∨ p = b.page + b.pages cfg := by
    rw [Block.Owns, OneOf, OneOf]
    omega
  have hne : OneOf b.page (b.pages cfg) p → p ≠ b.page + b.pages cfg := by
    intro hp
    have := hp.2
    omega
  rw [layOut_eq]
  refine usable_protect.trans ?_
  rw [hguard, usable_map]
  change ¬ _ ∧ (b.Owns cfg p ∨ _) ↔ _
  rw [howns]
  tauto

/-- Pages that are laid out for a block hold its length, its canary and its tail. -/
theorem placed_layOut (hle : h.totalMem + b.len ≤ cfg.maxMem) :
    Placed cfg h b 0 ⟨layOut cfg h.pages b.page b.len, h.totalMem + b.len⟩ := by
  have hptr := b.page_le_ptr cfg
  have hlen : b.len ≤ b.rlen cfg := len_le_roundedLen cfg b.len
  refine ⟨fun p => ?_, fun p => ?_, rfl, hle, ?_, ?_, fun i hi => ?_, fun i hl hr => ?_,
    fun i hi => ?_⟩
  · rw [layOut_eq]
    exact mapped_map
  · exact usable_layOut
  · rw [layOut_eq, load32_congr fun i hl hr => mem_fill_of_not (by omega),
      load32_congr fun i hl hr => mem_store32_of_not (by omega), load32_store32]
  · rw [layOut_eq, load32_congr fun i hl hr => mem_fill_of_not (by omega), load32_store32]
  · rw [layOut_eq, mem_fill_of_not (by omega), mem_store32_of_not (by omega),
      mem_store32_of_not (by omega), mem_protect,
      mem_map_of_oneOf (Block.owns_of_mem (by omega) (by omega))]
  · rw [layOut_eq, mem_fill_of_mem (by omega) (by omega)]
  · have hout : ∀ {a n : ℕ}, b.ptr cfg ≤ a + 8 → a + n ≤ b.ptr cfg + b.rlen cfg →
        i < a ∨ a + n ≤ i := by
      intro a n ha hn
      by_contra hin
      exact hi (Block.owns_of_mem (by omega) (by omega))
    rw [layOut_eq, mem_fill_of_not (hout (by omega) (by omega)),
      mem_store32_of_not (hout (by omega) (by omega)),
      mem_store32_of_not (hout (by omega) (by omega)), mem_protect, mem_map_of_not hi]

theorem Placed.clobber (hp : Placed cfg h b v h') :
    Placed cfg h b allocClobber (clobber (b.ptr cfg) h' b.len) := by
  have hptr := b.page_le_ptr cfg
  have hlen : b.len ≤ b.rlen cfg := len_le_roundedLen cfg b.len
  rw [Dislocator.clobber, if_neg (Nat.ne_of_gt (b.ptr_pos cfg))]
  exact
    { mapped := hp.mapped
      usable := hp.usable
      total := hp.total
      within := hp.within
      header := (load32_congr fun i hl hr => mem_fill_of_not (by omega)).trans hp.header
      canary := (load32_congr fun i hl hr => mem_fill_of_not (by omega)).trans hp.canary
      body := fun i hi => mem_fill_of_mem (by omega) (by omega)
      tail := fun i hl hr => (mem_fill_of_not (by omega)).trans (hp.tail i hl hr)
      frame := fun i hi => by
        refine (mem_fill_of_not ?_).trans (hp.frame i hi)
        by_contra hin
        exact hi (Block.owns_of_mem (by omega) (by omega)) }

/-- The limit is exceeded exactly by the sum: the sum of two sizes never wraps unnoticed. -/
theorem overLimit_iff (hmax : cfg.maxMem < 2 ^ 64) (htotal : h.totalMem ≤ cfg.maxMem)
    (hlen : len < 2 ^ 64) : overLimit cfg h len = true ↔ cfg.maxMem < h.totalMem + len := by
  rw [overLimit, Bool.or_eq_true, decide_eq_true_iff, decide_eq_true_iff]
  omega

/-- Where a request gets its pages, and what is in them. -/
structure Answer (cfg : Config) (place : Mapping) (h : Heap) (len : ℕ) (v : Byte) (ret : ℕ)
    (h' : Heap) : Prop where
  cases : ret = 0 ∧ h' = h ∨
    ∃ page, place = .pages page ∧ ret = (Block.mk page len).ptr cfg ∧ Placed cfg h ⟨page, len⟩ v h'

theorem dislocatorAlloc_ok (hmax : cfg.maxMem < 2 ^ 64) (htotal : h.totalMem ≤ cfg.maxMem)
    (hlen : len < 2 ^ 64) (hok : dislocatorAlloc cfg place h len = .ok (ret, h')) :
    Answer cfg place h len 0 ret h' := by
  rw [dislocatorAlloc.eq_def] at hok
  by_cases hover : overLimit cfg h len = true
  · rw [if_pos hover] at hok
    split_ifs at hok
    obtain ⟨rfl, rfl⟩ := Prod.mk.inj (Outcome.ok.inj hok)
    exact ⟨.inl ⟨rfl, rfl⟩⟩
  · rw [if_neg hover] at hok
    rw [overLimit_iff hmax htotal hlen, Nat.not_lt] at hover
    cases place with
    | failed =>
      dsimp only at hok
      split_ifs at hok
      obtain ⟨rfl, rfl⟩ := Prod.mk.inj (Outcome.ok.inj hok)
      exact ⟨.inl ⟨rfl, rfl⟩⟩
    | unguarded => cases hok
    | pages page =>
      obtain ⟨rfl, rfl⟩ := Prod.mk.inj (Outcome.ok.inj hok)
      rw [Nat.mod_eq_of_lt (by omega)]
      exact ⟨.inr ⟨page, rfl, rfl, placed_layOut (b := ⟨page, len⟩) hover⟩⟩

theorem Answer.clobber (ha : Answer cfg place h len v ret h') :
    Answer cfg place h len allocClobber ret (clobber ret h' len) := by
  obtain ⟨⟨rfl, rfl⟩ | ⟨page, hpage, rfl, hp⟩⟩ := ha
  · exact ⟨.inl ⟨rfl, if_pos rfl⟩⟩
  · exact ⟨.inr ⟨page, hpage, rfl, hp.clobber⟩⟩

theorem malloc_ok (hmax : cfg.maxMem < 2 ^ 64) (htotal : h.totalMem ≤ cfg.maxMem)
    (hlen : len < 2 ^ 64) (hok : malloc cfg place h len = .ok (ret, h')) :
    Answer cfg place h len allocClobber ret h' := by
  obtain ⟨⟨r, k⟩, hr, hk⟩ := Outcome.bind_eq_ok.mp hok
  obtain ⟨rfl, rfl⟩ := Prod.mk.inj (Outcome.ok.inj hk)
  exact (dislocatorAlloc_ok hmax htotal hlen hr).clobber

theorem calloc_ok (hmax : cfg.maxMem < 2 ^ 64) (htotal : h.totalMem ≤ cfg.maxMem)
    {elemLen elemCnt : ℕ} (hok : calloc cfg place h elemLen elemCnt = .ok (ret, h')) :
    Answer cfg place h (elemLen * elemCnt % 2 ^ 64) 0 ret h' := by
  rw [calloc] at hok
  split_ifs at hok
  · obtain ⟨rfl, rfl⟩ := Prod.mk.inj (Outcome.ok.inj hok)
    exact ⟨.inl ⟨rfl, rfl⟩⟩
  · exact dislocatorAlloc_ok hmax htotal (Nat.mod_lt _ (by decide)) hok

theorem alignedLen_lt {align : ℕ} (hlen : len < 2 ^ 64) : alignedLen align len < 2 ^ 64 := by
  rw [alignedLen]
  split_ifs
  · exact Nat.mod_lt _ (by decide)
  · exact hlen

theorem memalign_ok (hmax : cfg.maxMem < 2 ^ 64) (htotal : h.totalMem ≤ cfg.maxMem)
    {align : ℕ} (hlen : len < 2 ^ 64) (hok : memalign cfg place h align len = .ok (ret, h')) :
    Answer cfg place h (alignedLen align len) allocClobber ret h' := by
  obtain ⟨⟨r, k⟩, hr, hk⟩ := Outcome.bind_eq_ok.mp hok
  obtain ⟨rfl, rfl⟩ := Prod.mk.inj (Outcome.ok.inj hk)
  rw [posixMemalign] at hr
  split_ifs at hr
  · obtain ⟨rfl, rfl⟩ := Prod.mk.inj (Outcome.ok.inj hr)
    exact ⟨.inl ⟨rfl, rfl⟩⟩
  · obtain ⟨rfl, rfl⟩ := Prod.mk.inj (Outcome.ok.inj hr)
    exact ⟨.inl ⟨rfl, rfl⟩⟩
  · obtain ⟨⟨r', k'⟩, hr', hk'⟩ := Outcome.bind_eq_ok.mp hr
    obtain ⟨rfl, rfl⟩ := Prod.mk.inj (Outcome.ok.inj hk')
    exact (dislocatorAlloc_ok hmax htotal (alignedLen_lt hlen) hr').clobber

theorem alignedAlloc_ok (hmax : cfg.maxMem < 2 ^ 64) (htotal : h.totalMem ≤ cfg.maxMem)
    {align : ℕ} (hlen : len < 2 ^ 64)
    (hok : alignedAlloc cfg place h align len = .ok (ret, h')) :
    Answer cfg place h (alignedLen align len) allocClobber ret h' := by
  rw [alignedAlloc] at hok
  split_ifs at hok
  · obtain ⟨rfl, rfl⟩ := Prod.mk.inj (Outcome.ok.inj hok)
    exact ⟨.inl ⟨rfl, rfl⟩⟩
  · exact memalign_ok hmax htotal hlen hok

theorem load_of_readable {m : PagedMemory} {a : ℕ} (hm : m.Readable a 4) :
    load m a = .ok (m.load32 a) := if_pos hm

theorem checkTail_eq {m : PagedMemory} {ptr : ℕ} {is : List ℕ}
    (hm : ∀ i ∈ is, m.Accessible (ptr + i)) :
    checkTail m ptr is =
      if ∀ i ∈ is, m.mem (ptr + i) = tailAllocCanary then .ok () else .abort := by
  induction is with
  | nil => rw [checkTail, if_pos (by simp)]
  | cons i is ih =>
    rw [checkTail, if_neg (not_not_intro (hm i (List.mem_cons_self ..))),
      ih fun j hj => hm j (List.mem_cons_of_mem i hj)]
    by_cases hi : m.mem (ptr + i) = tailAllocCanary
    · rw [if_neg (not_not_intro hi)]
      simp [hi]
    · rw [if_pos hi, if_neg fun hall => hi (hall i (List.mem_cons_self ..))]

/-- What `free` needs to find. -/
structure Live (cfg : Config) (h : Heap) (b : Block) : Prop where
  mapped : ∀ p, OneOf b.page (b.pages cfg) p → h.pages.mapped p = true
  usable : ∀ p, OneOf b.page (b.pages cfg) p → h.pages.usable p = true
  header : h.pages.load32 (b.ptr cfg - 8) = BitVec.ofNat 32 b.len
  bound : b.len + 4120 ≤ 2 ^ 32
  counted : b.len ≤ h.totalMem
  total : h.totalMem < 2 ^ 64

/-- Nothing was written before or behind the block. -/
structure Intact (cfg : Config) (m : PagedMemory) (b : Block) : Prop where
  canary : m.load32 (b.ptr cfg - 4) = cfg.allocCanary
  tail : ∀ i ∈ List.range' b.len (b.rlen cfg - b.len),
    m.mem (b.ptr cfg + i) = tailAllocCanary

instance (m : PagedMemory) (b : Block) : Decidable (Intact cfg m b) :=
  decidable_of_iff
    (m.load32 (b.ptr cfg - 4) = cfg.allocCanary ∧
      ∀ i ∈ List.range' b.len (b.rlen cfg - b.len), m.mem (b.ptr cfg + i) = tailAllocCanary)
    ⟨fun hi => ⟨hi.1, hi.2⟩, fun hi => ⟨hi.canary, hi.tail⟩⟩

/-- The heap without the block. -/
def Heap.without (cfg : Config) (h : Heap) (b : Block) : Heap where
  pages := h.pages.protect b.page (b.pages cfg)
  totalMem := h.totalMem - b.len

theorem Live.accessible (hb : Live cfg h b) (hl : b.ptr cfg ≤ i + 8)
    (hr : i < b.ptr cfg + b.rlen cfg) : h.pages.Accessible i :=
  hb.usable _ (Block.oneOf_pages hl hr)

theorem Live.load_canary (hb : Live cfg h b) :
    load h.pages (b.ptr cfg - 4) = .ok (h.pages.load32 (b.ptr cfg - 4)) := by
  have hptr := b.page_le_ptr cfg
  exact load_of_readable fun i hi => hb.accessible (by omega) (by omega)

theorem Live.load_len (hb : Live cfg h b) :
    load h.pages (b.ptr cfg - 8) = .ok (BitVec.ofNat 32 b.len) := by
  have hptr := b.page_le_ptr cfg
  rw [load_of_readable fun i hi => hb.accessible (by omega) (by omega), hb.header]

theorem Live.toNat_len (hb : Live cfg h b) : (BitVec.ofNat 32 b.len).toNat = b.len := by
  have := hb.bound
  rw [BitVec.toNat_ofNat, Nat.mod_eq_of_lt (by omega)]

/-- `free` computes the first page and the number of pages of the block. -/
theorem Live.mprotect_eq (hb : Live cfg h b) :
    mprotect h.pages (b.ptr cfg - freeOffset (b.rlen cfg) - 8) (freeCount (b.rlen cfg)) =
      .ok (h.pages.protect b.page (b.pages cfg)) := by
  have hbound := hb.bound
  have hrlen : b.rlen cfg < b.len + 16 := roundedLen_lt cfg b.len
  have hpage : pageSize = 4096 := rfl
  have hn : freeCount (b.rlen cfg) = b.pages cfg := by
    rw [freeCount, Nat.mod_eq_of_lt (by omega), Nat.mod_eq_of_lt (by omega), Block.pages, pgCount]
  have hroom : b.rlen cfg + 8 ≤ b.pages cfg * pageSize := le_pgCount (b.rlen cfg + 8)
  have hsize : b.pages cfg * pageSize < b.rlen cfg + 8 + pageSize := pgCount_lt (b.rlen cfg + 8)
  have hend := b.ptr_add_rlen cfg
  rw [Nat.add_mul] at hend
  have hstart : b.ptr cfg - freeOffset (b.rlen cfg) - 8 = b.page * pageSize := by
    rw [freeOffset, hn]
    omega
  rw [hn, hstart, mprotect, Nat.mul_div_cancel _ (by decide : 0 < pageSize), if_pos]
  exact ⟨Nat.mul_mod_left .., fun i hi => hb.mapped _ ⟨by omega, by omega⟩⟩

/-- A live block is freed when nothing was written before or behind it; otherwise the program is
stopped. -/
theorem free_live (hb : Live cfg h b) : free cfg h (b.ptr cfg) =
    if Intact cfg h.pages b then .ok (h.without cfg b) else .abort := by
  have hle := hb.counted
  have htotal := hb.total
  have hbound := hb.bound
  rw [free, if_neg (Nat.ne_of_gt (b.ptr_pos cfg)), hb.load_canary, Outcome.ok_bind]
  by_cases hcanary : h.pages.load32 (b.ptr cfg - 4) = cfg.allocCanary
  · rw [if_neg (not_not_intro hcanary), hb.load_len, Outcome.ok_bind, hb.toNat_len]
    have hacc : ∀ i ∈ List.range' b.len (b.rlen cfg - b.len),
        h.pages.Accessible (b.ptr cfg + i) := by
      intro i hi
      obtain ⟨hl, hr⟩ := List.mem_range'_1.mp hi
      exact hb.accessible (by omega) (by omega)
    change (checkTail h.pages (b.ptr cfg) (List.range' b.len (b.rlen cfg - b.len)) >>= _) = _
    rw [checkTail_eq hacc]
    by_cases htail : ∀ i ∈ List.range' b.len (b.rlen cfg - b.len),
        h.pages.mem (b.ptr cfg + i) = tailAllocCanary
    · rw [if_pos htail, if_pos ⟨hcanary, htail⟩, Outcome.ok_bind]
      have hsub : (h.totalMem + (2 ^ 64 - b.len)) % 2 ^ 64 = h.totalMem - b.len := by omega
      change (mprotect h.pages (b.ptr cfg - freeOffset (b.rlen cfg) - 8)
        (freeCount (b.rlen cfg)) >>= _) = _
      rw [hb.mprotect_eq, Outcome.ok_bind, hsub]
      rfl
    · rw [if_neg htail, if_neg fun hi => htail hi.tail, Outcome.abort_bind]
  · rw [if_pos hcanary, if_neg fun hi => hcanary hi.canary]

/-- The pages of a block that was freed. -/
structure Gone (cfg : Config) (h : Heap) (b : Block) : Prop where
  usable : ∀ p, OneOf b.page (b.pages cfg) p → h.pages.usable p = false

theorem Gone.not_accessible (hb : Gone cfg h b) (hl : b.ptr cfg ≤ i + 8)
    (hr : i < b.ptr cfg + b.rlen cfg) : ¬ h.pages.Accessible i := by
  have := hb.usable _ (Block.oneOf_pages hl hr)
  exact fun ha => Bool.false_ne_true (this.symm.trans ha)

/-- The attempt to read the canary of a freed block is a segmentation fault. -/
theorem Gone.load_canary (hb : Gone cfg h b) : load h.pages (b.ptr cfg - 4) = .fault := by
  have hptr := b.page_le_ptr cfg
  refine if_neg fun hread => ?_
  exact hb.not_accessible (by omega) (by omega) (hread 0 (by omega))

theorem free_gone (hb : Gone cfg h b) : free cfg h (b.ptr cfg) = .fault := by
  rw [free, if_neg (Nat.ne_of_gt (b.ptr_pos cfg)), hb.load_canary, Outcome.fault_bind]

end AflPlusPlus.Dislocator
