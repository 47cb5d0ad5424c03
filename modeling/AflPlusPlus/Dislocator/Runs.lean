import AflPlusPlus.Dislocator.Heap
import AflPlusPlus.Lib.Reach
import Mathlib.Algebra.BigOperators.Group.List.Basic
import Mathlib.Algebra.GroupWithZero.Nat
import Mathlib.Data.List.Pairwise

/-!
# Programs on libdislocator's heap

A program asks for blocks, gives them back and writes wherever it is let. The kernel puts each block
on pages that were never mapped before. As long as the lengths in front of the live blocks are not
overwritten, the blocks lie apart between pages that cannot be accessed, what was freed stays out of
reach, and what is written through a live pointer is read back.
-/

namespace AflPlusPlus.Dislocator
open Lib PagedMemory

inductive Request
  | malloc (len : ℕ)
  | calloc (elemLen elemCnt : ℕ)
  | memalign (align len : ℕ)
  | alignedAlloc (align len : ℕ)

inductive Resize
  | realloc (len : ℕ)
  | reallocarray (elemLen elemCnt : ℕ)

/-- The length of the block a request gets. -/
def Request.len : Request → ℕ
  | .malloc len => len
  | .calloc elemLen elemCnt => elemLen * elemCnt % 2 ^ 64
  | .memalign align len => alignedLen align len
  | .alignedAlloc align len => alignedLen align len

/-- What the block is filled with. -/
def Request.byte : Request → Byte
  | .malloc _ => allocClobber
  | .calloc _ _ => 0
  | .memalign _ _ => allocClobber
  | .alignedAlloc _ _ => allocClobber

/-- The sizes are those of a `size_t`. -/
def Request.Sized : Request → Prop
  | .malloc len => len < 2 ^ 64
  | .calloc elemLen elemCnt => elemLen < 2 ^ 64 ∧ elemCnt < 2 ^ 64
  | .memalign align len => align < 2 ^ 64 ∧ len < 2 ^ 64
  | .alignedAlloc align len => align < 2 ^ 64 ∧ len < 2 ^ 64

def Resize.len : Resize → ℕ
  | .realloc len => len
  | .reallocarray elemLen elemCnt => elemLen * elemCnt % 2 ^ 64

def Resize.Sized : Resize → Prop
  | .realloc len => len < 2 ^ 64
  | .reallocarray elemLen elemCnt => elemLen < 2 ^ 64 ∧ elemCnt < 2 ^ 64

/-- The blocks the program holds and those it gave back. -/
structure Client where
  heap : Heap
  live : List Block
  freed : List Block

inductive Action
  | request (place : Mapping) (r : Request)
  | resize (place : Mapping) (ptr : ℕ) (r : Resize)
  | free (ptr : ℕ)
  | store (a : ℕ) (v : Byte)

variable (cfg : Config)

def request (place : Mapping) (h : Heap) : Request → Outcome (ℕ × Heap)
  | .malloc len => malloc cfg place h len
  | .calloc elemLen elemCnt => calloc cfg place h elemLen elemCnt
  | .memalign align len => memalign cfg place h align len
  | .alignedAlloc align len => alignedAlloc cfg place h align len

def resize (place : Mapping) (h : Heap) (ptr : ℕ) : Resize → Outcome (ℕ × Heap)
  | .realloc len => realloc cfg place h ptr len
  | .reallocarray elemLen elemCnt => reallocarray cfg place h ptr elemLen elemCnt

/-- The first page `mmap` found. -/
def Mapping.start : Mapping → ℕ
  | .pages page => page
  | .failed => 0
  | .unguarded => 0

namespace Client

/-- The program holds a new block. -/
def adopt (s : Client) (b : Block) (h : Heap) : Client :=
  { s with heap := h, live := b :: s.live }

/-- The program gave a block back. -/
def giveBack (s : Client) (b : Block) (h : Heap) : Client :=
  { heap := h, live := s.live.erase b, freed := b :: s.freed }

/-- What a request answered: nothing, or a block on the pages `mmap` found. -/
def answered (s : Client) (place : Mapping) (len ret : ℕ) (h : Heap) : Client :=
  if ret = 0 then { s with heap := h } else s.adopt ⟨place.start, len⟩ h

/-- The block behind a pointer. -/
def blockAt (s : Client) (ptr : ℕ) : Option Block := s.live.find? fun b => b.ptr cfg = ptr

def released (s : Client) (ptr : ℕ) (h : Heap) : Client :=
  match s.blockAt cfg ptr with
  | some b => s.giveBack b h
  | none => { s with heap := h }

end Client

def step (s : Client) : Action → Outcome Client
  | .request place r => do
    let (ret, h) ← request cfg place s.heap r
    pure (s.answered place r.len ret h)
  | .resize place ptr r => do
    let (ret, h) ← resize cfg place s.heap ptr r
    if ret = 0 then pure { s with heap := h }
    else pure ((s.answered place r.len ret h).released cfg ptr h)
  | .free ptr => do
    let h ← free cfg s.heap ptr
    pure (s.released cfg ptr h)
  | .store a v =>
    if s.heap.pages.Accessible a then
      .ok { s with heap := { s.heap with pages := s.heap.pages.fill a 1 v } }
    else .fault

/-- Nothing is mapped on the pages of the block. -/
def FreshBlock (m : PagedMemory) (b : Block) : Prop := ∀ p, b.Owns cfg p → m.mapped p = false

/-- `mmap` finds pages that nothing is mapped on. -/
def Fresh (m : PagedMemory) (place : Mapping) (len : ℕ) : Prop :=
  ∀ page, place = .pages page → FreshBlock cfg m ⟨page, len⟩

/-- The null pointer, or the pointer of a block that is live or was freed. -/
def Known (s : Client) (ptr : ℕ) : Prop :=
  ptr = 0 ∨ ∃ b, (b ∈ s.live ∨ b ∈ s.freed) ∧ b.ptr cfg = ptr

/-- The length in front of no live block is written. -/
def Admissible (s : Client) : Action → Prop
  | .request place r => r.Sized ∧ Fresh cfg s.heap.pages place r.len
  | .resize place ptr r => r.Sized ∧ Fresh cfg s.heap.pages place r.len ∧ Known cfg s ptr
  | .free ptr => Known cfg s ptr
  | .store a _ => ∀ b ∈ s.live, ¬ (b.ptr cfg ≤ a + 8 ∧ a + 4 < b.ptr cfg)

theorem freshBlock_iff (m : PagedMemory) (b : Block) : FreshBlock cfg m b ↔
    ∀ i ∈ List.range (b.pages cfg + 1), m.mapped (b.page + i) = false := by
  constructor
  · intro hfresh i hi
    exact hfresh _ ⟨Nat.le_add_right .., Nat.add_lt_add_left (List.mem_range.mp hi) _⟩
  · intro hall p hp
    have hfree := hall (p - b.page) (List.mem_range.mpr (Nat.sub_lt_left_of_lt_add hp.1 hp.2))
    rwa [Nat.add_sub_cancel' hp.1] at hfree

instance (m : PagedMemory) (b : Block) : Decidable (FreshBlock cfg m b) :=
  decidable_of_iff _ (freshBlock_iff cfg m b).symm

instance (m : PagedMemory) (len : ℕ) : (place : Mapping) → Decidable (Fresh cfg m place len)
  | .failed => .isTrue nofun
  | .unguarded => .isTrue nofun
  | .pages page =>
    decidable_of_iff (FreshBlock cfg m ⟨page, len⟩)
      ⟨fun hfree _ heq => Mapping.pages.inj heq ▸ hfree, fun hfresh => hfresh page rfl⟩

instance (s : Client) (ptr : ℕ) : Decidable (Known cfg s ptr) :=
  decidable_of_iff (ptr = 0 ∨ ∃ b ∈ s.live ++ s.freed, b.ptr cfg = ptr)
    (or_congr Iff.rfl (by simp only [List.mem_append]))

instance : (r : Request) → Decidable r.Sized
  | .malloc len => inferInstanceAs (Decidable (len < 2 ^ 64))
  | .calloc elemLen elemCnt => inferInstanceAs (Decidable (elemLen < 2 ^ 64 ∧ elemCnt < 2 ^ 64))
  | .memalign align len => inferInstanceAs (Decidable (align < 2 ^ 64 ∧ len < 2 ^ 64))
  | .alignedAlloc align len => inferInstanceAs (Decidable (align < 2 ^ 64 ∧ len < 2 ^ 64))

instance : (r : Resize) → Decidable r.Sized
  | .realloc len => inferInstanceAs (Decidable (len < 2 ^ 64))
  | .reallocarray elemLen elemCnt =>
    inferInstanceAs (Decidable (elemLen < 2 ^ 64 ∧ elemCnt < 2 ^ 64))

instance (s : Client) : (a : Action) → Decidable (Admissible cfg s a)
  | .request _ _ => inferInstanceAs (Decidable (_ ∧ _))
  | .resize _ _ _ => inferInstanceAs (Decidable (_ ∧ _ ∧ _))
  | .free _ => inferInstanceAs (Decidable (Known ..))
  | .store _ _ => inferInstanceAs (Decidable (∀ b ∈ s.live, ¬ (_ ∧ _)))

/-- A program that has not used the heap yet. -/
def startClient (pages : PagedMemory) : Client where
  heap := { pages := pages, totalMem := 0 }
  live := []
  freed := []

def Apart (b b' : Block) : Prop := ∀ p, b.Owns cfg p → ¬ b'.Owns cfg p

structure Inv (s : Client) : Prop where
  apart : (s.live ++ s.freed).Pairwise (Apart cfg)
  mapped : ∀ b ∈ s.live ++ s.freed, ∀ p, b.Owns cfg p → s.heap.pages.mapped p = true
  usable : ∀ b ∈ s.live, ∀ p, OneOf b.page (b.pages cfg) p → s.heap.pages.usable p = true
  guarded : ∀ b ∈ s.live ++ s.freed, s.heap.pages.usable (b.page + b.pages cfg) = false
  gone : ∀ b ∈ s.freed, Gone cfg s.heap b
  header : ∀ b ∈ s.live, s.heap.pages.load32 (b.ptr cfg - 8) = BitVec.ofNat 32 b.len
  total : s.heap.totalMem = (s.live.map Block.len).sum
  within : s.heap.totalMem ≤ cfg.maxMem

variable {cfg} {s t : Client} {a : Action} {b b' : Block} {h h' : Heap} {place : Mapping}
  {len ret ptr i : ℕ} {v : Byte}

theorem released_eq (hat : s.blockAt cfg ptr = some b) : s.released cfg ptr h = s.giveBack b h := by
  rw [Client.released, hat]

/-- Which block a pointer leads to is not read from the memory. -/
theorem blockAt_adopt {k : Heap} : (s.adopt b h).blockAt cfg ptr = (s.adopt b k).blockAt cfg ptr :=
  rfl

theorem giveBack_adopt {k : Heap} :
    (s.adopt b' k).giveBack b h = (s.adopt b' h').giveBack b h := rfl

theorem Apart.symm (hb : Apart cfg b b') : Apart cfg b' b := fun p hp hp' => hb p hp' hp

instance : Std.Symm (Apart cfg) := ⟨fun _ _ => Apart.symm⟩

/-- The length of a block counts among the lengths. -/
theorem sum_erase {live : List Block} (hb : b ∈ live) :
    (live.map Block.len).sum = b.len + ((live.erase b).map Block.len).sum :=
  ((List.perm_cons_erase hb).map Block.len).sum_eq

namespace Inv

theorem start (pages : PagedMemory) : Inv cfg (startClient pages) where
  apart := List.Pairwise.nil
  mapped := fun _ hb => absurd hb List.not_mem_nil
  usable := fun _ hb => absurd hb List.not_mem_nil
  guarded := fun _ hb => absurd hb List.not_mem_nil
  gone := fun _ hb => absurd hb List.not_mem_nil
  header := fun _ hb => absurd hb List.not_mem_nil
  total := rfl
  within := Nat.zero_le _

/-- Two blocks are the same or lie apart. -/
theorem eq_or_apart (hi : Inv cfg s) (hb : b ∈ s.live ++ s.freed) (hb' : b' ∈ s.live ++ s.freed) :
    b = b' ∨ Apart cfg b b' := by
  by_cases heq : b = b'
  · exact .inl heq
  · exact .inr (hi.apart.forall hb hb' heq)

theorem len_le (hi : Inv cfg s) (hb : b ∈ s.live) : b.len ≤ s.heap.totalMem := by
  rw [hi.total, sum_erase hb]
  exact Nat.le_add_right ..

theorem live (hi : Inv cfg s) (hmax : cfg.maxMem + 4120 ≤ 2 ^ 32) (hb : b ∈ s.live) :
    Live cfg s.heap b := by
  have hlen := hi.len_le hb
  have hwithin := hi.within
  exact
    { mapped := fun p hp =>
        hi.mapped b (List.mem_append_left _ hb) p (Block.owns_of_pages hp)
      usable := hi.usable b hb
      header := hi.header b hb
      bound := by omega
      counted := hlen
      total := by omega }

/-- A pointer leads to one block. -/
theorem blockAt (hi : Inv cfg s) (hb : b ∈ s.live) : s.blockAt cfg (b.ptr cfg) = some b := by
  rw [Client.blockAt]
  cases hfind : s.live.find? fun b' => b'.ptr cfg = b.ptr cfg with
  | none =>
    have := List.find?_eq_none.mp hfind b hb
    simp at this
  | some b' =>
    have hptr : b'.ptr cfg = b.ptr cfg := by simpa using List.find?_some hfind
    obtain rfl | hapart := hi.eq_or_apart (List.mem_append_left _ hb)
      (List.mem_append_left _ (List.mem_of_find?_eq_some hfind))
    · rfl
    · -- the byte before both blocks would lie in the pages of both
      have hpos := b.page_le_ptr cfg
      exact absurd (Block.owns_of_mem (i := b.ptr cfg - 1) (b := b') (by omega) (by omega))
        (hapart _ (Block.owns_of_mem (by omega) (by omega)))

theorem blockAt_null (s : Client) : s.blockAt cfg 0 = none :=
  List.find?_eq_none.mpr fun b _ hb => Nat.ne_of_gt (b.ptr_pos cfg) (of_decide_eq_true hb)

/-- A block on fresh pages is added. -/
theorem adopt (hi : Inv cfg s) (hp : Placed cfg s.heap b v h')
    (hfresh : FreshBlock cfg s.heap.pages b) :
    Inv cfg (s.adopt b h') := by
  have hnot : ∀ b' ∈ s.live ++ s.freed, Apart cfg b b' := by
    intro b' hb' p hown hown'
    have := hi.mapped b' hb' p hown'
    rw [hfresh p hown] at this
    exact Bool.false_ne_true this
  have hkept : ∀ b' ∈ s.live ++ s.freed, ∀ p, b'.Owns cfg p →
      (h'.pages.usable p = true ↔ s.heap.pages.usable p = true) := by
    intro b' hb' p hown'
    have hout : ¬ b.Owns cfg p := fun hown => hnot b' hb' p hown hown'
    rw [hp.usable]
    exact ⟨fun h => (h.resolve_left fun h => hout (Block.owns_of_pages h)).2,
      fun h => .inr ⟨hout, h⟩⟩
  have hunusable : ∀ b' ∈ s.live ++ s.freed, ∀ p, b'.Owns cfg p →
      s.heap.pages.usable p = false → h'.pages.usable p = false := by
    intro b' hb' p hown' hfalse
    rw [← Bool.not_eq_true, hkept b' hb' p hown', hfalse]
    exact Bool.false_ne_true
  exact
    { apart := List.pairwise_cons.mpr ⟨hnot, hi.apart⟩
      mapped := by
        intro b' hb' p hown
        obtain rfl | hb' := List.mem_cons.mp hb'
        · exact (hp.mapped p).mpr (.inl hown)
        · exact (hp.mapped p).mpr (.inr (hi.mapped b' hb' p hown))
      usable := by
        intro b' hb' p hpage
        obtain rfl | hb' := List.mem_cons.mp hb'
        · exact (hp.usable p).mpr (.inl hpage)
        · exact (hkept b' (List.mem_append_left _ hb') p (Block.owns_of_pages hpage)).mpr
            (hi.usable b' hb' p hpage)
      guarded := by
        intro b' hb'
        obtain rfl | hb' := List.mem_cons.mp hb'
        · change h'.pages.usable _ = false
          rw [← Bool.not_eq_true, hp.usable]
          rintro (hpage | ⟨hout, -⟩)
          · exact Nat.lt_irrefl _ hpage.2
          · exact hout Block.owns_guard
        · exact hunusable b' hb' _ Block.owns_guard (hi.guarded b' hb')
      gone := fun b' hb' => ⟨fun p hpage =>
        hunusable b' (List.mem_append_right _ hb') p (Block.owns_of_pages hpage)
          ((hi.gone b' hb').usable p hpage)⟩
      header := by
        intro b' hb'
        obtain rfl | hb' := List.mem_cons.mp hb'
        · exact hp.header
        · have hptr := b'.page_le_ptr cfg
          refine (load32_congr fun i hl hr => hp.frame i fun hown => ?_).trans (hi.header b' hb')
          exact hnot b' (List.mem_append_left _ hb') _ hown
            (Block.owns_of_mem (by omega) (by omega))
      total := by
        change h'.totalMem = ((b :: s.live).map Block.len).sum
        rw [hp.total, hi.total, List.map_cons, List.sum_cons, Nat.add_comm]
      within := by
        change h'.totalMem ≤ cfg.maxMem
        rw [hp.total]
        exact hp.within }

/-- Bytes are written, but no length in front of a live block. -/
theorem write {m : PagedMemory} (hi : Inv cfg s) (hmapped : m.mapped = s.heap.pages.mapped)
    (husable : m.usable = s.heap.pages.usable)
    (hheader : ∀ b ∈ s.live, ∀ i, b.ptr cfg ≤ i + 8 → i + 4 < b.ptr cfg →
      m.mem i = s.heap.pages.mem i) :
    Inv cfg { s with heap := { s.heap with pages := m } } where
  apart := hi.apart
  mapped := fun b hb p hp => (congrFun hmapped p).trans (hi.mapped b hb p hp)
  usable := fun b hb p hp => (congrFun husable p).trans (hi.usable b hb p hp)
  guarded := fun b hb => (congrFun husable _).trans (hi.guarded b hb)
  gone := fun b hb => ⟨fun p hp => (congrFun husable p).trans ((hi.gone b hb).usable p hp)⟩
  header := fun b hb => by
    have hptr := b.page_le_ptr cfg
    exact (load32_congr fun i hl hr => hheader b hb i (by omega) (by omega)).trans
      (hi.header b hb)
  total := hi.total
  within := hi.within

/-- All access to a live block is taken away. -/
theorem giveBack (hi : Inv cfg s) (hb : b ∈ s.live) :
    Inv cfg (s.giveBack b (s.heap.without cfg b)) := by
  have hperm : (s.live ++ s.freed).Perm (s.live.erase b ++ b :: s.freed) :=
    ((List.perm_cons_erase hb).append_right _).trans List.perm_middle.symm
  have hmem : ∀ b', b' ∈ s.live.erase b ++ b :: s.freed → b' ∈ s.live ++ s.freed :=
    fun b' hb' => hperm.symm.subset hb'
  have hapart : (s.live.erase b ++ b :: s.freed).Pairwise (Apart cfg) :=
    (hperm.pairwise_iff Apart.symm).mp hi.apart
  have husable : ∀ p, (s.heap.without cfg b).pages.usable p = true ↔
      ¬ OneOf b.page (b.pages cfg) p ∧ s.heap.pages.usable p = true := fun p => usable_protect
  have hunusable : ∀ p, s.heap.pages.usable p = false →
      (s.heap.without cfg b).pages.usable p = false := by
    intro p hp
    rw [← Bool.not_eq_true, husable, hp]
    exact fun h => Bool.false_ne_true h.2
  exact
    { apart := hapart
      mapped := fun b' hb' p hp => hi.mapped b' (hmem b' hb') p hp
      usable := by
        intro b' hb' p hp
        have hsep : Apart cfg b' b :=
          (List.pairwise_append.mp hapart).2.2 b' hb' b (List.mem_cons_self ..)
        refine (husable p).mpr ⟨fun hown => ?_, hi.usable b' (List.mem_of_mem_erase hb') p hp⟩
        exact hsep p (Block.owns_of_pages hp) (Block.owns_of_pages hown)
      guarded := fun b' hb' => hunusable _ (hi.guarded b' (hmem b' hb'))
      gone := by
        intro b' hb'
        refine ⟨fun p hp => ?_⟩
        obtain rfl | hb' := List.mem_cons.mp hb'
        · change (s.heap.without cfg b').pages.usable p = false
          rw [← Bool.not_eq_true, husable]
          exact fun h => h.1 hp
        · exact hunusable p ((hi.gone b' hb').usable p hp)
      header := fun b' hb' => hi.header b' (List.mem_of_mem_erase hb')
      total := by
        change s.heap.totalMem - b.len = _
        rw [hi.total, sum_erase hb, Nat.add_sub_cancel_left]
        rfl
      within := Nat.le_trans (Nat.sub_le ..) hi.within }

/-- Only bytes of a live block are written. -/
theorem write_block {m : PagedMemory} (hi : Inv cfg s) (hb : b ∈ s.live)
    (hmapped : m.mapped = s.heap.pages.mapped) (husable : m.usable = s.heap.pages.usable)
    (hout : ∀ i, i < b.ptr cfg ∨ b.ptr cfg + b.len ≤ i → m.mem i = s.heap.pages.mem i) :
    Inv cfg { s with heap := { s.heap with pages := m } } := by
  have hlen : b.len ≤ b.rlen cfg := len_le_roundedLen cfg b.len
  refine hi.write hmapped husable fun b' hb' i hl hr => hout i ?_
  by_contra hin
  obtain rfl | hapart :=
    hi.eq_or_apart (List.mem_append_left _ hb) (List.mem_append_left _ hb')
  · omega
  · exact hapart (i / pageSize) (Block.owns_of_mem (by omega) (by omega))
      (Block.owns_of_mem (by omega) (by omega))

end Inv

/-- The old bytes are copied to the new block. -/
def moved (cfg : Config) (h : Heap) (new b : Block) : Heap :=
  { h with pages := h.pages.copy (new.ptr cfg) (b.ptr cfg) (min new.len b.len) }

section
variable {new : Block} {k : Heap}

theorem Inv.moved (hi : Inv cfg (s.adopt new k)) : Inv cfg (s.adopt new (moved cfg k new b)) := by
  have hnew : new ∈ (s.adopt new k).live := List.mem_cons_self ..
  refine hi.write_block (m := k.pages.copy (new.ptr cfg) (b.ptr cfg) (min new.len b.len)) hnew
    mapped_copy usable_copy fun i hout => ?_
  have hmin : min new.len b.len ≤ new.len := Nat.min_le_left ..
  exact mem_copy_of_not (by omega)

/-- A new block changes nothing in a live one. -/
theorem Inv.mem_placed (hi : Inv cfg s) (hp : Placed cfg s.heap new v k)
    (hfresh : FreshBlock cfg s.heap.pages new) (hb : b ∈ s.live)
    (hl : b.ptr cfg ≤ i + 8) (hr : i < b.ptr cfg + b.rlen cfg) :
    k.pages.mem i = s.heap.pages.mem i := by
  refine hp.frame i fun hown => ?_
  have hmapped := hi.mapped b (List.mem_append_left _ hb) _ (Block.owns_of_mem hl hr)
  rw [hfresh _ hown] at hmapped
  exact Bool.false_ne_true hmapped

/-- The copy to a new block changes nothing in a live one. -/
theorem Inv.mem_moved (hi : Inv cfg s) (hp : Placed cfg s.heap new v k)
    (hfresh : FreshBlock cfg s.heap.pages new) (hb : b ∈ s.live)
    (hl : b.ptr cfg ≤ i + 8) (hr : i < b.ptr cfg + b.rlen cfg) :
    (Dislocator.moved cfg k new b').pages.mem i = s.heap.pages.mem i := by
  refine Eq.trans (mem_copy_of_not ?_) (hi.mem_placed hp hfresh hb hl hr)
  have hlen : new.len ≤ new.rlen cfg := len_le_roundedLen cfg new.len
  have hmin : min new.len b'.len ≤ new.len := Nat.min_le_left ..
  by_contra hin
  have hmapped := hi.mapped b (List.mem_append_left _ hb) _ (Block.owns_of_mem hl hr)
  rw [hfresh _ (Block.owns_of_mem (by omega) (by omega))] at hmapped
  exact Bool.false_ne_true hmapped

end

theorem intact_congr {m m' : PagedMemory}
    (h : ∀ i, b.ptr cfg ≤ i + 8 → i < b.ptr cfg + b.rlen cfg →
      i < b.ptr cfg ∨ b.ptr cfg + b.len ≤ i → m'.mem i = m.mem i) :
    Intact cfg m' b ↔ Intact cfg m b := by
  have hptr := b.page_le_ptr cfg
  have hcanary : m'.load32 (b.ptr cfg - 4) = m.load32 (b.ptr cfg - 4) :=
    load32_congr fun i hl hr => h i (by omega) (by omega) (by omega)
  have htail : ∀ i ∈ List.range' b.len (b.rlen cfg - b.len),
      m'.mem (b.ptr cfg + i) = m.mem (b.ptr cfg + i) := by
    intro i hi
    obtain ⟨hl, hr⟩ := List.mem_range'_1.mp hi
    exact h _ (by omega) (by omega) (by omega)
  constructor
  · intro hm
    exact ⟨hcanary.symm.trans hm.canary, fun i hi => (htail i hi).symm.trans (hm.tail i hi)⟩
  · intro hm
    exact ⟨hcanary.trans hm.canary, fun i hi => (htail i hi).trans (hm.tail i hi)⟩

theorem request_ok (hmax : cfg.maxMem < 2 ^ 64) (hi : Inv cfg s) {r : Request} (hr : r.Sized)
    (hok : request cfg place s.heap r = .ok (ret, h')) :
    Answer cfg place s.heap r.len r.byte ret h' := by
  cases r with
  | malloc len => exact malloc_ok hmax hi.within hr hok
  | calloc elemLen elemCnt => exact calloc_ok hmax hi.within hok
  | memalign align len => exact memalign_ok hmax hi.within hr.2 hok
  | alignedAlloc align len => exact alignedAlloc_ok hmax hi.within hr.2 hok

/-- `realloc` of a live block: the new block holds the first bytes of the old one, which is freed
when nothing was written before or behind it. -/
theorem realloc_live (hmax : cfg.maxMem + 4120 ≤ 2 ^ 32) (hi : Inv cfg s) {page : ℕ} {k : Heap}
    (hmalloc : malloc cfg place s.heap len = .ok ((Block.mk page len).ptr cfg, k))
    (hp : Placed cfg s.heap ⟨page, len⟩ allocClobber k)
    (hfresh : FreshBlock cfg s.heap.pages ⟨page, len⟩)
    (hb : b ∈ s.live) :
    realloc cfg place s.heap (b.ptr cfg) len =
      if Intact cfg s.heap.pages b then
        .ok ((Block.mk page len).ptr cfg, (moved cfg k ⟨page, len⟩ b).without cfg b)
      else .abort := by
  have hi' := hi.adopt hp hfresh
  have hlive : Live cfg k b := hi'.live hmax (List.mem_cons_of_mem _ hb)
  have hmoved : Live cfg (moved cfg k ⟨page, len⟩ b) b :=
    hi'.moved.live hmax (List.mem_cons_of_mem _ hb)
  have hplaced : Intact cfg k.pages b ↔ Intact cfg s.heap.pages b :=
    intact_congr fun i hl hr _ => hi.mem_placed hp hfresh hb hl hr
  have hintact : Intact cfg (moved cfg k ⟨page, len⟩ b).pages b ↔ Intact cfg s.heap.pages b :=
    intact_congr fun i hl hr _ => hi.mem_moved hp hfresh hb hl hr
  have hlen : b.len ≤ b.rlen cfg := len_le_roundedLen cfg b.len
  have hmin : min len b.len ≤ b.len := Nat.min_le_right ..
  have hcopy : copyOld k.pages ((Block.mk page len).ptr cfg) (b.ptr cfg) (min len b.len) =
      .ok (moved cfg k ⟨page, len⟩ b).pages :=
    if_pos fun i hi => hlive.accessible (by omega) (by omega)
  rw [realloc, hmalloc, Outcome.ok_bind]
  dsimp only
  rw [if_pos ⟨Nat.ne_of_gt (Block.ptr_pos cfg _), Nat.ne_of_gt (b.ptr_pos cfg)⟩,
    hlive.load_canary, Outcome.ok_bind]
  by_cases hcanary : k.pages.load32 (b.ptr cfg - 4) = cfg.allocCanary
  · rw [if_neg (not_not_intro hcanary), hlive.load_len, Outcome.ok_bind, hlive.toNat_len, hcopy,
      Outcome.ok_bind]
    change (free cfg (moved cfg k ⟨page, len⟩ b) (b.ptr cfg) >>= _) = _
    rw [free_live hmoved]
    by_cases hall : Intact cfg s.heap.pages b
    · rw [if_pos hall, if_pos (hintact.mpr hall)]
      rfl
    · rw [if_neg hall, if_neg fun h => hall (hintact.mp h), Outcome.abort_bind]
  · rw [if_pos hcanary, if_neg fun h => hcanary (hplaced.mpr h).canary]

/-- `realloc` of a block that was freed is a segmentation fault. -/
theorem realloc_gone (hi : Inv cfg s) {page : ℕ} {k : Heap}
    (hmalloc : malloc cfg place s.heap len = .ok ((Block.mk page len).ptr cfg, k))
    (hp : Placed cfg s.heap ⟨page, len⟩ allocClobber k)
    (hfresh : FreshBlock cfg s.heap.pages ⟨page, len⟩)
    (hb : b ∈ s.freed) : realloc cfg place s.heap (b.ptr cfg) len = .fault := by
  have hgone : Gone cfg k b := (hi.adopt hp hfresh).gone b hb
  rw [realloc, hmalloc, Outcome.ok_bind]
  dsimp only
  rw [if_pos ⟨Nat.ne_of_gt (Block.ptr_pos cfg _), Nat.ne_of_gt (b.ptr_pos cfg)⟩,
    hgone.load_canary, Outcome.fault_bind]

theorem realloc_null {k : Heap} (hmalloc : malloc cfg place h len = .ok (ret, k)) :
    realloc cfg place h 0 len = .ok (ret, k) := by
  rw [realloc, hmalloc, Outcome.ok_bind]
  exact if_neg fun h => h.2 rfl

/-- `realloc` leaves everything as it was, or gives a new block; an old block must have been live,
and it is freed when its first bytes have been copied. -/
theorem realloc_ok (hmax : cfg.maxMem + 4120 ≤ 2 ^ 32) (hi : Inv cfg s) (hlen : len < 2 ^ 64)
    (hfresh : Fresh cfg s.heap.pages place len) (hknown : Known cfg s ptr)
    (hok : realloc cfg place s.heap ptr len = .ok (ret, h')) :
    ret = 0 ∧ h' = s.heap ∨
      ∃ page k, place = .pages page ∧ ret = (Block.mk page len).ptr cfg ∧
        Placed cfg s.heap ⟨page, len⟩ allocClobber k ∧
        (ptr = 0 ∧ h' = k ∨
          ∃ b ∈ s.live, b.ptr cfg = ptr ∧ Intact cfg s.heap.pages b ∧
            h' = (moved cfg k ⟨page, len⟩ b).without cfg b) := by
  obtain ⟨⟨r, k⟩, hmalloc, hrest⟩ := Outcome.bind_eq_ok.mp hok
  obtain ⟨⟨rfl, rfl⟩ | ⟨page, hpage, rfl, hp⟩⟩ := malloc_ok (by omega) hi.within hlen hmalloc
  · obtain ⟨rfl, rfl⟩ := Prod.mk.inj (Outcome.ok.inj hrest)
    exact .inl ⟨rfl, rfl⟩
  · refine .inr ⟨page, k, hpage, ?_⟩
    obtain rfl | ⟨b, hb | hb, rfl⟩ := hknown
    · rw [realloc_null hmalloc] at hok
      obtain ⟨rfl, rfl⟩ := Prod.mk.inj (Outcome.ok.inj hok)
      exact ⟨rfl, hp, .inl ⟨rfl, rfl⟩⟩
    · rw [realloc_live hmax hi hmalloc hp (hfresh page hpage) hb] at hok
      split_ifs at hok with hintact
      obtain ⟨rfl, rfl⟩ := Prod.mk.inj (Outcome.ok.inj hok)
      exact ⟨rfl, hp, .inr ⟨b, hb, rfl, hintact, rfl⟩⟩
    · rw [realloc_gone hi hmalloc hp (hfresh page hpage) hb] at hok
      cases hok

theorem resize_ok (hmax : cfg.maxMem + 4120 ≤ 2 ^ 32) (hi : Inv cfg s) {r : Resize}
    (hr : r.Sized) (hfresh : Fresh cfg s.heap.pages place r.len) (hknown : Known cfg s ptr)
    (hok : resize cfg place s.heap ptr r = .ok (ret, h')) :
    ret = 0 ∧ h' = s.heap ∨
      ∃ page k, place = .pages page ∧ ret = (Block.mk page r.len).ptr cfg ∧
        Placed cfg s.heap ⟨page, r.len⟩ allocClobber k ∧
        (ptr = 0 ∧ h' = k ∨
          ∃ b ∈ s.live, b.ptr cfg = ptr ∧ Intact cfg s.heap.pages b ∧
            h' = (moved cfg k ⟨page, r.len⟩ b).without cfg b) := by
  cases r with
  | realloc len => exact realloc_ok hmax hi hr hfresh hknown hok
  | reallocarray elemLen elemCnt =>
    rw [resize, reallocarray] at hok
    split_ifs at hok
    · obtain ⟨rfl, rfl⟩ := Prod.mk.inj (Outcome.ok.inj hok)
      exact .inl ⟨rfl, rfl⟩
    · exact realloc_ok hmax hi (Nat.mod_lt _ (by decide)) hfresh hknown hok

/-- What a request does to the program. -/
theorem request_step (hmax : cfg.maxMem + 4120 ≤ 2 ^ 32) (hi : Inv cfg s) {r : Request}
    (hok : Admissible cfg s (.request place r)) (hstep : step cfg s (.request place r) = .ok t) :
    t = s ∨ ∃ page k, place = .pages page ∧ Placed cfg s.heap ⟨page, r.len⟩ r.byte k ∧
      t = s.adopt ⟨page, r.len⟩ k := by
  obtain ⟨⟨ret, k⟩, hreq, hrest⟩ := Outcome.bind_eq_ok.mp hstep
  obtain rfl := Outcome.ok.inj hrest
  obtain ⟨⟨rfl, rfl⟩ | ⟨page, rfl, rfl, hp⟩⟩ := request_ok (by omega) hi hok.1 hreq
  · exact .inl (if_pos rfl)
  · exact .inr ⟨page, k, rfl, hp, if_neg (Nat.ne_of_gt (Block.ptr_pos cfg _))⟩

/-- What a change of size does. -/
theorem resize_step (hmax : cfg.maxMem + 4120 ≤ 2 ^ 32) (hi : Inv cfg s) {r : Resize}
    (hok : Admissible cfg s (.resize place ptr r))
    (hstep : step cfg s (.resize place ptr r) = .ok t) :
    t = s ∨ ∃ page k, place = .pages page ∧ Placed cfg s.heap ⟨page, r.len⟩ allocClobber k ∧
      (ptr = 0 ∧ t = s.adopt ⟨page, r.len⟩ k ∨
        ∃ b ∈ s.live, b.ptr cfg = ptr ∧ Intact cfg s.heap.pages b ∧
          t = (s.adopt ⟨page, r.len⟩ (moved cfg k ⟨page, r.len⟩ b)).giveBack b
            ((moved cfg k ⟨page, r.len⟩ b).without cfg b)) := by
  obtain ⟨hr, hfresh, hknown⟩ := hok
  obtain ⟨⟨ret, h⟩, hres, hrest⟩ := Outcome.bind_eq_ok.mp hstep
  obtain ⟨rfl, rfl⟩ | ⟨page, k, rfl, rfl, hp, hold⟩ := resize_ok hmax hi hr hfresh hknown hres
  · obtain rfl := Outcome.ok.inj hrest
    exact .inl rfl
  · refine .inr ⟨page, k, rfl, hp, ?_⟩
    dsimp only at hrest
    have hptr : (Block.mk page r.len).ptr cfg ≠ 0 := Nat.ne_of_gt (Block.ptr_pos cfg _)
    rw [if_neg hptr, Client.answered, if_neg hptr, Mapping.start] at hrest
    obtain rfl := Outcome.ok.inj hrest
    obtain ⟨rfl, rfl⟩ | ⟨b, hb, rfl, hintact, rfl⟩ := hold
    · rw [Client.released, Inv.blockAt_null]
      exact .inl ⟨rfl, rfl⟩
    · have hi' := (hi.adopt hp (hfresh page rfl)).moved (b := b)
      have hat := hi'.blockAt (List.mem_cons_of_mem _ hb)
      exact .inr ⟨b, hb, rfl, hintact,
        (released_eq (blockAt_adopt.trans hat)).trans giveBack_adopt⟩

theorem free_step (hmax : cfg.maxMem + 4120 ≤ 2 ^ 32) (hi : Inv cfg s)
    (hok : Admissible cfg s (.free ptr)) (hstep : step cfg s (.free ptr) = .ok t) :
    ptr = 0 ∧ t = s ∨ ∃ b ∈ s.live, b.ptr cfg = ptr ∧ Intact cfg s.heap.pages b ∧
      t = s.giveBack b (s.heap.without cfg b) := by
  obtain ⟨h, hfree, hrest⟩ := Outcome.bind_eq_ok.mp hstep
  obtain rfl := Outcome.ok.inj hrest
  obtain rfl | ⟨b, hb | hb, rfl⟩ := hok
  · obtain rfl : s.heap = h := Outcome.ok.inj hfree
    rw [Client.released, Inv.blockAt_null]
    exact .inl ⟨rfl, rfl⟩
  · rw [free_live (hi.live hmax hb)] at hfree
    split_ifs at hfree with hintact
    obtain rfl := Outcome.ok.inj hfree
    exact .inr ⟨b, hb, rfl, hintact, released_eq (hi.blockAt hb)⟩
  · rw [free_gone (hi.gone b hb)] at hfree
    cases hfree

theorem store_step {a : ℕ} (hstep : step cfg s (.store a v) = .ok t) :
    s.heap.pages.Accessible a ∧
      t = { s with heap := { s.heap with pages := s.heap.pages.fill a 1 v } } := by
  rw [step] at hstep
  split_ifs at hstep with hacc
  exact ⟨hacc, (Outcome.ok.inj hstep).symm⟩

/-- The step function of the runs: a program that is stopped takes no step. -/
def run (cfg : Config) (s : Client) (a : Action) : Option Client := (step cfg s a).toOption

theorem Inv.step (hmax : cfg.maxMem + 4120 ≤ 2 ^ 32) (hi : Inv cfg s) (hok : Admissible cfg s a)
    (hstep : step cfg s a = .ok t) : Inv cfg t := by
  cases a with
  | request place r =>
    obtain rfl | ⟨page, k, rfl, hp, rfl⟩ := request_step hmax hi hok hstep
    · exact hi
    · exact hi.adopt hp (hok.2 page rfl)
  | resize place ptr r =>
    obtain rfl | ⟨page, k, rfl, hp, ⟨-, rfl⟩ | ⟨b, hb, -, -, rfl⟩⟩ :=
      resize_step hmax hi hok hstep
    · exact hi
    · exact hi.adopt hp (hok.2.1 page rfl)
    · exact (hi.adopt hp (hok.2.1 page rfl)).moved.giveBack (List.mem_cons_of_mem _ hb)
  | free ptr =>
    obtain ⟨-, rfl⟩ | ⟨b, hb, -, -, rfl⟩ := free_step hmax hi hok hstep
    · exact hi
    · exact hi.giveBack hb
  | store a v =>
    obtain ⟨-, rfl⟩ := store_step hstep
    refine hi.write mapped_fill usable_fill fun b hb i hl hr => mem_fill_of_not ?_
    have hout := hok b hb
    omega

theorem inv_of_reaches {pages : PagedMemory} (hmax : cfg.maxMem + 4120 ≤ 2 ^ 32)
    (h : Reaches (run cfg) (Admissible cfg) (startClient pages) s) : Inv cfg s :=
  h.invariant (Inv.start pages) fun _ _ _ hi hok hstep =>
    hi.step hmax hok (Outcome.toOption_eq_some.mp hstep)

/-! ### A run -/

def sampleConfig : Config where
  maxMem := 64
  hardFail := false
  noCallocOver := true
  alignAllocations := true
  allocCanary := 0xAACCAACC

def blank : PagedMemory where
  mem := fun _ => 0
  mapped := fun _ => false
  usable := fun _ => false

/-- A block grows after its first byte was written, another is freed, and a third is asked for. -/
def sampleActions : List Action :=
  [.request (.pages 1) (.malloc 5), .store 8176 7, .request (.pages 4) (.calloc 3 4),
    .resize (.pages 8) 8176 (.realloc 9), .free 20464,
    .request (.pages 12) (.memalign 8 3)]

def sampleClient : Client :=
  (exec (run sampleConfig) (Admissible sampleConfig) (startClient blank) sampleActions).getD
    (startClient blank)

theorem sampleClient_reaches :
    Reaches (run sampleConfig) (Admissible sampleConfig) (startClient blank) sampleClient :=
  reaches_exec (by decide)

end AflPlusPlus.Dislocator
