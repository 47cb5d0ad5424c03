import AflPlusPlus.Lib.Tally
import Mathlib.Data.List.Nodup

/-!
# Elements from a fixed buffer

`PRE_ALLOC`, `PRE_ALLOC_FORCE` and `PRE_FREE` of `afl-prealloc.h`, as `list.h` uses them: elements
come from a buffer of 64 as long as one is free, and from `malloc` otherwise. An address is a place
in the buffer or a block of the heap. A program that stops in `FATAL`, or that uses an address which
is not in use, ends in an error.
-/

namespace AflPlusPlus.Alloc
open Lib

def listPreallocSize : ℕ := 64

inductive PreStatus
  | unused
  | used
  | malloc
deriving DecidableEq

inductive Addr
  | pool (i : ℕ)
  | heap (a : ℕ)
deriving DecidableEq

/-- `element_t`; the data is an address of the caller, 0 for `NULL`. -/
structure Element where
  preStatus : PreStatus
  prev : Option Addr
  next : Option Addr
  data : ℕ

def Element.withStatus (st : PreStatus) (el : Element) : Element := { el with preStatus := st }

/-- `list_t` with the blocks of the heap that are in use and the number of calls of `malloc`. -/
structure ListT where
  mem : Addr → Element
  live : List ℕ
  mallocs : ℕ
  elementPreallocCount : ℤ

/-- What `malloc` returns in its `t`-th call, when the blocks `live` are in use: nothing, or a block
that is not in use. -/
structure Malloc where
  choose : ℕ → List ℕ → Option ℕ
  fresh : ∀ t live a, choose t live = some a → a ∉ live

namespace ListT

variable (s : ListT)

def valid : Addr → Bool
  | .pool i => decide (i < listPreallocSize)
  | .heap a => decide (a ∈ s.live)

/-- The list after a write to the element at `a`. -/
def put (a : Addr) (f : Element → Element) : ListT :=
  { s with mem := Function.update s.mem a (f (s.mem a)) }

def load : Option Addr → Except String Element
  | none => .error "null pointer"
  | some a => if s.valid a then .ok (s.mem a) else .error "invalid address"

def write (p : Option Addr) (f : Element → Element) : Except String ListT :=
  match p with
  | none => .error "null pointer"
  | some a => if s.valid a then .ok (s.put a f) else .error "invalid address"

def free : Addr → Except String ListT
  | .pool _ => .error "invalid free"
  | .heap a => .ok { s with live := s.live.filter (· ≠ a) }

/-- `PRE_ALLOC(el_box, list->element_prealloc_buf, LIST_PREALLOC_SIZE, …)`. The search ends at the
last element of the buffer when none is free. -/
def preAlloc (m : Malloc) : Except String (Addr × ListT) :=
  if s.elementPreallocCount ≥ listPreallocSize then
    match m.choose s.mallocs s.live with
    | none => .error "error in list.h -> out of memory for element!"
    | some a =>
      .ok (.heap a, { s with live := a :: s.live, mallocs := s.mallocs + 1 }.put (.heap a)
        (Element.withStatus .malloc))
  else
    match (List.range listPreallocSize).find? fun i => (s.mem (.pool i)).preStatus = .unused with
    | none => .ok (.pool (listPreallocSize - 1), s)
    | some i =>
      .ok (.pool i, { s with elementPreallocCount := s.elementPreallocCount + 1 }.put (.pool i)
        (Element.withStatus .used))

def preAllocForce (a : Addr) : Except String ListT :=
  if (s.mem a).preStatus ≠ .unused then .error "PRE_ALLOC_FORCE element already allocated"
  else
    .ok ({ s with elementPreallocCount := s.elementPreallocCount + 1 }.put a
        (Element.withStatus .used))

def preFree (a : Addr) : Except String ListT := do
  let el ← s.load (some a)
  match el.preStatus with
  | .used =>
    let s ← s.write (some a) (Element.withStatus .unused)
    let s := { s with elementPreallocCount := s.elementPreallocCount - 1 }
    if s.elementPreallocCount < 0 then .error "Inconsistent data in PRE_FREE" else .ok s
  | .malloc =>
    let s ← s.write (some a) (Element.withStatus .unused)
    s.free a
  | .unused => .error "Double Free Detected"

end ListT

/-! ### Elements in use -/

/-- The elements `used` are handed out, each once, and nothing else of the buffer is. -/
structure Owns (s : ListT) (used : List Addr) : Prop where
  nodup : used.Nodup
  valid : ∀ a ∈ used, s.valid a = true
  poolStatus : ∀ i < listPreallocSize,
    (s.mem (.pool i)).preStatus = if .pool i ∈ used then .used else .unused
  heapStatus : ∀ a, .heap a ∈ used → (s.mem (.heap a)).preStatus = .malloc
  count : s.elementPreallocCount =
    tally listPreallocSize (· = PreStatus.used) fun i => (s.mem (.pool i)).preStatus

/-- Links and data of all elements are the same. -/
structure SameLinks (s s' : ListT) : Prop where
  next : ∀ a, (s'.mem a).next = (s.mem a).next
  prev : ∀ a, (s'.mem a).prev = (s.mem a).prev
  data : ∀ a, (s'.mem a).data = (s.mem a).data

section Owns

variable {s : ListT} {used used' : List Addr} {a b : Addr} {f : Element → Element}

theorem ListT.mem_put : (s.put a f).mem b = if b = a then f (s.mem a) else s.mem b := by
  by_cases h : b = a
  · rw [if_pos h, h]
    exact Function.update_self a _ _
  · rw [if_neg h]
    exact Function.update_of_ne h _ _

theorem ListT.valid_put : (s.put a f).valid b = s.valid b := by cases b <;> rfl

theorem ListT.load_ok (h : s.valid a = true) : s.load (some a) = .ok (s.mem a) := if_pos h

theorem ListT.write_ok (h : s.valid a = true) : s.write (some a) f = .ok (s.put a f) := if_pos h

theorem ListT.status_put_pool (s : ListT) (i : ℕ) (f : Element → Element) :
    (fun j => ((s.put (.pool i) f).mem (.pool j)).preStatus) =
      Function.update (fun j => (s.mem (.pool j)).preStatus) i (f (s.mem (.pool i))).preStatus := by
  funext j
  rw [ListT.mem_put, Function.update_apply]
  by_cases h : j = i
  · rw [if_pos (congrArg Addr.pool h), if_pos h]
  · rw [if_neg fun he => h (Addr.pool.inj he), if_neg h]

theorem ListT.status_put_heap (s : ListT) (i j : ℕ) (f : Element → Element) :
    ((s.put (.heap i) f).mem (.pool j)).preStatus = (s.mem (.pool j)).preStatus := by
  rw [ListT.mem_put, if_neg fun h => by cases h]

theorem ListT.next_put (hf : ∀ el, (f el).next = el.next) :
    ((s.put a f).mem b).next = (s.mem b).next := by
  rw [ListT.mem_put]
  split
  · next hb => rw [hf, hb]
  · rfl

theorem ListT.prev_put (hf : ∀ el, (f el).prev = el.prev) :
    ((s.put a f).mem b).prev = (s.mem b).prev := by
  rw [ListT.mem_put]
  split
  · next hb => rw [hf, hb]
  · rfl

theorem ListT.data_put (hf : ∀ el, (f el).data = el.data) :
    ((s.put a f).mem b).data = (s.mem b).data := by
  rw [ListT.mem_put]
  split
  · next hb => rw [hf, hb]
  · rfl

/-- Only the status of one element has changed. -/
theorem sameLinks_of_status {s' : ListT} {st : PreStatus}
    (hmem : s'.mem = (s.put a (Element.withStatus st)).mem) : SameLinks s s' := by
  refine ⟨fun b => ?_, fun b => ?_, fun b => ?_⟩ <;> rw [hmem]
  · exact ListT.next_put fun el => rfl
  · exact ListT.prev_put fun el => rfl
  · exact ListT.data_put fun el => rfl

/-- The order does not matter. -/
theorem Owns.perm (h : Owns s used) (hperm : used.Perm used') : Owns s used' where
  nodup := hperm.nodup_iff.mp h.nodup
  valid a ha := h.valid a (hperm.mem_iff.mpr ha)
  poolStatus i hi := by
    rw [h.poolStatus i hi]
    simp only [hperm.mem_iff]
  heapStatus a ha := h.heapStatus a (hperm.mem_iff.mpr ha)
  count := h.count

/-- A write to links or data. -/
theorem Owns.put (h : Owns s used) (a : Addr) (hf : ∀ el, (f el).preStatus = el.preStatus) :
    Owns (s.put a f) used := by
  have hstatus (b : Addr) : ((s.put a f).mem b).preStatus = (s.mem b).preStatus := by
    rw [ListT.mem_put]
    split
    · next hb => rw [hb, hf]
    · rfl
  refine ⟨h.nodup, fun b hb => ?_, fun i hi => ?_, fun b hb => ?_, ?_⟩
  · rw [ListT.valid_put, h.valid b hb]
  · rw [hstatus, h.poolStatus i hi]
  · rw [hstatus, h.heapStatus b hb]
  · simp only [hstatus]
    exact h.count

theorem Owns.not_mem_of_unused (h : Owns s used) {i : ℕ} (hi : i < listPreallocSize)
    (hfree : (s.mem (.pool i)).preStatus = .unused) : Addr.pool i ∉ used := by
  intro hmem
  have hstatus := h.poolStatus i hi
  rw [if_pos hmem, hfree] at hstatus
  cases hstatus

/-- A fresh block of the heap. -/
theorem Owns.malloc (h : Owns s used) {a : ℕ} (ha : a ∉ s.live) :
    Addr.heap a ∉ used ∧
      Owns ({ s with live := a :: s.live, mallocs := s.mallocs + 1 }.put (.heap a)
        (Element.withStatus .malloc)) (.heap a :: used) := by
  have hmem : Addr.heap a ∉ used := fun hin => ha (of_decide_eq_true (h.valid _ hin))
  refine ⟨hmem, List.nodup_cons.mpr ⟨hmem, h.nodup⟩, ?_, fun i hi => ?_, ?_, ?_⟩
  · intro b hb
    rw [ListT.valid_put]
    rcases List.mem_cons.mp hb with rfl | hb
    · exact decide_eq_true List.mem_cons_self
    · have hvalid := h.valid b hb
      cases b with
      | pool i => exact hvalid
      | heap b => exact decide_eq_true (List.mem_cons_of_mem a (of_decide_eq_true hvalid))
  · rw [ListT.status_put_heap]
    simpa using h.poolStatus i hi
  · intro b hb
    rw [ListT.mem_put]
    split
    · rfl
    · next hne => exact h.heapStatus b ((List.mem_cons.mp hb).resolve_left hne)
  · simp only [ListT.status_put_heap]
    exact h.count

/-- One element of the buffer changes hands. -/
theorem Owns.poolStatus_put (h : Owns s used) {i : ℕ} {st : PreStatus}
    (hother : ∀ j ≠ i, .pool j ∈ used' ↔ .pool j ∈ used)
    (hst : st = if .pool i ∈ used' then .used else .unused) :
    ∀ j < listPreallocSize, ((s.put (.pool i) (Element.withStatus st)).mem (.pool j)).preStatus =
      if .pool j ∈ used' then .used else .unused := by
  intro j hj
  rw [ListT.mem_put]
  by_cases hji : j = i
  · rw [if_pos (congrArg Addr.pool hji), hji, ← hst]
    rfl
  · rw [if_neg fun he => hji (Addr.pool.inj he), h.poolStatus j hj]
    simp only [hother j hji]

/-- A free element of the buffer. -/
theorem Owns.take (h : Owns s used) {i : ℕ} (hi : i < listPreallocSize)
    (hfree : (s.mem (.pool i)).preStatus = .unused) :
    Addr.pool i ∉ used ∧
      Owns ({ s with elementPreallocCount := s.elementPreallocCount + 1 }.put (.pool i)
        (Element.withStatus .used)) (.pool i :: used) := by
  have hmem := h.not_mem_of_unused hi hfree
  refine ⟨hmem, List.nodup_cons.mpr ⟨hmem, h.nodup⟩, ?_, ?_, fun b hb => ?_, ?_⟩
  · intro b hb
    rw [ListT.valid_put]
    rcases List.mem_cons.mp hb with rfl | hb
    · exact decide_eq_true hi
    · exact h.valid b hb
  · exact h.poolStatus_put (fun j hj => by simp [hj]) (if_pos List.mem_cons_self).symm
  · rw [ListT.mem_put, if_neg fun he => by cases he]
    exact h.heapStatus b ((List.mem_cons.mp hb).resolve_left fun he => by cases he)
  · rw [ListT.status_put_pool]
    have hupd := tally_update (p := (· = PreStatus.used))
      (fun j => (s.mem (.pool j)).preStatus) PreStatus.used hi
    rw [hfree] at hupd
    show s.elementPreallocCount + 1 = _
    rw [h.count]
    exact_mod_cast hupd.symm

/-- As long as the counter is below the size of the buffer, one of its elements is free. -/
theorem Owns.exists_free (h : Owns s used) (hcount : s.elementPreallocCount < listPreallocSize) :
    ∃ i < listPreallocSize, (s.mem (.pool i)).preStatus = .unused := by
  by_contra hall
  push Not at hall
  have hused : ∀ i ∈ Finset.range listPreallocSize, (s.mem (.pool i)).preStatus = .used := by
    intro i hi
    have hstatus := h.poolStatus i (Finset.mem_range.mp hi)
    split at hstatus
    · exact hstatus
    · exact absurd hstatus (hall i (Finset.mem_range.mp hi))
  have hfull := h.count
  rw [tally, Finset.filter_true_of_mem hused, Finset.card_range] at hfull
  omega

/-- An element is handed out that was not in use. -/
theorem Owns.preAlloc (h : Owns s used) {m : Malloc}
    (hm : s.elementPreallocCount ≥ listPreallocSize → (m.choose s.mallocs s.live).isSome = true) :
    ∃ a s', s.preAlloc m = .ok (a, s') ∧ a ∉ used ∧ Owns s' (a :: used) ∧ SameLinks s s' := by
  by_cases hfull : s.elementPreallocCount ≥ listPreallocSize
  · obtain ⟨a, ha⟩ := Option.isSome_iff_exists.mp (hm hfull)
    obtain ⟨hmem, hown⟩ := h.malloc (m.fresh _ _ _ ha)
    refine ⟨.heap a, _, ?_, hmem, hown, sameLinks_of_status rfl⟩
    rw [ListT.preAlloc, if_pos hfull, ha]
  · obtain ⟨j, hj, hjfree⟩ := h.exists_free (by omega)
    have hsome : ((List.range listPreallocSize).find?
        fun i => (s.mem (.pool i)).preStatus = .unused).isSome := by
      rw [List.find?_isSome]
      exact ⟨j, List.mem_range.mpr hj, decide_eq_true hjfree⟩
    obtain ⟨i, hi⟩ := Option.isSome_iff_exists.mp hsome
    have hilt := List.mem_range.mp (List.mem_of_find?_eq_some hi)
    have hifree : (s.mem (.pool i)).preStatus = .unused := by
      simpa using List.find?_some hi
    obtain ⟨hmem, hown⟩ := h.take hilt hifree
    refine ⟨.pool i, _, ?_, hmem, hown, sameLinks_of_status rfl⟩
    rw [ListT.preAlloc, if_neg hfull, hi]

theorem Owns.not_mem_of_preAlloc (h : Owns s used) {m : Malloc} {s' : ListT}
    (ha : s.preAlloc m = .ok (a, s')) : a ∉ used := by
  have hm : s.elementPreallocCount ≥ listPreallocSize →
      (m.choose s.mallocs s.live).isSome = true := by
    intro hfull
    rw [ListT.preAlloc, if_pos hfull] at ha
    cases hc : m.choose s.mallocs s.live with
    | none =>
      rw [hc] at ha
      cases ha
    | some b => rfl
  obtain ⟨b, t, hb, hmem, -⟩ := h.preAlloc hm
  obtain ⟨rfl, -⟩ := Prod.mk.inj (Except.ok.inj (hb.symm.trans ha))
  exact hmem

/-- An element of the buffer is given back. -/
theorem Owns.release {i : ℕ} (h : Owns s (.pool i :: used)) :
    0 < s.elementPreallocCount ∧
      Owns { s.put (.pool i) (Element.withStatus .unused) with
        elementPreallocCount := s.elementPreallocCount - 1 } used := by
  obtain ⟨hmem, hnodup⟩ := List.nodup_cons.mp h.nodup
  have hi : i < listPreallocSize := of_decide_eq_true (h.valid _ List.mem_cons_self)
  have hstatus : (s.mem (.pool i)).preStatus = .used := by
    rw [h.poolStatus i hi, if_pos List.mem_cons_self]
  have hupd := tally_update (p := (· = PreStatus.used))
    (fun j => (s.mem (.pool j)).preStatus) PreStatus.unused hi
  rw [hstatus, if_pos rfl, if_neg (by decide)] at hupd
  have hcount := h.count
  refine ⟨by omega, hnodup, fun b hb => ?_, ?_, fun b hb => ?_, ?_⟩
  · have hvalid := h.valid b (List.mem_cons_of_mem _ hb)
    cases b <;> exact hvalid
  · exact h.poolStatus_put (fun j hj => by simp [hj]) (if_neg hmem).symm
  · show ((s.put (.pool i) (Element.withStatus .unused)).mem (.heap b)).preStatus = _
    rw [ListT.mem_put, if_neg fun he => by cases he]
    exact h.heapStatus b (List.mem_cons_of_mem _ hb)
  · show s.elementPreallocCount - 1 =
      tally listPreallocSize _ fun j =>
        ((s.put (.pool i) (Element.withStatus .unused)).mem (.pool j)).preStatus
    rw [ListT.status_put_pool, Element.withStatus]
    dsimp only
    omega

/-- A block of the heap is given back. -/
theorem Owns.unmalloc {a : ℕ} (h : Owns s (.heap a :: used)) :
    Owns { s.put (.heap a) (Element.withStatus .unused) with
      live := s.live.filter (· ≠ a) } used := by
  obtain ⟨hmem, hnodup⟩ := List.nodup_cons.mp h.nodup
  have hne : ∀ b, Addr.heap b ∈ used → b ≠ a := fun b hb heq => hmem (heq ▸ hb)
  refine ⟨hnodup, fun b hb => ?_, fun i hi => ?_, fun b hb => ?_, ?_⟩
  · have hvalid := h.valid b (List.mem_cons_of_mem _ hb)
    cases b with
    | pool i => exact hvalid
    | heap b =>
      refine decide_eq_true (List.mem_filter.mpr ⟨of_decide_eq_true hvalid, ?_⟩)
      exact decide_eq_true (hne b hb)
  · show ((s.put (.heap a) (Element.withStatus .unused)).mem (.pool i)).preStatus = _
    rw [ListT.status_put_heap]
    simpa using h.poolStatus i hi
  · show ((s.put (.heap a) (Element.withStatus .unused)).mem (.heap b)).preStatus = _
    rw [ListT.mem_put, if_neg fun he => hne b hb (Addr.heap.inj he)]
    exact h.heapStatus b (List.mem_cons_of_mem _ hb)
  · show s.elementPreallocCount =
      tally listPreallocSize _ fun j =>
        ((s.put (.heap a) (Element.withStatus .unused)).mem (.pool j)).preStatus
    simp only [ListT.status_put_heap]
    exact h.count

/-- An element in use is given back. -/
theorem Owns.preFree (h : Owns s (a :: used)) :
    ∃ s', s.preFree a = .ok s' ∧ Owns s' used ∧ SameLinks s s' := by
  have hvalid := h.valid a List.mem_cons_self
  rw [ListT.preFree, ListT.load_ok hvalid]
  cases a with
  | pool i =>
    obtain ⟨hpos, hown⟩ := h.release
    have hstatus : (s.mem (.pool i)).preStatus = .used := by
      rw [h.poolStatus i (of_decide_eq_true hvalid), if_pos List.mem_cons_self]
    refine ⟨_, ?_, hown, sameLinks_of_status rfl⟩
    simp only [hstatus, ListT.write_ok hvalid, bind, Except.bind]
    refine if_neg ?_
    show ¬ s.elementPreallocCount - 1 < 0
    omega
  | heap b =>
    have hstatus := h.heapStatus b List.mem_cons_self
    refine ⟨_, ?_, h.unmalloc, sameLinks_of_status rfl⟩
    simp only [hstatus, ListT.write_ok hvalid, bind, Except.bind]
    rfl

end Owns

end AflPlusPlus.Alloc
