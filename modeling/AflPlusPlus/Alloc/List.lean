import AflPlusPlus.Alloc.Prealloc
import AflPlusPlus.Lib.CyclicList

/-!
# The linked list

`list.h`: a ring through the first element of the buffer, over elements of the buffer and of the
heap. The block of a pass is given by what it does at each element; a block that returns ends the
pass and the function around it.
-/

namespace AflPlusPlus.Alloc
open Lib

def getHead : Addr := .pool 0

def Element.withNext (p : Option Addr) (el : Element) : Element := { el with next := p }

def Element.withPrev (p : Option Addr) (el : Element) : Element := { el with prev := p }

def Element.withData (x : ℕ) (el : Element) : Element := { el with data := x }

namespace ListT

variable (s : ListT)

/-- `memset(list, 0, sizeof(list_t))`. -/
def clear : ListT :=
  { s with
    mem := fun a =>
      match a with
      | .pool i => if i < listPreallocSize then ⟨.unused, none, none, 0⟩ else s.mem a
      | .heap _ => s.mem a
    elementPreallocCount := 0 }

def init : Except String ListT := do
  let s ← s.clear.preAllocForce getHead
  let s ← s.write (some getHead) (Element.withPrev (some getHead))
  s.write (some getHead) (Element.withNext (some getHead))

def listAppend (m : Malloc) (x : ℕ) : Except String ListT := do
  let head ← s.load (some getHead)
  let s ← if head.next = none then s.init else .ok s
  let (elBox, s) ← s.preAlloc m
  let s ← s.write (some elBox) (Element.withData x)
  let s ← s.write (some elBox) (Element.withNext (some getHead))
  let head ← s.load (some getHead)
  let s ← s.write (some elBox) (Element.withPrev head.prev)
  let head ← s.load (some getHead)
  let s ← s.write head.prev (Element.withNext (some elBox))
  s.write (some getHead) (Element.withPrev (some elBox))

/-- The block at the `k`-th element of a pass, with `el`, `el_box` and `next`; it also says whether
the block returns. -/
abbrev Block := ℕ → ℕ → Addr → Option Addr → ListT → Except String (ListT × Bool)

/-- The loop of `LIST_FOREACH` from an element on; the elements whose data was passed to the block,
and whether the block returned. -/
def foreachFrom (block : Block) : ℕ → ℕ → Option Addr → ListT →
    Except String (ListT × List ℕ × Bool)
  | 0, _, _, _ => .error "endless"
  | _ + 1, _, none, _ => .error "null pointer"
  | fuel + 1, k, some elBox, s =>
    if elBox = getHead then .ok (s, [], false)
    else do
      let el ← s.load (some elBox)
      let (s, returned) ← block k el.data elBox el.next s
      if returned then .ok (s, [el.data], true)
      else do
        let (s, els, returned) ← foreachFrom block fuel (k + 1) el.next s
        .ok (s, el.data :: els, returned)

/-- `LIST_FOREACH`; a list has no more elements than the buffer and the heap together. -/
def listForeach (block : Block) : Except String (ListT × List ℕ × Bool) := do
  let head ← s.load (some getHead)
  if head.next = none then .error "foreach over uninitialized list"
  else foreachFrom block (listPreallocSize + s.live.length + 1) 0 head.next s

/-- `LIST_REMOVE_CURRENT_EL_IN_FOREACH`. -/
def removeCurrent (elBox : Addr) (next : Option Addr) : Except String ListT := do
  let el ← s.load (some elBox)
  let s ← s.write el.prev (Element.withNext next)
  let el ← s.load (some elBox)
  let s ← s.write el.next (Element.withPrev el.prev)
  s.preFree elBox

end ListT

/-- What a block does at an element: it may unlink the element, and then it may return. -/
structure Action where
  unlink : Bool
  stop : Bool

/-- What is left of an element. -/
def Action.left {α : Type} (act : Action) (x : α) : List α := if act.unlink then [] else [x]

/-- The block of a `LIST_FOREACH` that decides by `act`. -/
def userBlock (act : ℕ → ℕ → Action) : ListT.Block := fun k el elBox next s => do
  let s ← if (act k el).unlink then s.removeCurrent elBox next else .ok s
  .ok (s, (act k el).stop)

/-- `LIST_FOREACH_CLEAR` unlinks the element after its block. -/
def clearBlock (act : ℕ → ℕ → Action) : ListT.Block := fun k el elBox next s => do
  let (s, returned) ← userBlock act k el elBox next s
  if returned then .ok (s, true)
  else do
    let s ← s.removeCurrent elBox next
    .ok (s, false)

def removeBlock (removeMe : ℕ) : ListT.Block := fun _ el elBox _ s =>
  if el = removeMe then do
    let box ← s.load (some elBox)
    let s ← s.write box.prev (Element.withNext box.next)
    let box ← s.load (some elBox)
    let s ← s.write box.next (Element.withPrev box.prev)
    let s ← s.write (some elBox) (Element.withData 0)
    let s ← s.preFree elBox
    .ok (s, true)
  else .ok (s, false)

def containsBlock (containsMe : ℕ) : ListT.Block := fun _ el _ _ s => .ok (s, el = containsMe)

def ListT.listRemove (s : ListT) (removeMe : ℕ) : Except String ListT := do
  let (s, _, returned) ← s.listForeach (removeBlock removeMe)
  if returned then .ok s else .error "List item to be removed not in list"

def ListT.listContains (s : ListT) (containsMe : ℕ) : Except String Bool := do
  let (_, _, returned) ← s.listForeach (containsBlock containsMe)
  .ok returned

inductive ListOp
  | append (x : ℕ)
  | remove (x : ℕ)
  | foreach (act : ℕ → ℕ → Action)
  | foreachClear (act : ℕ → ℕ → Action)
  | contains (x : ℕ)

/-- What an operation shows: the data a pass has visited, and whether it was ended early or the
element was found. -/
abbrev Shown := List ℕ × Bool

def ListT.step (m : Malloc) (s : ListT) : ListOp → Except String (ListT × Shown)
  | .append x => do
    let s ← s.listAppend m x
    .ok (s, [], false)
  | .remove x => do
    let s ← s.listRemove x
    .ok (s, [], false)
  | .foreach act => s.listForeach (userBlock act)
  | .foreachClear act => s.listForeach (clearBlock act)
  | .contains x => do
    let found ← s.listContains x
    .ok (s, [], found)

def ListT.run (m : Malloc) : List ListOp → ListT → Except String (ListT × List Shown)
  | [], s => .ok (s, [])
  | op :: ops, s => do
    let (s, shown) ← s.step m op
    let (s, rest) ← ListT.run m ops s
    .ok (s, shown :: rest)

/-! ### The reference sequence -/

/-- A pass over a sequence: what is visited, what is left, and whether the block returned. -/
def visit (act : ℕ → ℕ → Action) : ℕ → List ℕ → List ℕ × List ℕ × Bool
  | _, [] => ([], [], false)
  | k, x :: xs =>
    let rest := if (act k x).stop then ([], xs, true) else visit act (k + 1) xs
    (x :: rest.1, (act k x).left x ++ rest.2.1, rest.2.2)

def clearAct (act : ℕ → ℕ → Action) : ℕ → ℕ → Action := fun k el =>
  ⟨!(act k el).stop, (act k el).stop⟩

def refStep (xs : List ℕ) : ListOp → List ℕ × Shown
  | .append x => (xs ++ [x], [], false)
  | .remove x => (xs.erase x, [], false)
  | .foreach act =>
    let pass := visit act 0 xs
    (pass.2.1, pass.1, pass.2.2)
  | .foreachClear act =>
    let pass := visit (clearAct act) 0 xs
    (pass.2.1, pass.1, pass.2.2)
  | .contains x => (xs, [], decide (x ∈ xs))

def refRun : List ListOp → List ℕ → List ℕ × List Shown
  | [], xs => (xs, [])
  | op :: ops, xs =>
    let rest := refRun ops (refStep xs op).1
    (rest.1, (refStep xs op).2 :: rest.2)

/-! ### The elements of a list -/

/-- The elements `cells` form the list, in this order. -/
structure Holds (s : ListT) (cells : List Addr) : Prop where
  owns : Owns s (getHead :: cells)
  ring : Ring (fun a => (s.mem a).next) (fun a => (s.mem a).prev) getHead cells

def dataOf (s : ListT) (cells : List Addr) : List ℕ := cells.map fun a => (s.mem a).data

theorem dataOf_congr {s s' : ListT} {cells : List Addr}
    (h : ∀ a ∈ cells, (s'.mem a).data = (s.mem a).data) : dataOf s' cells = dataOf s cells :=
  List.map_congr_left h

theorem ok_bind {α β : Type} (a : α) (f : α → Except String β) : (Except.ok a >>= f) = f a := rfl

section Fields

variable {s : ListT} {a b : Addr} {p : Option Addr} {x : ℕ}

theorem next_withNext : ((s.put a (Element.withNext p)).mem b).next =
    if b = a then p else (s.mem b).next := by
  rw [ListT.mem_put]
  split <;> rfl

theorem prev_withPrev : ((s.put a (Element.withPrev p)).mem b).prev =
    if b = a then p else (s.mem b).prev := by
  rw [ListT.mem_put]
  split <;> rfl

theorem data_withData : ((s.put a (Element.withData x)).mem b).data =
    if b = a then x else (s.mem b).data := by
  rw [ListT.mem_put]
  split <;> rfl

@[simp]
theorem next_withPrev : ((s.put a (Element.withPrev p)).mem b).next = (s.mem b).next :=
  ListT.next_put fun _ => rfl

@[simp]
theorem next_withData : ((s.put a (Element.withData x)).mem b).next = (s.mem b).next :=
  ListT.next_put fun _ => rfl

@[simp]
theorem prev_withNext : ((s.put a (Element.withNext p)).mem b).prev = (s.mem b).prev :=
  ListT.prev_put fun _ => rfl

@[simp]
theorem prev_withData : ((s.put a (Element.withData x)).mem b).prev = (s.mem b).prev :=
  ListT.prev_put fun _ => rfl

@[simp]
theorem data_withNext : ((s.put a (Element.withNext p)).mem b).data = (s.mem b).data :=
  ListT.data_put fun _ => rfl

@[simp]
theorem data_withPrev : ((s.put a (Element.withPrev p)).mem b).data = (s.mem b).data :=
  ListT.data_put fun _ => rfl

end Fields

section Writes

variable {s : ListT} {used : List Addr} (h : Owns s used) (a : Addr)
include h

theorem Owns.withNext (p : Option Addr) : Owns (s.put a (Element.withNext p)) used :=
  h.put a fun _ => rfl

theorem Owns.withPrev (p : Option Addr) : Owns (s.put a (Element.withPrev p)) used :=
  h.put a fun _ => rfl

theorem Owns.withData (x : ℕ) : Owns (s.put a (Element.withData x)) used :=
  h.put a fun _ => rfl

end Writes

theorem Holds.nodup {s : ListT} {cells : List Addr} (h : Holds s cells) :
    (getHead :: cells).Nodup := h.owns.nodup

theorem Holds.head_valid {s : ListT} {cells : List Addr} (h : Holds s cells) :
    s.valid getHead = true := h.owns.valid _ List.mem_cons_self

theorem Holds.valid {s : ListT} {cells : List Addr} {a : Addr} (h : Holds s cells)
    (ha : a ∈ cells) : s.valid a = true := h.owns.valid a (List.mem_cons_of_mem _ ha)

/-- There are fewer elements than the bound of a pass. -/
theorem Holds.length_lt {s : ListT} {cells : List Addr} (h : Holds s cells) :
    cells.length < listPreallocSize + s.live.length + 1 := by
  have hsub : cells ⊆ (List.range listPreallocSize).map Addr.pool ++ s.live.map Addr.heap := by
    intro a ha
    have hvalid := h.valid ha
    cases a with
    | pool i =>
      exact List.mem_append_left _
        (List.mem_map_of_mem (List.mem_range.mpr (of_decide_eq_true hvalid)))
    | heap a => exact List.mem_append_right _ (List.mem_map_of_mem (of_decide_eq_true hvalid))
  have hle := ((List.nodup_cons.mp h.nodup).2.subperm hsub).length_le
  rw [List.length_append, List.length_map, List.length_map, List.length_range] at hle
  omega

/-! ### Appending -/

theorem owns_clear (s : ListT) : Owns s.clear [] where
  nodup := List.nodup_nil
  valid a ha := absurd ha List.not_mem_nil
  poolStatus i hi := by
    rw [if_neg List.not_mem_nil, ListT.clear]
    simp [hi]
  heapStatus a ha := absurd ha List.not_mem_nil
  count := by
    have hnone : tally listPreallocSize (· = PreStatus.used)
        (fun i => (s.clear.mem (.pool i)).preStatus) = 0 := by
      rw [tally_eq_zero]
      intro i hi
      simp [ListT.clear, hi]
    rw [hnone]
    rfl

theorem init_holds (s : ListT) : ∃ s', s.init = .ok s' ∧ Holds s' [] := by
  obtain ⟨t, ht, hown⟩ : ∃ t, s.clear.preAllocForce getHead = .ok t ∧ Owns t [getHead] := by
    have hfree : (s.clear.mem getHead).preStatus = .unused := rfl
    exact ⟨_, if_neg fun h => h hfree, ((owns_clear s).take (by decide) hfree).2⟩
  have hvalid := hown.valid getHead List.mem_cons_self
  refine ⟨(t.put getHead (Element.withPrev (some getHead))).put getHead
    (Element.withNext (some getHead)), ?_, ?_, ?_⟩
  · rw [ListT.init, ht, ok_bind, ListT.write_ok hvalid, ok_bind,
      ListT.write_ok (ListT.valid_put.trans hvalid)]
  · exact (hown.withPrev getHead _).withNext getHead _
  · constructor
    · dsimp only
      rw [next_withNext, if_pos rfl]
    · dsimp only
      rw [prev_withNext, prev_withPrev, if_pos rfl]

/-- The new element comes to the end of the list. -/
theorem Holds.appendBox {s s₁ : ListT} {cells : List Addr} {a : Addr} (h : Holds s cells)
    (hown : Owns s₁ (a :: getHead :: cells)) (hlinks : SameLinks s s₁) (x : ℕ) :
    ∃ p s', (s₁.mem getHead).prev = some p ∧ s₁.valid p = true ∧ p ≠ a ∧
      s' = ((((s₁.put a (Element.withData x)).put a (Element.withNext (some getHead))).put a
        (Element.withPrev (some p))).put p (Element.withNext (some a))).put getHead
          (Element.withPrev (some a)) ∧
      Holds s' (cells ++ [a]) ∧ dataOf s' (cells ++ [a]) = dataOf s cells ++ [x] := by
  obtain ⟨ha, hnodup⟩ := List.nodup_cons.mp hown.nodup
  obtain ⟨p, hp, hprev⟩ := h.ring.exists_prev
  have hpa : p ≠ a := fun heq => ha (heq ▸ hp)
  have hha : getHead ≠ a := fun heq => ha (heq ▸ List.mem_cons_self)
  have hprev₁ : (s₁.mem getHead).prev = some p := (hlinks.prev getHead).trans hprev
  refine ⟨p, _, hprev₁, hown.valid p (List.mem_cons_of_mem a hp), hpa, rfl, ⟨?_, ?_⟩, ?_⟩
  · have hperm : (a :: getHead :: cells).Perm (getHead :: (cells ++ [a])) := by
      refine (List.Perm.swap getHead a cells).trans (List.Perm.cons getHead ?_)
      exact (List.perm_append_singleton a cells).symm
    exact (((((hown.withData a x).withNext a _).withPrev a _).withNext p _).withPrev
      getHead _).perm hperm
  · refine Ring.insert h.ring hnodup ha hprev ?_ ?_ ?_ ?_ (fun y hya hyp => ?_)
      (fun y hya hyh => ?_)
    · rw [next_withPrev, next_withNext, if_neg hpa.symm, next_withPrev, next_withNext, if_pos rfl]
    · rw [prev_withPrev, if_neg hha.symm, prev_withNext, prev_withPrev, if_pos rfl]
    · rw [next_withPrev, next_withNext, if_pos rfl]
    · rw [prev_withPrev, if_pos rfl]
    · rw [next_withPrev, next_withNext, if_neg hyp, next_withPrev, next_withNext, if_neg hya,
        next_withData, hlinks.next]
    · rw [prev_withPrev, if_neg hyh, prev_withNext, prev_withPrev, if_neg hya, prev_withNext,
        prev_withData, hlinks.prev]
  · rw [dataOf, List.map_append, List.map_singleton]
    congr 1
    · refine List.map_congr_left fun b hb => ?_
      have hba : b ≠ a := fun heq => ha (heq ▸ List.mem_cons_of_mem _ hb)
      rw [data_withPrev, data_withNext, data_withPrev, data_withNext, data_withData, if_neg hba,
        hlinks.data]
    · rw [data_withPrev, data_withNext, data_withPrev, data_withNext, data_withData, if_pos rfl]

section Append

variable {m : Malloc} {s : ListT} {cells : List Addr}

/-- What `list_append` does once the list is initialized. -/
theorem Holds.append (h : Holds s cells) (hm : ∀ t live, (m.choose t live).isSome = true) (x : ℕ) :
    ∃ s' cells', (do
      let (elBox, s) ← s.preAlloc m
      let s ← s.write (some elBox) (Element.withData x)
      let s ← s.write (some elBox) (Element.withNext (some getHead))
      let head ← s.load (some getHead)
      let s ← s.write (some elBox) (Element.withPrev head.prev)
      let head ← s.load (some getHead)
      let s ← s.write head.prev (Element.withNext (some elBox))
      s.write (some getHead) (Element.withPrev (some elBox))) = .ok s' ∧
        Holds s' cells' ∧ dataOf s' cells' = dataOf s cells ++ [x] := by
  obtain ⟨a, s₁, halloc, ha, hown, hlinks⟩ := h.owns.preAlloc fun _ => hm s.mallocs s.live
  obtain ⟨p, s', hp, hvp, hpa, hs', hholds, hdata⟩ := h.appendBox hown hlinks x
  have hva := hown.valid a List.mem_cons_self
  have hvh := hown.valid getHead (List.mem_cons_of_mem a List.mem_cons_self)
  have hha : getHead ≠ a := fun heq => ha (heq ▸ List.mem_cons_self)
  refine ⟨s', _, ?_, hholds, hdata⟩
  rw [halloc, ok_bind]
  dsimp only
  rw [ListT.write_ok hva, ok_bind, ListT.write_ok (by simpa only [ListT.valid_put] using hva),
    ok_bind, ListT.load_ok (by simpa only [ListT.valid_put] using hvh), ok_bind,
    ListT.write_ok (by simpa only [ListT.valid_put] using hva), ok_bind,
    ListT.load_ok (by simpa only [ListT.valid_put] using hvh), ok_bind, prev_withPrev,
    if_neg hha, prev_withNext, prev_withData, hp,
    ListT.write_ok (by simpa only [ListT.valid_put] using hvp), ok_bind,
    ListT.write_ok (by simpa only [ListT.valid_put] using hvh), hs']

/-- A list with the contents `xs`. -/
def Represents (s : ListT) (xs : List ℕ) : Prop := ∃ cells, Holds s cells ∧ dataOf s cells = xs

theorem listAppend_first (hm : ∀ t live, (m.choose t live).isSome = true)
    (hhead : (s.mem getHead).next = none) (x : ℕ) :
    ∃ s', s.listAppend m x = .ok s' ∧ Represents s' [x] := by
  obtain ⟨t, ht, hholds⟩ := init_holds s
  obtain ⟨s', cells', hs', hholds', hdata⟩ := hholds.append hm x
  refine ⟨s', ?_, cells', hholds', hdata⟩
  rw [ListT.listAppend, ListT.load_ok (show s.valid getHead = true from rfl), ok_bind, if_pos hhead,
    ht, ok_bind]
  exact hs'

theorem Represents.listAppend {xs : List ℕ} (h : Represents s xs)
    (hm : ∀ t live, (m.choose t live).isSome = true) (x : ℕ) :
    ∃ s', s.listAppend m x = .ok s' ∧ Represents s' (xs ++ [x]) := by
  obtain ⟨cells, hholds, rfl⟩ := h
  obtain ⟨s', cells', hs', hholds', hdata⟩ := hholds.append hm x
  refine ⟨s', ?_, cells', hholds', hdata⟩
  have hnext : (s.mem getHead).next ≠ none := by
    rw [hholds.ring.next_eq]
    exact Option.some_ne_none _
  rw [ListT.listAppend, ListT.load_ok hholds.head_valid, ok_bind, if_neg hnext, ok_bind]
  exact hs'

end Append

/-! ### Taking out -/

section Unlink

variable {s : ListT} {l r : List Addr} {a : Addr}

theorem perm_head (l r : List Addr) (a : Addr) :
    (getHead :: (l ++ a :: r)).Perm (a :: getHead :: (l ++ r)) :=
  (List.perm_middle.cons getHead).trans (List.Perm.swap a getHead (l ++ r))

/-- The neighbours of an element, and the ring once they point at each other. -/
theorem Holds.unlink (h : Holds s (l ++ a :: r)) :
    ∃ p n, (s.mem a).prev = some p ∧ (s.mem a).next = some n ∧ s.valid p = true ∧
      s.valid n = true ∧ p ≠ a ∧ n ≠ a ∧
      Ring (fun b => (((s.put p (Element.withNext (some n))).put n
          (Element.withPrev (some p))).mem b).next)
        (fun b => (((s.put p (Element.withNext (some n))).put n
          (Element.withPrev (some p))).mem b).prev) getHead (l ++ r) := by
  obtain ⟨hleft, hright⟩ := linked_append.mp h.ring
  obtain ⟨p, hp, hprev⟩ := hleft.exists_prev
  have hnext := hright.next_eq
  have hn : r.headD getHead ∈ getHead :: r := by
    cases r with
    | nil => exact List.mem_cons_self
    | cons b r => exact List.mem_cons_of_mem _ List.mem_cons_self
  have hperm := perm_head l r a
  obtain ⟨ha, -⟩ := List.nodup_cons.mp (hperm.nodup_iff.mp h.nodup)
  have hpl : p ∈ getHead :: (l ++ r) := List.mem_append_left r hp
  have hnr : r.headD getHead ∈ getHead :: (l ++ r) := by
    rcases List.mem_cons.mp hn with hn | hn
    · rw [hn]
      exact List.mem_cons_self
    · exact List.mem_cons_of_mem _ (List.mem_append_right l hn)
  have hvalid : ∀ b ∈ getHead :: (l ++ r), s.valid b = true := fun b hb =>
    h.owns.valid b (hperm.mem_iff.mpr (List.mem_cons_of_mem a hb))
  refine ⟨p, r.headD getHead, hprev, hnext, hvalid p hpl, hvalid _ hnr,
    fun heq => ha (heq ▸ hpl), fun heq => ha (heq ▸ hnr), ?_⟩
  refine Ring.unlink h.ring h.nodup hprev hnext ?_ ?_ (fun y _ hy => ?_) (fun y _ hy => ?_)
  · rw [next_withPrev, next_withNext, if_pos rfl]
  · rw [prev_withPrev, if_pos rfl]
  · rw [next_withPrev, next_withNext, if_neg hy]
  · rw [prev_withPrev, if_neg hy, prev_withNext]

/-- The elements without one, which is given back. -/
theorem Holds.giveBack (hown : Owns s (getHead :: (l ++ a :: r)))
    (hring : Ring (fun b => (s.mem b).next) (fun b => (s.mem b).prev) getHead (l ++ r)) :
    ∃ s', s.preFree a = .ok s' ∧ Holds s' (l ++ r) ∧
      ∀ b, (s'.mem b).data = (s.mem b).data := by
  obtain ⟨s', hs', hown', hlinks⟩ := (hown.perm (perm_head l r a)).preFree
  refine ⟨s', hs', ⟨hown', ?_⟩, hlinks.data⟩
  exact Linked.congr hring (fun b _ => hlinks.next b) (fun b _ => hlinks.prev b)
    (hlinks.prev getHead)

theorem Holds.removeCurrent (h : Holds s (l ++ a :: r)) :
    ∃ s', s.removeCurrent a (s.mem a).next = .ok s' ∧ Holds s' (l ++ r) ∧
      ∀ b, (s'.mem b).data = (s.mem b).data := by
  obtain ⟨p, n, hp, hn, hvp, hvn, hpa, hna, hring⟩ := h.unlink
  obtain ⟨s', hs', hholds, hdata⟩ :=
    Holds.giveBack ((h.owns.withNext p (some n)).withPrev n (some p)) hring
  have hva := h.valid (List.mem_append_right l List.mem_cons_self)
  refine ⟨s', ?_, hholds, fun b => ?_⟩
  · rw [ListT.removeCurrent, ListT.load_ok hva, ok_bind, hp, ListT.write_ok hvp, ok_bind,
      ListT.load_ok (ListT.valid_put.trans hva), ok_bind, next_withNext, if_neg hpa.symm, hn,
      prev_withNext, hp, ListT.write_ok (ListT.valid_put.trans hvn), ok_bind, hs']
  · rw [hdata, data_withPrev, data_withNext]

theorem Holds.removeBlock (h : Holds s (l ++ a :: r)) (k : ℕ) (next : Option Addr) :
    ∃ s', removeBlock (s.mem a).data k (s.mem a).data a next s = .ok (s', true) ∧
      Holds s' (l ++ r) ∧ ∀ b ≠ a, (s'.mem b).data = (s.mem b).data := by
  obtain ⟨p, n, hp, hn, hvp, hvn, hpa, hna, hring⟩ := h.unlink
  have hown := ((h.owns.withNext p (some n)).withPrev n (some p)).withData a 0
  have hring' := Linked.congr hring (fun b _ => next_withData (a := a) (x := 0))
    (fun b _ => prev_withData (a := a) (x := 0)) (prev_withData (a := a) (x := 0))
  obtain ⟨s', hs', hholds, hdata⟩ := Holds.giveBack hown hring'
  have hva := h.valid (List.mem_append_right l List.mem_cons_self)
  refine ⟨s', ?_, hholds, fun b hb => ?_⟩
  · rw [Alloc.removeBlock, if_pos rfl, ListT.load_ok hva, ok_bind, hp, hn, ListT.write_ok hvp,
      ok_bind, ListT.load_ok (ListT.valid_put.trans hva), ok_bind, next_withNext, if_neg hpa.symm,
      hn, prev_withNext, hp, ListT.write_ok (ListT.valid_put.trans hvn), ok_bind,
      ListT.write_ok ((ListT.valid_put.trans ListT.valid_put).trans hva), ok_bind, hs', ok_bind]
  · rw [hdata, data_withData, if_neg hb, data_withPrev, data_withNext]

end Unlink

/-! ### Passes -/

/-- The block of a pass does at an element what `act` says, and leaves the list well formed. -/
def BlockSpec (block : ListT.Block) (act : ℕ → ℕ → Action) : Prop :=
  ∀ k s l r a, Holds s (l ++ a :: r) →
    ∃ s', block k (s.mem a).data a (s.mem a).next s = .ok (s', (act k (s.mem a).data).stop) ∧
      Holds s' (l ++ (act k (s.mem a).data).left a ++ r) ∧
      ∀ b ∈ l ++ (act k (s.mem a).data).left a ++ r, (s'.mem b).data = (s.mem b).data

theorem blockSpec_userBlock (act : ℕ → ℕ → Action) : BlockSpec (userBlock act) act := by
  intro k s l r a h
  rw [userBlock, Action.left]
  cases (act k (s.mem a).data).unlink with
  | false => exact ⟨s, rfl, by simpa using h, fun b _ => rfl⟩
  | true =>
    obtain ⟨s', hs', hholds, hdata⟩ := h.removeCurrent
    refine ⟨s', ?_, by simpa using hholds, fun b _ => hdata b⟩
    rw [if_pos rfl, hs', ok_bind]

theorem blockSpec_clearBlock {act : ℕ → ℕ → Action} (hact : ∀ k el, (act k el).unlink = false) :
    BlockSpec (clearBlock act) (clearAct act) := by
  intro k s l r a h
  obtain ⟨s', hs', hholds, hdata⟩ := h.removeCurrent
  have huser : userBlock act k (s.mem a).data a (s.mem a).next s =
      .ok (s, (act k (s.mem a).data).stop) := by
    rw [userBlock, hact, if_neg Bool.false_ne_true, ok_bind]
  rw [clearBlock, huser, ok_bind, clearAct, Action.left]
  dsimp only
  cases (act k (s.mem a).data).stop with
  | false =>
    refine ⟨s', ?_, by simpa using hholds, fun b _ => hdata b⟩
    rw [if_neg Bool.false_ne_true, hs', ok_bind]
  | true => exact ⟨s, rfl, by simpa using h, fun b _ => rfl⟩

def removeAct (removeMe : ℕ) : ℕ → ℕ → Action := fun _ el =>
  ⟨decide (el = removeMe), decide (el = removeMe)⟩

theorem blockSpec_removeBlock (x : ℕ) : BlockSpec (removeBlock x) (removeAct x) := by
  intro k s l r a h
  rw [removeAct, Action.left]
  dsimp only
  by_cases hx : (s.mem a).data = x
  · subst hx
    obtain ⟨s', hs', hholds, hdata⟩ := h.removeBlock k (s.mem a).next
    rw [decide_eq_true rfl, if_pos rfl, List.append_nil]
    refine ⟨s', hs', hholds, fun b hb => hdata b ?_⟩
    rintro rfl
    exact (List.nodup_cons.mp ((perm_head l r b).nodup_iff.mp h.nodup)).1
      (List.mem_cons_of_mem _ hb)
  · rw [decide_eq_false hx, if_neg Bool.false_ne_true]
    exact ⟨s, if_neg hx, by simpa using h, fun b _ => rfl⟩

def containsAct (containsMe : ℕ) : ℕ → ℕ → Action := fun _ el =>
  ⟨false, decide (el = containsMe)⟩

theorem blockSpec_containsBlock (x : ℕ) : BlockSpec (containsBlock x) (containsAct x) :=
  fun _ s l r a h => ⟨s, rfl, by simpa [containsAct, Action.left] using h, fun _ _ => rfl⟩

section Pass

variable {block : ListT.Block} {act : ℕ → ℕ → Action} {s : ListT}

/-- The rest of a pass, from an element on: the elements `kept` are behind it. -/
theorem foreachFrom_spec (hblock : BlockSpec block act) {rest : List Addr} (kept : List Addr)
    (fuel k : ℕ) (h : Holds s (kept ++ rest)) (hfuel : rest.length < fuel) :
    ∃ s' cells', ListT.foreachFrom block fuel k (some (rest.headD getHead)) s =
        .ok (s', (visit act k (dataOf s rest)).1, (visit act k (dataOf s rest)).2.2) ∧
      Holds s' cells' ∧ dataOf s' cells' = dataOf s kept ++ (visit act k (dataOf s rest)).2.1 := by
  induction rest generalizing s kept fuel k with
  | nil =>
    obtain ⟨fuel, rfl⟩ := Nat.exists_eq_succ_of_ne_zero (Nat.ne_of_gt hfuel)
    refine ⟨s, kept, if_pos rfl, by simpa using h, ?_⟩
    exact (List.append_nil _).symm
  | cons a rest ih =>
    obtain ⟨fuel, rfl⟩ := Nat.exists_eq_succ_of_ne_zero (Nat.ne_of_gt (Nat.zero_lt_of_lt hfuel))
    have hmem : a ∈ kept ++ a :: rest := List.mem_append_right kept List.mem_cons_self
    have hne : a ≠ getHead := fun heq => (List.nodup_cons.mp h.nodup).1 (heq ▸ hmem)
    have hnext : (s.mem a).next = some (rest.headD getHead) := (linked_append.mp h.ring).2.next_eq
    obtain ⟨t, ht, hholds, hdata⟩ := hblock k s kept rest a h
    have hleft : dataOf s ((act k (s.mem a).data).left a) =
        (act k (s.mem a).data).left (s.mem a).data := by
      rw [Action.left, Action.left]
      split <;> rfl
    show ∃ s' cells', ListT.foreachFrom block (fuel + 1) k (some a) s = _ ∧ _
    rw [ListT.foreachFrom, if_neg hne, ListT.load_ok (h.valid hmem), ok_bind, ht, ok_bind,
      show dataOf s (a :: rest) = (s.mem a).data :: dataOf s rest from rfl, visit]
    dsimp only
    by_cases hstop : (act k (s.mem a).data).stop = true
    · rw [if_pos hstop, if_pos hstop, ← hleft]
      refine ⟨t, _, rfl, hholds, ?_⟩
      rw [dataOf_congr hdata, dataOf, List.map_append, List.map_append, List.append_assoc]
      rfl
    · rw [if_neg hstop, if_neg hstop, hnext, ← hleft]
      obtain ⟨s', cells', hs', hholds', hdata'⟩ :=
        ih _ fuel (k + 1) hholds (Nat.lt_of_succ_lt_succ hfuel)
      have hrest : dataOf t rest = dataOf s rest :=
        dataOf_congr fun b hb => hdata b (List.mem_append_right _ hb)
      rw [hrest] at hs' hdata'
      refine ⟨s', cells', ?_, hholds', ?_⟩
      · rw [hs', ok_bind]
      · rw [hdata', dataOf_congr fun b hb => hdata b (List.mem_append_left _ hb), dataOf,
          List.map_append, List.append_assoc]
        rfl

theorem Represents.listForeach {xs : List ℕ} (hblock : BlockSpec block act)
    (h : Represents s xs) :
    ∃ s', s.listForeach block = .ok (s', (visit act 0 xs).1, (visit act 0 xs).2.2) ∧
      Represents s' (visit act 0 xs).2.1 := by
  obtain ⟨cells, hholds, rfl⟩ := h
  have hnext := hholds.ring.next_eq
  obtain ⟨s', cells', hs', hholds', hdata⟩ :=
    foreachFrom_spec hblock [] _ 0 hholds hholds.length_lt
  refine ⟨s', ?_, cells', hholds', hdata⟩
  rw [ListT.listForeach, ListT.load_ok hholds.head_valid, ok_bind, hnext,
    if_neg (Option.some_ne_none _), hs']

theorem visit_removeAct {x : ℕ} {xs : List ℕ} (hx : x ∈ xs) (k : ℕ) :
    (visit (removeAct x) k xs).2 = (xs.erase x, true) := by
  induction xs generalizing k with
  | nil => cases hx
  | cons y xs ih =>
    rw [visit, removeAct, Action.left]
    by_cases hy : y = x
    · rw [hy, decide_eq_true rfl, List.erase_cons_head]
      rfl
    · have hxs := (List.mem_cons.mp hx).resolve_left (Ne.symm hy)
      rw [decide_eq_false hy, List.erase_cons_tail (by simpa using hy)]
      simp [ih hxs]

theorem visit_containsAct (x : ℕ) (xs : List ℕ) (k : ℕ) :
    (visit (containsAct x) k xs).2 = (xs, decide (x ∈ xs)) := by
  induction xs generalizing k with
  | nil => simp [visit]
  | cons y xs ih =>
    rw [visit, containsAct, Action.left]
    by_cases hy : y = x
    · simp [hy]
    · simp [hy, ih, Ne.symm hy]

/-- A pass whose block never returns visits every element once, in order. -/
theorem visit_of_not_stop {act : ℕ → ℕ → Action} (hact : ∀ k el, (act k el).stop = false)
    (xs : List ℕ) (k : ℕ) :
    visit act k xs = (xs, (xs.zipIdx k).flatMap fun el => (act el.2 el.1).left el.1, false) := by
  induction xs generalizing k with
  | nil => rfl
  | cons x xs ih => simp [visit, hact, ih]

end Pass

/-! ### Runs -/

/-- An item to be removed is present, and the block of a clearing pass leaves the unlinking to the
pass. -/
def ListOp.Allowed (xs : List ℕ) : ListOp → Prop
  | .remove x => x ∈ xs
  | .foreachClear act => ∀ k el, (act k el).unlink = false
  | _ => True

def AllAllowed : List ListOp → List ℕ → Prop
  | [], _ => True
  | op :: ops, xs => op.Allowed xs ∧ AllAllowed ops (refStep xs op).1

section Run

variable {m : Malloc} {s : ListT} {xs : List ℕ}

theorem Represents.step (hm : ∀ t live, (m.choose t live).isSome = true) (h : Represents s xs)
    {op : ListOp} (hop : op.Allowed xs) :
    ∃ s', s.step m op = .ok (s', (refStep xs op).2) ∧ Represents s' (refStep xs op).1 := by
  cases op with
  | append x =>
    obtain ⟨s', hs', hrep⟩ := h.listAppend hm x
    refine ⟨s', ?_, hrep⟩
    rw [ListT.step, hs', ok_bind]
    rfl
  | remove x =>
    obtain ⟨s', hs', hrep⟩ := h.listForeach (blockSpec_removeBlock x)
    rw [visit_removeAct hop] at hs' hrep
    refine ⟨s', ?_, hrep⟩
    rw [ListT.step, ListT.listRemove, hs']
    rfl
  | foreach act => exact h.listForeach (blockSpec_userBlock act)
  | foreachClear act => exact h.listForeach (blockSpec_clearBlock hop)
  | contains x =>
    obtain ⟨s', hs', hrep⟩ := h.listForeach (blockSpec_containsBlock x)
    rw [visit_containsAct] at hs' hrep
    refine ⟨s, ?_, h⟩
    rw [ListT.step, ListT.listContains, hs']
    rfl

theorem Represents.run (hm : ∀ t live, (m.choose t live).isSome = true) (h : Represents s xs)
    {ops : List ListOp} (hops : AllAllowed ops xs) :
    ∃ s', s.run m ops = .ok (s', (refRun ops xs).2) ∧ Represents s' (refRun ops xs).1 := by
  induction ops generalizing s xs with
  | nil => exact ⟨s, rfl, h⟩
  | cons op ops ih =>
    obtain ⟨t, ht, hrep⟩ := h.step hm hops.1
    obtain ⟨s', hs', hrep'⟩ := ih hrep hops.2
    refine ⟨s', ?_, hrep'⟩
    rw [ListT.run, ht, ok_bind]
    dsimp only
    rw [hs', ok_bind]
    rfl

/-- The list through the elements `cells` has the contents `xs`, and an allocation hands out none
of these elements. -/
structure Refines (s : ListT) (cells : List Addr) (xs : List ℕ) : Prop extends Holds s cells where
  contents : dataOf s cells = xs
  handsOut : ∀ m a s', s.preAlloc m = .ok (a, s') → a ∉ getHead :: cells

/-- The operations show what they show on a sequence, and leave a list with the contents of that
sequence. -/
def RunsRight (m : Malloc) (s : ListT) (ops : List ListOp) : Prop :=
  ∃ s' cells, s.run m ops = .ok (s', (refRun ops []).2) ∧ Refines s' cells (refRun ops []).1

theorem Represents.refines (h : Represents s xs) : ∃ cells, Refines s cells xs := by
  obtain ⟨cells, hholds, hdata⟩ := h
  exact ⟨cells, hholds, hdata, fun m a s' => hholds.owns.not_mem_of_preAlloc⟩

/-- From the first element appended on, a list is its sequence. -/
theorem runsRight (m : Malloc) (hm : ∀ t live, (m.choose t live).isSome = true) (s : ListT)
    (hhead : (s.mem getHead).next = none) (x : ℕ) (ops : List ListOp)
    (hops : AllAllowed ops [x]) : RunsRight m s (.append x :: ops) := by
  obtain ⟨t, ht, hrep⟩ := listAppend_first hm hhead x
  obtain ⟨s', hs', hrep'⟩ := hrep.run hm hops
  obtain ⟨cells, hcells⟩ := hrep'.refines
  refine ⟨s', cells, ?_, hcells⟩
  rw [ListT.run, ListT.step, ht, ok_bind, ok_bind]
  dsimp only
  rw [hs', ok_bind]
  rfl

/-- A `malloc` that always finds a block: the one after all those in use. -/
def mallocAfter : Malloc where
  choose _ live := some (live.foldr max 0 + 1)
  fresh _ live a ha hmem := by
    have hle : ∀ l : List ℕ, ∀ b ∈ l, b ≤ l.foldr max 0 := by
      intro l
      induction l with
      | nil => exact fun b hb => absurd hb List.not_mem_nil
      | cons c l ih =>
        intro b hb
        rcases List.mem_cons.mp hb with rfl | hb
        · exact le_max_left _ _
        · exact (ih b hb).trans (le_max_right _ _)
    have := hle live a hmem
    have := Option.some.inj ha
    omega

/-- A list of zero bytes. -/
def zeroList : ListT := ⟨fun _ => ⟨.unused, none, none, 0⟩, [], 0, 0⟩

theorem runsRight_append_remove :
    (zeroList.mem getHead).next = none ∧
      RunsRight mallocAfter zeroList [.append 1, .append 2, .foreach fun k _ => ⟨k = 0, false⟩,
        .remove 2] :=
  ⟨rfl, runsRight mallocAfter (fun _ _ => rfl) zeroList rfl 1 _
    ⟨trivial, trivial, List.mem_cons_self, trivial⟩⟩

/-- A pass before the first element is appended, and a clearing pass whose block unlinks. -/
theorem not_runsRight :
    ¬ RunsRight mallocAfter zeroList [.foreach fun _ _ => ⟨false, false⟩] ∧
      ¬ RunsRight mallocAfter zeroList [.append 1, .foreachClear fun _ _ => ⟨true, false⟩] := by
  constructor
  · rintro ⟨s', cells, hrun, -⟩
    cases hrun
  · rintro ⟨s', cells, hrun, -⟩
    cases hrun

end Run

end AflPlusPlus.Alloc
