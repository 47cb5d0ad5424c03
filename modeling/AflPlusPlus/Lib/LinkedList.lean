import Mathlib.Data.List.Basic
import Mathlib.Data.List.Nodup

/-!
# Doubly linked lists

Cells at addresses, with a pointer to the next cell and one back. Nothing is written to the back
pointer of a new cell until another cell is put in front of it, so that the one of the first cell
must not be relied on. An operation fails where it follows a pointer to no cell or reads a back
pointer that was never written.
-/

namespace Lib

structure Cell (α : Type) where
  data : α
  next : Option ℕ
  /-- Nothing as long as it was not written. -/
  prev : Option (Option ℕ)

abbrev Heap (α : Type) := ℕ → Option (Cell α)

namespace Heap

variable {α : Type}

def set (h : Heap α) (a : ℕ) (c : Cell α) : Heap α := fun b => if b = a then some c else h b

def update (h : Heap α) (a : ℕ) (f : Cell α → Cell α) : Option (Heap α) :=
  (h a).map fun c => h.set a (f c)

def setNext (h : Heap α) (a : ℕ) (q : Option ℕ) : Option (Heap α) :=
  h.update a fun c => { c with next := q }

def setPrev (h : Heap α) (a : ℕ) (q : Option ℕ) : Option (Heap α) :=
  h.update a fun c => { c with prev := some q }

def setData (h : Heap α) (a : ℕ) (f : α → α) : Option (Heap α) :=
  h.update a fun c => { c with data := f c.data }

def free (h : Heap α) (a : ℕ) : Heap α := fun b => if b = a then none else h b

/-- A new cell at `a` in front of the list at `head`. -/
def push (h : Heap α) (a : ℕ) (x : α) (head : Option ℕ) : Option (Heap α) :=
  let h := h.set a ⟨x, head, none⟩
  match head with
  | none => some h
  | some b => h.setPrev b (some a)

/-- Take the cell at `a` out of the list at `head` and free it; the new start of the list. -/
def unlink (h : Heap α) (head : Option ℕ) (a : ℕ) : Option (Heap α × Option ℕ) := do
  let c ← h a
  if head = some a then
    match c.next with
    | none => return (h.free a, none)
    | some n => return ((← h.setPrev n none).free a, some n)
  else
    match c.next with
    | some n =>
      let p ← (← c.prev)
      return ((← (← h.setNext p (some n)).setPrev n (some p)).free a, head)
    | none =>
      match ← c.prev with
      | none => return (h.free a, head)
      | some p => return ((← h.setNext p none).free a, head)

/-- The cells that are visited from `p` on along the next pointers, at most `fuel` of them. -/
def nodes (h : Heap α) : ℕ → Option ℕ → Option (List (ℕ × α))
  | _, none => some []
  | 0, some _ => none
  | fuel + 1, some a => do
    let c ← h a
    return (a, c.data) :: (← nodes h fuel c.next)

/-! ### Segments -/

/-- The cells from `p` on up to `q` hold the list, behind a cell at `before` if there is one. -/
def Seg (h : Heap α) : Option ℕ → Option ℕ → List (ℕ × α) → Option ℕ → Prop
  | _, p, [], q => p = q
  | before, p, (a, x) :: l, q =>
    p = some a ∧ ∃ c, h a = some c ∧ c.data = x ∧
      (∀ d, before = some d → c.prev = some (some d)) ∧ Seg h (some a) c.next l q

def lastAddr : Option ℕ → List (ℕ × α) → Option ℕ
  | before, [] => before
  | _, x :: l => lastAddr (some x.1) l

theorem Seg.congr {h h' : Heap α} {l : List (ℕ × α)} {b p q : Option ℕ} (hl : Seg h b p l q)
    (heq : ∀ x ∈ l, h' x.1 = h x.1) : Seg h' b p l q := by
  induction l generalizing b p with
  | nil => exact hl
  | cons x l ih =>
    obtain ⟨hp, c, hc, hx, hb, hrest⟩ := hl
    exact ⟨hp, c, (heq x List.mem_cons_self).trans hc, hx, hb,
      ih hrest fun y hy => heq y (List.mem_cons_of_mem x hy)⟩

theorem seg_append {h : Heap α} {l l' : List (ℕ × α)} {b p q : Option ℕ} :
    Seg h b p (l ++ l') q ↔ ∃ r, Seg h b p l r ∧ Seg h (lastAddr b l) r l' q := by
  induction l generalizing b p with
  | nil => exact ⟨fun hl => ⟨p, rfl, hl⟩, fun ⟨r, hr, hl⟩ => by rwa [show p = r from hr]⟩
  | cons x l ih =>
    constructor
    · rintro ⟨hp, c, hc, hx, hb, hrest⟩
      obtain ⟨r, hl, hl'⟩ := ih.mp hrest
      exact ⟨r, ⟨hp, c, hc, hx, hb, hl⟩, hl'⟩
    · rintro ⟨r, ⟨hp, c, hc, hx, hb, hl⟩, hl'⟩
      exact ⟨hp, c, hc, hx, hb, ih.mpr ⟨r, hl, hl'⟩⟩

/-- The whole list at `head`. -/
structure Linked (h : Heap α) (head : Option ℕ) (l : List (ℕ × α)) : Prop where
  seg : Seg h none head l none
  nodup : (l.map Prod.fst).Nodup

theorem linked_nil (h : Heap α) : Linked h none ([] : List (ℕ × α)) := ⟨rfl, List.nodup_nil⟩

theorem Seg.nodes_eq {h : Heap α} {l : List (ℕ × α)} {b p : Option ℕ} (hl : Seg h b p l none)
    {fuel : ℕ} (hfuel : l.length ≤ fuel) : nodes h fuel p = some l := by
  induction l generalizing b p fuel with
  | nil =>
    obtain rfl : p = none := hl
    rw [nodes]
  | cons x l ih =>
    obtain ⟨a, y⟩ := x
    obtain ⟨rfl, c, hc, rfl, -, hrest⟩ := hl
    cases fuel with
    | zero => exact absurd hfuel (Nat.not_succ_le_zero _)
    | succ fuel =>
      rw [nodes, hc]
      simp [ih hrest (Nat.le_of_succ_le_succ hfuel)]

/-! ### The operations on a linked list -/

@[simp]
theorem set_same (h : Heap α) (a : ℕ) (c : Cell α) : h.set a c a = some c := if_pos rfl

@[simp]
theorem set_of_ne (h : Heap α) {a b : ℕ} (c : Cell α) (hne : b ≠ a) : h.set a c b = h b :=
  if_neg hne

theorem free_of_ne (h : Heap α) {a b : ℕ} (hne : b ≠ a) : h.free a b = h b := if_neg hne

theorem update_of_some {h : Heap α} {a : ℕ} {c : Cell α} (hc : h a = some c)
    (f : Cell α → Cell α) : h.update a f = some (h.set a (f c)) := by
  rw [update, hc]
  rfl

theorem Linked.push {h : Heap α} {head : Option ℕ} {l : List (ℕ × α)} (hl : Linked h head l)
    {a : ℕ} (ha : a ∉ l.map Prod.fst) (x : α) :
    ∃ h', h.push a x head = some h' ∧ Linked h' (some a) ((a, x) :: l) := by
  have hnodup : (((a, x) :: l).map Prod.fst).Nodup := List.nodup_cons.mpr ⟨ha, hl.nodup⟩
  cases l with
  | nil =>
    obtain rfl : head = none := hl.seg
    exact ⟨_, rfl, ⟨rfl, _, if_pos rfl, rfl, (fun d hd => nomatch hd), rfl⟩, hnodup⟩
  | cons y l =>
    obtain ⟨rfl, c, hc, hy, -, hrest⟩ := hl.seg
    have hne : y.1 ≠ a := fun h => ha (by rw [← h]; exact List.mem_cons_self)
    have hcell : h.set a ⟨x, some y.1, none⟩ y.1 = some c := by rw [set_of_ne _ _ hne, hc]
    refine ⟨_, update_of_some hcell _, ⟨rfl, ⟨x, some y.1, none⟩, ?_, rfl, (fun d hd => nomatch hd),
      rfl, { c with prev := some (some a) }, set_same _ _ _, hy, fun d hd => by rw [hd],
      hrest.congr fun z hz => ?_⟩, hnodup⟩
    · rw [set_of_ne _ _ (Ne.symm hne), set_same]
    · have hz1 : z.1 ≠ y.1 := fun h => (List.nodup_cons.mp hl.nodup).1
        (by rw [← h]; exact List.mem_map_of_mem hz)
      have hz2 : z.1 ≠ a := fun h => ha (by
        rw [← h]
        exact List.mem_cons_of_mem _ (List.mem_map_of_mem hz))
      rw [set_of_ne _ _ hz1, set_of_ne _ _ hz2]

theorem addr_ne_of_nodup {l : List (ℕ × α)} {x y : ℕ × α} (h : ((x :: l).map Prod.fst).Nodup)
    (hy : y ∈ l) : y.1 ≠ x.1 := fun heq => (List.nodup_cons.mp h).1
  (by rw [← heq]; exact List.mem_map_of_mem hy)

/-- The other cells of a list have other addresses. -/
theorem Linked.addr_ne {h : Heap α} {head : Option ℕ} {x : ℕ × α} {l l' : List (ℕ × α)}
    (hl : Linked h head (l ++ x :: l')) : ∀ y ∈ l ++ l', y.1 ≠ x.1 := by
  have hnodup := hl.nodup
  rw [List.map_append, List.map_cons, List.nodup_middle, ← List.map_append] at hnodup
  exact fun y hy => addr_ne_of_nodup (x := x) hnodup hy

/-- Changing the data of one cell. -/
theorem Linked.setData {h : Heap α} {head : Option ℕ} {x : ℕ × α} {l l' : List (ℕ × α)}
    (hl : Linked h head (l ++ x :: l')) (f : α → α) :
    ∃ h', h.setData x.1 f = some h' ∧ Linked h' head (l ++ (x.1, f x.2) :: l') := by
  have hne := hl.addr_ne
  obtain ⟨r, hfront, rfl, c, hc, hdata, hback, hrest⟩ := seg_append.mp hl.seg
  refine ⟨_, update_of_some hc _, seg_append.mpr ⟨some x.1, hfront.congr fun y hy => ?_, rfl,
    { c with data := f c.data }, set_same _ _ _, congrArg f hdata, hback,
    hrest.congr fun y hy => ?_⟩, ?_⟩
  · exact set_of_ne _ _ (hne y (List.mem_append_left l' hy))
  · exact set_of_ne _ _ (hne y (List.mem_append_right l hy))
  · have hnodup := hl.nodup
    rw [List.map_append, List.map_cons] at hnodup ⊢
    exact hnodup

/-- The first cell goes. -/
theorem Linked.unlink_first {h : Heap α} {head : Option ℕ} {x : ℕ × α} {l : List (ℕ × α)}
    (hl : Linked h head (x :: l)) :
    ∃ h' head', h.unlink head x.1 = some (h', head') ∧ Linked h' head' l := by
  have hother : ∀ y ∈ l, y.1 ≠ x.1 := fun y hy => addr_ne_of_nodup hl.nodup hy
  have hnodup : (l.map Prod.fst).Nodup := (List.nodup_cons.mp hl.nodup).2
  obtain ⟨rfl, c, hc, -, -, hrest⟩ := hl.seg
  cases l with
  | nil =>
    have hnext : c.next = none := hrest
    refine ⟨h.free x.1, none, ?_, rfl, hnodup⟩
    simp [Heap.unlink, hc, hnext]
  | cons y l =>
    obtain ⟨hnext, d, hd, hy, -, hrest⟩ := hrest
    refine ⟨(h.set y.1 { d with prev := some none }).free x.1, some y.1, ?_,
      ⟨rfl, { d with prev := some none }, ?_, hy, (fun e he => nomatch he),
      hrest.congr fun z hz => ?_⟩, hnodup⟩
    · simp [Heap.unlink, hc, hnext, setPrev, update_of_some hd]
    · rw [free_of_ne _ (hother y List.mem_cons_self), set_same]
    · rw [free_of_ne _ (hother z (List.mem_cons_of_mem y hz)),
        set_of_ne _ _ (addr_ne_of_nodup hnodup hz)]

/-- A cell behind another one goes. -/
theorem Linked.unlink_behind {h : Heap α} {head : Option ℕ} {p x : ℕ × α} {l l' : List (ℕ × α)}
    (hl : Linked h head (l ++ p :: x :: l')) :
    ∃ h', h.unlink head x.1 = some (h', head) ∧ Linked h' head (l ++ p :: l') := by
  have hsplit : l ++ p :: x :: l' = l ++ [p] ++ x :: l' := by simp
  have hnodup : ((l ++ p :: l').map Prod.fst).Nodup :=
    hl.nodup.sublist (((List.sublist_cons_self x l').cons_cons p).append_left l |>.map Prod.fst)
  have hx : ∀ y ∈ l ++ p :: l', y.1 ≠ x.1 := by
    rw [hsplit] at hl
    simpa using hl.addr_ne
  have hp : ∀ y ∈ l ++ l', y.1 ≠ p.1 := fun y hy => addr_ne_of_nodup (x := p) (by
    rw [List.map_append, List.map_cons, List.nodup_middle, ← List.map_append] at hnodup
    exact hnodup) hy
  have hpx : p.1 ≠ x.1 := hx p (by simp)
  obtain ⟨r, hfront, rfl, c, hc, hcdata, hback, hlast⟩ := seg_append.mp hl.seg
  obtain ⟨hnext, d, hd, -, hprev, hrest⟩ := hlast
  have hhead : head ≠ some x.1 := by
    cases l with
    | nil =>
      rw [show head = some p.1 from hfront]
      exact fun h => hpx (Option.some.inj h)
    | cons y l =>
      rw [hfront.1]
      exact fun h => hx y (by simp) (Option.some.inj h)
  have hdprev : d.prev = some (some p.1) := hprev p.1 rfl
  cases l' with
  | nil =>
    have hdnext : d.next = none := hrest
    refine ⟨(h.set p.1 { c with next := none }).free x.1, ?_, seg_append.mpr ⟨some p.1,
      hfront.congr fun y hy => ?_, rfl, { c with next := none }, ?_, hcdata, hback, rfl⟩, hnodup⟩
    · simp [Heap.unlink, hd, hhead, hdnext, hdprev, setNext, update_of_some hc]
    · rw [free_of_ne _ (hx y (by simp [hy])), set_of_ne _ _ (hp y (by simp [hy]))]
    · rw [free_of_ne _ hpx, set_same]
  | cons n l' =>
    obtain ⟨hdnext, e, he, hedata, -, hrest⟩ := hrest
    have hnp : n.1 ≠ p.1 := hp n (by simp)
    have hset : (h.set p.1 { c with next := some n.1 }) n.1 = some e := by
      rw [set_of_ne _ _ hnp, he]
    refine ⟨((h.set p.1 { c with next := some n.1 }).set n.1
      { e with prev := some (some p.1) }).free x.1, ?_, seg_append.mpr ⟨some p.1,
      hfront.congr fun y hy => ?_, rfl, { c with next := some n.1 }, ?_, hcdata, hback, rfl,
      { e with prev := some (some p.1) }, ?_, hedata, fun q hq => ?_,
      hrest.congr fun y hy => ?_⟩, hnodup⟩
    · simp [Heap.unlink, hd, hhead, hdnext, hdprev, setNext, setPrev, update_of_some hc,
        update_of_some hset]
    · have hyn : y.1 ≠ n.1 := by
        have hsplit := hnodup
        rw [List.map_append, List.map_cons, List.map_cons] at hsplit
        exact fun heq => List.disjoint_of_nodup_append hsplit (List.mem_map_of_mem hy)
          (by rw [heq]; simp)
      rw [free_of_ne _ (hx y (by simp [hy])), set_of_ne _ _ hyn,
        set_of_ne _ _ (hp y (by simp [hy]))]
    · rw [free_of_ne _ hpx, set_of_ne _ _ (Ne.symm hnp), set_same]
    · rw [free_of_ne _ (hx n (by simp)), set_same]
    · rw [← hq]
    · have hyn : y.1 ≠ n.1 := by
        have hsplit := (List.nodup_append.mp (by simpa using hnodup)).2.1
        exact addr_ne_of_nodup (x := n) (List.nodup_cons.mp hsplit).2 hy
      rw [free_of_ne _ (hx y (by simp [hy])), set_of_ne _ _ hyn,
        set_of_ne _ _ (hp y (by simp [hy]))]

/-- A cell of the list goes, and the others stay as they are. -/
theorem Linked.unlink {h : Heap α} {head : Option ℕ} {x : ℕ × α} {l l' : List (ℕ × α)}
    (hl : Linked h head (l ++ x :: l')) :
    ∃ h' head', h.unlink head x.1 = some (h', head') ∧ Linked h' head' (l ++ l') := by
  rcases List.eq_nil_or_concat l with rfl | ⟨l, p, rfl⟩
  · exact hl.unlink_first
  · rw [List.concat_eq_append, List.append_assoc, List.singleton_append] at hl ⊢
    obtain ⟨h', hunlink, hl'⟩ := hl.unlink_behind
    exact ⟨h', head, hunlink, hl'⟩

end Heap

end Lib
