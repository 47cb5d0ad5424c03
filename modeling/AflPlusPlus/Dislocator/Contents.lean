import AflPlusPlus.Dislocator.Runs

/-!
# The heap a program sees

An ideal heap gives every block bytes of its own. What a program reads from its live blocks under
libdislocator is what the ideal heap holds, whatever it writes where: a store that lands outside the
live blocks never changes what is read from them.
-/

namespace AflPlusPlus.Dislocator
open Lib PagedMemory

/-- The bytes of every block. -/
abbrev Contents := Block → List Byte

/-- The bytes of a block that takes the place of another. -/
def resized (old : List Byte) (len : ℕ) : List Byte :=
  old.take len ++ List.replicate (len - old.length) allocClobber

/-- A new block gets bytes; a store changes a byte of the block it lands in. -/
def idealStep (cfg : Config) (s : Client) (c : Contents) : Action → Contents
  | .request place r =>
    match place with
    | .pages page => Function.update c ⟨page, r.len⟩ (List.replicate r.len r.byte)
    | .failed => c
    | .unguarded => c
  | .resize place ptr r =>
    match place with
    | .pages page =>
      Function.update c ⟨page, r.len⟩ (resized ((s.blockAt cfg ptr).elim [] c) r.len)
    | .failed => c
    | .unguarded => c
  | .free _ => c
  | .store a v => fun b => if b.ptr cfg ≤ a then (c b).set (a - b.ptr cfg) v else c b

/-- Both heaps take the step. -/
def bothStep (cfg : Config) (x : Client × Contents) (a : Action) : Option (Client × Contents) :=
  (run cfg x.1 a).map fun t => (t, idealStep cfg x.1 x.2 a)

def bytes (cfg : Config) (m : PagedMemory) (b : Block) : List Byte :=
  (List.range b.len).map fun i => m.mem (b.ptr cfg + i)

/-- The program reads what the ideal heap holds. -/
def Agree (cfg : Config) (s : Client) (c : Contents) : Prop :=
  ∀ b ∈ s.live, bytes cfg s.heap.pages b = c b

variable {cfg : Config} {s t : Client} {c : Contents} {a : Action} {b b' new : Block} {k : Heap}
  {m m' : PagedMemory} {v : Byte}

@[simp]
theorem length_bytes : (bytes cfg m b).length = b.len := by
  rw [bytes, List.length_map, List.length_range]

theorem getElem_bytes {i : ℕ} (hi : i < (bytes cfg m b).length) :
    (bytes cfg m b)[i] = m.mem (b.ptr cfg + i) := by
  simp [bytes]

theorem bytes_congr (h : ∀ i, i < b.len → m'.mem (b.ptr cfg + i) = m.mem (b.ptr cfg + i)) :
    bytes cfg m' b = bytes cfg m b :=
  List.map_congr_left fun i hi => h i (List.mem_range.mp hi)

theorem bytes_placed {h : Heap} (hp : Placed cfg h b v k) :
    bytes cfg k.pages b = List.replicate b.len v := by
  refine List.eq_replicate_iff.mpr ⟨length_bytes, fun x hx => ?_⟩
  obtain ⟨i, hi, rfl⟩ := List.mem_map.mp hx
  exact hp.body i (List.mem_range.mp hi)

/-- The new block holds the first bytes of the old one. -/
theorem bytes_moved {h : Heap} (hp : Placed cfg h new allocClobber k) :
    bytes cfg (moved cfg k new b).pages new = resized (bytes cfg k.pages b) new.len := by
  apply List.ext_getElem
  · rw [length_bytes, resized, List.length_append, List.length_take, List.length_replicate,
      length_bytes]
    omega
  · intro i hi hi'
    have hnew : i < new.len := by rwa [length_bytes] at hi
    rw [getElem_bytes]
    by_cases hold : i < b.len
    · have hleft : (moved cfg k new b).pages.mem (new.ptr cfg + i) =
          k.pages.mem (b.ptr cfg + (new.ptr cfg + i - new.ptr cfg)) :=
        mem_copy_of_mem (by omega) (by omega)
      rw [hleft, Nat.add_sub_cancel_left]
      have hlt : i < ((bytes cfg k.pages b).take new.len).length := by
        rw [List.length_take, length_bytes]
        omega
      simp only [resized]
      rw [List.getElem_append_left hlt, List.getElem_take, getElem_bytes]
    · have hleft : (moved cfg k new b).pages.mem (new.ptr cfg + i) =
          k.pages.mem (new.ptr cfg + i) := mem_copy_of_not (by omega)
      have hle : ((bytes cfg k.pages b).take new.len).length ≤ i := by
        rw [List.length_take, length_bytes]
        omega
      simp only [resized]
      rw [hleft, hp.body i hnew, List.getElem_append_right hle, List.getElem_replicate]

/-- A store changes the byte it lands on. -/
theorem bytes_fill {a : ℕ} : bytes cfg (m.fill a 1 v) b =
    if b.ptr cfg ≤ a then (bytes cfg m b).set (a - b.ptr cfg) v else bytes cfg m b := by
  split_ifs with hle
  · apply List.ext_getElem
    · rw [length_bytes, List.length_set, length_bytes]
    · intro i hi hi'
      rw [getElem_bytes, List.getElem_set, getElem_bytes]
      split_ifs with heq
      · exact mem_fill_of_mem (by omega) (by omega)
      · exact mem_fill_of_not (by omega)
  · exact bytes_congr fun i hi => mem_fill_of_not (by omega)

/-- A block on fresh pages is not live yet. -/
theorem Inv.ne_of_fresh (hi : Inv cfg s)
    (hfresh : FreshBlock cfg s.heap.pages new) (hb : b ∈ s.live) : b ≠ new := by
  rintro rfl
  have hmapped := hi.mapped b (List.mem_append_left _ hb) _ Block.owns_guard
  rw [hfresh _ Block.owns_guard] at hmapped
  exact Bool.false_ne_true hmapped

/-- The old bytes, when there is an old block. -/
theorem elim_blockAt (hi : Inv cfg s) (hs : Agree cfg s c) (hb : b ∈ s.live) :
    (s.blockAt cfg (b.ptr cfg)).elim [] c = bytes cfg s.heap.pages b := by
  rw [hi.blockAt hb, Option.elim_some, hs b hb]

theorem Agree.update (hi : Inv cfg s) (hs : Agree cfg s c) {l : List Byte}
    (hfresh : FreshBlock cfg s.heap.pages new) :
    Agree cfg s (Function.update c new l) := by
  intro b hb
  rw [Function.update_of_ne (hi.ne_of_fresh hfresh hb)]
  exact hs b hb

theorem Agree.adopt {l : List Byte} (hi : Inv cfg s) (hs : Agree cfg s c)
    (hfresh : FreshBlock cfg s.heap.pages new)
    (hnew : bytes cfg k.pages new = l)
    (hold : ∀ b ∈ s.live, ∀ i, b.ptr cfg ≤ i + 8 → i < b.ptr cfg + b.rlen cfg →
      k.pages.mem i = s.heap.pages.mem i) :
    Agree cfg (s.adopt new k) (Function.update c new l) := by
  intro b hb
  obtain rfl | hb := List.mem_cons.mp hb
  · rw [Function.update_self]
    exact hnew
  · have hlen : b.len ≤ b.rlen cfg := len_le_roundedLen cfg b.len
    rw [Function.update_of_ne (hi.ne_of_fresh hfresh hb), ← hs b hb]
    exact bytes_congr fun i hi => hold b hb _ (by omega) (by omega)

theorem Agree.giveBack (hs : Agree cfg s c) (hmem : k.pages.mem = s.heap.pages.mem) :
    Agree cfg (s.giveBack b k) c := by
  intro b' hb'
  rw [← hs b' (List.mem_of_mem_erase hb')]
  exact bytes_congr fun i _ => congrFun hmem _

theorem mem_without : (k.without cfg b).pages.mem = k.pages.mem := rfl

theorem Agree.step (hmax : cfg.maxMem + 4120 ≤ 2 ^ 32) (hi : Inv cfg s) (hs : Agree cfg s c)
    (hok : Admissible cfg s a) (hstep : step cfg s a = .ok t) :
    Agree cfg t (idealStep cfg s c a) := by
  cases a with
  | request place r =>
    obtain rfl | ⟨page, k, rfl, hp, rfl⟩ := request_step hmax hi hok hstep
    · cases place with
      | failed => exact hs
      | unguarded => exact hs
      | pages page => exact hs.update hi (hok.2 page rfl)
    · have hfresh := hok.2 page rfl
      exact hs.adopt hi hfresh (bytes_placed hp) fun b hb i => hi.mem_placed hp hfresh hb
  | resize place ptr r =>
    obtain rfl | ⟨page, k, rfl, hp, ⟨rfl, rfl⟩ | ⟨b, hb, rfl, -, rfl⟩⟩ :=
      resize_step hmax hi hok hstep
    · cases place with
      | failed => exact hs
      | unguarded => exact hs
      | pages page => exact hs.update hi (hok.2.1 page rfl)
    · have hfresh := hok.2.1 page rfl
      refine hs.adopt hi hfresh ?_ fun b hb i => hi.mem_placed hp hfresh hb
      rw [Inv.blockAt_null, bytes_placed hp]
      simp [resized]
    · have hfresh := hok.2.1 page rfl
      refine Agree.giveBack (hs.adopt hi hfresh ?_ fun b hb i => hi.mem_moved hp hfresh hb)
        mem_without
      have hlen : b.len ≤ b.rlen cfg := len_le_roundedLen cfg b.len
      have hsame : bytes cfg k.pages b = bytes cfg s.heap.pages b :=
        bytes_congr fun i hi' => hi.mem_placed hp hfresh hb (by omega) (by omega)
      rw [elim_blockAt hi hs hb, ← hsame]
      exact bytes_moved hp
  | free ptr =>
    obtain ⟨-, rfl⟩ | ⟨b, hb, -, -, rfl⟩ := free_step hmax hi hok hstep
    · exact hs
    · exact hs.giveBack mem_without
  | store a v =>
    obtain ⟨-, rfl⟩ := store_step hstep
    intro b hb
    have hsb : bytes cfg s.heap.pages b = c b := hs b hb
    refine bytes_fill.trans ?_
    rw [hsb]
    rfl

/-- What a program reads from its live blocks is what the ideal heap holds. -/
theorem contents_agree {pages : PagedMemory} {x : Client × Contents}
    (hmax : cfg.maxMem + 4120 ≤ 2 ^ 32)
    (h : Reaches (bothStep cfg) (fun x => Admissible cfg x.1) (startClient pages, c) x)
    (hb : b ∈ x.1.live) : bytes cfg x.1.heap.pages b = x.2 b := by
  have hboth : Inv cfg x.1 ∧ Agree cfg x.1 x.2 := by
    refine h.invariant (P := fun x => Inv cfg x.1 ∧ Agree cfg x.1 x.2)
      ⟨Inv.start pages, fun _ hb => absurd hb List.not_mem_nil⟩ fun x a y hx hok hstep => ?_
    obtain ⟨t, ht, rfl⟩ := Option.map_eq_some_iff.mp hstep
    have ht := Outcome.toOption_eq_some.mp ht
    exact ⟨hx.1.step hmax hok ht, hx.2.step hmax hx.1 hok ht⟩
  exact hboth.2 b hb

def sampleBoth : Client × Contents :=
  (exec (bothStep sampleConfig) (fun x => Admissible sampleConfig x.1)
    (startClient blank, fun _ => []) sampleActions).getD (startClient blank, fun _ => [])

/-- The block that grew holds the byte that was written and four of the old bytes. -/
theorem sampleBoth_contents :
    bytes sampleConfig sampleBoth.1.heap.pages ⟨8, 9⟩ =
      [7, 0xCC, 0xCC, 0xCC, 0xCC, 0xCC, 0xCC, 0xCC, 0xCC] := by
  have hreach : Reaches (bothStep sampleConfig) (fun x => Admissible sampleConfig x.1)
      (startClient blank, fun _ => []) sampleBoth := reaches_exec (by decide)
  have hideal : sampleBoth.2 ⟨8, 9⟩ =
      [7, 0xCC, 0xCC, 0xCC, 0xCC, 0xCC, 0xCC, 0xCC, 0xCC] := by decide
  exact (contents_agree (by decide) hreach (by decide)).trans hideal

end AflPlusPlus.Dislocator
