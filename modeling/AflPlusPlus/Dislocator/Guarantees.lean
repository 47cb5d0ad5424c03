import AflPlusPlus.Dislocator.Runs

/-!
# What libdislocator guarantees

Heap errors are caught: an access behind a block or to a freed block is a segmentation fault, and
what is written over a canary is found when the block is freed. A program without heap errors is
never stopped, and it reads from its blocks what an ideal heap would hold.
-/

namespace AflPlusPlus.Dislocator
open Lib PagedMemory

variable {cfg : Config} {pages : PagedMemory} {s t : Client} {a : Action} {b b' new : Block}
  {h k : Heap} {place : Mapping} {len ret ptr i : ℕ} {v : Byte}

/-- The byte is one of the block, of its length or of its canary. -/
def Block.Holds (cfg : Config) (b : Block) (i : ℕ) : Prop :=
  b.ptr cfg ≤ i + 8 ∧ i < b.ptr cfg + b.rlen cfg

/-- What was freed is never handed out again. -/
theorem freed_of_reaches (h : Reaches (run cfg) (Admissible cfg) s t) (hb : b ∈ s.freed) :
    b ∈ t.freed := by
  refine h.invariant (P := fun u => b ∈ u.freed) hb fun u a w hu _ hstep => ?_
  have hreleased : ∀ (x : Client) ptr h, b ∈ x.freed → b ∈ (x.released cfg ptr h).freed := by
    intro x ptr h hx
    rw [Client.released.eq_def]
    cases x.blockAt cfg ptr with
    | none => exact hx
    | some b' => exact List.mem_cons_of_mem _ hx
  have hanswered : ∀ (place : Mapping) len ret h, b ∈ (u.answered place len ret h).freed := by
    intro place len ret h
    rw [Client.answered]
    split_ifs <;> exact hu
  have hstep := Outcome.toOption_eq_some.mp hstep
  cases a with
  | request place r =>
    obtain ⟨⟨ret, h⟩, -, hrest⟩ := Outcome.bind_eq_ok.mp hstep
    obtain rfl := Outcome.ok.inj hrest
    exact hanswered ..
  | resize place ptr r =>
    obtain ⟨⟨ret, h⟩, -, hrest⟩ := Outcome.bind_eq_ok.mp hstep
    dsimp only at hrest
    split_ifs at hrest
    · obtain rfl := Outcome.ok.inj hrest
      exact hu
    · obtain rfl := Outcome.ok.inj hrest
      exact hreleased _ _ _ (hanswered ..)
  | free ptr =>
    obtain ⟨h, -, hrest⟩ := Outcome.bind_eq_ok.mp hstep
    obtain rfl := Outcome.ok.inj hrest
    exact hreleased _ _ _ hu
  | store a v =>
    obtain ⟨-, rfl⟩ := store_step hstep
    exact hu

/-- The page behind a block cannot be accessed. -/
theorem Inv.not_accessible_guard (hi : Inv cfg s) (hb : b ∈ s.live ++ s.freed)
    (hl : b.ptr cfg + b.rlen cfg ≤ i) (hr : i < b.ptr cfg + b.rlen cfg + pageSize) :
    ¬ s.heap.pages.Accessible i := by
  have hpage : i / pageSize = b.page + b.pages cfg := by
    have hone : OneOf (b.page + b.pages cfg) 1 (i / pageSize) := by
      rw [oneOf_iff, Nat.add_one_mul, ← b.ptr_add_rlen]
      exact ⟨hl, hr⟩
    have := hone.1
    have := hone.2
    omega
  rw [Accessible, hpage, hi.guarded b hb]
  exact Bool.false_ne_true

/-- In every state a program reaches, its blocks can be accessed to their last byte and not
further, no two of them share a byte, and from then on what it has freed cannot be accessed. -/
theorem blocks_isolated (hmax : cfg.maxMem + 4120 ≤ 2 ^ 32)
    (h : Reaches (run cfg) (Admissible cfg) (startClient pages) s) :
    (∀ b ∈ s.live,
      (∀ i, b.Holds cfg i → s.heap.pages.Accessible i) ∧
      ∀ i, b.ptr cfg + b.rlen cfg ≤ i → i < b.ptr cfg + b.rlen cfg + pageSize →
        ¬ s.heap.pages.Accessible i) ∧
    s.live.Pairwise (fun b b' => ∀ i, b.Holds cfg i → ¬ b'.Holds cfg i) ∧
    ∀ t, Reaches (run cfg) (Admissible cfg) s t → ∀ b ∈ s.freed, ∀ i,
      b.ptr cfg ≤ i + 8 → i < b.ptr cfg + b.rlen cfg + pageSize → ¬ t.heap.pages.Accessible i := by
  have hi := inv_of_reaches hmax h
  refine ⟨fun b hb => ⟨fun i hh => ?_, fun i => ?_⟩, ?_, fun t ht b hb i hl hr => ?_⟩
  · exact (hi.live hmax hb).accessible hh.1 hh.2
  · exact hi.not_accessible_guard (List.mem_append_left _ hb)
  · refine (List.pairwise_append.mp hi.apart).1.imp fun hapart i hh hh' => ?_
    exact hapart _ (Block.owns_of_mem hh.1 hh.2) (Block.owns_of_mem hh'.1 hh'.2)
  · have hit : Inv cfg t := ht.invariant hi fun _ _ _ hu hok hstep =>
      hu.step hmax hok (Outcome.toOption_eq_some.mp hstep)
    have hbt := freed_of_reaches ht hb
    by_cases hguard : b.ptr cfg + b.rlen cfg ≤ i
    · exact hit.not_accessible_guard (List.mem_append_right _ hbt) hguard hr
    · exact (hit.gone b hbt).not_accessible hl (by omega)

/-- Two live blocks and the first block, which was freed. -/
theorem sampleClient_isolated :
    sampleClient.heap.pages.Accessible 36863 ∧ ¬ sampleClient.heap.pages.Accessible 36864 ∧
      (∀ i, (Block.mk 12 8).Holds sampleConfig i → ¬ (Block.mk 8 9).Holds sampleConfig i) ∧
      ¬ sampleClient.heap.pages.Accessible 8176 := by
  obtain ⟨hlive, hapart, hfreed⟩ := blocks_isolated (by decide) sampleClient_reaches
  have hblocks : sampleClient.live = [⟨12, 8⟩, ⟨8, 9⟩] := by decide
  have hgone : ⟨1, 5⟩ ∈ sampleClient.freed := by decide
  rw [hblocks] at hlive hapart
  obtain ⟨hmem, hguard⟩ := hlive ⟨8, 9⟩ (by decide)
  exact ⟨hmem 36863 ⟨by decide, by decide⟩, hguard 36864 (by decide) (by decide),
    List.rel_of_pairwise_cons hapart (by decide),
    hfreed _ .refl ⟨1, 5⟩ hgone 8176 (by decide) (by decide)⟩

theorem dislocatorAlloc_some {page : ℕ} (hmax : cfg.maxMem < 2 ^ 64)
    (htotal : h.totalMem ≤ cfg.maxMem) (hlen : len < 2 ^ 64)
    (hle : h.totalMem + len ≤ cfg.maxMem) :
    ∃ k, dislocatorAlloc cfg (.pages page) h len = .ok ((Block.mk page len).ptr cfg, k) := by
  have hover : ¬ overLimit cfg h len = true := by
    rw [overLimit_iff hmax htotal hlen]
    omega
  rw [dislocatorAlloc, if_neg hover]
  exact ⟨_, rfl⟩

/-- The memory accounted for is that of the live blocks, and a request for a block is met exactly
when the sum stays within the limit and the kernel gives it pages with a guard page. -/
theorem malloc_met_iff (hmax : cfg.maxMem + 4120 ≤ 2 ^ 32)
    (h : Reaches (run cfg) (Admissible cfg) (startClient pages) s) (hlen : len < 2 ^ 64) :
    s.heap.totalMem = (s.live.map Block.len).sum ∧
    ((∃ ret k, malloc cfg place s.heap len = .ok (ret, k) ∧ ret ≠ 0) ↔
      (∃ page, place = .pages page) ∧ (s.live.map Block.len).sum + len ≤ cfg.maxMem) := by
  have hi := inv_of_reaches hmax h
  have hwithin := hi.within
  refine ⟨hi.total, ?_⟩
  rw [← hi.total]
  constructor
  · rintro ⟨ret, k, hok, hret⟩
    obtain ⟨⟨hnull, -⟩ | ⟨page, rfl, -, hp⟩⟩ := malloc_ok (by omega) hwithin hlen hok
    · exact absurd hnull hret
    · exact ⟨⟨page, rfl⟩, hp.within⟩
  · rintro ⟨⟨page, rfl⟩, hle⟩
    obtain ⟨k, hk⟩ : ∃ k, dislocatorAlloc cfg (.pages page) s.heap len =
        .ok ((Block.mk page len).ptr cfg, k) :=
      dislocatorAlloc_some (by omega) hwithin hlen hle
    refine ⟨(Block.mk page len).ptr cfg, clobber ((Block.mk page len).ptr cfg) k len, ?_,
      Nat.ne_of_gt (Block.ptr_pos cfg _)⟩
    rw [malloc, hk, Outcome.ok_bind]
    rfl

theorem sampleClient_refused :
    ¬ ∃ ret k, malloc sampleConfig (.pages 20) sampleClient.heap 60 = .ok (ret, k) ∧ ret ≠ 0 := by
  intro hmet
  have hmet := (malloc_met_iff (by decide) sampleClient_reaches (by decide)).2.mp hmet
  exact absurd hmet.2 (by decide)

/-- `malloc_usable_size` of a live block is the length that was asked for. -/
theorem mallocUsableSize_live (hmax : cfg.maxMem + 4120 ≤ 2 ^ 32)
    (h : Reaches (run cfg) (Admissible cfg) (startClient pages) s) (hb : b ∈ s.live) :
    mallocUsableSize s.heap (b.ptr cfg) = .ok b.len := by
  have hlive := (inv_of_reaches hmax h).live hmax hb
  rw [mallocUsableSize, if_neg (Nat.ne_of_gt (b.ptr_pos cfg)), hlive.load_len, Outcome.ok_bind,
    hlive.toNat_len]
  rfl

/-- A block is freed exactly when nothing was written before or behind it; otherwise the program is
stopped, and so it is with the old block of a change of size. A block that was freed before is a
segmentation fault. -/
theorem heap_errors_caught (hmax : cfg.maxMem + 4120 ≤ 2 ^ 32)
    (h : Reaches (run cfg) (Admissible cfg) (startClient pages) s) :
    (∀ b ∈ s.live, free cfg s.heap (b.ptr cfg) =
      if Intact cfg s.heap.pages b then .ok (s.heap.without cfg b) else .abort) ∧
    (∀ b ∈ s.freed, free cfg s.heap (b.ptr cfg) = .fault) ∧
    ∀ page len, len < 2 ^ 64 → Fresh cfg s.heap.pages (.pages page) len →
      (s.live.map Block.len).sum + len ≤ cfg.maxMem →
      (∀ b ∈ s.live,
        (Intact cfg s.heap.pages b → ∃ k, realloc cfg (.pages page) s.heap (b.ptr cfg) len =
          .ok ((Block.mk page len).ptr cfg, k)) ∧
        (¬ Intact cfg s.heap.pages b →
          realloc cfg (.pages page) s.heap (b.ptr cfg) len = .abort)) ∧
      ∀ b ∈ s.freed, realloc cfg (.pages page) s.heap (b.ptr cfg) len = .fault := by
  have hi := inv_of_reaches hmax h
  refine ⟨fun b hb => free_live (hi.live hmax hb), fun b hb => free_gone (hi.gone b hb),
    fun page len hlen hfresh hle => ?_⟩
  obtain ⟨ret, k, hok, hret⟩ := (malloc_met_iff hmax h hlen).2.mpr
    ⟨⟨page, rfl⟩, hle⟩
  obtain ⟨⟨hnull, -⟩ | ⟨page', hpage, rfl, hp⟩⟩ := malloc_ok (by omega) hi.within hlen hok
  · exact absurd hnull hret
  · obtain rfl := Mapping.pages.inj hpage
    have hfresh := hfresh page rfl
    refine ⟨fun b hb => ?_, fun b hb => realloc_gone hi hok hp hfresh hb⟩
    rw [realloc_live hmax hi hok hp hfresh hb]
    exact ⟨fun hintact => ⟨_, if_pos hintact⟩, fun hnot => if_neg hnot⟩

/-- A second `free`, a resize of a freed block and one of a live block. -/
theorem sampleClient_doubleFree : free sampleConfig sampleClient.heap 8176 = .fault ∧
    realloc sampleConfig (.pages 20) sampleClient.heap 8176 9 = .fault ∧
    ∃ k, realloc sampleConfig (.pages 20) sampleClient.heap 36848 20 = .ok (86016 - 32, k) := by
  obtain ⟨-, hfree, hresize⟩ := heap_errors_caught (by decide) sampleClient_reaches
  have hgone : ⟨1, 5⟩ ∈ sampleClient.freed := by decide
  have hlive : ⟨8, 9⟩ ∈ sampleClient.live := by decide
  refine ⟨hfree ⟨1, 5⟩ hgone, ?_, ?_⟩
  · exact (hresize 20 9 (by decide) (by decide) (by decide)).2 ⟨1, 5⟩ hgone
  · exact ((hresize 20 20 (by decide) (by decide) (by decide)).1 ⟨8, 9⟩ hlive).1 (by decide)

/-- The null pointer, or the pointer of a live block. -/
def Held (cfg : Config) (s : Client) (ptr : ℕ) : Prop := ptr = 0 ∨ ∃ b ∈ s.live, b.ptr cfg = ptr

/-- Sizes that do not overflow, and no division by an alignment of 0. -/
def Request.Proper : Request → Prop
  | .malloc _ => True
  | .calloc elemLen elemCnt => elemLen * elemCnt < 2 ^ 64
  | .memalign align len => align = 0 → len = 0
  | .alignedAlloc align _ => align ≠ 0

/-- A step without a heap error: what is freed is live, and what is written is a byte of a live
block or none of the heap's. The kernel protects the guard page of whatever it maps. -/
def Disciplined (cfg : Config) (s : Client) : Action → Prop
  | .request place r =>
    place ≠ .unguarded ∧ r.Sized ∧ r.Proper ∧ Fresh cfg s.heap.pages place r.len
  | .resize place ptr r =>
    place ≠ .unguarded ∧ r.Sized ∧ Fresh cfg s.heap.pages place r.len ∧ Held cfg s ptr
  | .free ptr => Held cfg s ptr
  | .store a _ =>
    (∃ b ∈ s.live, b.ptr cfg ≤ a ∧ a < b.ptr cfg + b.len) ∨
      s.heap.pages.Accessible a ∧ ∀ b ∈ s.live, ¬ b.Owns cfg (a / pageSize)

instance (cfg : Config) (s : Client) (ptr : ℕ) : Decidable (Held cfg s ptr) :=
  inferInstanceAs (Decidable (_ ∨ _))

instance : (r : Request) → Decidable r.Proper
  | .malloc _ => inferInstanceAs (Decidable True)
  | .calloc elemLen elemCnt => inferInstanceAs (Decidable (elemLen * elemCnt < 2 ^ 64))
  | .memalign align len => inferInstanceAs (Decidable (align = 0 → len = 0))
  | .alignedAlloc align _ => inferInstanceAs (Decidable (align ≠ 0))

instance (cfg : Config) (s : Client) : (a : Action) → Decidable (Disciplined cfg s a)
  | .request _ _ => inferInstanceAs (Decidable (_ ∧ _ ∧ _ ∧ _))
  | .resize _ _ _ => inferInstanceAs (Decidable (_ ∧ _ ∧ _ ∧ _))
  | .free _ => inferInstanceAs (Decidable (Held ..))
  | .store _ _ => inferInstanceAs (Decidable ((∃ b ∈ s.live, _) ∨ _))

theorem Held.known (hheld : Held cfg s ptr) : Known cfg s ptr :=
  hheld.imp_right fun ⟨b, hb, heq⟩ => ⟨b, .inl hb, heq⟩

/-- A byte of one block is none of another. -/
theorem Inv.eq_of_holds (hi : Inv cfg s) (hb : b ∈ s.live) (hb' : b' ∈ s.live)
    (hh : b.Holds cfg i) (hh' : b'.Holds cfg i) : b = b' := by
  obtain rfl | hapart := hi.eq_or_apart (List.mem_append_left _ hb) (List.mem_append_left _ hb')
  · rfl
  · exact absurd (Block.owns_of_mem hh'.1 hh'.2) (hapart _ (Block.owns_of_mem hh.1 hh.2))

/-- A disciplined store writes no length, no canary and no tail. -/
theorem Disciplined.store_out {a : ℕ} (hi : Inv cfg s) (hok : Disciplined cfg s (.store a v))
    (hb : b ∈ s.live) (hh : b.Holds cfg a) : b.ptr cfg ≤ a ∧ a < b.ptr cfg + b.len := by
  obtain ⟨b', hb', hl, hr⟩ | ⟨-, hout⟩ := hok
  · have hlen : b'.len ≤ b'.rlen cfg := len_le_roundedLen cfg b'.len
    obtain rfl := hi.eq_of_holds hb hb' hh ⟨by omega, by omega⟩
    exact ⟨hl, hr⟩
  · exact absurd (Block.owns_of_mem hh.1 hh.2) (hout b hb)

theorem Disciplined.admissible (hi : Inv cfg s) (hok : Disciplined cfg s a) :
    Admissible cfg s a := by
  cases a with
  | request place r => exact ⟨hok.2.1, hok.2.2.2⟩
  | resize place ptr r => exact ⟨hok.2.1, hok.2.2.1, hok.2.2.2.known⟩
  | free ptr => exact Held.known hok
  | store a v =>
    intro b hb hin
    have := Disciplined.store_out hi hok hb ⟨hin.1, by omega⟩
    omega

/-- Nothing was written before or behind a live block. -/
def AllIntact (cfg : Config) (s : Client) : Prop := ∀ b ∈ s.live, Intact cfg s.heap.pages b

theorem Placed.intact (hp : Placed cfg h b v k) : Intact cfg k.pages b := by
  refine ⟨hp.canary, fun i hi => ?_⟩
  obtain ⟨hl, hr⟩ := List.mem_range'_1.mp hi
  exact hp.tail i hl (by omega)

theorem Placed.intact_moved (hp : Placed cfg h new v k) :
    Intact cfg (moved cfg k new b).pages new := by
  refine (intact_congr fun i hl hr hout => mem_copy_of_not ?_).mpr hp.intact
  have hmin : min new.len b.len ≤ new.len := Nat.min_le_left ..
  omega

theorem intact_without : Intact cfg (h.without cfg b').pages b ↔ Intact cfg h.pages b :=
  intact_congr fun _ _ _ _ => congrFun mem_protect _

theorem AllIntact.step (hmax : cfg.maxMem + 4120 ≤ 2 ^ 32) (hi : Inv cfg s)
    (hs : AllIntact cfg s) (hok : Disciplined cfg s a) (hstep : step cfg s a = .ok t) :
    AllIntact cfg t := by
  have hadm := hok.admissible hi
  cases a with
  | request place r =>
    obtain rfl | ⟨page, k, rfl, hp, rfl⟩ := request_step hmax hi hadm hstep
    · exact hs
    · intro b hb
      obtain rfl | hb := List.mem_cons.mp hb
      · exact hp.intact
      · exact (intact_congr fun i hl hr _ =>
          hi.mem_placed hp (hadm.2 page rfl) hb hl hr).mpr (hs b hb)
  | resize place ptr r =>
    obtain rfl | ⟨page, k, rfl, hp, ⟨-, rfl⟩ | ⟨old, hold, -, -, rfl⟩⟩ :=
      resize_step hmax hi hadm hstep
    · exact hs
    · intro b hb
      obtain rfl | hb := List.mem_cons.mp hb
      · exact hp.intact
      · exact (intact_congr fun i hl hr _ =>
          hi.mem_placed hp (hadm.2.1 page rfl) hb hl hr).mpr (hs b hb)
    · intro b hb
      refine intact_without.mpr ?_
      obtain rfl | hb := List.mem_cons.mp (List.mem_of_mem_erase hb)
      · exact hp.intact_moved
      · exact (intact_congr fun i hl hr _ =>
          hi.mem_moved hp (hadm.2.1 page rfl) hb hl hr).mpr (hs b hb)
  | free ptr =>
    obtain ⟨-, rfl⟩ | ⟨old, hold, -, -, rfl⟩ := free_step hmax hi hadm hstep
    · exact hs
    · exact fun b hb => intact_without.mpr (hs b (List.mem_of_mem_erase hb))
  | store a v =>
    obtain ⟨-, rfl⟩ := store_step hstep
    intro b hb
    refine (intact_congr fun i hl hr hout => mem_fill_of_not ?_).mpr (hs b hb)
    by_contra hin
    obtain rfl : i = a := by omega
    have := Disciplined.store_out hi hok hb ⟨hl, hr⟩
    omega

section
variable (hsoft : cfg.hardFail = false)
include hsoft

theorem dislocatorAlloc_returns (hplace : place ≠ .unguarded) :
    ∃ x, dislocatorAlloc cfg place h len = .ok x := by
  have hhard : ¬ cfg.hardFail = true := by
    rw [hsoft]
    exact Bool.false_ne_true
  rw [dislocatorAlloc.eq_def]
  by_cases hover : overLimit cfg h len = true
  · rw [if_pos hover, if_neg hhard]
    exact ⟨_, rfl⟩
  · rw [if_neg hover]
    cases place with
    | failed => exact ⟨_, if_neg hhard⟩
    | unguarded => exact absurd rfl hplace
    | pages page => exact ⟨_, rfl⟩

theorem malloc_returns (hplace : place ≠ .unguarded) : ∃ x, malloc cfg place h len = .ok x := by
  obtain ⟨x, hx⟩ : ∃ x, dislocatorAlloc cfg place h len = .ok x :=
    dislocatorAlloc_returns hsoft hplace
  rw [malloc, hx]
  exact ⟨_, rfl⟩

theorem memalign_returns {align : ℕ} (hplace : place ≠ .unguarded) (hok : align = 0 → len = 0) :
    ∃ x, memalign cfg place h align len = .ok x := by
  obtain ⟨x, hx⟩ : ∃ x, dislocatorAlloc cfg place h (alignedLen align len) = .ok x :=
    dislocatorAlloc_returns hsoft hplace
  rw [memalign, posixMemalign]
  split_ifs with hmul hlen halign
  · exact ⟨_, rfl⟩
  · exact ⟨_, rfl⟩
  · exact absurd (hok halign) hlen
  · rw [hx]
    exact ⟨_, rfl⟩

theorem request_returns {r : Request} (hplace : place ≠ .unguarded) (hok : r.Proper) :
    ∃ x, request cfg place h r = .ok x := by
  cases r with
  | malloc len => exact malloc_returns hsoft hplace
  | calloc elemLen elemCnt =>
    rw [request, calloc, Nat.mod_eq_of_lt hok, if_neg]
    · exact dislocatorAlloc_returns hsoft hplace
    · rintro ⟨hcnt, hne⟩
      exact hne (Nat.mul_div_cancel _ (Nat.pos_of_ne_zero hcnt))
  | memalign align len => exact memalign_returns hsoft hplace hok
  | alignedAlloc align len =>
    rw [request, alignedAlloc, if_neg hok]
    split_ifs
    · exact ⟨_, rfl⟩
    · exact memalign_returns hsoft hplace fun h => absurd h hok

theorem realloc_returns (hmax : cfg.maxMem + 4120 ≤ 2 ^ 32) (hi : Inv cfg s)
    (hs : AllIntact cfg s) (hplace : place ≠ .unguarded) (hlen : len < 2 ^ 64)
    (hfresh : Fresh cfg s.heap.pages place len) (hheld : Held cfg s ptr) :
    ∃ x, realloc cfg place s.heap ptr len = .ok x := by
  obtain ⟨⟨ret, k⟩, hmalloc⟩ : ∃ x, malloc cfg place s.heap len = .ok x :=
    malloc_returns hsoft hplace
  obtain ⟨⟨rfl, rfl⟩ | ⟨page, hpage, rfl, hp⟩⟩ := malloc_ok (by omega) hi.within hlen hmalloc
  · rw [realloc, hmalloc, Outcome.ok_bind]
    exact ⟨_, if_neg fun h => h.1 rfl⟩
  · obtain rfl | ⟨b, hb, rfl⟩ := hheld
    · exact ⟨_, realloc_null hmalloc⟩
    · rw [realloc_live hmax hi hmalloc hp (hfresh page hpage) hb, if_pos (hs b hb)]
      exact ⟨_, rfl⟩

theorem step_returns (hmax : cfg.maxMem + 4120 ≤ 2 ^ 32) (hi : Inv cfg s) (hs : AllIntact cfg s)
    (hok : Disciplined cfg s a) : ∃ t, step cfg s a = .ok t := by
  cases a with
  | request place r =>
    obtain ⟨x, hx⟩ : ∃ x, request cfg place s.heap r = .ok x :=
      request_returns hsoft hok.1 hok.2.2.1
    rw [step, hx]
    exact ⟨_, rfl⟩
  | resize place ptr r =>
    obtain ⟨hplace, hsized, hfresh, hheld⟩ := hok
    have hres : ∃ x, resize cfg place s.heap ptr r = .ok x := by
      cases r with
      | realloc len => exact realloc_returns hsoft hmax hi hs hplace hsized hfresh hheld
      | reallocarray elemLen elemCnt =>
        rw [resize, reallocarray]
        split_ifs
        · exact ⟨_, rfl⟩
        · exact realloc_returns hsoft hmax hi hs hplace (Nat.mod_lt _ (by decide)) hfresh hheld
    obtain ⟨⟨ret, k⟩, hx⟩ := hres
    rw [step, hx, Outcome.ok_bind]
    dsimp only
    split_ifs <;> exact ⟨_, rfl⟩
  | free ptr =>
    obtain rfl | ⟨b, hb, rfl⟩ := hok
    · exact ⟨_, rfl⟩
    · rw [step, free_live (hi.live hmax hb), if_pos (hs b hb)]
      exact ⟨_, rfl⟩
  | store a v =>
    rw [step]
    refine ⟨_, if_pos ?_⟩
    obtain ⟨b, hb, hl, hr⟩ | ⟨hacc, -⟩ := hok
    · have hlen : b.len ≤ b.rlen cfg := len_le_roundedLen cfg b.len
      exact (hi.live hmax hb).accessible (by omega) (by omega)
    · exact hacc

/-- A program without heap errors is never stopped. -/
theorem disciplined_not_stopped (hmax : cfg.maxMem + 4120 ≤ 2 ^ 32)
    (h : Reaches (run cfg) (Disciplined cfg) (startClient pages) s) (hok : Disciplined cfg s a) :
    ∃ t, step cfg s a = .ok t := by
  have hs : Inv cfg s ∧ AllIntact cfg s := by
    refine h.invariant (P := fun u => Inv cfg u ∧ AllIntact cfg u)
      ⟨Inv.start pages, fun _ hb => absurd hb List.not_mem_nil⟩ fun u a w hu hok hstep => ?_
    have hstep := Outcome.toOption_eq_some.mp hstep
    exact ⟨hu.1.step hmax (hok.admissible hu.1) hstep, hu.2.step hmax hu.1 hok hstep⟩
  exact step_returns hsoft hmax hs.1 hs.2 hok

end

theorem sampleClient_returns :
    ∃ t, step sampleConfig
      ((exec (run sampleConfig) (Disciplined sampleConfig) (startClient blank) sampleActions).getD
        (startClient blank)) (.free 36848) = .ok t :=
  disciplined_not_stopped rfl (by decide) (reaches_exec (by decide)) (by decide)

end AflPlusPlus.Dislocator
