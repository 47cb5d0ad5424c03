import AflPlusPlus.Mutation.Agreement
import AflPlusPlus.Mutation.Checked

/-!
# The operators stay in their buffers

The rules for the accesses and draws of the library mutator, and what each operator on bytes, blocks
and tokens makes of the length: it stays between one and the size of the buffer.
-/

namespace AflPlusPlus.Mutation
open Lib Lib.Stopping

/-- An operator stops only when the draws end, or to ask for another one. -/
def Harmless (e : MutateHalt) : Prop := e = .noDraws ∨ e = .retry

/-- The length of the data is allowed. -/
structure InRange (a : Arena) (s : Library) : Prop where
  pos : 1 ≤ s.len
  le : s.len ≤ a.maxLen

/-- The operator leaves an allowed length. -/
abbrev KeepsRange (a : Arena) (m : Checked Library) : Prop :=
  ∀ ds, Ensures Harmless m ds fun s' _ => InRange a s'

/-! ### Rules -/

section Rules

variable {a : Arena} {s s' : Library} {α β : Type} {ds : Draws} {i d o n : ℕ}

theorem add32_eq {x y : ℕ} (h : x + y < 2 ^ 32) : add32 x y = x + y := Nat.mod_eq_of_lt h

theorem sub32_eq {x y : ℕ} (hle : y ≤ x) (hx : x < 2 ^ 32) : sub32 x y = x - y := by
  unfold sub32
  omega

/-- What is added to a length fits into a `u32`. -/
theorem InRange.lt (h : InRange a s) (hmaxLen : a.maxLen + havocBlkXl < 2 ^ 32) :
    s.len + havocBlkXl < 2 ^ 32 :=
  lt_of_le_of_lt (Nat.add_le_add_right h.le _) hmaxLen

theorem ensures_retry {post : α → Draws → Prop} :
    Ensures Harmless (stop .retry : Checked α) ds post := Ensures.stop (.inr rfl)

theorem ensures_draw {m : Rand α} {P : α → Prop} (h : Returns m P) :
    Ensures Harmless (draw m) ds fun x _ => P x := by
  unfold draw
  constructor
  · intro x ds' hrun
    split at hrun
    · cases hrun
    · rename_i y ds'' hm
      cases hrun
      exact h ds x ds' hm
  · intro e ds' hrun
    split at hrun
    · cases hrun
      exact .inl rfl
    · cases hrun

/-- What is drawn from `n` numbers. -/
theorem draw_bind {m : Rand α} {P : α → Prop} (h : Returns m P) {f : α → Checked β}
    {post : β → Draws → Prop} (hf : ∀ x ds', P x → Ensures Harmless (f x) ds' post) :
    Ensures Harmless (draw m >>= f) ds post :=
  (ensures_draw h).bind fun x ds' hx => hf x ds' hx

theorem rand_bind {limit : ℕ} (h : 0 < limit) {f : ℕ → Checked β} {post : β → Draws → Prop}
    (hf : ∀ x ds', x < limit → Ensures Harmless (f x) ds' post) :
    Ensures Harmless (rand limit >>= f) ds post := draw_bind (randBelow_lt h) hf

/-- The positions at which a block of `len` bytes fits. -/
theorem rand_fit_bind {cap len : ℕ} (hlen : len ≤ cap) (hpos : 1 ≤ len) (hcap : cap < 2 ^ 32)
    {f : ℕ → Checked β} {post : β → Draws → Prop}
    (hf : ∀ x ds', x + len ≤ cap → Ensures Harmless (f x) ds' post) :
    Ensures Harmless (rand (add32 (sub32 cap len) 1) >>= f) ds post := by
  rw [sub32_eq hlen hcap, add32_eq (by omega)]
  exact rand_bind (Nat.succ_pos _) fun x ds' hx => hf x ds' (by omega)

/-- `choose_block_len` returns a length even when there is no room. -/
theorem chooseBlockLen_range (afl : Afl) (limit : ℕ) :
    Returns (chooseBlockLen afl limit) fun n => 1 ≤ n ∧ n ≤ max limit 1 := by
  rcases Nat.eq_zero_or_pos limit with rfl | hpos
  · refine (blockBounds_pos afl).bind fun b hb => ?_
    obtain ⟨minValue, maxValue⟩ := b
    refine (randBelow_lt (Nat.succ_pos _)).bind fun x hx => .pure ?_
    simp only [ge_iff_le, Nat.zero_le, if_true, Nat.min_zero] at hx ⊢
    omega
  · exact (chooseBlockLen_le afl hpos).mono fun n hn => ⟨hn.1, hn.2.trans (le_max_left _ _)⟩

/-- A block is not longer than the largest one. -/
theorem chooseBlockLen_le_xl (afl : Afl) (limit : ℕ) :
    Returns (chooseBlockLen afl limit) fun n => n ≤ havocBlkXl := by
  have hbounds :
      Returns (blockBounds afl) fun b => b.1 ≤ havocBlkXl ∧ b.2 ≤ havocBlkXl ∧ 1 ≤ b.2 := by
    have hany : ∀ limit, Returns (randBelow limit) fun _ => True := fun _ _ _ _ _ => trivial
    refine (hany _).bind fun r _ => ?_
    split
    · exact .pure (by decide)
    · exact .pure (by decide)
    · refine (hany 10).bind fun x _ => ?_
      split
      · exact .pure (by decide)
      · exact .pure (by decide)
  refine hbounds.bind fun b hb => ?_
  obtain ⟨minValue, maxValue⟩ := b
  refine (randBelow_lt (Nat.succ_pos _)).bind fun x hx => .pure ?_
  dsimp only at hb
  split
  · rename_i hlarge
    rw [if_pos hlarge] at hx
    unfold havocBlkXl at hb ⊢
    omega
  · rename_i hlarge
    rw [if_neg hlarge] at hx
    omega

theorem pick_bind {limit : ℕ} (h : 1 ≤ limit) {f : ℕ → Checked β} {post : β → Draws → Prop}
    (hf : ∀ n ds', 1 ≤ n → n ≤ limit → n ≤ havocBlkXl → Ensures Harmless (f n) ds' post) :
    Ensures Harmless (pickBlockLen a limit >>= f) ds post := by
  have hboth : Returns (chooseBlockLen a.afl limit) fun n =>
      (1 ≤ n ∧ n ≤ limit) ∧ n ≤ havocBlkXl := fun ds n ds' hrun =>
    ⟨chooseBlockLen_le a.afl h ds n ds' hrun, chooseBlockLen_le_xl a.afl limit ds n ds' hrun⟩
  exact draw_bind hboth fun n ds' hn => hf n ds' hn.1.1 hn.1.2 hn.2

theorem within_eq {cap off size : ℕ} (h : off + size ≤ cap) : within cap off size = pure () :=
  if_pos h

theorem within_bind {cap off size : ℕ} (h : off + size ≤ cap) {f : Unit → Checked β}
    {post : β → Draws → Prop} (hf : Ensures Harmless (f ()) ds post) :
    Ensures Harmless (within cap off size >>= f) ds post := by
  rw [within_eq h]
  exact ⟨hf.returns, hf.stops⟩

/-! An access in its buffer is what it is without the check. -/

theorem readBuf_eq (h : i < a.maxLen) : s.readBuf a i = pure (s.buf i) := by
  rw [Library.readBuf, within_eq h]
  rfl

theorem writeBuf_eq (h : i < a.maxLen) (x : Byte) :
    s.writeBuf a i x = pure { s with buf := setByte s.buf i x } := by
  rw [Library.writeBuf, within_eq h]
  rfl

theorem changeBuf_eq (h : i < a.maxLen) (f : Byte → Byte) :
    s.changeBuf a i f = pure { s with buf := setByte s.buf i (f (s.buf i)) } := by
  rw [Library.changeBuf, readBuf_eq h]
  exact writeBuf_eq h _

theorem moveBuf_eq (ho : o + n ≤ a.maxLen) (hd : d + n ≤ a.maxLen) :
    s.moveBuf a d o n = pure { s with buf := copyBlock s.buf d s.buf o n } := by
  rw [Library.moveBuf, within_eq ho, within_eq hd]
  rfl

theorem fillBuf_eq (hd : d + n ≤ a.maxLen) (x : Byte) :
    s.fillBuf a d x n = pure { s with buf := fillBlock s.buf d x n } := by
  rw [Library.fillBuf, within_eq hd]
  rfl

theorem bufToTmp_eq (ho : o + n ≤ a.maxLen) (hd : d + n ≤ a.maxLen) :
    s.bufToTmp a d o n = pure { s with tmpBuf := copyBlock s.tmpBuf d s.buf o n } := by
  rw [Library.bufToTmp, within_eq ho, within_eq hd]
  rfl

theorem tmpToBuf_eq (ho : o + n ≤ a.maxLen) (hd : d + n ≤ a.maxLen) :
    s.tmpToBuf a d o n = pure { s with buf := copyBlock s.buf d s.tmpBuf o n } := by
  rw [Library.tmpToBuf, within_eq ho, within_eq hd]
  rfl

theorem fillTmp_eq (hd : d + n ≤ a.maxLen) (x : Byte) :
    s.fillTmp a d x n = pure { s with tmpBuf := fillBlock s.tmpBuf d x n } := by
  rw [Library.fillTmp, within_eq hd]
  rfl

theorem ensures_eq {m : Checked α} {x : α} (h : m = pure x) :
    Ensures Harmless m ds fun y _ => y = x := h ▸ Ensures.pure rfl

theorem readBuf_ensures (h : i < a.maxLen) :
    Ensures Harmless (s.readBuf a i) ds fun x _ => x = s.buf i := ensures_eq (readBuf_eq h)

theorem writeBuf_ensures (h : i < a.maxLen) (x : Byte) :
    Ensures Harmless (s.writeBuf a i x) ds fun s' _ => s' = { s with buf := setByte s.buf i x } :=
  ensures_eq (writeBuf_eq h x)

theorem changeBuf_ensures (h : i < a.maxLen) (f : Byte → Byte) :
    Ensures Harmless (s.changeBuf a i f) ds fun s' _ =>
      s' = { s with buf := setByte s.buf i (f (s.buf i)) } := ensures_eq (changeBuf_eq h f)

theorem moveBuf_ensures (ho : o + n ≤ a.maxLen) (hd : d + n ≤ a.maxLen) :
    Ensures Harmless (s.moveBuf a d o n) ds fun s' _ =>
      s' = { s with buf := copyBlock s.buf d s.buf o n } := ensures_eq (moveBuf_eq ho hd)

theorem fillBuf_ensures (hd : d + n ≤ a.maxLen) (x : Byte) :
    Ensures Harmless (s.fillBuf a d x n) ds fun s' _ =>
      s' = { s with buf := fillBlock s.buf d x n } :=
  ensures_eq (fillBuf_eq hd x)

theorem bufToTmp_ensures (ho : o + n ≤ a.maxLen) (hd : d + n ≤ a.maxLen) :
    Ensures Harmless (s.bufToTmp a d o n) ds fun s' _ =>
      s' = { s with tmpBuf := copyBlock s.tmpBuf d s.buf o n } := ensures_eq (bufToTmp_eq ho hd)

theorem tmpToBuf_ensures (ho : o + n ≤ a.maxLen) (hd : d + n ≤ a.maxLen) :
    Ensures Harmless (s.tmpToBuf a d o n) ds fun s' _ =>
      s' = { s with buf := copyBlock s.buf d s.tmpBuf o n } := ensures_eq (tmpToBuf_eq ho hd)

theorem fillTmp_ensures (hd : d + n ≤ a.maxLen) (x : Byte) :
    Ensures Harmless (s.fillTmp a d x n) ds fun s' _ =>
      s' = { s with tmpBuf := fillBlock s.tmpBuf d x n } := ensures_eq (fillTmp_eq hd x)

theorem dataToBuf_ensures {data : List Byte} (ho : o + n ≤ data.length) (hd : d + n ≤ a.maxLen) :
    Ensures Harmless (s.dataToBuf a data d o n) ds fun s' _ =>
      s' = { s with buf := copyBlock s.buf d (tokenBytes data) o n } :=
  within_bind ho (within_bind hd (Ensures.pure rfl))

theorem dataToTmp_ensures {data : List Byte} (ho : o + n ≤ data.length) (hd : d + n ≤ a.maxLen) :
    Ensures Harmless (s.dataToTmp a data d o n) ds fun s' _ =>
      s' = { s with tmpBuf := copyBlock s.tmpBuf d (tokenBytes data) o n } :=
  within_bind ho (within_bind hd (Ensures.pure rfl))

end Rules

/-! ### The operators -/

section Operators

variable {a : Arena} {s : Library}

theorem InRange.arith8 (h : InRange a s) (f : Byte → ℕ → Byte) :
    KeepsRange a (s.checkedArith8 a f) := by
  intro ds
  refine rand_bind (by decide) fun item ds₁ _ => rand_bind h.pos fun pos ds₂ hpos => ?_
  refine (changeBuf_ensures (hpos.trans_le h.le) _).mono fun s' _ hs' => ?_
  rw [hs']
  exact ⟨h.pos, h.le⟩

theorem constantItem_ensures (h : InRange a s) {cloneTo : ℕ} (hto : cloneTo < s.len) (ds : Draws) :
    Ensures Harmless (s.constantItem a cloneTo) ds fun _ _ => True := by
  refine rand_bind (by decide) fun strat ds₁ _ => Ensures.ite (fun _ => ?_) fun _ => ?_
  · exact rand_bind (by decide) fun x ds₂ _ => Ensures.pure trivial
  · have hle := h.le
    have hfrom : (if cloneTo ≠ 0 then cloneTo - 1 else 0) < a.maxLen := by
      split <;> omega
    exact (readBuf_ensures hfrom).mono fun _ _ _ => trivial

theorem InRange.retryOrBreak (h : InRange a s) : KeepsRange a s.retryOrBreak :=
  fun _ => Ensures.ite (fun _ => Ensures.pure h) fun _ => ensures_retry

variable (hmaxLen : a.maxLen + havocBlkXl < 2 ^ 32)
include hmaxLen

theorem InRange.arith16 (h : InRange a s) (f : BitVec 16 → ℕ → BitVec 16) :
    KeepsRange a (s.checkedArith16 a f) := by
  intro ds
  have hlt := h.lt hmaxLen
  have hle := h.le
  refine Ensures.ite (fun _ => Ensures.pure h) fun hlen => ?_
  rw [sub32_eq (by omega) (by omega)]
  refine rand_bind (by omega) fun pos ds₁ hpos => rand_bind (by decide) fun item ds₂ _ => ?_
  exact within_bind (by omega) (Ensures.pure ⟨h.pos, h.le⟩)

theorem InRange.arith32 (h : InRange a s) (f : BitVec 32 → ℕ → BitVec 32) :
    KeepsRange a (s.checkedArith32 a f) := by
  intro ds
  have hlt := h.lt hmaxLen
  have hle := h.le
  refine Ensures.ite (fun _ => Ensures.pure h) fun hlen => ?_
  rw [sub32_eq (by omega) (by omega)]
  refine rand_bind (by omega) fun pos ds₁ hpos => rand_bind (by decide) fun item ds₂ _ => ?_
  exact within_bind (by omega) (Ensures.pure ⟨h.pos, h.le⟩)

theorem InRange.interesting16 (h : InRange a s) (f : BitVec 16 → BitVec 16) :
    KeepsRange a (s.checkedInteresting16 a f) := by
  intro ds
  have hlt := h.lt hmaxLen
  have hle := h.le
  refine Ensures.ite (fun _ => Ensures.pure h) fun hlen => ?_
  rw [sub32_eq (by omega) (by omega)]
  refine rand_bind (by decide) fun item ds₁ _ => rand_bind (by omega) fun pos ds₂ hpos => ?_
  exact within_bind (by omega) (Ensures.pure ⟨h.pos, h.le⟩)

theorem InRange.interesting32 (h : InRange a s) (f : BitVec 32 → BitVec 32) :
    KeepsRange a (s.checkedInteresting32 a f) := by
  intro ds
  have hlt := h.lt hmaxLen
  have hle := h.le
  refine Ensures.ite (fun _ => Ensures.pure h) fun hlen => ?_
  rw [sub32_eq (by omega) (by omega)]
  refine rand_bind (by decide) fun item ds₁ _ => rand_bind (by omega) fun pos ds₂ hpos => ?_
  exact within_bind (by omega) (Ensures.pure ⟨h.pos, h.le⟩)

/-- The head and the inserted part are in `tmp_buf` already. -/
theorem InRange.tail (h : InRange a s) {cloneTo cloneLen : ℕ} (hto : cloneTo ≤ s.len)
    (hfit : s.len + cloneLen ≤ a.maxLen) : KeepsRange a (s.checkedTail a cloneTo cloneLen) := by
  intro ds
  have hlt := h.lt hmaxLen
  have hle := h.le
  have hpos := h.pos
  unfold Library.checkedTail
  rw [sub32_eq hto (by omega)]
  refine (bufToTmp_ensures (by omega) (by omega)).bind fun s₁ ds₁ hs₁ => ?_
  have hlen : s₁.len = s.len := by rw [hs₁]
  dsimp only
  rw [hlen, add32_eq (by omega)]
  refine (tmpToBuf_ensures (by omega) (by omega)).mono fun s' _ hs' => ?_
  rw [hs']
  exact ⟨by dsimp only; omega, hfit⟩

theorem InRange.insertConstant (h : InRange a s) {cloneLen : ℕ}
    (hfit : s.len + cloneLen ≤ a.maxLen) : KeepsRange a (s.insertConstant a cloneLen) := by
  intro ds
  have hle := h.le
  refine rand_bind h.pos fun cloneTo ds₁ hto => ?_
  refine (constantItem_ensures h hto ds₁).bind fun item ds₂ _ => ?_
  refine (bufToTmp_ensures (by omega) (by omega)).bind fun s₁ ds₃ hs₁ => ?_
  refine (fillTmp_ensures (by omega) item).bind fun s₂ ds₄ hs₂ => ?_
  have hlen : s₂.len = s.len := by rw [hs₂, hs₁]
  have h₂ : InRange a s₂ := ⟨hlen ▸ h.pos, hlen ▸ h.le⟩
  exact h₂.tail hmaxLen (by omega) (by omega) ds₄

theorem InRange.cloneCopy (h : InRange a s) : KeepsRange a (s.checkedCloneCopy a) := by
  intro ds
  have hlt := h.lt hmaxLen
  have hpos := h.pos
  refine Ensures.ite (fun hroom => ?_) fun _ => h.retryOrBreak ds
  rw [add32_eq hlt] at hroom
  refine pick_bind h.pos fun cloneLen ds₁ hone hlen hxl => ?_
  refine rand_fit_bind hlen hone (by omega) fun cloneFrom ds₂ hfrom => ?_
  refine rand_bind h.pos fun cloneTo ds₃ hto => ?_
  refine (bufToTmp_ensures (by omega) (by omega)).bind fun s₁ ds₄ hs₁ => ?_
  refine (bufToTmp_ensures (by omega) (by omega)).bind fun s₂ ds₅ hs₂ => ?_
  have hsame : s₂.len = s.len := by rw [hs₂, hs₁]
  have h₂ : InRange a s₂ := ⟨hsame ▸ h.pos, hsame ▸ h.le⟩
  exact h₂.tail hmaxLen (by omega) (by omega) ds₅

theorem InRange.cloneFixed (h : InRange a s) : KeepsRange a (s.checkedCloneFixed a) := by
  intro ds
  refine Ensures.ite (fun hroom => ?_) fun _ => h.retryOrBreak ds
  rw [add32_eq (h.lt hmaxLen)] at hroom
  refine pick_bind (by decide) fun cloneLen ds₁ _ hlen _ => ?_
  exact h.insertConstant hmaxLen (by omega) ds₁

theorem InRange.insertone (h : InRange a s) : KeepsRange a (s.checkedInsertone a) := by
  intro ds
  have hlt := h.lt hmaxLen
  unfold havocBlkXl at hlt
  refine Ensures.ite (fun _ => Ensures.pure h) fun _ => Ensures.ite (fun _ => ensures_retry) ?_
  intro hroom
  rw [add32_eq (by omega)] at hroom
  exact h.insertConstant hmaxLen (by omega) ds

theorem InRange.overwriteCopy (h : InRange a s) : KeepsRange a (s.checkedOverwriteCopy a) := by
  intro ds
  have hlt := h.lt hmaxLen
  have hle := h.le
  refine Ensures.ite (fun _ => Ensures.pure h) fun hlen => ?_
  rw [sub32_eq (by omega) (by omega)]
  refine pick_bind (by omega) fun copyLen ds₁ hone hcopy _ => ?_
  refine rand_fit_bind (by omega) hone (by omega) fun copyFrom ds₂ hfrom => ?_
  refine rand_fit_bind (by omega) hone (by omega) fun copyTo ds₃ hto => ?_
  refine Ensures.ite (fun _ => ?_) fun _ => Ensures.pure h
  refine (moveBuf_ensures (by omega) (by omega)).mono fun s' _ hs' => ?_
  rw [hs']
  exact ⟨h.pos, h.le⟩

theorem InRange.overwriteFixed (h : InRange a s) : KeepsRange a (s.checkedOverwriteFixed a) := by
  intro ds
  have hlt := h.lt hmaxLen
  have hle := h.le
  refine Ensures.ite (fun _ => Ensures.pure h) fun hlen => ?_
  rw [sub32_eq (by omega) (by omega)]
  refine pick_bind (by omega) fun copyLen ds₁ hone hcopy _ => ?_
  refine rand_fit_bind (by omega) hone (by omega) fun copyTo ds₂ hto => ?_
  refine (constantItem_ensures h (by omega) ds₂).bind fun item ds₃ _ => ?_
  refine (fillBuf_ensures (by omega) item).mono fun s' _ hs' => ?_
  rw [hs']
  exact ⟨h.pos, h.le⟩

theorem InRange.switch (h : InRange a s) : KeepsRange a (s.checkedSwitch a) := by
  intro ds
  have hlt := h.lt hmaxLen
  have hle := h.le
  have hpos := h.pos
  refine Ensures.ite (fun _ => Ensures.pure h) fun hlen => ?_
  refine rand_bind h.pos fun switchFrom ds₁ hfrom => ?_
  refine draw_bind (randBelowOther_lt h.pos switchFrom) fun switchTo ds₂ hto => ?_
  -- both blocks end in front of the later one, or of the end
  have hswitch : ∀ n, 1 ≤ n → (∀ m, m ≤ n → switchFrom + m ≤ s.len ∧ switchTo + m ≤ s.len) →
      KeepsRange a (do
        let switchLen ← pickBlockLen a n
        let s ← s.bufToTmp a 0 switchFrom switchLen
        let s ← s.moveBuf a switchFrom switchTo switchLen
        s.tmpToBuf a switchTo 0 switchLen) := by
    intro n hn hfit ds
    refine pick_bind hn fun switchLen ds₁ _ hswitch _ => ?_
    have hfit := hfit switchLen hswitch
    refine (bufToTmp_ensures (by omega) (by omega)).bind fun s₁ ds₂ hs₁ => ?_
    refine (moveBuf_ensures (by omega) (by omega)).bind fun s₂ ds₃ hs₂ => ?_
    refine (tmpToBuf_ensures (by omega) (by omega)).mono fun s' _ hs' => ?_
    have hlen : s'.len = s.len := by rw [hs', hs₂, hs₁]
    exact ⟨hlen ▸ h.pos, hlen ▸ h.le⟩
  by_cases hcase : switchFrom < switchTo
  · rw [if_pos hcase]
    refine hswitch _ ?_ ?_ ds₂
    · rw [sub32_eq (by omega) (by omega), sub32_eq (by omega) (by omega)]
      omega
    · rw [sub32_eq (by omega) (by omega), sub32_eq (by omega) (by omega)]
      intro m hm
      omega
  · rw [if_neg hcase]
    refine hswitch _ ?_ ?_ ds₂
    · rw [sub32_eq (by omega) (by omega), sub32_eq (by omega) (by omega)]
      omega
    · rw [sub32_eq (by omega) (by omega), sub32_eq (by omega) (by omega)]
      intro m hm
      omega

theorem InRange.deleteBlock (h : InRange a s) {delLen : ℕ} (hone : 1 ≤ delLen)
    (hless : delLen < s.len) : KeepsRange a (s.deleteBlock a delLen) := by
  intro ds
  have hlt := h.lt hmaxLen
  have hle := h.le
  refine rand_fit_bind (by omega) hone (by omega) fun delFrom ds₁ hfrom => ?_
  have hrest : sub32 (sub32 s.len delFrom) delLen = s.len - delFrom - delLen := by
    rw [sub32_eq (y := delFrom) (by omega) (by omega), sub32_eq (by omega) (by omega)]
  rw [hrest]
  refine (moveBuf_ensures (by omega) (by omega)).bind fun s₁ ds₂ hs₁ => Ensures.pure ?_
  have hlen : s₁.len = s.len := by rw [hs₁]
  have hleft : sub32 s₁.len delLen = s.len - delLen := by rw [hlen, sub32_eq (by omega) (by omega)]
  exact ⟨by dsimp only; omega, by dsimp only; omega⟩

theorem InRange.del (h : InRange a s) : KeepsRange a (s.checkedDel a) := by
  intro ds
  have hlt := h.lt hmaxLen
  refine Ensures.ite (fun _ => Ensures.pure h) fun hlen => ?_
  rw [sub32_eq (by omega) (by omega)]
  exact pick_bind (by omega) fun delLen ds₁ hone hdel _ => h.deleteBlock hmaxLen hone (by omega) ds₁

theorem InRange.delone (h : InRange a s) : KeepsRange a (s.checkedDelone a) := by
  intro ds
  exact Ensures.ite (fun _ => Ensures.pure h) fun hlen =>
    h.deleteBlock hmaxLen (Nat.le_refl 1) (by omega) ds

theorem InRange.shuffleLoop (h : InRange a s) {off : ℕ} (i : ℕ) (hfit : off + i < s.len) :
    KeepsRange a (Library.checkedShuffleLoop a off i s) := by
  induction i generalizing s with
  | zero => exact fun _ => Ensures.pure h
  | succ i ih =>
    intro ds
    have hlt := h.lt hmaxLen
    have hle := h.le
    refine draw_bind (randBelowOther_lt (Nat.succ_pos _) _) fun j ds₁ hj => ?_
    have hi : add32 off (i + 1) = off + (i + 1) := add32_eq (by omega)
    have hoff : add32 off j = off + j := add32_eq (by omega)
    rw [hi, hoff]
    refine (readBuf_ensures (by omega)).bind fun temp ds₂ _ => ?_
    refine (readBuf_ensures (by omega)).bind fun other ds₃ _ => ?_
    refine (writeBuf_ensures (by omega) other).bind fun s₁ ds₄ hs₁ => ?_
    refine (writeBuf_ensures (by omega) temp).bind fun s₂ ds₅ hs₂ => ?_
    have hlen : s₂.len = s.len := by rw [hs₂, hs₁]
    exact ih ⟨hlen ▸ h.pos, hlen ▸ h.le⟩ (by omega) ds₅

theorem InRange.shuffle (h : InRange a s) : KeepsRange a (s.checkedShuffle a) := by
  intro ds
  have hlt := h.lt hmaxLen
  refine Ensures.ite (fun _ => Ensures.pure h) fun hlen => ?_
  rw [sub32_eq (by omega) (by omega)]
  refine pick_bind (by omega) fun blen ds₁ hone hblen _ => ?_
  refine rand_fit_bind (by omega) hone (by omega) fun off ds₂ hoff => ?_
  rw [sub32_eq hone (by omega)]
  exact h.shuffleLoop hmaxLen _ (by omega) ds₂

theorem InRange.overwriteExtra (h : InRange a s) (extras : List (List Byte)) :
    KeepsRange a (s.overwriteExtra a extras) := by
  intro ds
  have hlt := h.lt hmaxLen
  have hle := h.le
  refine Ensures.ite (fun _ => ensures_retry) fun hne => ?_
  refine rand_bind (List.length_pos_iff.mpr hne) fun useExtra ds₁ huse => ?_
  rw [List.getElem?_eq_getElem huse]
  generalize extras[useExtra] = data
  refine Ensures.ite (fun _ => ensures_retry) fun hlen => ?_
  unfold havocBlkXl at hlt
  rw [sub32_eq (by omega) (by omega), add32_eq (by omega)]
  refine rand_bind (Nat.succ_pos _) fun insertAt ds₂ hat => ?_
  refine (dataToBuf_ensures (by omega) (by omega)).mono fun s' _ hs' => ?_
  rw [hs']
  exact ⟨h.pos, h.le⟩

theorem InRange.insertExtra (h : InRange a s) {extras : List (List Byte)}
    (hextras : ∀ data ∈ extras, data.length ≤ havocBlkXl) :
    KeepsRange a (s.insertExtra a extras) := by
  intro ds
  have hlt := h.lt hmaxLen
  have hle := h.le
  have hpos := h.pos
  refine Ensures.ite (fun _ => ensures_retry) fun hne => ?_
  refine rand_bind (List.length_pos_iff.mpr hne) fun useExtra ds₁ huse => ?_
  have hdata := hextras _ (List.getElem_mem huse)
  rw [List.getElem?_eq_getElem huse]
  generalize extras[useExtra] = data at hdata ⊢
  refine Ensures.ite (fun _ => ensures_retry) fun hfit => ?_
  rw [add32_eq (by omega)] at hfit
  rw [add32_eq (by unfold havocBlkXl at hlt; omega)]
  refine rand_bind (Nat.succ_pos _) fun insertAt ds₂ hat => ?_
  rw [sub32_eq (by omega) (by omega)]
  refine (moveBuf_ensures (by omega) (by omega)).bind fun s₁ ds₃ hs₁ => ?_
  refine (dataToBuf_ensures (by omega) (by omega)).bind fun s₂ ds₄ hs₂ => Ensures.pure ?_
  have hlen : s₂.len = s.len := by rw [hs₂, hs₁]
  have hmore : add32 s₂.len data.length = s.len + data.length := by
    rw [hlen, add32_eq (by omega)]
  exact ⟨by dsimp only; omega, by dsimp only; omega⟩

theorem InRange.spliceOverwrite (h : InRange a s) : KeepsRange a (s.checkedSpliceOverwrite a) := by
  intro ds
  have hlt := h.lt hmaxLen
  have hle := h.le
  have hpos := h.pos
  unfold Library.checkedSpliceOverwrite
  have hsplice := a.spliceLen_lt
  split
  · exact ensures_retry
  · rename_i data hdata
    have hsize := hsplice data hdata
    refine Ensures.ite (fun _ => ensures_retry) fun hne => ?_
    have hone := List.length_pos_iff.mpr hne
    rw [sub32_eq hone hsize]
    refine draw_bind (chooseBlockLen_range a.afl _) fun copyLen ds₁ hcopy => ?_
    dsimp only
    generalize hcut : (if copyLen > s.len then s.len else copyLen) = copyLen'
    have hcut' : 1 ≤ copyLen' ∧ copyLen' ≤ s.len ∧ copyLen' ≤ data.length := by
      rw [← hcut]
      split <;> omega
    refine rand_fit_bind hcut'.2.2 hcut'.1 hsize fun copyFrom ds₂ hfrom => ?_
    refine rand_fit_bind hcut'.2.1 hcut'.1 (by omega) fun copyTo ds₃ hto => ?_
    refine (dataToBuf_ensures hfrom (by omega)).mono fun s' _ hs' => ?_
    rw [hs']
    exact ⟨h.pos, h.le⟩

theorem InRange.spliceInsert (h : InRange a s) : KeepsRange a (s.checkedSpliceInsert a) := by
  intro ds
  have hlt := h.lt hmaxLen
  have hle := h.le
  unfold Library.checkedSpliceInsert
  have hsplice := a.spliceLen_lt
  split
  · exact ensures_retry
  · rename_i data hdata
    have hsize := hsplice data hdata
    refine Ensures.ite (fun _ => ensures_retry) fun hne => Ensures.ite (fun _ => ensures_retry) ?_
    intro hroom
    rw [add32_eq hlt] at hroom
    have hone := List.length_pos_iff.mpr hne
    refine pick_bind hone fun cloneLen ds₁ hmin hclone hxl => ?_
    refine rand_fit_bind hclone hmin hsize fun cloneFrom ds₂ hfrom => ?_
    rw [add32_eq (by unfold havocBlkXl at hlt; omega)]
    refine rand_bind (Nat.succ_pos _) fun cloneTo ds₃ hto => ?_
    refine (bufToTmp_ensures (by omega) (by omega)).bind fun s₁ ds₄ hs₁ => ?_
    refine (dataToTmp_ensures hfrom (by omega)).bind fun s₂ ds₅ hs₂ => ?_
    have hlen : s₂.len = s.len := by rw [hs₂, hs₁]
    have h₂ : InRange a s₂ := ⟨hlen ▸ h.pos, hlen ▸ h.le⟩
    exact h₂.tail hmaxLen (by omega) (by omega) ds₅

end Operators

end AflPlusPlus.Mutation
