import AflPlusPlus.Mutation.AsciiNumber

/-!
# The library mutator stays in its buffers

The loop of `afl_mutate` over its operators. Whatever is drawn, no access leaves the buffer, its
copy, a token or the splice buffer, and the length stays between one and the size of the buffer.
-/

namespace AflPlusPlus.Mutation
open Lib Lib.Stopping

namespace Library

/-- The cases of the switch in `afl_mutate`. -/
def runOperator (a : Arena) (s : Library) : Operator → Checked Library
  | .flipbit => do
    let bit ← rand 8
    let off ← rand s.len
    s.changeBuf a off fun x => x ^^^ (1 <<< bit)
  | .interesting8 => do
    let item ← rand Mutation.interesting8.length
    let pos ← rand s.len
    s.writeBuf a pos (interestingValue 8 Mutation.interesting8 item)
  | .interesting16 => s.checkedInteresting16 a id
  | .interesting16be => s.checkedInteresting16 a swap16
  | .interesting32 => s.checkedInteresting32 a id
  | .interesting32be => s.checkedInteresting32 a swap32
  | .arith8_ => s.checkedArith8 a fun x item => x - BitVec.ofNat 8 item
  | .arith8 => s.checkedArith8 a fun x item => x + BitVec.ofNat 8 item
  | .arith16_ => s.checkedArith16 a fun x item => x - BitVec.ofNat 16 item
  | .arith16be_ => s.checkedArith16 a fun x item => swap16 (swap16 x - BitVec.ofNat 16 item)
  | .arith16 => s.checkedArith16 a fun x item => x + BitVec.ofNat 16 item
  | .arith16be => s.checkedArith16 a fun x item => swap16 (swap16 x + BitVec.ofNat 16 item)
  | .arith32_ => s.checkedArith32 a fun x item => x - BitVec.ofNat 32 item
  | .arith32be_ => s.checkedArith32 a fun x item => swap32 (swap32 x - BitVec.ofNat 32 item)
  | .arith32 => s.checkedArith32 a fun x item => x + BitVec.ofNat 32 item
  -- the sum is inside both swaps
  | .arith32be => s.checkedArith32 a fun x item => swap32 (swap32 (x + BitVec.ofNat 32 item))
  | .rand8 => do
    let pos ← rand s.len
    let item := 1 + (← rand 255)
    s.changeBuf a pos fun x => x ^^^ BitVec.ofNat 8 item
  | .cloneCopy => s.checkedCloneCopy a
  | .cloneFixed => s.checkedCloneFixed a
  | .overwriteCopy => s.checkedOverwriteCopy a
  | .overwriteFixed => s.checkedOverwriteFixed a
  | .byteadd => do
    s.changeBuf a (← rand s.len) fun x => x + 1
  | .bytesub => do
    s.changeBuf a (← rand s.len) fun x => x - 1
  | .flip8 => do
    s.changeBuf a (← rand s.len) fun x => x ^^^ 0xff
  | .switch => s.checkedSwitch a
  | .del => s.checkedDel a
  | .shuffle => s.checkedShuffle a
  | .delone => s.checkedDelone a
  | .insertone => s.checkedInsertone a
  | .asciinum => s.checkedAsciinum a
  | .insertasciinum => s.checkedInsertasciinum a
  | .extraOverwrite => s.overwriteExtra a a.extras
  | .extraInsert => s.insertExtra a a.extras
  | .autoExtraOverwrite => s.overwriteExtra a a.aExtras
  | .autoExtraInsert => s.insertExtra a a.aExtras
  | .spliceOverwrite => s.checkedSpliceOverwrite a
  | .spliceInsert => s.checkedSpliceInsert a

end Library

/-- The part behind a label, and what is done at a `goto` to it. -/
def orRetry {α : Type} (m again : Checked α) : Checked α := fun ds =>
  match m ds with
  | (.error .retry, ds') => again ds'
  | result => result

/-- At most `fuel` operators until one does not ask for another one. One that asks has not written
anything yet. -/
def checkedStep (a : Arena) (s : Library) : ℕ → Checked Library
  | 0 => stop .noDraws
  | fuel + 1 => do
    let r ← rand mutStrategyArraySize
    match a.mutationArray[r]? with
    | none => stop .outside
    | some op => orRetry (s.runOperator a op) (checkedStep a s fuel)

/-- One step: each operator takes a draw. -/
def mutateOnce (a : Arena) (s : Library) : Checked Library := fun ds =>
  checkedStep a s (ds.length + 1) ds

/-- The loop over the steps. -/
def mutateLoop (a : Arena) : ℕ → Library → Checked Library
  | 0, s => pure s
  | n + 1, s => do mutateLoop a n (← mutateOnce a s)

/-- `afl_mutate` for a buffer that is there. -/
def aflMutate (a : Arena) (steps : ℕ) (s : Library) : Checked Library :=
  if s.len = 0 then pure s else mutateLoop a steps s

section Bounds

variable {a : Arena} {s : Library}

theorem InRange.changeAt (h : InRange a s) (f : Byte → Byte) {pos : ℕ} (hpos : pos < s.len)
    (ds : Draws) : Ensures Harmless (s.changeBuf a pos f) ds fun s' _ => InRange a s' := by
  refine (changeBuf_ensures (hpos.trans_le h.le) f).mono fun s' _ hs' => ?_
  rw [hs']
  exact ⟨h.pos, h.le⟩

theorem orRetry_ensures {α : Type} {m again : Checked α} {ds : Draws} {post : α → Draws → Prop}
    (hm : Ensures Harmless m ds post) (hagain : ∀ ds', Ensures Harmless again ds' post) :
    Ensures Harmless (orRetry m again) ds post := by
  rcases hrun : m ds with ⟨e | x, ds'⟩
  · rcases hm.stops hrun with rfl | rfl
    · exact Ensures.of_stops (by rw [orRetry, hrun]) (.inl rfl)
    · have hretry : orRetry m again ds = again ds' := by rw [orRetry, hrun]
      exact ⟨fun h => (hagain ds').returns (hretry ▸ h), fun h => (hagain ds').stops (hretry ▸ h)⟩
  · exact Ensures.of_returns (by rw [orRetry, hrun]) (hm.returns hrun)

/-- The first steps of a run are a run themselves. -/
theorem mutateLoop_add (a : Arena) (m n : ℕ) (s : Library) :
    mutateLoop a (m + n) s = mutateLoop a m s >>= mutateLoop a n := by
  induction m generalizing s with
  | zero => rw [Nat.zero_add]; rfl
  | succ m ih =>
    funext ds
    rw [Nat.succ_add, mutateLoop, mutateLoop, bind_apply, bind_apply, bind_apply]
    rcases mutateOnce a s ds with ⟨e | s', ds'⟩
    · rfl
    · dsimp only
      rw [ih, bind_apply]

variable (hmaxLen : a.maxLen + havocBlkXl < 2 ^ 32)
variable (hextras : ∀ data ∈ a.extras, data.length ≤ havocBlkXl)
variable (haExtras : ∀ data ∈ a.aExtras, data.length ≤ havocBlkXl)
include hmaxLen hextras haExtras

theorem InRange.operator (h : InRange a s) (op : Operator) : KeepsRange a (s.runOperator a op) := by
  cases op with
  | flipbit =>
    exact fun ds => rand_bind (by decide) fun bit ds₁ _ => rand_bind h.pos fun off ds₂ hoff =>
      h.changeAt _ hoff ds₂
  | interesting8 =>
    intro ds
    refine rand_bind (by decide) fun item ds₁ _ => rand_bind h.pos fun pos ds₂ hpos => ?_
    refine (writeBuf_ensures (hpos.trans_le h.le) _).mono fun s' _ hs' => ?_
    rw [hs']
    exact ⟨h.pos, h.le⟩
  | interesting16 => exact h.interesting16 hmaxLen id
  | interesting16be => exact h.interesting16 hmaxLen swap16
  | interesting32 => exact h.interesting32 hmaxLen id
  | interesting32be => exact h.interesting32 hmaxLen swap32
  | arith8_ | arith8 =>
    rw [Library.runOperator]
    exact h.arith8 _
  | arith16_ | arith16be_ | arith16 | arith16be =>
    rw [Library.runOperator]
    exact h.arith16 hmaxLen _
  | arith32_ | arith32be_ | arith32 | arith32be =>
    rw [Library.runOperator]
    exact h.arith32 hmaxLen _
  | rand8 =>
    exact fun ds => rand_bind h.pos fun pos ds₁ hpos => rand_bind (by decide) fun item ds₂ _ =>
      h.changeAt _ hpos ds₂
  | cloneCopy => exact h.cloneCopy hmaxLen
  | cloneFixed => exact h.cloneFixed hmaxLen
  | overwriteCopy => exact h.overwriteCopy hmaxLen
  | overwriteFixed => exact h.overwriteFixed hmaxLen
  | byteadd => exact fun ds => rand_bind h.pos fun pos ds₁ hpos => h.changeAt _ hpos ds₁
  | bytesub => exact fun ds => rand_bind h.pos fun pos ds₁ hpos => h.changeAt _ hpos ds₁
  | flip8 => exact fun ds => rand_bind h.pos fun pos ds₁ hpos => h.changeAt _ hpos ds₁
  | switch => exact h.switch hmaxLen
  | del => exact h.del hmaxLen
  | shuffle => exact h.shuffle hmaxLen
  | delone => exact h.delone hmaxLen
  | insertone => exact h.insertone hmaxLen
  | asciinum => exact h.asciinum hmaxLen
  | insertasciinum => exact h.insertasciinum hmaxLen
  | extraOverwrite => exact h.overwriteExtra hmaxLen a.extras
  | extraInsert => exact h.insertExtra hmaxLen hextras
  | autoExtraOverwrite => exact h.overwriteExtra hmaxLen a.aExtras
  | autoExtraInsert => exact h.insertExtra hmaxLen haExtras
  | spliceOverwrite => exact h.spliceOverwrite hmaxLen
  | spliceInsert => exact h.spliceInsert hmaxLen

theorem InRange.step (h : InRange a s) (fuel : ℕ) : KeepsRange a (checkedStep a s fuel) := by
  induction fuel with
  | zero => exact fun _ => Ensures.stop (.inl rfl)
  | succ fuel ih =>
    intro ds
    refine rand_bind (by decide) fun r ds₁ hr => ?_
    rw [List.getElem?_eq_getElem (a.mutationArray_length ▸ hr)]
    exact orRetry_ensures (h.operator hmaxLen hextras haExtras _ ds₁) ih

theorem InRange.loop (h : InRange a s) (n : ℕ) : KeepsRange a (mutateLoop a n s) := by
  induction n generalizing s with
  | zero => exact fun _ => Ensures.pure h
  | succ n ih =>
    intro ds
    have hstep := h.step hmaxLen hextras haExtras (ds.length + 1) ds
    have honce : Ensures Harmless (mutateOnce a s) ds fun s' _ => InRange a s' :=
      ⟨hstep.returns, hstep.stops⟩
    exact honce.bind fun s' ds' hs' => ih hs' ds'

end Bounds

/-- In every run no access leaves its buffer, the length is allowed after every step, and a block
length fits its limit. The callers allow at most `MAX_FILE` bytes, and a token has at most
`MAX_DICT_FILE`. -/
theorem aflMutate_inBounds (a : Arena) (s : Library) (h : InRange a s)
    (hmaxLen : a.maxLen + havocBlkXl < 2 ^ 32)
    (hextras : ∀ data ∈ a.extras, data.length ≤ havocBlkXl)
    (haExtras : ∀ data ∈ a.aExtras, data.length ≤ havocBlkXl) (steps : ℕ) (ds : Draws) :
    Ensures Harmless (aflMutate a steps s) ds (fun s' _ => InRange a s') ∧
      (∀ k, k ≤ steps → aflMutate a steps s = (mutateLoop a k s >>= mutateLoop a (steps - k)) ∧
        Ensures Harmless (mutateLoop a k s) ds fun s' _ => InRange a s') ∧
      ∀ limit, Returns (chooseBlockLen a.afl limit) fun n => 1 ≤ n ∧ n ≤ max limit 1 := by
  have hloop : aflMutate a steps s = mutateLoop a steps s := if_neg (Nat.ne_of_gt h.pos)
  have hrun := fun k => h.loop hmaxLen hextras haExtras k ds
  refine ⟨hloop ▸ hrun steps, fun k hk => ⟨?_, hrun k⟩, chooseBlockLen_range a.afl⟩
  rw [hloop, ← mutateLoop_add, Nat.add_sub_cancel' hk]

/-- Two bytes are inserted. -/
theorem aflMutate_inBounds_insertone :
    Ensures Harmless
      (aflMutate (smallArena .insertone) 2 (Library.ofText [0, 0])) [0, 0, 0, 0, 0, 0]
        (fun s' _ => InRange (smallArena .insertone) s') ∧
      (∀ k, k ≤ 2 → aflMutate (smallArena .insertone) 2 (Library.ofText [0, 0]) =
          (mutateLoop (smallArena .insertone) k (Library.ofText [0, 0]) >>=
            mutateLoop (smallArena .insertone) (2 - k)) ∧
        Ensures Harmless (mutateLoop (smallArena .insertone) k (Library.ofText [0, 0]))
          [0, 0, 0, 0, 0, 0] fun s' _ => InRange (smallArena .insertone) s') ∧
      ∀ limit, Returns (chooseBlockLen (smallArena .insertone).afl limit) fun n =>
        1 ≤ n ∧ n ≤ max limit 1 :=
  aflMutate_inBounds (smallArena .insertone) (Library.ofText [0, 0]) ⟨by decide, by decide⟩
    (by decide) (by decide) (by decide) 2 [0, 0, 0, 0, 0, 0]

end AflPlusPlus.Mutation
