import AflPlusPlus.Lib.WordHalves
import AflPlusPlus.Lib.Worklist
import Mathlib.Data.List.Nodup
import Mathlib.Tactic.Tauto

/-!
# Splitting integer compares into narrow ones

`simplifyAndSplit` of `instrumentation/split-compares-pass.so.cc` replaces an integer compare by
compares of half the width until the target width is reached: `>=` and `<=` become a strict compare
and an equality, a signed compare becomes an unsigned one behind a test of the sign bits, and the
rest is split into its halves. The code that is left computes the same bit, on the same operands.
-/

namespace AflPlusPlus.Laf

open Lib

/-- `CmpInst::Predicate` for integers. -/
inductive Predicate where
  | eq | ne | ugt | uge | ult | ule | sgt | sge | slt | sle
  deriving DecidableEq

def Predicate.eval {w : ℕ} (x y : BitVec w) : Predicate → Bool
  | .eq => x == y
  | .ne => x != y
  | .ugt => y.ult x
  | .uge => y.ule x
  | .ult => x.ult y
  | .ule => x.ule y
  | .sgt => y.slt x
  | .sge => y.sle x
  | .slt => x.slt y
  | .sle => x.sle y

/-- The values the pass builds from the operands of a compare of width `W`: the halves and the sign
bit by `LShr` and `Trunc`. -/
inductive Operand (W : ℕ) : ℕ → Type where
  | op0 : Operand W W
  | op1 : Operand W W
  | high {w : ℕ} (v : Operand W w) : Operand W (w / 2)
  | low {w : ℕ} (v : Operand W w) : Operand W (w / 2)
  | sign {w : ℕ} (v : Operand W w) : Operand W 1

/-- A compare instruction. -/
structure CmpInst (W : ℕ) where
  width : ℕ
  pred : Predicate
  op0 : Operand W width
  op1 : Operand W width

/-- The value of a compare after rewriting: an instruction, a constant, or the phi node behind a
conditional branch. -/
inductive Code (W : ℕ) where
  | cmp (id : ℕ) (c : CmpInst W)
  | const (b : Bool)
  | branch (cond yes no : Code W)

variable {W : ℕ}

def Operand.eval (x y : BitVec W) : {w : ℕ} → Operand W w → BitVec w
  | _, .op0 => x
  | _, .op1 => y
  | _, .high v => highHalf (v.eval x y)
  | _, .low v => lowHalf (v.eval x y)
  | _, .sign v => signBit (v.eval x y)

def CmpInst.eval (x y : BitVec W) (c : CmpInst W) : Bool :=
  c.pred.eval (c.op0.eval x y) (c.op1.eval x y)

def Code.eval (x y : BitVec W) : Code W → Bool
  | .cmp _ c => c.eval x y
  | .const b => b
  | .branch cond yes no => if cond.eval x y then yes.eval x y else no.eval x y

/-- `ReplaceInstWithInst`: the instruction `id` is replaced by the given code. -/
def Code.replace : Code W → ℕ → Code W → Code W
  | .cmp id' c, id, new => if id' = id then new else .cmp id' c
  | .const b, _, _ => .const b
  | .branch cond yes no, id, new =>
    .branch (cond.replace id new) (yes.replace id new) (no.replace id new)

/-- The compare instructions of the code. -/
def Code.cmps : Code W → List (ℕ × CmpInst W)
  | .cmp id c => [(id, c)]
  | .const _ => []
  | .branch cond yes no => cond.cmps ++ (yes.cmps ++ no.cmps)

/-- The function being rewritten and the number of the next instruction. -/
structure Rewriting (W : ℕ) where
  code : Code W
  next : ℕ

/-- Replace `id` by code that uses `used` new instruction numbers, and push onto the worklist. -/
def Rewriting.apply (s : Rewriting W) (id : ℕ) (new : Code W) (used : ℕ)
    (pushed : List (ℕ × CmpInst W)) : Rewriting W × List (ℕ × CmpInst W) :=
  (⟨s.code.replace id new, s.next + used⟩, pushed)

/-- `simplifySignedCompare`. -/
def simplifySignedCompare (item : ℕ × CmpInst W) (s : Rewriting W) :
    Rewriting W × List (ℕ × CmpInst W) :=
  let c := item.2
  let newPred := if c.pred = .sgt then Predicate.ugt else .ult
  let invPred := if c.pred = .sgt then Predicate.ult else .ugt
  let icmpSignBit : CmpInst W := ⟨1, .eq, .sign c.op0, .sign c.op1⟩
  let icmpUsignCmp : CmpInst W := ⟨c.width, newPred, c.op0, c.op1⟩
  let icmpInvSigCmp : CmpInst W := ⟨1, invPred, .sign c.op0, .sign c.op1⟩
  s.apply item.1
    (.branch (.cmp s.next icmpSignBit) (.cmp (s.next + 1) icmpUsignCmp)
      (.cmp (s.next + 2) icmpInvSigCmp)) 3 [(s.next + 1, icmpUsignCmp)]

/-- The strict predicate of an inequality with equality. -/
def Predicate.strict : Predicate → Option Predicate
  | .uge => some .ugt
  | .sge => some .sgt
  | .ule => some .ult
  | .sle => some .slt
  | _ => none

/-- `simplifyOrEqualsCompare`. Only the equality and the unsigned compare of a signed one are
pushed; the strict unsigned compare is not. -/
def simplifyOrEqualsCompare (item : ℕ × CmpInst W) (newPred : Predicate) (s : Rewriting W) :
    Rewriting W × List (ℕ × CmpInst W) :=
  let c := item.2
  let icmpNp : CmpInst W := ⟨c.width, newPred, c.op0, c.op1⟩
  let icmpEq : CmpInst W := ⟨c.width, .eq, c.op0, c.op1⟩
  let (s', _) := s.apply item.1
    (.branch (.cmp s.next icmpNp) (.const true) (.cmp (s.next + 1) icmpEq)) 2 []
  if newPred = .sgt ∨ newPred = .slt then
    let (s'', pushed) := simplifySignedCompare (s.next, icmpNp) s'
    (s'', (s.next + 1, icmpEq) :: pushed)
  else (s', [(s.next + 1, icmpEq)])

/-- `splitCompare`. It fails where the source would build an integer type of width 0 or insert the
missing inverse compare. -/
def splitCompare (target : ℕ) (item : ℕ × CmpInst W) (s : Rewriting W) :
    Option (Rewriting W × List (ℕ × CmpInst W)) :=
  let (id, c) := item
  if c.width = target then some (s, [])
  else if c.width / 2 = 0 then none
  else
    let icmpHigh : CmpInst W := ⟨c.width / 2, c.pred, .high c.op0, .high c.op1⟩
    let icmpLow : CmpInst W := ⟨c.width / 2, c.pred, .low c.op0, .low c.op1⟩
    let high := (s.next, icmpHigh)
    let low := (s.next + 1, icmpLow)
    let halves := if target < c.width / 2 then [low, high] else []
    let ordered (invPred : Predicate) :=
      let inv : ℕ × CmpInst W := (s.next + 2, ⟨c.width / 2, invPred, .high c.op0, .high c.op1⟩)
      some (s.apply id
        (.branch (.cmp s.next icmpHigh) (.const true)
          (.branch (.cmp (s.next + 2) inv.2) (.const false) (.cmp (s.next + 1) icmpLow))) 3
        (halves ++ [inv]))
    match c.pred with
    | .eq =>
      some (s.apply id
        (.branch (.cmp s.next icmpHigh) (.cmp (s.next + 1) icmpLow) (.const false)) 2 halves)
    | .ne =>
      some (s.apply id
        (.branch (.cmp s.next icmpHigh) (.const true) (.cmp (s.next + 1) icmpLow)) 2 halves)
    | .ugt => ordered .ult
    | .ult => ordered .ugt
    | _ => none

/-- The simplification `simplifyAndSplit` starts with. -/
def simplify (pred : Predicate) : Rewriting W × List (ℕ × CmpInst W) :=
  let item : ℕ × CmpInst W := (0, ⟨W, pred, .op0, .op1⟩)
  let s : Rewriting W := ⟨.cmp 0 item.2, 1⟩
  match pred.strict with
  | some newPred => simplifyOrEqualsCompare item newPred s
  | none =>
    if pred = .sgt ∨ pred = .slt then simplifySignedCompare item s
    else (s, [item])

/-- `simplifyAndSplit` on a compare of two values of width `W`, with a bound on the number of items
taken from the worklist. -/
def simplifyAndSplit (W target fuel : ℕ) (pred : Predicate) : Option (Rewriting W) :=
  let (s, worklist) := simplify (W := W) pred
  drain (fun item s => if target < W then splitCompare target item s else some (s, []))
    fuel worklist s

/-- `isSupportedBitWidth`. -/
def isSupportedBitWidth (bitw : ℕ) : Bool := bitw ∈ [8, 16, 32, 64, 128, 256]

section Meaning

theorem eval_replace {x y : BitVec W} {id : ℕ} {new : Code W} {code : Code W}
    (h : ∀ c, (id, c) ∈ code.cmps → c.eval x y = new.eval x y) :
    (code.replace id new).eval x y = code.eval x y := by
  induction code with
  | cmp id' c =>
    rw [Code.replace]
    split
    next heq => exact (h c (by rw [Code.cmps, heq]; exact List.mem_cons_self)).symm
    next heq => rfl
  | const b => rfl
  | branch cond yes no ihc ihy ihn =>
    rw [Code.replace, Code.eval, Code.eval,
      ihc fun c hc => h c (List.mem_append_left _ hc),
      ihy fun c hc => h c (List.mem_append_right _ (List.mem_append_left _ hc)),
      ihn fun c hc => h c (List.mem_append_right _ (List.mem_append_right _ hc))]

theorem mem_cmps_replace {id : ℕ} {new code : Code W} {e : ℕ × CmpInst W}
    (h : e ∈ (code.replace id new).cmps) : e ∈ code.cmps ∧ e.1 ≠ id ∨ e ∈ new.cmps := by
  induction code with
  | cmp id' c =>
    rw [Code.replace] at h
    split at h
    next heq => exact .inr h
    next heq =>
      rw [Code.cmps, List.mem_singleton] at h
      exact .inl ⟨by rw [h]; exact List.mem_cons_self, by rw [h]; exact heq⟩
  | const b => exact absurd h List.not_mem_nil
  | branch cond yes no ihc ihy ihn =>
    simp only [Code.replace, Code.cmps, List.mem_append] at h ⊢
    tauto

theorem mem_cmps_replace_of_ne {id : ℕ} {new code : Code W} {e : ℕ × CmpInst W}
    (h : e ∈ code.cmps) (hne : e.1 ≠ id) : e ∈ (code.replace id new).cmps := by
  induction code with
  | cmp id' c =>
    rw [Code.cmps, List.mem_singleton] at h
    subst h
    rw [Code.replace, if_neg hne]
    exact List.mem_cons_self
  | const b => exact h
  | branch cond yes no ihc ihy ihn =>
    simp only [Code.replace, Code.cmps, List.mem_append] at h ⊢
    tauto

/-- What may stand for the instruction `c` when `next` is the next number: code with the same value,
whose instructions carry new numbers, each once, and the pushed ones are among them. -/
structure Stands (c : CmpInst W) (next : ℕ) (new : Code W) (used : ℕ)
    (pushed : List (ℕ × CmpInst W)) : Prop where
  eval : ∀ x y, new.eval x y = c.eval x y
  ids : ∀ e ∈ new.cmps, next ≤ e.1 ∧ e.1 < next + used
  nodup : (new.cmps.map Prod.fst).Nodup
  pushed : ∀ e ∈ pushed, e ∈ new.cmps

/-- The worklist refers to instructions of the code, by numbers already given out. -/
structure Tracks (items : List (ℕ × CmpInst W)) (s : Rewriting W) : Prop where
  ids : ∀ e ∈ s.code.cmps, e.1 < s.next
  items_lt : ∀ e ∈ items, e.1 < s.next
  same : ∀ e ∈ items, ∀ d ∈ s.code.cmps, d.1 = e.1 → d.2 = e.2

/-- Numbers that occur once determine their instruction. -/
theorem eq_of_fst_eq {l : List (ℕ × CmpInst W)} (h : (l.map Prod.fst).Nodup)
    {d e : ℕ × CmpInst W} (hd : d ∈ l) (he : e ∈ l) (heq : d.1 = e.1) : d = e :=
  List.inj_on_of_nodup_map h hd he heq

theorem Tracks.apply {item : ℕ × CmpInst W} {rest pushed : List (ℕ × CmpInst W)}
    {s : Rewriting W} {new : Code W} {used : ℕ} (h : Tracks (item :: rest) s)
    (hnew : Stands item.2 s.next new used pushed) :
    Tracks (pushed ++ rest) (s.apply item.1 new used pushed).1 ∧
      ∀ x y, (s.apply item.1 new used pushed).1.code.eval x y = s.code.eval x y := by
  refine ⟨⟨?_, ?_, ?_⟩, fun x y => eval_replace fun c hc => ?_⟩
  · intro e he
    rcases mem_cmps_replace he with ⟨he, -⟩ | he
    · exact Nat.lt_add_right _ (h.ids e he)
    · exact (hnew.ids e he).2
  · intro e he
    rcases List.mem_append.mp he with he | he
    · exact (hnew.ids e (hnew.pushed e he)).2
    · exact Nat.lt_add_right _ (h.items_lt e (List.mem_cons_of_mem _ he))
  · intro e he d hd heq
    rcases List.mem_append.mp he with he | he
    · have hen := hnew.pushed e he
      rcases mem_cmps_replace hd with ⟨hd, -⟩ | hd
      · exact absurd (h.ids d hd) (by have := (hnew.ids e hen).1; omega)
      · rw [eq_of_fst_eq hnew.nodup hd hen heq]
    · have hlt := h.items_lt e (List.mem_cons_of_mem _ he)
      rcases mem_cmps_replace hd with ⟨hd, -⟩ | hd
      · exact h.same e (List.mem_cons_of_mem _ he) d hd heq
      · exact absurd hlt (by have := (hnew.ids d hd).1; omega)
  · rw [hnew.eval]
    exact congrArg (CmpInst.eval x y) (h.same item List.mem_cons_self (item.1, c) hc rfl)

theorem eval_split_eq {c : CmpInst W} (hc : c.pred = .eq) (hw : c.width % 2 = 0) (x y : BitVec W) :
    c.eval x y =
      if (⟨c.width / 2, .eq, .high c.op0, .high c.op1⟩ : CmpInst W).eval x y then
        (⟨c.width / 2, .eq, .low c.op0, .low c.op1⟩ : CmpInst W).eval x y
      else false := by
  simp only [CmpInst.eval, hc, Predicate.eval, Operand.eval]
  rw [Bool.eq_iff_iff]
  simp [eq_iff_halves hw]

theorem eval_split_ne {c : CmpInst W} (hc : c.pred = .ne) (hw : c.width % 2 = 0) (x y : BitVec W) :
    c.eval x y =
      if (⟨c.width / 2, .ne, .high c.op0, .high c.op1⟩ : CmpInst W).eval x y then true
      else (⟨c.width / 2, .ne, .low c.op0, .low c.op1⟩ : CmpInst W).eval x y := by
  simp only [CmpInst.eval, hc, Predicate.eval, Operand.eval]
  rw [Bool.eq_iff_iff]
  simp [eq_iff_halves hw, imp_iff_not_or]

theorem ult_split {w : ℕ} (hw : w % 2 = 0) (a b : BitVec w) :
    a.ult b =
      if (highHalf a).ult (highHalf b) then true
      else if (highHalf b).ult (highHalf a) then false
      else (lowHalf a).ult (lowHalf b) := by
  rw [Bool.eq_iff_iff, BitVec.ult_iff_lt, lt_iff_halves hw]
  simp only [← BitVec.ult_iff_lt]
  cases (highHalf a).ult (highHalf b) <;> cases (highHalf b).ult (highHalf a) <;> simp

/-- The predicate of the inverse compare. -/
def Predicate.inverse : Predicate → Predicate
  | .ugt => .ult
  | _ => .ugt

theorem eval_split_ordered {c : CmpInst W} (hc : c.pred = .ugt ∨ c.pred = .ult)
    (hw : c.width % 2 = 0) (x y : BitVec W) :
    c.eval x y =
      if (⟨c.width / 2, c.pred, .high c.op0, .high c.op1⟩ : CmpInst W).eval x y then true
      else if (⟨c.width / 2, c.pred.inverse, .high c.op0, .high c.op1⟩ : CmpInst W).eval x y then
        false
      else (⟨c.width / 2, c.pred, .low c.op0, .low c.op1⟩ : CmpInst W).eval x y := by
  rcases hc with hc | hc <;>
    simp only [CmpInst.eval, hc, Predicate.inverse, Predicate.eval, Operand.eval]
  · exact ult_split hw _ _
  · exact ult_split hw _ _

theorem eval_signed {c : CmpInst W} {newPred invPred : Predicate}
    (hc : c.pred = .sgt ∧ newPred = .ugt ∧ invPred = .ult ∨
      c.pred = .slt ∧ newPred = .ult ∧ invPred = .ugt) (x y : BitVec W) :
    c.eval x y =
      if (⟨1, .eq, .sign c.op0, .sign c.op1⟩ : CmpInst W).eval x y then
        (⟨c.width, newPred, c.op0, c.op1⟩ : CmpInst W).eval x y
      else (⟨1, invPred, .sign c.op0, .sign c.op1⟩ : CmpInst W).eval x y := by
  rcases hc with ⟨hc, rfl, rfl⟩ | ⟨hc, rfl, rfl⟩ <;>
    simp only [CmpInst.eval, hc, Predicate.eval, Operand.eval, slt_eq_of_signBit, beq_iff_eq]
  · simp only [eq_comm]

theorem eval_strict {c : CmpInst W} {newPred : Predicate} (hc : c.pred.strict = some newPred)
    (x y : BitVec W) :
    c.eval x y =
      if (⟨c.width, newPred, c.op0, c.op1⟩ : CmpInst W).eval x y then true
      else (⟨c.width, .eq, c.op0, c.op1⟩ : CmpInst W).eval x y := by
  have hule : ∀ {w : ℕ} (a b : BitVec w), a.ule b = (a.ult b || a == b) := by
    intro w a b
    rw [Bool.eq_iff_iff]
    simp [BitVec.ule, BitVec.ult, BitVec.toNat_eq, Nat.le_iff_lt_or_eq]
  have hor : ∀ p q : Bool, (p || q) = if p then true else q := by decide
  have hcomm : ∀ {w : ℕ} (a b : BitVec w), (a == b) = (b == a) := fun a b => Bool.beq_comm
  cases hpred : c.pred <;> rw [hpred] at hc <;> cases hc <;>
    simp only [CmpInst.eval, hpred, Predicate.eval, hule, BitVec.sle_eq_slt_or_eq, hor]
  case uge.refl => rw [hcomm]; rfl
  case ule.refl => rfl
  case sge.refl => rw [hcomm]; rfl
  case sle.refl => rfl

/-- What a step of the splitting does. -/
theorem splitCompare_cases {target : ℕ} {item : ℕ × CmpInst W} {s : Rewriting W}
    {r : Rewriting W × List (ℕ × CmpInst W)} (h : splitCompare target item s = some r) :
    item.2.width = target ∧ r = (s, []) ∨
    ∃ new used pushed, r = s.apply item.1 new used pushed ∧ item.2.width ≠ target ∧
      item.2.width / 2 ≠ 0 ∧ (item.2.width % 2 = 0 → Stands item.2 s.next new used pushed) ∧
      (∀ e ∈ pushed, e.2.width = item.2.width / 2) ∧
      ∀ e ∈ new.cmps, e ∈ pushed ∨ e.2.width ≤ target := by
  obtain ⟨id, c⟩ := item
  simp only [splitCompare] at h
  split at h
  next hdone => exact .inl ⟨hdone, (Option.some.inj h).symm⟩
  next hdone =>
    split at h
    next hzero => simp at h
    next hzero =>
      refine .inr ?_
      cases hpred : c.pred <;> simp only [hpred, Option.some.injEq, reduceCtorEq] at h
      case eq =>
        refine ⟨_, _, _, h.symm, hdone, hzero, fun hw =>
          ⟨fun x y => (eval_split_eq hpred hw x y).symm, by simp [Code.cmps], by simp [Code.cmps],
            by split <;> simp [Code.cmps]⟩, by split <;> simp, ?_⟩
        split
        · simp [Code.cmps]
        · simp [Code.cmps]; omega
      case ne =>
        refine ⟨_, _, _, h.symm, hdone, hzero, fun hw =>
          ⟨fun x y => (eval_split_ne hpred hw x y).symm, by simp [Code.cmps], by simp [Code.cmps],
            by split <;> simp [Code.cmps]⟩, by split <;> simp, ?_⟩
        split
        · simp [Code.cmps]
        · simp [Code.cmps]; omega
      all_goals
        have hordered := eval_split_ordered (c := c) (by simp [hpred])
        rw [hpred] at hordered
        refine ⟨_, _, _, h.symm, hdone, hzero, fun hw =>
          ⟨fun x y => (hordered hw x y).symm, by simp [Code.cmps], by simp [Code.cmps],
            by split <;> simp [Code.cmps]⟩, by split <;> simp, ?_⟩
        split
        · simp [Code.cmps]
        · simp [Code.cmps]; omega

/-- A width that halves without remainder down to 1. -/
def IsPowerOfTwo (n : ℕ) : Prop := ∃ k, n = 2 ^ k

theorem IsPowerOfTwo.half {n : ℕ} (h : IsPowerOfTwo n) (hn : n / 2 ≠ 0) :
    n % 2 = 0 ∧ IsPowerOfTwo (n / 2) := by
  obtain ⟨k, rfl⟩ := h
  cases k with
  | zero => exact absurd rfl hn
  | succ k => exact ⟨by rw [Nat.pow_succ]; omega, k, by rw [Nat.pow_succ]; omega⟩

theorem isPowerOfTwo_of_supported {w : ℕ} (h : isSupportedBitWidth w = true) : IsPowerOfTwo w := by
  simp only [isSupportedBitWidth, decide_eq_true_eq, List.mem_cons, List.not_mem_nil,
    or_false] at h
  rcases h with rfl | rfl | rfl | rfl | rfl | rfl
  · exact ⟨3, rfl⟩
  · exact ⟨4, rfl⟩
  · exact ⟨5, rfl⟩
  · exact ⟨6, rfl⟩
  · exact ⟨7, rfl⟩
  · exact ⟨8, rfl⟩

/-- The invariant of the worklist loop: the code has the value of the original compare. -/
structure Faithful (pred : Predicate) (items : List (ℕ × CmpInst W)) (s : Rewriting W) : Prop where
  tracks : Tracks items s
  eval : ∀ x y, s.code.eval x y = pred.eval x y
  widths : ∀ e ∈ items, IsPowerOfTwo e.2.width

theorem Faithful.apply {pred : Predicate} {item : ℕ × CmpInst W}
    {rest pushed : List (ℕ × CmpInst W)} {s : Rewriting W} {new : Code W} {used : ℕ}
    (h : Faithful pred (item :: rest) s) (hnew : Stands item.2 s.next new used pushed)
    (hwidths : ∀ e ∈ pushed, IsPowerOfTwo e.2.width) :
    Faithful pred (pushed ++ rest) (s.apply item.1 new used pushed).1 := by
  obtain ⟨htracks, heval⟩ := h.tracks.apply hnew
  refine ⟨htracks, fun x y => (heval x y).trans (h.eval x y), fun e he => ?_⟩
  exact (List.mem_append.mp he).elim (hwidths e) fun he => h.widths e (List.mem_cons_of_mem _ he)

theorem Faithful.pop {pred : Predicate} {item : ℕ × CmpInst W} {rest : List (ℕ × CmpInst W)}
    {s : Rewriting W} (h : Faithful pred (item :: rest) s) : Faithful pred rest s :=
  ⟨⟨h.tracks.ids, fun e he => h.tracks.items_lt e (List.mem_cons_of_mem _ he),
    fun e he => h.tracks.same e (List.mem_cons_of_mem _ he)⟩, h.eval,
    fun e he => h.widths e (List.mem_cons_of_mem _ he)⟩

theorem Faithful.split {pred : Predicate} {target : ℕ} {item : ℕ × CmpInst W}
    {rest pushed : List (ℕ × CmpInst W)} {s s' : Rewriting W}
    (h : Faithful pred (item :: rest) s) (hrun : splitCompare target item s = some (s', pushed)) :
    Faithful pred (pushed ++ rest) s' := by
  rcases splitCompare_cases hrun with ⟨-, heq⟩ | ⟨new, used, ps, heq, -, hzero, hstands, hwidth, -⟩
  · cases heq
    exact h.pop
  · cases heq
    obtain ⟨heven, hhalf⟩ := (h.widths item List.mem_cons_self).half hzero
    exact h.apply (hstands heven) fun e he => by rw [hwidth e he]; exact hhalf

theorem simplifySignedCompare_stands {item : ℕ × CmpInst W} (s : Rewriting W)
    (hpred : item.2.pred = .sgt ∨ item.2.pred = .slt) :
    ∃ new pushed, simplifySignedCompare item s = s.apply item.1 new 3 pushed ∧
      Stands item.2 s.next new 3 pushed ∧ ∀ e ∈ pushed, e.2.width = item.2.width := by
  refine ⟨_, _, rfl, ⟨fun x y => ?_, by simp [Code.cmps], by simp [Code.cmps],
    by simp [Code.cmps]⟩, by simp⟩
  rcases hpred with hpred | hpred
  · exact (eval_signed (.inl ⟨hpred, by rw [if_pos hpred], by rw [if_pos hpred]⟩) x y).symm
  · have hne : item.2.pred ≠ .sgt := by rw [hpred]; decide
    exact (eval_signed (.inr ⟨hpred, by rw [if_neg hne], by rw [if_neg hne]⟩) x y).symm

theorem Faithful.signed {pred : Predicate} {item : ℕ × CmpInst W} {rest : List (ℕ × CmpInst W)}
    {s : Rewriting W} (h : Faithful pred (item :: rest) s)
    (hpred : item.2.pred = .sgt ∨ item.2.pred = .slt) :
    Faithful pred ((simplifySignedCompare item s).2 ++ rest) (simplifySignedCompare item s).1 := by
  obtain ⟨new, pushed, heq, hstands, hwidth⟩ := simplifySignedCompare_stands s hpred
  rw [heq]
  exact h.apply hstands fun e he => by rw [hwidth e he]; exact h.widths item List.mem_cons_self

/-- Only the items that are still on the list have to be tracked. -/
theorem Faithful.mono {pred : Predicate} {items items' : List (ℕ × CmpInst W)} {s : Rewriting W}
    (h : Faithful pred items s) (hsub : ∀ e ∈ items', e ∈ items) : Faithful pred items' s :=
  ⟨⟨h.tracks.ids, fun e he => h.tracks.items_lt e (hsub e he),
    fun e he => h.tracks.same e (hsub e he)⟩, h.eval, fun e he => h.widths e (hsub e he)⟩

theorem Faithful.orEquals {pred newPred : Predicate} {item : ℕ × CmpInst W} {s : Rewriting W}
    (h : Faithful pred [item] s) (hpred : item.2.pred.strict = some newPred) :
    Faithful pred (simplifyOrEqualsCompare item newPred s).2
      (simplifyOrEqualsCompare item newPred s).1 := by
  have hstands : Stands item.2 s.next
      (.branch (.cmp s.next ⟨item.2.width, newPred, item.2.op0, item.2.op1⟩) (.const true)
        (.cmp (s.next + 1) ⟨item.2.width, .eq, item.2.op0, item.2.op1⟩)) 2
      [(s.next, ⟨item.2.width, newPred, item.2.op0, item.2.op1⟩),
        (s.next + 1, ⟨item.2.width, .eq, item.2.op0, item.2.op1⟩)] :=
    ⟨fun x y => (eval_strict hpred x y).symm, by simp [Code.cmps], by simp [Code.cmps],
      by simp [Code.cmps]⟩
  have hwidth := h.widths item List.mem_cons_self
  have hboth := h.apply hstands (by simpa using hwidth)
  rw [simplifyOrEqualsCompare]
  dsimp only
  split
  next hsigned => exact (hboth.signed hsigned).mono (by simp; tauto)
  next hsigned => exact hboth.mono (by simp)

/-- The simplification establishes the invariant. -/
theorem simplify_faithful (hW : IsPowerOfTwo W) (pred : Predicate) :
    Faithful pred (simplify (W := W) pred).2 (simplify (W := W) pred).1 := by
  have hstart : Faithful pred [(0, (⟨W, pred, .op0, .op1⟩ : CmpInst W))]
      ⟨.cmp 0 ⟨W, pred, .op0, .op1⟩, 1⟩ :=
    ⟨⟨by simp [Code.cmps], by simp, by simp [Code.cmps]⟩, fun x y => rfl, by simpa using hW⟩
  rw [simplify]
  cases hstrict : pred.strict with
  | none =>
    dsimp only
    split
    next hsigned => simpa using hstart.signed hsigned
    next hsigned => exact hstart
  | some newPred => exact hstart.orEquals hstrict

/-- The pass keeps the meaning of every compare: when `simplifyAndSplit` returns, the code in place
of the compare computes its result on all operands. -/
theorem simplifyAndSplit_keeps_meaning (W target fuel : ℕ) (pred : Predicate) (s : Rewriting W)
    (hW : isSupportedBitWidth W = true) (h : simplifyAndSplit W target fuel pred = some s)
    (x y : BitVec W) : s.code.eval x y = pred.eval x y := by
  refine (drain_invariant (Faithful pred) ?_
    (simplify_faithful (isPowerOfTwo_of_supported hW) pred) h).eval x y
  intro item rest s s' pushed hinv hstep
  split at hstep
  next hlt => exact hinv.split hstep
  next hlt =>
    cases hstep
    exact hinv.pop

theorem simplifyAndSplit_keeps_meaning_sge : ∃ s, simplifyAndSplit 16 8 100 .sge = some s ∧
    s.code.eval 0x1234#16 0x8000#16 = Predicate.sge.eval 0x1234#16 0x8000#16 := by
  have hsome : (simplifyAndSplit 16 8 100 .sge).isSome = true := by decide
  obtain ⟨s, h⟩ := Option.isSome_iff_exists.mp hsome
  exact ⟨s, h, simplifyAndSplit_keeps_meaning 16 8 100 .sge s rfl h _ _⟩

end Meaning

section Completion

/-- The worklist items the pass can finish. -/
structure Finishes (target : ℕ) (e : ℕ × CmpInst W) : Prop where
  width : IsPowerOfTwo e.2.width
  target_pos : 0 < target
  target_le : target ≤ e.2.width
  pred : (e.2.pred = .eq ∨ e.2.pred = .ne) ∨
    (e.2.pred = .ugt ∨ e.2.pred = .ult) ∧ IsPowerOfTwo target

/-- The worklist items the pass cannot finish: with a target that is no power of two the inverse
compares step over it, down to width 0. -/
structure Doomed (target : ℕ) (e : ℕ × CmpInst W) : Prop where
  width : IsPowerOfTwo e.2.width
  cause : target = 0 ∨ ¬ IsPowerOfTwo target ∧ (e.2.pred = .ugt ∨ e.2.pred = .ult)

theorem IsPowerOfTwo.le_half {m n : ℕ} (hm : IsPowerOfTwo m) (hn : IsPowerOfTwo n) (h : m < n) :
    m ≤ n / 2 := by
  obtain ⟨j, rfl⟩ := hm
  obtain ⟨k, rfl⟩ := hn
  have hjk : j < k := (Nat.pow_lt_pow_iff_right (by decide)).mp h
  have hpow : 2 ^ (j + 1) ≤ 2 ^ k := Nat.pow_le_pow_right (by decide) hjk
  rw [Nat.pow_succ] at hpow
  omega

/-- Three items of half the width cost less than one of the full width. -/
theorem three_mul_half_sq_lt {n : ℕ} (h : 2 ≤ n) :
    n / 2 * (n / 2) + (n / 2 * (n / 2) + n / 2 * (n / 2)) < n * n := by
  have hle : n / 2 + n / 2 ≤ n := by omega
  have hpos : 0 < n / 2 * (n / 2) := Nat.mul_pos (by omega) (by omega)
  have hmul := Nat.mul_le_mul hle hle
  rw [Nat.add_mul, Nat.mul_add] at hmul
  omega

theorem splitCompare_finishes {target : ℕ} {item : ℕ × CmpInst W} (s : Rewriting W)
    (h : Finishes target item) :
    ∃ s' pushed, splitCompare target item s = some (s', pushed) ∧
      (∀ e ∈ pushed, Finishes target e) ∧
      (pushed.map fun e => e.2.width * e.2.width).sum < item.2.width * item.2.width := by
  obtain ⟨id, c⟩ := item
  obtain ⟨hpow, hpos, hle, hpred⟩ := h
  simp only at hpow hle hpred
  by_cases hdone : c.width = target
  · refine ⟨s, [], by rw [splitCompare, if_pos hdone], by simp, ?_⟩
    exact Nat.mul_pos (Nat.lt_of_lt_of_le hpos hle) (Nat.lt_of_lt_of_le hpos hle)
  · have htwo : 2 ≤ c.width := by omega
    have hzero : c.width / 2 ≠ 0 := by omega
    have hhalf := (hpow.half hzero).2
    have hcost := three_mul_half_sq_lt htwo
    have hitems : ∀ pred a b n, target ≤ c.width / 2 →
        ((pred = .eq ∨ pred = .ne) ∨ (pred = .ugt ∨ pred = .ult) ∧ IsPowerOfTwo target) →
        Finishes target ((n, ⟨c.width / 2, pred, a, b⟩) : ℕ × CmpInst W) :=
      fun pred a b n h₁ h₂ => ⟨hhalf, hpos, h₁, h₂⟩
    simp only [splitCompare, hdone, hzero, if_false]
    rcases hpred with (hp | hp) | ⟨hp | hp, htarget⟩ <;> rw [hp]
    · refine ⟨_, _, rfl, ?_, ?_⟩ <;> split
      · simpa using ⟨hitems _ _ _ _ (by omega) (.inl (.inl rfl)),
          hitems _ _ _ _ (by omega) (.inl (.inl rfl))⟩
      · simp
      · simp; omega
      · simp; omega
    · refine ⟨_, _, rfl, ?_, ?_⟩ <;> split
      · simpa using ⟨hitems _ _ _ _ (by omega) (.inl (.inr rfl)),
          hitems _ _ _ _ (by omega) (.inl (.inr rfl))⟩
      · simp
      · simp; omega
      · simp; omega
    all_goals
      have hlehalf := htarget.le_half hpow (by omega)
      refine ⟨_, _, rfl, ?_, ?_⟩
      · intro e he
        rcases List.mem_append.mp he with he | he
        · split at he
          · simp at he
            rcases he with rfl | rfl <;> exact hitems _ _ _ _ hlehalf (.inr ⟨by simp, htarget⟩)
          · simp at he
        · rw [List.mem_singleton] at he
          subst he
          exact hitems _ _ _ _ hlehalf (.inr ⟨by simp, htarget⟩)
      · split <;> simp <;> omega

theorem splitCompare_doomed {target : ℕ} {item : ℕ × CmpInst W} {s s' : Rewriting W}
    {pushed : List (ℕ × CmpInst W)} (h : Doomed target item)
    (hrun : splitCompare target item s = some (s', pushed)) : ∃ b ∈ pushed, Doomed target b := by
  obtain ⟨id, c⟩ := item
  obtain ⟨hpow, hcause⟩ := h
  simp only at hpow hcause
  have hpos : c.width ≠ 0 := by
    obtain ⟨k, hk⟩ := hpow
    rw [hk]
    exact (Nat.two_pow_pos k).ne'
  have hdone : c.width ≠ target := by
    rcases hcause with rfl | ⟨hnot, -⟩
    · exact hpos
    · exact fun heq => hnot (heq ▸ hpow)
  simp only [splitCompare, hdone, if_false] at hrun
  split at hrun
  next hzero => simp at hrun
  next hzero =>
    have hhalf := (hpow.half hzero).2
    rcases hcause with rfl | ⟨hnot, hp⟩
    · rw [if_pos (Nat.pos_of_ne_zero hzero)] at hrun
      cases hpred : c.pred <;> simp only [hpred, Option.some.injEq, reduceCtorEq] at hrun <;>
        cases hrun
      all_goals exact ⟨_, List.mem_cons_self, hhalf, .inl rfl⟩
    · rcases hp with hp | hp <;> rw [hp] at hrun <;> cases hrun
      · exact ⟨_, List.mem_append_right _ List.mem_cons_self, hhalf, .inr ⟨hnot, .inr rfl⟩⟩
      · exact ⟨_, List.mem_append_right _ List.mem_cons_self, hhalf, .inr ⟨hnot, .inl rfl⟩⟩

/-- The worklist items that occur. -/
structure Splittable (e : ℕ × CmpInst W) : Prop where
  width : IsPowerOfTwo e.2.width
  pred : (e.2.pred = .eq ∨ e.2.pred = .ne) ∨ e.2.pred = .ugt ∨ e.2.pred = .ult

/-- A step pushes smaller items. -/
theorem splitCompare_shrinks {target : ℕ} {item : ℕ × CmpInst W} {s s' : Rewriting W}
    {pushed : List (ℕ × CmpInst W)} (h : Splittable item)
    (hrun : splitCompare target item s = some (s', pushed)) :
    (∀ e ∈ pushed, Splittable e) ∧
      (pushed.map fun e => e.2.width * e.2.width).sum < item.2.width * item.2.width := by
  obtain ⟨id, c⟩ := item
  obtain ⟨hpow, hpred⟩ := h
  simp only at hpow hpred
  simp only [splitCompare] at hrun
  split at hrun
  next hdone =>
    cases hrun
    obtain ⟨k, hk⟩ := hpow
    have hpos : 0 < c.width := hk ▸ Nat.two_pow_pos k
    exact ⟨by simp, Nat.mul_pos hpos hpos⟩
  next hdone =>
    split at hrun
    next hzero => simp at hrun
    next hzero =>
      have hhalf := (hpow.half hzero).2
      have hcost := three_mul_half_sq_lt (n := c.width) (by omega)
      have hitems : ∀ pred a b n, (pred = .eq ∨ pred = .ne) ∨ pred = .ugt ∨ pred = .ult →
          Splittable ((n, ⟨c.width / 2, pred, a, b⟩) : ℕ × CmpInst W) :=
        fun pred a b n hp => ⟨hhalf, hp⟩
      rcases hpred with (hp | hp) | hp | hp <;> rw [hp] at hrun <;> cases hrun
      · split
        · exact ⟨by simpa using ⟨hitems _ _ _ _ (by decide), hitems _ _ _ _ (by decide)⟩,
            by simp; omega⟩
        · exact ⟨by simp, by simp; omega⟩
      · split
        · exact ⟨by simpa using ⟨hitems _ _ _ _ (by decide), hitems _ _ _ _ (by decide)⟩,
            by simp; omega⟩
        · exact ⟨by simp, by simp; omega⟩
      all_goals
        split
        · exact ⟨by simpa using ⟨hitems _ _ _ _ (by decide), hitems _ _ _ _ (by decide),
            hitems _ _ _ _ (by decide)⟩, by simp; omega⟩
        · exact ⟨by simpa using hitems _ _ _ _ (by decide), by simp; omega⟩

/-- Only a compare of width 1 cannot be split. -/
theorem width_of_splitCompare_eq_none {target : ℕ} {item : ℕ × CmpInst W} {s : Rewriting W}
    (h : Splittable item) (hnone : splitCompare target item s = none) :
    item.2.width ≠ target ∧ item.2.width / 2 = 0 := by
  obtain ⟨id, c⟩ := item
  simp only [splitCompare] at hnone
  split at hnone
  next hdone => simp at hnone
  next hdone =>
    refine ⟨hdone, ?_⟩
    by_contra hzero
    rw [if_neg hzero] at hnone
    rcases h.pred with (hp | hp) | hp | hp <;> simp only at hp <;> rw [hp] at hnone <;>
      simp at hnone

/-- Equality, and the inequalities of which only the equality reaches the worklist. -/
def Predicate.splitsByEquality (pred : Predicate) : Bool := pred ∈ [.eq, .ne, .uge, .ule]

/-- The worklist after the simplification. -/
theorem simplify_items (pred : Predicate) :
    (∀ e ∈ (simplify (W := W) pred).2, e.2.width = W ∧
      ((e.2.pred = .eq ∨ e.2.pred = .ne) ∨
        (e.2.pred = .ugt ∨ e.2.pred = .ult) ∧ pred.splitsByEquality = false)) ∧
    ∃ e ∈ (simplify (W := W) pred).2,
      pred.splitsByEquality = true ∨ e.2.pred = .ugt ∨ e.2.pred = .ult := by
  cases pred <;>
    simp [simplify, simplifyOrEqualsCompare, simplifySignedCompare, Predicate.strict,
      Rewriting.apply, Predicate.splitsByEquality]

/-- The pass returns for exactly these targets: those the compare does not exceed, and else every
positive one when only equalities are split, and the powers of two when an order is. -/
theorem completes_iff (W target : ℕ) (pred : Predicate) (hW : isSupportedBitWidth W = true) :
    (∃ fuel s, simplifyAndSplit W target fuel pred = some s) ↔
      W ≤ target ∨ 0 < target ∧ (pred.splitsByEquality = true ∨ IsPowerOfTwo target) := by
  have hpow := isPowerOfTwo_of_supported hW
  obtain ⟨hitems, hsome⟩ := simplify_items (W := W) pred
  constructor
  · rintro ⟨fuel, s, hrun⟩
    by_contra hnot
    push Not at hnot
    obtain ⟨hlt, hcause⟩ := hnot
    simp only [simplifyAndSplit, hlt, if_true] at hrun
    rw [drain_eq_none (Doomed target)
      (fun a s s' pushed ha hstep => splitCompare_doomed ha hstep) ?_] at hrun
    · exact absurd hrun (by simp)
    · obtain ⟨e, he, hpred⟩ := hsome
      refine ⟨e, he, by rw [(hitems e he).1]; exact hpow, ?_⟩
      by_cases hzero : target = 0
      · exact .inl hzero
      · obtain ⟨hne, hnp⟩ := hcause (Nat.pos_of_ne_zero hzero)
        exact .inr ⟨hnp, hpred.resolve_left hne⟩
  · intro h
    by_cases hlt : target < W
    · obtain ⟨hpos, hcause⟩ := h.resolve_left (Nat.not_le.mpr hlt)
      refine ⟨_, drain_total (Finishes target) (fun e => e.2.width * e.2.width)
        (fun a s ha => ?_) (simplify (W := W) pred).2 (simplify (W := W) pred).1
        (fun e he => ?_) (Nat.le_refl _)⟩
      · simpa only [hlt, if_true] using splitCompare_finishes s ha
      · obtain ⟨hwidth, hpred⟩ := hitems e he
        refine ⟨by rw [hwidth]; exact hpow, hpos, by rw [hwidth]; exact hlt.le, ?_⟩
        refine hpred.imp_right fun ⟨hord, hsplit⟩ => ⟨hord, hcause.resolve_left ?_⟩
        rw [hsplit]
        exact Bool.false_ne_true
    · refine ⟨_, drain_total (fun _ => True) (fun _ => 1)
        (fun a s _ => ⟨s, [], by rw [if_neg hlt], by simp, by simp⟩) (simplify (W := W) pred).2
        (simplify (W := W) pred).1
        (fun _ _ => trivial) (Nat.le_refl _)⟩

/-- After some steps the loop takes an item that is neither as wide as the target nor can be halved:
its halves would have width 0. -/
def ReachesWidthZero (W target : ℕ) (pred : Predicate) : Prop :=
  ∃ item rest s, Drains (splitCompare target) (simplify (W := W) pred).2
      (simplify (W := W) pred).1 (item :: rest) s ∧
    item.2.width ≠ target ∧ item.2.width / 2 = 0

/-- For every other target the loop ends at a compare of width 0. -/
theorem simplifyAndSplit_completes_iff (W target : ℕ) (pred : Predicate)
    (hW : isSupportedBitWidth W = true) :
    ((∃ fuel s, simplifyAndSplit W target fuel pred = some s) ↔
      W ≤ target ∨ 0 < target ∧ (pred.splitsByEquality = true ∨ IsPowerOfTwo target)) ∧
    (¬ (W ≤ target ∨ 0 < target ∧ (pred.splitsByEquality = true ∨ IsPowerOfTwo target)) →
      target < W ∧ ReachesWidthZero W target pred) := by
  refine ⟨completes_iff W target pred hW, fun hnot => ?_⟩
  have hlt : target < W := Nat.not_le.mp fun hle => hnot (.inl hle)
  refine ⟨hlt, ?_⟩
  have hgood : ∀ e ∈ (simplify (W := W) pred).2, Splittable e := by
    intro e he
    obtain ⟨hwidth, hpred⟩ := (simplify_items (W := W) pred).1 e he
    refine ⟨?_, hpred.imp_right And.left⟩
    rw [hwidth]
    exact isPowerOfTwo_of_supported hW
  have hsteps : ∀ a s s' pushed, Splittable a →
      splitCompare (W := W) target a s = some (s', pushed) → (∀ b ∈ pushed, Splittable b) ∧
        (pushed.map fun e => e.2.width * e.2.width).sum < a.2.width * a.2.width :=
    fun a s s' pushed ha hstep => splitCompare_shrinks ha hstep
  rcases drain_or_stuck Splittable (fun e => e.2.width * e.2.width) hsteps
    (simplify (W := W) pred).2 (simplify (W := W) pred).1 hgood with ⟨fuel, s, hrun⟩ |
    ⟨item, rest, s, hdrains, hitem, hnone⟩
  · refine absurd ((completes_iff W target pred hW).mp ⟨fuel, s, ?_⟩) hnot
    simpa only [simplifyAndSplit, hlt, if_true] using hrun
  · obtain ⟨hne, hzero⟩ := width_of_splitCompare_eq_none hitem hnone
    exact ⟨item, rest, s, hdrains, hne, hzero⟩

theorem simplifyAndSplit_completes_iff_ult :
    ((∃ fuel s, simplifyAndSplit 32 24 fuel .ult = some s) ↔
      32 ≤ 24 ∨ 0 < 24 ∧ (Predicate.splitsByEquality .ult = true ∨ IsPowerOfTwo 24)) ∧
    (¬ (32 ≤ 24 ∨ 0 < 24 ∧ (Predicate.splitsByEquality .ult = true ∨ IsPowerOfTwo 24)) →
      24 < 32 ∧ ReachesWidthZero 32 24 .ult) :=
  simplifyAndSplit_completes_iff 32 24 .ult rfl

/-- The strict compare of an unsigned `>=` or `<=` that the simplification leaves behind. -/
def leftBehind (pred : Predicate) : Option (ℕ × CmpInst W) :=
  match pred with
  | .uge => some (1, ⟨W, .ugt, .op0, .op1⟩)
  | .ule => some (1, ⟨W, .ult, .op0, .op1⟩)
  | _ => none

/-- The invariant of the worklist loop about widths: a compare that is neither pending nor narrow is
the one left behind, and that one is never touched. -/
structure Narrows (target : ℕ) (pred : Predicate) (items : List (ℕ × CmpInst W))
    (s : Rewriting W) : Prop where
  narrow : ∀ d ∈ s.code.cmps, d ∈ items ∨ d.2.width ≤ target ∨ leftBehind pred = some d
  kept : ∀ d, leftBehind pred = some d → d ∈ s.code.cmps ∧ d.1 < s.next ∧ ∀ e ∈ items, e.1 ≠ d.1

theorem Narrows.split {target : ℕ} {pred : Predicate} {item : ℕ × CmpInst W}
    {rest pushed : List (ℕ × CmpInst W)} {s s' : Rewriting W}
    (h : Narrows target pred (item :: rest) s) (hfaithful : Faithful pred (item :: rest) s)
    (hrun : splitCompare target item s = some (s', pushed)) :
    Narrows target pred (pushed ++ rest) s' := by
  rcases splitCompare_cases hrun with ⟨hdone, heq⟩ |
    ⟨new, used, ps, heq, -, hzero, hstands, -, hnarrow⟩
  · cases heq
    refine ⟨fun d hd => ?_, fun d hd => ?_⟩
    · rcases h.narrow d hd with hmem | hleft
      · rcases List.mem_cons.mp hmem with rfl | hmem
        · exact .inr (.inl hdone.le)
        · exact .inl hmem
      · exact .inr hleft
    · obtain ⟨hmem, hlt, hne⟩ := h.kept d hd
      exact ⟨hmem, hlt, fun e he => hne e (List.mem_cons_of_mem _ he)⟩
  · cases heq
    have heven := ((hfaithful.widths item List.mem_cons_self).half hzero).1
    have hs := hstands heven
    refine ⟨fun d hd => ?_, fun d hd => ?_⟩
    · rcases mem_cmps_replace hd with ⟨hd, hne⟩ | hd
      · refine (h.narrow d hd).imp_left fun hmem => List.mem_append_right _ ?_
        exact (List.mem_cons.mp hmem).resolve_left fun heq => hne (by rw [heq])
      · exact (hnarrow d hd).imp (List.mem_append_left _) .inl
    · obtain ⟨hmem, hlt, hne⟩ := h.kept d hd
      refine ⟨mem_cmps_replace_of_ne hmem (hne item List.mem_cons_self).symm,
        Nat.lt_add_right _ hlt, fun e he => ?_⟩
      rcases List.mem_append.mp he with he | he
      · have := (hs.ids e (hs.pushed e he)).1
        omega
      · exact hne e (List.mem_cons_of_mem _ he)

theorem simplify_narrows (target : ℕ) (hpos : 0 < target) (pred : Predicate) :
    Narrows target pred (simplify (W := W) pred).2 (simplify (W := W) pred).1 := by
  constructor <;> cases pred <;>
    simp [simplify, simplifyOrEqualsCompare, simplifySignedCompare, Predicate.strict,
      Rewriting.apply, Code.replace, Code.cmps, leftBehind] <;> omega

/-- What the pass leaves of a compare wider than the target: compares of at most the target width,
and for an unsigned `>=` or `<=` one more, the strict compare of the whole operands. -/
theorem simplifyAndSplit_widths (W target fuel : ℕ) (pred : Predicate) (s : Rewriting W)
    (hW : isSupportedBitWidth W = true) (hlt : target < W)
    (h : simplifyAndSplit W target fuel pred = some s) :
    (∀ d ∈ s.code.cmps, target < d.2.width →
      (pred = .uge ∧ d.2 = ⟨W, .ugt, .op0, .op1⟩) ∨ (pred = .ule ∧ d.2 = ⟨W, .ult, .op0, .op1⟩)) ∧
    ((∃ d ∈ s.code.cmps, target < d.2.width) ↔ pred = .uge ∨ pred = .ule) := by
  have hpos : 0 < target := by
    have hdone := (completes_iff W target pred hW).mp ⟨fuel, s, h⟩
    exact (hdone.resolve_left (Nat.not_le.mpr hlt)).1
  have hinv : Faithful pred [] s ∧ Narrows target pred [] s := by
    refine drain_invariant (fun items s => Faithful pred items s ∧ Narrows target pred items s) ?_
      ⟨simplify_faithful (isPowerOfTwo_of_supported hW) pred, simplify_narrows target hpos pred⟩ h
    intro item rest s s' pushed ⟨hf, hn⟩ hstep
    rw [if_pos hlt] at hstep
    exact ⟨hf.split hstep, hn.split hf hstep⟩
  obtain ⟨-, hnarrow, hkept⟩ := hinv
  have hwide : ∀ d ∈ s.code.cmps, target < d.2.width → leftBehind pred = some d := by
    intro d hd hwide
    rcases hnarrow d hd with hmem | hle | hleft
    · exact absurd hmem List.not_mem_nil
    · omega
    · exact hleft
  refine ⟨fun d hd hd' => ?_, fun ⟨d, hd, hd'⟩ => ?_, ?_⟩
  · have hleft := hwide d hd hd'
    cases pred <;> simp [leftBehind] at hleft ⊢ <;> rw [← hleft]
  · have hleft := hwide d hd hd'
    cases pred <;> simp [leftBehind] at hleft ⊢
  · rintro (rfl | rfl)
    · exact ⟨_, (hkept _ rfl).1, hlt⟩
    · exact ⟨_, (hkept _ rfl).1, hlt⟩

theorem simplifyAndSplit_widths_uge : ∃ s, simplifyAndSplit 16 8 100 .uge = some s ∧
    ∃ d ∈ s.code.cmps, 8 < d.2.width := by
  have hsome : (simplifyAndSplit 16 8 100 .uge).isSome = true := by decide
  obtain ⟨s, h⟩ := Option.isSome_iff_exists.mp hsome
  exact ⟨s, h, (simplifyAndSplit_widths 16 8 100 .uge s rfl (by decide) h).2.mpr (.inl rfl)⟩

end Completion

end AflPlusPlus.Laf
