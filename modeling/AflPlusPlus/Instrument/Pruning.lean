import AflPlusPlus.Lib.FlowGraph
import Mathlib.Data.Fin.VecNotation
import Mathlib.Data.Fintype.Basic
import Mathlib.Data.List.Nodup
import Mathlib.Tactic.FinCases

/-!
# Blocks without instrumentation

After critical edges are split, `shouldInstrumentBlock` picks blocks of a function. The PCGUARD pass
gives them counters, but where a block has instructions with counters of their own it has no other;
the LTO pass leaves out the blocks around `__AFL_LOOP`, and all of them when it instruments
contexts. As long as that hides no block that was picked, a call of the function that returns is
told apart from every other one that takes another path through its blocks or edges: what
`shouldInstrumentBlock` left out can be worked out from the blocks that have counters.
-/

namespace AflPlusPlus.Instrument
open Lib

/-- A function in front of a pass. `succs` has one entry for every operand of the terminator. -/
structure Func (B : Type*) where
  entry : B
  blocks : List B
  succs : B → List B
  /-- The first instruction is `unreachable`. -/
  isUnreachable : B → Bool
  hasInsertionPt : B → Bool
  /-- `block_is_instrumented`: there is a call of `__afl_coverage_interesting`, or a compare or
  select that no branch uses and that decides no select. -/
  isSpecial : B → Bool
  /-- The first instruction is such a call. The load of its counter's index is put in front of it,
  and the new first instruction has no `skipinstrument` mark. -/
  startsWithCall : B → Bool
  /-- One of these instructions gets counters, of which one goes up whenever the block is run. A
  compare of vectors gets none. -/
  counts : B → Bool
  /-- The block is in `BlockList`: it calls `__afl_persistent_loop` or comes after one that does. -/
  inBlockList : B → Bool

inductive CoverageType
  | none
  | function
  | bb
  | edge
deriving DecidableEq

structure Options where
  coverageType : CoverageType
  noPrune : Bool
  instrumentCtx : Bool

variable {B : Type*}

/-- There is an edge. -/
def Func.Edge (F : Func B) (a b : B) : Prop := a ∈ F.blocks ∧ b ∈ F.succs a

/-- The blocks that a call of the function goes through until it returns. -/
structure Call (F : Func B) (run : List B) : Prop where
  walk : ∃ x, Walk F.Edge F.entry x run ∧ x ∈ F.blocks ∧ F.succs x = []
  alive : ∀ b ∈ run, F.isUnreachable b = false

/-- A call does not stop where it could go on. -/
theorem Call.goes_on {F : Func B} {run : List B} (hrun : Call F run) :
    ∀ b ∈ run, F.succs b ≠ [] → ∃ s ∈ F.succs b, F.isUnreachable s = false := by
  obtain ⟨x, hwalk, -, hlast⟩ := hrun.walk
  intro b hb hne
  obtain ⟨s, hs, l, r, rfl⟩ := hwalk.takes_of_mem hb fun h => hne (h ▸ hlast)
  exact ⟨s, hs.2, hrun.alive s (by simp)⟩

theorem mem_blocks_of_walk {F : Func B} {a x : B} {run : List B} (h : Walk F.Edge a x run)
    (hx : x ∈ F.blocks) : ∀ b ∈ run, b ∈ F.blocks := by
  induction h with
  | one v =>
    intro b hb
    rw [List.mem_singleton.mp hb]
    exact hx
  | step hE _ ih => exact List.forall_mem_cons.mpr ⟨hE.1, ih hx⟩

def isFullDominator (F : Func B) (DT : B → B → Bool) (b : B) : Bool :=
  if (F.succs b).isEmpty then false else (F.succs b).all fun s => DT b s

theorem isFullDominator_iff {F : Func B} {DT : B → B → Bool} {b : B} :
    isFullDominator F DT b = true ↔ F.succs b ≠ [] ∧ ∀ s ∈ F.succs b, DT b s = true := by
  rw [isFullDominator]
  cases F.succs b <;> simp

variable [DecidableEq B]

/-- One entry for every edge. -/
def Func.preds (F : Func B) (b : B) : List B :=
  F.blocks.flatMap fun a => (F.succs a).filterMap fun s => if s = b then some a else none

variable (F : Func B) (DT PDT : B → B → Bool) (opts : Options)

def isFullPostDominator (b : B) : Bool :=
  if (F.preds b).isEmpty then false else (F.preds b).all fun p => PDT b p

def hasSinglePredecessor (b : B) : Bool := (F.preds b).length = 1

namespace Pcguard

/-- `shouldInstrumentBlock` of SanitizerCoveragePCGUARD. -/
def shouldInstrumentBlock (b : B) : Bool :=
  if F.isUnreachable b then false
  else if !F.hasInsertionPt b then false
  else if opts.noPrune || F.entry = b then true
  else !isFullDominator F DT b && !(isFullPostDominator F PDT b && !hasSinglePredecessor F b)

/-- The blocks that `InjectCoverage` marks and gives no counter. -/
def skipinstrument (b : B) : Bool :=
  F.isSpecial b && F.entry ≠ b && shouldInstrumentBlock F DT PDT opts b && !F.startsWithCall b

/-- A counter of the block, or of one of its instructions, tells that the block was run. -/
def counted (b : B) : Bool :=
  shouldInstrumentBlock F DT PDT opts b && !skipinstrument F DT PDT opts b || F.counts b

end Pcguard

namespace Lto

/-- `shouldInstrumentBlock` of SanitizerCoverageLTO. -/
def shouldInstrumentBlock (b : B) : Bool :=
  if F.isUnreachable b then false
  else if !F.hasInsertionPt b then false
  else if !opts.noPrune && F.entry = b && 1 < F.blocks.length then false
  else if opts.noPrune || F.entry = b then true
  else if opts.coverageType = .function && F.entry ≠ b then false
  else !isFullDominator F DT b && !(isFullPostDominator F PDT b && !hasSinglePredecessor F b)

/-- The block gets a counter. -/
def counted (b : B) : Bool :=
  !opts.instrumentCtx && shouldInstrumentBlock F DT PDT opts b && !F.inBlockList b

end Lto

/-- A function of which every block can be reached and has an insertion point, with its critical
edges split except those to blocks that are only `unreachable`. -/
structure Prepared (F : Func B) : Prop where
  nodup : F.blocks.Nodup
  entry_mem : F.entry ∈ F.blocks
  succs_mem : ∀ a ∈ F.blocks, ∀ b ∈ F.succs a, b ∈ F.blocks
  entry_first : ∀ a ∈ F.blocks, F.entry ∉ F.succs a
  unreachable_last : ∀ a ∈ F.blocks, F.isUnreachable a = true → F.succs a = []
  insertable : ∀ a ∈ F.blocks, F.hasInsertionPt a = true
  reachable : ∀ a ∈ F.blocks, ∃ p, Walk F.Edge F.entry a p
  split : ∀ a ∈ F.blocks, ∀ b ∈ F.succs a, F.isUnreachable b = false →
    (F.succs a).length = 1 ∨ (F.preds b).length = 1

/-- The answers of the dominator trees. Every block that a call can end in is a root of the
postdominator tree; others may be. -/
structure Analyses (F : Func B) (DT PDT : B → B → Bool) (root : B → Prop) : Prop where
  dominates : ∀ a b, DT a b = true ↔ Dominates F.Edge F.entry a b
  postDominates : ∀ a b, PDT a b = true ↔ PostDominates F.Edge root a b
  roots : ∀ a ∈ F.blocks, F.succs a = [] → root a

variable {F DT PDT opts} {root : B → Prop} {run run' : List B} {a b m : B}

/-! ### Predecessors -/

theorem mem_preds : a ∈ F.preds b ↔ F.Edge a b := by
  rw [Func.preds, List.mem_flatMap]
  constructor
  · rintro ⟨c, hc, hmem⟩
    obtain ⟨s, hs, hsome⟩ := List.mem_filterMap.mp hmem
    split_ifs at hsome with heq
    obtain rfl := Option.some.inj hsome
    exact ⟨hc, heq ▸ hs⟩
  · rintro ⟨ha, hb⟩
    exact ⟨a, ha, List.mem_filterMap.mpr ⟨b, hb, if_pos rfl⟩⟩

theorem isFullPostDominator_iff : isFullPostDominator F PDT b = true ↔
    F.preds b ≠ [] ∧ ∀ p ∈ F.preds b, PDT b p = true := by
  rw [isFullPostDominator]
  cases F.preds b <;> simp

/-- Every entry of the predecessors is the same block only if it has several edges. -/
theorem length_preds_of_forall (hnodup : F.blocks.Nodup) (h : ∀ p ∈ F.preds b, p = a) :
    (F.preds b).length ≤ (F.succs a).length := by
  have hle (l : List B) (hl : l.Nodup) (hsub : ∀ c ∈ l.flatMap fun c => (F.succs c).filterMap
      fun s => if s = b then some c else none, c = a) :
      (l.flatMap fun c => (F.succs c).filterMap fun s => if s = b then some c else none).length ≤
        if a ∈ l then (F.succs a).length else 0 := by
    induction l with
    | nil => simp
    | cons c l ih =>
      rw [List.flatMap_cons] at hsub ⊢
      rw [List.nodup_cons] at hl
      have hrest := ih hl.2 fun d hd => hsub d (List.mem_append_right _ hd)
      rw [List.length_append]
      by_cases hca : c = a
      · obtain rfl := hca
        rw [if_neg hl.1] at hrest
        rw [if_pos List.mem_cons_self]
        have := List.length_filterMap_le (fun s => if s = b then some c else none) (F.succs c)
        omega
      · have hnil : ((F.succs c).filterMap fun s => if s = b then some c else none) = [] := by
          rw [List.eq_nil_iff_forall_not_mem]
          intro d hd
          obtain ⟨s, -, hsome⟩ := List.mem_filterMap.mp hd
          split_ifs at hsome
          exact hca ((Option.some.inj hsome).trans (hsub d (List.mem_append_left _ hd)))
        rw [hnil, List.length_nil, Nat.zero_add]
        have hmem : a ∈ c :: l ↔ a ∈ l := by simp [Ne.symm hca]
        simpa only [hmem] using hrest
  refine Nat.le_trans (hle F.blocks hnodup h) ?_
  split_ifs
  · exact Nat.le_refl _
  · exact Nat.zero_le _

/-! ### The function as a flow graph -/

theorem Prepared.noncritical (hF : Prepared F) (hb : F.isUnreachable b = false)
    (hjoin : Join F.Edge b) (hE : F.Edge a b) : ∀ s, F.Edge a s → s = b := by
  obtain hone | hone := hF.split a hE.1 b hE.2 hb
  · obtain ⟨c, hc⟩ := List.length_eq_one_iff.mp hone
    have hbc := hE.2
    rw [hc, List.mem_singleton] at hbc
    intro s hs
    have hsc := hs.2
    rw [hc, List.mem_singleton] at hsc
    exact hsc.trans hbc.symm
  · obtain ⟨c, hc⟩ := List.length_eq_one_iff.mp hone
    obtain ⟨p, q, hpq, hp, hq⟩ := hjoin
    rw [← mem_preds, hc, List.mem_singleton] at hp hq
    exact absurd (hp.trans hq.symm) hpq

theorem Prepared.flowGraph (hF : Prepared F) :
    FlowGraph F.Edge F.entry fun b => F.isUnreachable b = true where
  entry_first := fun v hv => hF.entry_first v hv.1 hv.2
  reachable := fun v _ hv => hF.reachable v hv.1
  dead_last := fun v w hdead hv => by
    have hw := hv.2
    rw [hF.unreachable_last v hv.1 hdead] at hw
    exact List.not_mem_nil hw
  noncritical := fun m hm hjoin p hp =>
    hF.noncritical (Bool.eq_false_iff.mpr hm) hjoin hp

/-- A block with several predecessor entries has different ones. -/
theorem Prepared.join (hF : Prepared F) (hb : F.isUnreachable b = false)
    (hnone : F.preds b ≠ []) (hmany : hasSinglePredecessor F b = false) : Join F.Edge b := by
  obtain ⟨p, l, hp⟩ := List.exists_cons_of_ne_nil hnone
  have hmem : F.Edge p b := mem_preds.mp (hp ▸ List.mem_cons_self)
  have hmany : (F.preds b).length ≠ 1 := by simpa [hasSinglePredecessor] using hmany
  by_contra hjoin
  have hall : ∀ q ∈ F.preds b, q = p := fun q hq => by
    by_contra hne
    exact hjoin ⟨q, p, hne, mem_preds.mp hq, hmem⟩
  have hle := length_preds_of_forall hF.nodup hall
  have hone := (hF.split p hmem.1 b hmem.2 hb).resolve_right hmany
  have hpos : 0 < (F.preds b).length := List.length_pos_iff.mpr hnone
  omega

/-- A block that a pass gives no counter needs none. -/
def Omits (F : Func B) (DT PDT : B → B → Bool) (should : B → Bool) : Prop :=
  ∀ b ∈ F.blocks, F.isUnreachable b = false → should b = false →
    isFullDominator F DT b = true ∨
      isFullPostDominator F PDT b = true ∧ hasSinglePredecessor F b = false

theorem Pcguard.omits (hF : Prepared F) :
    Omits F DT PDT (shouldInstrumentBlock F DT PDT opts) := by
  intro b hb halive hnot
  rw [shouldInstrumentBlock, halive, hF.insertable b hb] at hnot
  simp only [Bool.false_eq_true, if_false, Bool.not_true] at hnot
  split_ifs at hnot
  simpa [or_iff_not_imp_left] using hnot

/-- The entry dominates everything, so that leaving it out is no exception. -/
theorem Lto.omits (hF : Prepared F) (hA : Analyses F DT PDT root)
    (hedge : opts.coverageType = .edge) :
    Omits F DT PDT (shouldInstrumentBlock F DT PDT opts) := by
  intro b hb halive hnot
  rw [shouldInstrumentBlock, halive, hF.insertable b hb, hedge] at hnot
  simp only [Bool.false_eq_true, if_false, Bool.not_true, reduceCtorEq, decide_false,
    Bool.false_and] at hnot
  split_ifs at hnot with hentry hprune
  · simp only [Bool.and_eq_true, decide_eq_true_eq] at hentry
    obtain ⟨⟨-, rfl⟩, hsize⟩ := hentry
    refine Or.inl (isFullDominator_iff.mpr ⟨fun hnil => ?_, fun s hs => ?_⟩)
    · -- another block is reached from the entry
      obtain ⟨c, hc, hne⟩ : ∃ c ∈ F.blocks, c ≠ F.entry := by
        by_contra hall
        push Not at hall
        have := List.nodup_iff_count_le_one.mp hF.nodup F.entry
        rw [List.eq_replicate_of_mem hall, List.count_replicate_self] at this
        omega
      obtain ⟨p, hp⟩ := hF.reachable c hc
      cases hp with
      | one => exact hne rfl
      | step hE _ =>
        have hs := hE.2
        rw [hnil] at hs
        exact List.not_mem_nil hs
    · exact (hA.dominates _ _).mpr fun p hp => hp.first_mem
  · simpa [or_iff_not_imp_left] using hnot

theorem Omits.mono {should counted : B → Bool} (homits : Omits F DT PDT should)
    (h : ∀ b ∈ F.blocks, should b = true → counted b = true) : Omits F DT PDT counted :=
  fun b hb halive hnot => homits b hb halive
    (Bool.eq_false_iff.mpr fun hshould => Bool.eq_false_iff.mp hnot (h b hb hshould))

/-- Every block that was picked has a counter, of its own or of one of its instructions. -/
theorem Pcguard.omits_counted (hF : Prepared F)
    (hcounts : ∀ b ∈ F.blocks, skipinstrument F DT PDT opts b = true → F.counts b = true) :
    Omits F DT PDT (counted F DT PDT opts) := by
  have homits : Omits F DT PDT (shouldInstrumentBlock F DT PDT opts) := Pcguard.omits hF
  refine homits.mono fun b hb hshould => ?_
  rw [counted, hshould, Bool.true_and]
  cases hskip : skipinstrument F DT PDT opts b with
  | false => rfl
  | true => exact hcounts b hb hskip

theorem Lto.omits_counted (hF : Prepared F) (hA : Analyses F DT PDT root)
    (hedge : opts.coverageType = .edge) (hctx : opts.instrumentCtx = false)
    (hlist : ∀ b ∈ F.blocks, shouldInstrumentBlock F DT PDT opts b = true →
      F.inBlockList b = false) : Omits F DT PDT (counted F DT PDT opts) := by
  have homits : Omits F DT PDT (shouldInstrumentBlock F DT PDT opts) := Lto.omits hF hA hedge
  refine homits.mono fun b hb hshould => ?_
  rw [counted, hctx, hshould, hlist b hb hshould]
  rfl

/-- On a call every block has a counter, or its neighbours tell about it. -/
theorem pruned_of_omits {should : B → Bool} (hF : Prepared F) (hA : Analyses F DT PDT root)
    (homits : Omits F DT PDT should) (halive : ∀ b ∈ run, F.isUnreachable b = false)
    (hmem : ∀ b ∈ run, b ∈ F.blocks)
    (hlast : ∀ b ∈ run, F.succs b ≠ [] → ∃ s ∈ F.succs b, F.isUnreachable s = false) :
    ∀ b ∈ run, Pruned F.Edge F.entry root (fun b => F.isUnreachable b = true)
      (fun b => b ∈ run ∧ should b = true) b := by
  intro b hb
  cases hshould : should b with
  | true => exact Or.inl ⟨hb, hshould⟩
  | false =>
    refine Or.inr ?_
    obtain hfull | ⟨hfull, hmany⟩ := homits b (hmem b hb) (halive b hb) hshould
    · obtain ⟨hne, hall⟩ := isFullDominator_iff.mp hfull
      obtain ⟨s, hs, hsalive⟩ := hlast b hb hne
      refine Or.inl ⟨⟨s, ⟨hmem b hb, hs⟩, Bool.eq_false_iff.mp hsalive⟩, fun t ht _ => ?_⟩
      exact (hA.dominates b t).mp (hall t ht.2)
    · obtain ⟨hne, hall⟩ := isFullPostDominator_iff.mp hfull
      refine Or.inr ⟨hF.join (halive b hb) hne hmany, fun u hu => ?_⟩
      exact (hA.postDominates b u).mp (hall u (mem_preds.mpr hu))

/-- The blocks of a call are those recovered from the ones with counters. -/
theorem mem_iff_recovered {should : B → Bool} (hF : Prepared F) (hA : Analyses F DT PDT root)
    (homits : Omits F DT PDT should) (hrun : Call F run) (b : B) :
    b ∈ run ↔ Recovered F.Edge F.entry root (fun b => b ∈ run ∧ should b = true) b := by
  obtain ⟨x, hwalk, hx, hlast⟩ := hrun.walk
  have hend : ∀ w, ¬ F.Edge x w := fun w hw => by
    have hmem := hw.2
    rw [hlast] at hmem
    exact List.not_mem_nil hmem
  exact hF.flowGraph.mem_iff_recovered hwalk (hA.roots x hx hlast) hend
    (fun w hw => Bool.eq_false_iff.mp (hrun.alive w hw)) (fun w hw => hw.1)
    (pruned_of_omits hF hA homits hrun.alive (mem_blocks_of_walk hwalk hx) hrun.goes_on)

/-- Calls that agree on the blocks with counters go through the same blocks and edges. -/
theorem same_path {should : B → Bool} (hF : Prepared F) (hA : Analyses F DT PDT root)
    (homits : Omits F DT PDT should) (hrun : Call F run) (hrun' : Call F run')
    (hsame : ∀ b, should b = true → (b ∈ run ↔ b ∈ run')) :
    (∀ b, b ∈ run ↔ b ∈ run') ∧ ∀ a b, Takes run a b ↔ Takes run' a b := by
  have hseen : (fun b => b ∈ run ∧ should b = true) = fun b => b ∈ run' ∧ should b = true := by
    funext b
    exact propext (and_congr_left (hsame b))
  have hmem (b : B) : b ∈ run ↔ b ∈ run' := by
    rw [mem_iff_recovered hF hA homits hrun, hseen, ← mem_iff_recovered hF hA homits hrun']
  have hsub {run run' : List B} (hrun : Call F run) (hrun' : Call F run')
      (hmem : ∀ b ∈ run, b ∈ run') (a b : B) (ht : Takes run a b) : Takes run' a b := by
    obtain ⟨x, hwalk, -, -⟩ := hrun.walk
    obtain ⟨y, hwalk', -, hlast⟩ := hrun'.walk
    refine hF.flowGraph.takes_of_same hwalk hwalk' (fun w hw => ?_)
      (fun w hw => Bool.eq_false_iff.mp (hrun.alive w hw)) hmem ht
    have hw' := hw.2
    rw [hlast] at hw'
    exact List.not_mem_nil hw'
  exact ⟨hmem, fun a b => ⟨hsub hrun hrun' (fun c => (hmem c).mp) a b,
    hsub hrun' hrun (fun c => (hmem c).mpr) a b⟩⟩

/-- A loop with its back edge split. The block on the back edge has a select with counters. -/
def loop : Func (Fin 5) where
  entry := 0
  blocks := [0, 1, 2, 3, 4]
  succs := ![[1], [2], [4, 3], [], [1]]
  isUnreachable := fun _ => false
  hasInsertionPt := fun _ => true
  isSpecial := (· = 4)
  startsWithCall := fun _ => false
  counts := (· = 4)
  inBlockList := fun _ => false

theorem prepared_loop : Prepared loop := by
  refine ⟨by decide, by decide, by decide, by decide, by decide, by decide, fun a _ => ?_,
    by decide⟩
  have h0 : Walk loop.Edge 0 0 [0] := .one 0
  have h1 := h0.snoc (show loop.Edge 0 1 from ⟨by decide, by decide⟩)
  have h2 := h1.snoc (show loop.Edge 1 2 from ⟨by decide, by decide⟩)
  have h3 := h2.snoc (show loop.Edge 2 3 from ⟨by decide, by decide⟩)
  have h4 := h2.snoc (show loop.Edge 2 4 from ⟨by decide, by decide⟩)
  fin_cases a
  exacts [⟨_, h0⟩, ⟨_, h1⟩, ⟨_, h2⟩, ⟨_, h3⟩, ⟨_, h4⟩]

/-- The path of a call that goes round the loop `n` times. -/
def rounds : ℕ → List (Fin 5)
  | 0 => [1, 2, 3]
  | n + 1 => 1 :: 2 :: 4 :: rounds n

theorem call_rounds (n : ℕ) : Call loop (0 :: rounds n) := by
  have hwalk : Walk loop.Edge 1 3 (rounds n) := by
    induction n with
    | zero => exact .step ⟨by decide, by decide⟩ (.step ⟨by decide, by decide⟩ (.one 3))
    | succ n ih =>
      exact .step ⟨by decide, by decide⟩ (.step ⟨by decide, by decide⟩
        (.step ⟨by decide, by decide⟩ ih))
  exact ⟨⟨3, .step ⟨by decide, by decide⟩ hwalk, by decide, rfl⟩, fun _ _ => rfl⟩

theorem counts_loop {DT PDT : Fin 5 → Fin 5 → Bool} (b : Fin 5)
    (hskip : Pcguard.skipinstrument loop DT PDT opts b = true) : loop.counts b = true := by
  simp only [Pcguard.skipinstrument, Bool.and_eq_true] at hskip
  exact hskip.1.1.1

theorem exists_analyses_loop : ∃ DT PDT : Fin 5 → Fin 5 → Bool, Analyses loop DT PDT (· = 3) := by
  classical
  refine ⟨fun a b => decide (Dominates loop.Edge loop.entry a b),
    fun a b => decide (PostDominates loop.Edge (· = 3) a b), fun a b => decide_eq_true_iff,
    fun a b => decide_eq_true_iff, by decide⟩

section
variable (opts : Options)

/-- The blocks that a call goes through are those that follow from the ones with counters it goes
through: they, what dominates such a block, and what postdominates one. -/
theorem pcguard_mem_iff_recovered (hF : Prepared F) (hA : Analyses F DT PDT root)
    (hcounts : ∀ b ∈ F.blocks,
      Pcguard.skipinstrument F DT PDT opts b = true → F.counts b = true)
    (hrun : Call F run) (b : B) :
    b ∈ run ↔ Recovered F.Edge F.entry root
      (fun b => b ∈ run ∧ Pcguard.counted F DT PDT opts b = true) b :=
  mem_iff_recovered hF hA (Pcguard.omits_counted hF hcounts) hrun b

theorem pcguard_mem_iff_recovered_loop : ∃ DT PDT : Fin 5 → Fin 5 → Bool,
    Recovered loop.Edge 0 (· = 3) (fun b => b ∈ 0 :: rounds 1 ∧
      Pcguard.counted loop DT PDT ⟨.edge, false, false⟩ b = true) 4 := by
  obtain ⟨DT, PDT, hA⟩ := exists_analyses_loop
  exact ⟨DT, PDT, (pcguard_mem_iff_recovered ⟨.edge, false, false⟩ prepared_loop hA
    (fun b _ => counts_loop b) (call_rounds 1) 4).mp (by decide)⟩

/-- Two calls that agree on the blocks with counters go through the same blocks and the same
edges. -/
theorem pcguard_same_path (hF : Prepared F) (hA : Analyses F DT PDT root)
    (hcounts : ∀ b ∈ F.blocks,
      Pcguard.skipinstrument F DT PDT opts b = true → F.counts b = true)
    (hrun : Call F run) (hrun' : Call F run')
    (hsame : ∀ b, Pcguard.counted F DT PDT opts b = true → (b ∈ run ↔ b ∈ run')) :
    (∀ b, b ∈ run ↔ b ∈ run') ∧ ∀ a b, Takes run a b ↔ Takes run' a b :=
  same_path hF hA (Pcguard.omits_counted hF hcounts) hrun hrun' hsame

theorem pcguard_same_path_loop : Takes (0 :: rounds 1) 4 1 ↔ Takes (0 :: rounds 2) 4 1 := by
  obtain ⟨DT, PDT, hA⟩ := exists_analyses_loop
  have hsame : ∀ b, b ∈ 0 :: rounds 1 ↔ b ∈ 0 :: rounds 2 := by decide
  exact (pcguard_same_path ⟨.edge, false, false⟩ prepared_loop hA (fun b _ => counts_loop b)
    (call_rounds 1) (call_rounds 2) fun b _ => hsame b).2 4 1

/-- The same for the LTO pass, which leaves the entry out as well. -/
theorem lto_same_path (hF : Prepared F) (hA : Analyses F DT PDT root)
    (hedge : opts.coverageType = .edge) (hctx : opts.instrumentCtx = false)
    (hlist : ∀ b ∈ F.blocks, Lto.shouldInstrumentBlock F DT PDT opts b = true →
      F.inBlockList b = false)
    (hrun : Call F run) (hrun' : Call F run')
    (hsame : ∀ b, Lto.counted F DT PDT opts b = true → (b ∈ run ↔ b ∈ run')) :
    (∀ b, b ∈ run ↔ b ∈ run') ∧ ∀ a b, Takes run a b ↔ Takes run' a b :=
  same_path hF hA (Lto.omits_counted hF hA hedge hctx hlist) hrun hrun' hsame

theorem lto_same_path_loop : Takes (0 :: rounds 1) 4 1 ↔ Takes (0 :: rounds 2) 4 1 := by
  obtain ⟨DT, PDT, hA⟩ := exists_analyses_loop
  have hsame : ∀ b, b ∈ 0 :: rounds 1 ↔ b ∈ 0 :: rounds 2 := by decide
  exact (lto_same_path ⟨.edge, false, false⟩ prepared_loop hA rfl rfl (fun _ _ _ => rfl)
    (call_rounds 1) (call_rounds 2) fun b _ => hsame b).2 4 1

end

end AflPlusPlus.Instrument
