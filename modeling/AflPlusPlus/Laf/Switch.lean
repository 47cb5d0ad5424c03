import AflPlusPlus.Lib.PhiEdges
import AflPlusPlus.Lib.Loop
import Mathlib.Data.BitVec
import Mathlib.Data.Finset.Sort
import Mathlib.Data.List.GetD

/-!
# Splitting switches into byte comparisons

`switchConvert` of `instrumentation/split-switches-pass.so.cc` replaces a switch by a tree of blocks
that each test one byte of the value: a test for equality where the remaining cases share that byte,
else a comparison with a pivot. `splitSwitches` does so for every switch of a module and renames the
edges in the phi nodes. The tree leaves to the block the switch would have gone to, and every phi
node takes the value it took before.
-/

namespace AflPlusPlus.Laf

open Lib

/-- Blocks are numbered; a new block takes the next number. -/
abbrev Block := ℕ

/-- `CaseExpr`: a case value and the block it goes to. -/
structure CaseExpr (w : ℕ) where
  val : BitVec w
  bb : Block

/-- What the pass changes of a module besides the branches: the block counter and the phi nodes at
the head of each block. -/
structure Cfg (V : Type*) where
  next : Block
  phis : Block → List (List (Block × V))

/-- A tree of new blocks. `leaf` and `byteMatch` test for equality and go to `NewDefault` when the
byte differs; `byteBelow` compares with the pivot. -/
inductive Tree where
  | leaf (label : Block) (index byte : ℕ) (bb : Block)
  | byteMatch (label : Block) (index byte : ℕ) (found : Tree)
  | byteBelow (label : Block) (index pivot : ℕ) (below above : Tree)
  deriving DecidableEq

variable {V : Type*} {w : ℕ}

/-- `(Case.Val->getZExtValue() >> (i * 8)) & 0xFF`. -/
def caseByte (val : BitVec w) (i : ℕ) : ℕ := (val.toNat >>> (i * 8)) % 256

/-- The byte a new block tests: `LShr` by `index * 8`, then `Trunc` to a byte. -/
def loadByte (v : BitVec w) (i : ℕ) : ℕ := ((v >>> (i * 8)).setWidth 8).toNat

/-- `byteSets[i]`. -/
def byteSet (cases : List (CaseExpr w)) (i : ℕ) : Finset ℕ :=
  (cases.map fun c => caseByte c.val i).toFinset

/-- The first unchecked byte position with the fewest values, and their number. -/
def smallestByte (cases : List (CaseExpr w)) (bytesChecked : List Bool) : ℕ × ℕ :=
  forLoop bytesChecked.length (fun i s =>
    if bytesChecked.getD i true then s
    else if (byteSet cases i).card < s.2 then (i, (byteSet cases i).card) else s) (0, 257)

/-- `byteVector[byteVector.size() / 2]` of the sorted byte values. -/
def pivotByte (s : Finset ℕ) : ℕ := s.sort.getD (s.card / 2) 0

/-- A new block in front of the phi updates. -/
def Cfg.newBlock (cfg : Cfg V) : Block × Cfg V := (cfg.next, { cfg with next := cfg.next + 1 })

/-- The phi nodes of `bb` after the first entry of `origBlock` is renamed in each. -/
def Cfg.setIncoming (cfg : Cfg V) (bb origBlock new : Block) : Cfg V :=
  { cfg with phis := Function.update cfg.phis bb ((cfg.phis bb).map (retarget origBlock new)) }

theorem Cfg.setIncoming_phis_self (cfg : Cfg V) (bb origBlock new : Block) :
    (cfg.setIncoming bb origBlock new).phis bb = (cfg.phis bb).map (retarget origBlock new) :=
  Function.update_self ..

theorem Cfg.setIncoming_phis_of_ne {b bb : Block} (h : b ≠ bb) (cfg : Cfg V)
    (origBlock new : Block) : (cfg.setIncoming bb origBlock new).phis b = cfg.phis b :=
  Function.update_of_ne h ..

/-- `switchConvert`, with a bound on the depth. It fails where the source has an assertion. -/
def switchConvert (origBlock : Block) :
    ℕ → List (CaseExpr w) → List Bool → Cfg V → Option (Tree × Cfg V)
  | 0, _, _, _ => none
  | fuel + 1, cases, bytesChecked, cfg =>
    let (smallestIndex, smallestSize) := smallestByte cases bytesChecked
    if bytesChecked.getD smallestIndex true then none
    else
      let (newNode, cfg) := cfg.newBlock
      if smallestSize = 1 then
        let byte := (byteSet cases smallestIndex).sort.headD 0
        let bytesChecked := bytesChecked.set smallestIndex true
        if bytesChecked.all id then
          match cases with
          | [c] => some (.leaf newNode smallestIndex byte c.bb,
              cfg.setIncoming c.bb origBlock newNode)
          | _ => none
        else do
          let (found, cfg) ← switchConvert origBlock fuel cases bytesChecked cfg
          some (.byteMatch newNode smallestIndex byte found, cfg)
      else do
        let pivot := pivotByte (byteSet cases smallestIndex)
        let lhsCases := cases.filter fun c => caseByte c.val smallestIndex < pivot
        let rhsCases := cases.filter fun c => !decide (caseByte c.val smallestIndex < pivot)
        let (below, cfg) ← switchConvert origBlock fuel lhsCases bytesChecked cfg
        let (above, cfg) ← switchConvert origBlock fuel rhsCases bytesChecked cfg
        some (.byteBelow newNode smallestIndex pivot below above, cfg)

/-- The edge on which control leaves the tree. -/
def Tree.run (newDefault : Block) (v : BitVec w) : Tree → Block × Block
  | .leaf label index byte bb => (label, if loadByte v index = byte then bb else newDefault)
  | .byteMatch label index byte found =>
    if loadByte v index = byte then found.run newDefault v else (label, newDefault)
  | .byteBelow _ index pivot below above =>
    if loadByte v index < pivot then below.run newDefault v else above.run newDefault v

/-- The edges from the tree to the blocks of the cases, in the order they are made. -/
def Tree.exits : Tree → List (Block × Block)
  | .leaf label _ _ bb => [(label, bb)]
  | .byteMatch _ _ _ found => found.exits
  | .byteBelow _ _ _ below above => below.exits ++ above.exits

/-- Where the switch goes. -/
def switchTarget (cases : List (CaseExpr w)) (dflt : Block) (v : BitVec w) : Block :=
  ((cases.find? fun c => c.val = v).map CaseExpr.bb).getD dflt

section Bytes

theorem caseByte_lt (val : BitVec w) (i : ℕ) : caseByte val i < 256 := Nat.mod_lt _ (by decide)

theorem loadByte_eq_caseByte (v : BitVec w) (i : ℕ) : loadByte v i = caseByte v i := by
  rw [loadByte, caseByte, BitVec.toNat_setWidth, BitVec.toNat_ushiftRight]

/-- A value is given by its bytes. -/
theorem eq_of_caseByte_eq (hw : w % 8 = 0) {a b : BitVec w}
    (h : ∀ i, i < w / 8 → caseByte a i = caseByte b i) : a = b := by
  apply BitVec.eq_of_getLsbD_eq
  intro j hj
  have hbyte := h (j / 8) (by omega)
  have hbit := congrArg (fun n => n.testBit (j % 8)) hbyte
  have hj8 : j % 8 < 2 ^ 3 := Nat.mod_lt _ (by decide)
  have hjj : j / 8 * 8 + j % 8 = j := by omega
  simp only [caseByte, show (256 : ℕ) = 2 ^ 8 from rfl, Nat.testBit_mod_two_pow,
    Nat.testBit_shiftRight, hjj] at hbit
  simpa [show j % 8 < 8 from hj8, BitVec.getLsbD] using hbit

theorem mem_byteSet {cases : List (CaseExpr w)} {i n : ℕ} :
    n ∈ byteSet cases i ↔ ∃ c ∈ cases, caseByte c.val i = n := by
  rw [byteSet, List.mem_toFinset, List.mem_map]

theorem card_byteSet_le (cases : List (CaseExpr w)) (i : ℕ) : (byteSet cases i).card ≤ 256 := by
  have hsub : byteSet cases i ⊆ Finset.range 256 := by
    intro n hn
    obtain ⟨c, -, rfl⟩ := mem_byteSet.mp hn
    exact Finset.mem_range.mpr (caseByte_lt c.val i)
  simpa using Finset.card_le_card hsub

theorem card_byteSet_pos {cases : List (CaseExpr w)} (h : cases ≠ []) (i : ℕ) :
    0 < (byteSet cases i).card := by
  obtain ⟨c, hc⟩ := List.exists_mem_of_ne_nil cases h
  exact Finset.card_pos.mpr ⟨_, mem_byteSet.mpr ⟨c, hc, rfl⟩⟩

/-- A byte position with one value: `begin()` is the byte of every case. -/
theorem caseByte_of_card_one {cases : List (CaseExpr w)} {i : ℕ}
    (h : (byteSet cases i).card = 1) {c : CaseExpr w} (hc : c ∈ cases) :
    caseByte c.val i = (byteSet cases i).sort.headD 0 := by
  obtain ⟨n, hn⟩ := Finset.card_eq_one.mp h
  have hmem : caseByte c.val i ∈ byteSet cases i := mem_byteSet.mpr ⟨c, hc, rfl⟩
  rw [hn] at hmem ⊢
  rw [Finset.mem_singleton.mp hmem, Finset.sort_singleton]
  rfl

/-- With several values the pivot is one of them, and not the least. -/
theorem pivotByte_spec {s : Finset ℕ} (h : 1 < s.card) :
    pivotByte s ∈ s ∧ ∃ n ∈ s, n < pivotByte s := by
  have hlen : s.sort.length = s.card := Finset.length_sort _
  have hhalf : s.card / 2 < s.sort.length := by omega
  have hpivot : pivotByte s = s.sort[s.card / 2] := by
    rw [pivotByte, List.getD_eq_getElem _ _ hhalf]
  have hsorted := List.pairwise_iff_getElem.mp (Finset.sortedLT_sort s).pairwise
  rw [hpivot]
  refine ⟨(Finset.mem_sort (· ≤ ·)).mp (List.getElem_mem _), s.sort[0],
    (Finset.mem_sort (· ≤ ·)).mp (List.getElem_mem _), ?_⟩
  exact hsorted 0 (s.card / 2) (by omega) hhalf (by omega)

/-- The scan of the byte positions before position `i`: no unchecked one yet, or one of them with
the number of its values. -/
def Scanned (cases : List (CaseExpr w)) (bytesChecked : List Bool) (i : ℕ) (s : ℕ × ℕ) : Prop :=
  (s.2 = 257 ∧ ∀ j < i, bytesChecked[j]? = some true) ∨
    (bytesChecked[s.1]? = some false ∧ s.2 = (byteSet cases s.1).card)

theorem scanned_smallestByte (cases : List (CaseExpr w)) (bytesChecked : List Bool) :
    Scanned cases bytesChecked bytesChecked.length (smallestByte cases bytesChecked) := by
  rw [smallestByte]
  refine forLoop_induct (Scanned cases bytesChecked)
    (.inl ⟨rfl, fun j hj => absurd hj (Nat.not_lt_zero j)⟩) fun i s hi hs => ?_
  have hget : bytesChecked[i]? = some bytesChecked[i] := List.getElem?_eq_getElem hi
  have hgetD : bytesChecked.getD i true = bytesChecked[i] := List.getD_eq_getElem _ _ hi
  cases hb : bytesChecked[i] with
  | true =>
    rw [hgetD, hb, if_pos rfl]
    refine hs.imp_left fun ⟨h257, hall⟩ => ⟨h257, fun j hj => ?_⟩
    rcases Nat.lt_succ_iff_lt_or_eq.mp hj with hj | rfl
    · exact hall j hj
    · rw [hget, hb]
  | false =>
    rw [hgetD, hb, if_neg Bool.false_ne_true]
    have hle := card_byteSet_le cases i
    split
    next hlt => exact .inr ⟨by rw [hget, hb], rfl⟩
    next hlt =>
      rcases hs with ⟨h257, -⟩ | hs
      · omega
      · exact .inr hs

/-- The scan finds an unchecked position when there is one. -/
theorem smallestByte_spec (cases : List (CaseExpr w)) {bytesChecked : List Bool}
    (h : ∃ i : ℕ, bytesChecked[i]? = some false) :
    bytesChecked[(smallestByte cases bytesChecked).1]? = some false ∧
      (smallestByte cases bytesChecked).2 =
        (byteSet cases (smallestByte cases bytesChecked).1).card := by
  obtain ⟨i, hi⟩ := h
  rcases scanned_smallestByte cases bytesChecked with ⟨-, hall⟩ | hfound
  · rw [hall i (List.getElem?_eq_some_iff.mp hi).1] at hi
    exact absurd hi (by simp)
  · exact hfound

end Bytes

section Conversion

/-- The new blocks that branch to `b`, in the order of the phi updates. -/
def namesTo (exits : List (Block × Block)) (b : Block) : List Block :=
  (exits.filter fun e => e.2 = b).map Prod.fst

theorem namesTo_append (es fs : List (Block × Block)) (b : Block) :
    namesTo (es ++ fs) b = namesTo es b ++ namesTo fs b := by
  rw [namesTo, List.filter_append, List.map_append]
  rfl

theorem mem_namesTo {exits : List (Block × Block)} {b n : Block} :
    n ∈ namesTo exits b ↔ (n, b) ∈ exits := by
  simp [namesTo]

theorem nodup_namesTo {exits : List (Block × Block)} (h : (exits.map Prod.fst).Nodup) (b : Block) :
    (namesTo exits b).Nodup := h.sublist (List.filter_sublist.map _)

theorem length_namesTo (exits : List (Block × Block)) (b : Block) :
    (namesTo exits b).length = (exits.map Prod.snd).count b := by
  rw [namesTo, List.length_map, ← List.countP_eq_length_filter, List.count, List.countP_map]
  rfl

/-- The remaining cases agree on the bytes already tested. -/
def AgreeOn (bytesChecked : List Bool) (cases : List (CaseExpr w)) (v : BitVec w) : Prop :=
  ∀ i, bytesChecked[i]? = some true → ∀ c ∈ cases, caseByte c.val i = caseByte v i

/-- What a conversion of `cases` establishes: new blocks between the two counters, one edge for each
case, the phi nodes of the targets renamed along these edges, and the switch's own choice for every
value that agrees with the bytes already tested. -/
structure Converts (origBlock : Block) (cases : List (CaseExpr w)) (bytesChecked : List Bool)
    (cfg : Cfg V) (t : Tree) (cfg' : Cfg V) : Prop where
  next_le : cfg.next ≤ cfg'.next
  labels : ∀ e ∈ t.exits, cfg.next ≤ e.1 ∧ e.1 < cfg'.next
  nodup : (t.exits.map Prod.fst).Nodup
  targets : (t.exits.map Prod.snd).Perm (cases.map CaseExpr.bb)
  phis : ∀ b, cfg'.phis b = (cfg.phis b).map (retargetAll origBlock (namesTo t.exits b))
  run_case : ∀ newDefault v, AgreeOn bytesChecked cases v → ∀ c ∈ cases, c.val = v →
    t.run newDefault v ∈ t.exits ∧ (t.run newDefault v).2 = c.bb
  run_default : ∀ newDefault v, AgreeOn bytesChecked cases v → (∀ c ∈ cases, c.val ≠ v) →
    (t.run newDefault v).2 = newDefault

theorem Converts.leaf (hw : w % 8 = 0) {origBlock : Block} {c : CaseExpr w}
    {bytesChecked : List Bool}
    {cfg : Cfg V} {index : ℕ} (hlen : bytesChecked.length = w / 8)
    (hall : (bytesChecked.set index true).all id) :
    Converts origBlock [c] bytesChecked cfg
      (.leaf cfg.next index (caseByte c.val index) c.bb)
      (Cfg.setIncoming { cfg with next := cfg.next + 1 } c.bb origBlock cfg.next) where
  next_le := Nat.le_succ _
  labels := by
    intro e he
    rw [Tree.exits, List.mem_singleton] at he
    subst he
    exact ⟨Nat.le_refl _, Nat.lt_succ_self _⟩
  nodup := List.nodup_singleton _
  targets := List.Perm.refl _
  phis := by
    intro b
    by_cases hb : b = c.bb
    · subst hb
      rw [Cfg.setIncoming_phis_self]
      simp [Tree.exits, namesTo, retargetAll]
    · have hid : (cfg.phis b).map (retargetAll origBlock []) = cfg.phis b :=
        List.map_id'' (fun _ => rfl) _
      rw [Cfg.setIncoming_phis_of_ne hb]
      simp [Tree.exits, namesTo, Ne.symm hb, hid]
  run_case := by
    intro newDefault v _ d hd hdv
    rw [List.mem_singleton] at hd
    subst hd
    subst hdv
    simp [Tree.run, Tree.exits, loadByte_eq_caseByte]
  run_default := by
    intro newDefault v hagree hne
    have hdiff : loadByte v index ≠ caseByte c.val index := by
      intro heq
      rw [loadByte_eq_caseByte] at heq
      refine hne c List.mem_cons_self (eq_of_caseByte_eq hw fun i hi => ?_)
      by_cases hindex : i = index
      · rw [hindex, heq]
      · refine hagree i ?_ c List.mem_cons_self
        have hi' : i < (bytesChecked.set index true).length := by rw [List.length_set]; omega
        have hset := List.all_eq_true.mp hall _ (List.getElem_mem hi')
        rw [List.getElem_set, if_neg (Ne.symm hindex)] at hset
        exact List.getElem?_eq_some_iff.mpr ⟨by omega, hset⟩
    simp [Tree.run, hdiff]

theorem Converts.byteMatch {origBlock : Block} {cases : List (CaseExpr w)}
    {bytesChecked : List Bool} {cfg cfg' : Cfg V} {index byte : ℕ} {t : Tree}
    (hbyte : ∀ c ∈ cases, caseByte c.val index = byte)
    (h : Converts origBlock cases (bytesChecked.set index true)
      { cfg with next := cfg.next + 1 } t cfg') :
    Converts origBlock cases bytesChecked cfg (.byteMatch cfg.next index byte t) cfg' := by
  have hagree : ∀ v, loadByte v index = byte → AgreeOn bytesChecked cases v →
      AgreeOn (bytesChecked.set index true) cases v := by
    intro v hv hag i hi c hc
    by_cases hindex : index = i
    · rw [← hindex, hbyte c hc, ← hv, loadByte_eq_caseByte]
    · rw [List.getElem?_set_ne hindex] at hi
      exact hag i hi c hc
  refine ⟨Nat.le_of_succ_le h.next_le, fun e he => ?_, h.nodup, h.targets, h.phis, ?_, ?_⟩
  · exact (h.labels e he).imp_left Nat.le_of_succ_le
  · intro newDefault v hag c hc hcv
    have hv : loadByte v index = byte := by rw [loadByte_eq_caseByte, ← hcv, hbyte c hc]
    rw [Tree.run, if_pos hv]
    exact h.run_case newDefault v (hagree v hv hag) c hc hcv
  · intro newDefault v hag hne
    rw [Tree.run]
    split
    next hv => exact h.run_default newDefault v (hagree v hv hag) hne
    next hv => rfl

theorem Converts.byteBelow {origBlock : Block} {cases : List (CaseExpr w)}
    {bytesChecked : List Bool} {cfg cfg₁ cfg₂ : Cfg V} {index pivot : ℕ} {below above : Tree}
    (h₁ : Converts origBlock (cases.filter fun c => caseByte c.val index < pivot) bytesChecked
      { cfg with next := cfg.next + 1 } below cfg₁)
    (h₂ : Converts origBlock (cases.filter fun c => !decide (caseByte c.val index < pivot))
      bytesChecked cfg₁ above cfg₂) :
    Converts origBlock cases bytesChecked cfg
      (.byteBelow cfg.next index pivot below above) cfg₂ := by
  have hfirst : cfg.next ≤ cfg₁.next := Nat.le_of_succ_le h₁.next_le
  refine ⟨hfirst.trans h₂.next_le, ?_, ?_, ?_, ?_, ?_, ?_⟩
  · intro e he
    rcases List.mem_append.mp he with he | he
    · have := h₁.labels e he
      exact ⟨Nat.le_of_succ_le this.1, Nat.lt_of_lt_of_le this.2 h₂.next_le⟩
    · exact (h₂.labels e he).imp_left hfirst.trans
  · rw [Tree.exits, List.map_append]
    refine h₁.nodup.append h₂.nodup fun n hn₁ hn₂ => ?_
    obtain ⟨e₁, he₁, rfl⟩ := List.mem_map.mp hn₁
    obtain ⟨e₂, he₂, heq⟩ := List.mem_map.mp hn₂
    have hlt := (h₁.labels e₁ he₁).2
    have hge := (h₂.labels e₂ he₂).1
    exact absurd (heq ▸ hge) (Nat.not_le.mpr hlt)
  · rw [Tree.exits, List.map_append]
    refine (h₁.targets.append h₂.targets).trans ?_
    rw [← List.map_append]
    exact (List.filter_append_perm _ cases).map _
  · intro b
    rw [h₂.phis, h₁.phis, List.map_map, Tree.exits, namesTo_append]
    congr 1
    funext p
    exact (retargetAll_append _ _ p).symm
  · intro newDefault v hag c hc hcv
    rw [Tree.run, Tree.exits]
    have hload : loadByte v index = caseByte c.val index := by rw [loadByte_eq_caseByte, hcv]
    split
    next hv =>
      have hmem : c ∈ cases.filter fun c => caseByte c.val index < pivot := by
        rw [List.mem_filter]
        exact ⟨hc, by simpa [← hload] using hv⟩
      obtain ⟨hrun, hbb⟩ := h₁.run_case newDefault v
        (fun i hi d hd => hag i hi d (List.mem_filter.mp hd).1) c hmem hcv
      exact ⟨List.mem_append_left _ hrun, hbb⟩
    next hv =>
      have hmem : c ∈ cases.filter fun c => !decide (caseByte c.val index < pivot) := by
        rw [List.mem_filter]
        exact ⟨hc, by simpa [← hload] using hv⟩
      obtain ⟨hrun, hbb⟩ := h₂.run_case newDefault v
        (fun i hi d hd => hag i hi d (List.mem_filter.mp hd).1) c hmem hcv
      exact ⟨List.mem_append_right _ hrun, hbb⟩
  · intro newDefault v hag hne
    rw [Tree.run]
    split
    · exact h₁.run_default newDefault v (fun i hi d hd => hag i hi d (List.mem_filter.mp hd).1)
        fun c hc => hne c (List.mem_filter.mp hc).1
    · exact h₂.run_default newDefault v (fun i hi d hd => hag i hi d (List.mem_filter.mp hd).1)
        fun c hc => hne c (List.mem_filter.mp hc).1

/-- Distinct cases that agree on every byte are one case. -/
theorem eq_singleton_of_checked (hw : w % 8 = 0) {cases : List (CaseExpr w)}
    (hne : cases ≠ []) (hnodup : (cases.map CaseExpr.val).Nodup)
    (hagree : ∀ i, i < w / 8 → ∀ c ∈ cases, ∀ d ∈ cases, caseByte c.val i = caseByte d.val i) :
    ∃ c, cases = [c] := by
  match cases, hne with
  | [c], _ => exact ⟨c, rfl⟩
  | c :: d :: rest, _ =>
    have hcd : c.val = d.val := eq_of_caseByte_eq hw fun i hi =>
      hagree i hi c List.mem_cons_self d (List.mem_cons_of_mem _ List.mem_cons_self)
    rw [List.map_cons, List.map_cons, List.nodup_cons, hcd] at hnodup
    exact absurd List.mem_cons_self hnodup.1

theorem count_false_set {bytesChecked : List Bool} {i : ℕ} (h : bytesChecked[i]? = some false) :
    (bytesChecked.set i true).count false + 1 = bytesChecked.count false := by
  obtain ⟨hi, hget⟩ := List.getElem?_eq_some_iff.mp h
  have hpos : 0 < bytesChecked.count false :=
    List.count_pos_iff.mpr (hget ▸ List.getElem_mem hi)
  rw [List.count_set hi, hget]
  simp
  omega

/-- The pivot separates the cases into two smaller parts. -/
theorem pivot_parts {cases : List (CaseExpr w)} {index : ℕ}
    (h : 1 < (byteSet cases index).card) :
    ((cases.filter fun c => caseByte c.val index < pivotByte (byteSet cases index)) ≠ [] ∧
      (cases.filter fun c => caseByte c.val index < pivotByte (byteSet cases index)).length <
        cases.length) ∧
    (cases.filter fun c => !decide (caseByte c.val index < pivotByte (byteSet cases index))) ≠ [] ∧
      (cases.filter fun c =>
        !decide (caseByte c.val index < pivotByte (byteSet cases index))).length <
          cases.length := by
  obtain ⟨hpivot, n, hn, hlt⟩ := pivotByte_spec h
  obtain ⟨c, hc, hcp⟩ := mem_byteSet.mp hpivot
  obtain ⟨d, hd, rfl⟩ := mem_byteSet.mp hn
  refine ⟨⟨?_, ?_⟩, ?_, ?_⟩
  · exact List.ne_nil_of_mem (List.mem_filter.mpr ⟨hd, by simpa using hlt⟩)
  · exact List.length_filter_lt_length_iff_exists.mpr ⟨c, hc, by simp [hcp]⟩
  · exact List.ne_nil_of_mem (List.mem_filter.mpr ⟨hc, by simp [hcp]⟩)
  · exact List.length_filter_lt_length_iff_exists.mpr ⟨d, hd, by simpa using hlt⟩

/-- The conversion of distinct cases ends, without failing an assertion. -/
theorem switchConvert_converts (hw : w % 8 = 0) (origBlock : Block) (fuel : ℕ)
    (cases : List (CaseExpr w)) (bytesChecked : List Bool) (cfg : Cfg V) (hne : cases ≠ [])
    (hnodup : (cases.map CaseExpr.val).Nodup) (hlen : bytesChecked.length = w / 8)
    (hopen : ∃ i : ℕ, bytesChecked[i]? = some false)
    (hagree : ∀ c ∈ cases, AgreeOn bytesChecked cases c.val)
    (hfuel : bytesChecked.count false + cases.length ≤ fuel) :
    ∃ t cfg', switchConvert origBlock fuel cases bytesChecked cfg = some (t, cfg') ∧
      Converts origBlock cases bytesChecked cfg t cfg' := by
  induction fuel generalizing cases bytesChecked cfg with
  | zero =>
    have := List.length_pos_iff.mpr hne
    omega
  | succ fuel ih =>
    obtain ⟨hindex, hsize⟩ := smallestByte_spec cases hopen
    generalize hpick : smallestByte cases bytesChecked = pick at hindex hsize
    obtain ⟨index, size⟩ := pick
    simp only at hindex hsize
    obtain ⟨hlt, hget⟩ := List.getElem?_eq_some_iff.mp hindex
    have hunchecked : bytesChecked.getD index true = false := by
      rw [List.getD_eq_getElem _ _ hlt, hget]
    have hcount := count_false_set hindex
    simp only [switchConvert, hpick, hunchecked, Bool.false_eq_true, if_false, Cfg.newBlock]
    by_cases hone : size = 1
    · rw [if_pos hone]
      have hbyte : ∀ c ∈ cases, caseByte c.val index = (byteSet cases index).sort.headD 0 :=
        fun c hc => caseByte_of_card_one (by rw [← hsize, hone]) hc
      by_cases hall : (bytesChecked.set index true).all id = true
      · rw [if_pos hall]
        obtain ⟨c, rfl⟩ := eq_singleton_of_checked hw hne hnodup
          fun i hi c hc d hd => by
            by_cases hii : i = index
            · rw [hii, hbyte c hc, hbyte d hd]
            · have hi' : i < (bytesChecked.set index true).length := by
                rw [List.length_set]; omega
              have hset := List.all_eq_true.mp hall _ (List.getElem_mem hi')
              rw [List.getElem_set, if_neg (Ne.symm hii)] at hset
              exact hagree d hd i (List.getElem?_eq_some_iff.mpr ⟨by omega, hset⟩) c hc
        refine ⟨_, _, rfl, ?_⟩
        rw [← hbyte c List.mem_cons_self]
        exact Converts.leaf hw hlen hall
      · rw [if_neg hall]
        have hopen' : ∃ i : ℕ, (bytesChecked.set index true)[i]? = some false := by
          rw [List.all_eq_true] at hall
          push Not at hall
          obtain ⟨b, hb, hfalse⟩ := hall
          obtain ⟨i, hi, rfl⟩ := List.getElem_of_mem hb
          exact ⟨i, List.getElem?_eq_some_iff.mpr ⟨hi, by simpa using hfalse⟩⟩
        obtain ⟨t, cfg', hrun, hconv⟩ := ih cases (bytesChecked.set index true)
          { cfg with next := cfg.next + 1 } hne hnodup (by rw [List.length_set, hlen]) hopen'
          (fun c hc i hi d hd => by
            by_cases hii : index = i
            · rw [← hii, hbyte d hd, hbyte c hc]
            · rw [List.getElem?_set_ne hii] at hi
              exact hagree c hc i hi d hd) (by omega)
        refine ⟨_, _, ?_, hconv.byteMatch hbyte⟩
        rw [hrun]
        rfl
    · rw [if_neg hone]
      have hmany : 1 < (byteSet cases index).card := by
        have := card_byteSet_pos hne index
        omega
      obtain ⟨⟨hne₁, hlt₁⟩, hne₂, hlt₂⟩ := pivot_parts hmany
      have hsub : ∀ q : CaseExpr w → Bool, ∀ c ∈ cases.filter q,
          AgreeOn bytesChecked (cases.filter q) c.val := fun q c hc i hi d hd =>
        hagree c (List.mem_filter.mp hc).1 i hi d (List.mem_filter.mp hd).1
      have hvals : ∀ q : CaseExpr w → Bool, ((cases.filter q).map CaseExpr.val).Nodup :=
        fun q => hnodup.sublist (List.filter_sublist.map _)
      obtain ⟨below, cfg₁, hrun₁, hconv₁⟩ := ih _ bytesChecked
        { cfg with next := cfg.next + 1 } hne₁ (hvals _) hlen hopen (hsub _) (by omega)
      obtain ⟨above, cfg₂, hrun₂, hconv₂⟩ := ih _ bytesChecked cfg₁ hne₂ (hvals _) hlen hopen
        (hsub _) (by omega)
      refine ⟨_, _, ?_, hconv₁.byteBelow hconv₂⟩
      rw [hrun₁, Option.bind_eq_bind, Option.bind_some, hrun₂]
      rfl

end Conversion

section Pass

/-- A `SwitchInst` with its block. -/
structure SwitchInst where
  w : ℕ
  cases : List (CaseExpr w)
  defaultDest : Block
  parent : Block

/-- What a switch is replaced by. -/
structure Split where
  tree : Tree
  newDefault : Block

/-- One turn of the loop over the switches: `none` for a switch that is left alone. -/
def splitSwitch (si : SwitchInst) (cfg : Cfg V) : Option (Option Split × Cfg V) :=
  if si.cases.length < 2 ∨ si.w % 8 ≠ 0 ∨ 64 < si.w then some (none, cfg)
  else do
    let (newDefault, cfg) := cfg.newBlock
    let bytesChecked := List.replicate ((7 + si.w) / 8) false
    let (tree, cfg) ← switchConvert si.parent (bytesChecked.length + si.cases.length) si.cases
      bytesChecked cfg
    some (some ⟨tree, newDefault⟩, cfg.setIncoming si.defaultDest si.parent newDefault)

/-- `splitSwitches` on the collected switches. -/
def splitSwitches : List SwitchInst → Cfg V → Option (List (Option Split) × Cfg V)
  | [], cfg => some ([], cfg)
  | si :: sis, cfg => do
    let (r, cfg) ← splitSwitch si cfg
    let (rs, cfg) ← splitSwitches sis cfg
    some (r :: rs, cfg)

/-- The blocks a switch can go to, one for each edge. -/
def SwitchInst.successors (si : SwitchInst) : List Block :=
  si.defaultDest :: si.cases.map CaseExpr.bb

/-- The edge the switch takes on `v`. -/
def SwitchInst.edge (si : SwitchInst) (v : BitVec si.w) : Block × Block :=
  (si.parent, switchTarget si.cases si.defaultDest v)

/-- The edge into the old code that is taken on `v` after the pass: `NewDefault` only branches to
the default block. -/
def SwitchInst.edgeAfter (si : SwitchInst) (r : Option Split) (v : BitVec si.w) : Block × Block :=
  match r with
  | none => si.edge v
  | some s =>
    if (s.tree.run s.newDefault v).2 = s.newDefault then (s.newDefault, si.defaultDest)
    else s.tree.run s.newDefault v

/-- All edges into the old code after the pass. -/
def SwitchInst.edgesAfter (si : SwitchInst) : Option Split → List (Block × Block)
  | none => si.successors.map fun b => (si.parent, b)
  | some s => s.tree.exits ++ [(s.newDefault, si.defaultDest)]

/-- The values of the phi nodes of a block when control enters it over an edge. -/
def Cfg.enter (cfg : Cfg V) (e : Block × Block) : List (Option V) :=
  (cfg.phis e.2).map fun p => p.lookup e.1

/-- Every predecessor named in a phi node exists. -/
def Cfg.Closed (cfg : Cfg V) : Prop :=
  ∀ b, ∀ p ∈ cfg.phis b, ∀ n, cfg.next ≤ n → entryCount n p = 0

/-- A switch as the verifier of the compiler accepts it: distinct cases, existing blocks, and in
each phi node one entry for each edge from the switch, all with one value. -/
structure Accepted (cfg : Cfg V) (si : SwitchInst) : Prop where
  distinct : (si.cases.map CaseExpr.val).Nodup
  parent_lt : si.parent < cfg.next
  successors_lt : ∀ b ∈ si.successors, b < cfg.next
  entries : ∀ b, ∀ p ∈ cfg.phis b, entryCount si.parent p = si.successors.count b
  uniform : ∀ b, ∀ p ∈ cfg.phis b, UniformAt si.parent p

/-- The phi nodes of `cfg'` show the kept predecessors what those of `cfg` showed them. -/
def Keeps (keep : Block → Prop) (cfg cfg' : Cfg V) : Prop :=
  ∀ b, ∃ f : List (Block × V) → List (Block × V), cfg'.phis b = (cfg.phis b).map f ∧
    ∀ p ∈ cfg.phis b, ∀ n, keep n → (f p).lookup n = p.lookup n ∧
      entryCount n (f p) = entryCount n p ∧ (UniformAt n p → UniformAt n (f p))

/-- What one switch's turn establishes: its edges lead where they led, with the values they had; the
edges of other blocks are unchanged; every phi node has one entry for each new edge. -/
structure Preserves (si : SwitchInst) (cfg : Cfg V) (r : Option Split) (cfg' : Cfg V) : Prop where
  next_le : cfg.next ≤ cfg'.next
  closed : cfg'.Closed
  target : ∀ v, (si.edgeAfter r v).2 = (si.edge v).2
  enter : ∀ v, cfg'.enter (si.edgeAfter r v) = cfg.enter (si.edge v)
  edge_mem : ∀ v, si.edgeAfter r v ∈ si.edgesAfter r
  source : ∀ e ∈ si.edgesAfter r, e.1 = si.parent ∨ cfg.next ≤ e.1 ∧ e.1 < cfg'.next
  keeps : Keeps (fun n => n < cfg.next ∧ n ≠ si.parent) cfg cfg'
  entries : ∀ b, ∀ p ∈ cfg'.phis b, ∀ n, n = si.parent ∨ cfg.next ≤ n →
    entryCount n p = (si.edgesAfter r).count (n, b)

theorem switchTarget_cases (cases : List (CaseExpr w)) (dflt : Block) (v : BitVec w) :
    (∃ c ∈ cases, c.val = v ∧ switchTarget cases dflt v = c.bb) ∨
      (∀ c ∈ cases, c.val ≠ v) ∧ switchTarget cases dflt v = dflt := by
  cases hfind : cases.find? fun c => c.val = v with
  | some c =>
    refine .inl ⟨c, List.mem_of_find?_eq_some hfind, ?_, by rw [switchTarget, hfind]; rfl⟩
    simpa using List.find?_some hfind
  | none =>
    refine .inr ⟨fun c hc => ?_, by rw [switchTarget, hfind]; rfl⟩
    simpa using List.find?_eq_none.mp hfind c hc

theorem mem_successors_switchTarget (si : SwitchInst) (v : BitVec si.w) :
    (si.edge v).2 ∈ si.successors := by
  rw [SwitchInst.edge]
  rcases switchTarget_cases si.cases si.defaultDest v with ⟨c, hc, -, h⟩ | ⟨-, h⟩
  · rw [h]
    exact List.mem_cons_of_mem _ (List.mem_map_of_mem hc)
  · rw [h]
    exact List.mem_cons_self

theorem Preserves.skip {si : SwitchInst} {cfg : Cfg V} (hclosed : cfg.Closed)
    (h : Accepted cfg si) : Preserves si cfg none cfg where
  next_le := Nat.le_refl _
  closed := hclosed
  target := fun _ => rfl
  enter := fun _ => rfl
  edge_mem := fun v => List.mem_map.mpr ⟨_, mem_successors_switchTarget si v, rfl⟩
  source := by
    intro e he
    obtain ⟨b, -, rfl⟩ := List.mem_map.mp he
    exact .inl rfl
  keeps := fun b => ⟨id, (List.map_id _).symm, fun p _ n _ => ⟨rfl, rfl, id⟩⟩
  entries := by
    rintro b p hp n (rfl | hn)
    · rw [SwitchInst.edgesAfter, h.entries b p hp]
      exact (List.count_map_of_injective _ _ (fun a b hab => (Prod.mk.inj hab).2) b).symm
    · rw [hclosed b p hp n hn, eq_comm, List.count_eq_zero]
      intro hmem
      obtain ⟨b', -, heq⟩ := List.mem_map.mp hmem
      have hparent : si.parent = n := (Prod.mk.inj heq).1
      exact absurd (hparent ▸ h.parent_lt) (Nat.not_lt.mpr hn)

variable {si : SwitchInst} {cfg cfg₂ : Cfg V} {bytesChecked : List Bool} {t : Tree}

/-- The new edges into a block start at distinct new blocks, as many as the switch had edges. -/
theorem namesTo_edgesAfter (h : Accepted cfg si)
    (hconv : Converts si.parent si.cases bytesChecked { cfg with next := cfg.next + 1 } t cfg₂)
    (b : Block) :
    let news := namesTo (si.edgesAfter (some ⟨t, cfg.next⟩)) b
    news.Nodup ∧ (∀ n ∈ news, cfg.next ≤ n ∧ n < cfg₂.next) ∧ si.parent ∉ news ∧
      news.length = si.successors.count b := by
  have hnext : cfg.next < cfg₂.next := hconv.next_le
  have hrange : ∀ n ∈ namesTo (si.edgesAfter (some ⟨t, cfg.next⟩)) b,
      cfg.next ≤ n ∧ n < cfg₂.next := by
    intro n hn
    rcases List.mem_append.mp (mem_namesTo.mp hn) with he | he
    · exact (hconv.labels _ he).imp_left Nat.le_of_succ_le
    · rw [(Prod.mk.inj (List.mem_singleton.mp he)).1]
      exact ⟨Nat.le_refl _, hnext⟩
  refine ⟨nodup_namesTo ?_ b, hrange, fun hmem => ?_, ?_⟩
  · rw [SwitchInst.edgesAfter, List.map_append]
    refine hconv.nodup.append (List.nodup_singleton _) fun n hn₁ hn₂ => ?_
    obtain ⟨e, he, rfl⟩ := List.mem_map.mp hn₁
    have hlabel : cfg.next + 1 ≤ e.1 := (hconv.labels e he).1
    rw [List.map_singleton, List.mem_singleton] at hn₂
    exact Nat.lt_irrefl _ (Nat.lt_of_lt_of_le (Nat.lt_succ_self _) (hn₂ ▸ hlabel))
  · exact Nat.not_lt.mpr (hrange _ hmem).1 h.parent_lt
  · rw [length_namesTo, SwitchInst.edgesAfter, List.map_append, SwitchInst.successors]
    refine List.Perm.count_eq ?_ b
    exact (List.perm_append_comm).trans (hconv.targets.cons si.defaultDest)

/-- The phi nodes after the turn: the entries of the switch renamed along the new edges. -/
theorem phis_after
    (hconv : Converts si.parent si.cases bytesChecked { cfg with next := cfg.next + 1 } t cfg₂)
    (b : Block) :
    (cfg₂.setIncoming si.defaultDest si.parent cfg.next).phis b =
      (cfg.phis b).map (retargetAll si.parent
        (namesTo (si.edgesAfter (some ⟨t, cfg.next⟩)) b)) := by
  rw [SwitchInst.edgesAfter, namesTo_append]
  by_cases hb : b = si.defaultDest
  · rw [hb, Cfg.setIncoming_phis_self, hconv.phis, List.map_map]
    congr 1
    funext p
    rw [retargetAll_append]
    simp [namesTo, retargetAll]
  · rw [Cfg.setIncoming_phis_of_ne hb, hconv.phis]
    simp [namesTo, Ne.symm hb]

theorem mem_edgesAfter (h : Accepted cfg si)
    (hconv : Converts si.parent si.cases bytesChecked { cfg with next := cfg.next + 1 } t cfg₂)
    (hunchecked : ∀ i : ℕ, bytesChecked[i]? ≠ some true) (v : BitVec si.w) :
    si.edgeAfter (some ⟨t, cfg.next⟩) v ∈ si.edgesAfter (some ⟨t, cfg.next⟩) ∧
      (si.edgeAfter (some ⟨t, cfg.next⟩) v).2 = (si.edge v).2 := by
  have hagree : AgreeOn bytesChecked si.cases v := fun i hi => absurd hi (hunchecked i)
  rw [SwitchInst.edge]
  rcases switchTarget_cases si.cases si.defaultDest v with ⟨c, hc, hcv, htarget⟩ | ⟨hne, htarget⟩
  · obtain ⟨hmem, hbb⟩ := hconv.run_case cfg.next v hagree c hc hcv
    have hlt : c.bb < cfg.next :=
      h.successors_lt c.bb (List.mem_cons_of_mem _ (List.mem_map_of_mem hc))
    rw [SwitchInst.edgeAfter, if_neg (by rw [hbb]; exact Nat.ne_of_lt hlt), htarget]
    exact ⟨List.mem_append_left _ hmem, hbb⟩
  · have hdefault := hconv.run_default cfg.next v hagree hne
    rw [SwitchInst.edgeAfter, if_pos hdefault, htarget]
    exact ⟨List.mem_append_right _ List.mem_cons_self, rfl⟩

theorem Preserves.split (hclosed : cfg.Closed) (h : Accepted cfg si)
    (hconv : Converts si.parent si.cases bytesChecked { cfg with next := cfg.next + 1 } t cfg₂)
    (hunchecked : ∀ i : ℕ, bytesChecked[i]? ≠ some true) :
    Preserves si cfg (some ⟨t, cfg.next⟩)
      (cfg₂.setIncoming si.defaultDest si.parent cfg.next) := by
  have hnext : cfg.next ≤ cfg₂.next := Nat.le_of_succ_le hconv.next_le
  have hphis := phis_after hconv
  have hnews := namesTo_edgesAfter h hconv
  generalize hnw : namesTo (si.edgesAfter (some ⟨t, cfg.next⟩)) = news at hphis hnews
  have hedge : ∀ e ∈ si.edgesAfter (some ⟨t, cfg.next⟩), e.1 ∈ news e.2 := fun e he => by
    rw [← hnw]; exact mem_namesTo.mpr he
  have hfresh : ∀ b, ∀ p ∈ cfg.phis b, ∀ n ∈ news b, entryCount n p = 0 := fun b p hp n hn =>
    hclosed b p hp n ((hnews b).2.1 n hn).1
  have hcount : ∀ b, ∀ p ∈ cfg.phis b, entryCount si.parent p = (news b).length :=
    fun b p hp => (h.entries b p hp).trans (hnews b).2.2.2.symm
  refine ⟨hnext, ?_, fun v => (mem_edgesAfter h hconv hunchecked v).2, ?_,
    fun v => (mem_edgesAfter h hconv hunchecked v).1, fun e he => .inr ?_, fun b => ?_, ?_⟩
  · intro b p hp n hn
    rw [hphis] at hp
    obtain ⟨q, hq, rfl⟩ := List.mem_map.mp hp
    have hn' : cfg.next ≤ n := hnext.trans hn
    rw [entryCount_retargetAll_other (Nat.ne_of_gt (Nat.lt_of_lt_of_le h.parent_lt hn'))
      fun hmem => Nat.not_lt.mpr hn ((hnews b).2.1 n hmem).2]
    exact hclosed b q hq n hn'
  · intro v
    obtain ⟨hmem, htarget⟩ := mem_edgesAfter h hconv hunchecked v
    have hin := hedge _ hmem
    rw [Cfg.enter, Cfg.enter, ← htarget, hphis, List.map_map]
    refine List.map_congr_left fun p hp => ?_
    exact lookup_retargetAll_new (h.uniform _ p hp) (hnews _).1 (hnews _).2.2.1 (hfresh _ p hp)
      (hcount _ p hp).ge hin
  · exact (hnews _).2.1 _ (hedge e he)
  · refine ⟨_, hphis b, fun p _ n ⟨hn, hne⟩ => ?_⟩
    have hnot : n ∉ news b := fun hmem => Nat.not_lt.mpr ((hnews b).2.1 n hmem).1 hn
    exact ⟨lookup_retargetAll_other hne hnot p, entryCount_retargetAll_other hne hnot p,
      fun hu => hu.retargetAll hnot⟩
  · intro b p hp n hn
    rw [hphis] at hp
    obtain ⟨q, hq, rfl⟩ := List.mem_map.mp hp
    have hedges : (si.edgesAfter (some ⟨t, cfg.next⟩)).count (n, b) = (news b).count n := by
      rw [← hnw, namesTo, List.count, List.count, List.countP_map, List.countP_filter]
      refine List.countP_congr fun e _ => ?_
      simp [Prod.ext_iff]
    rw [hedges]
    by_cases hmem : n ∈ news b
    · rw [entryCount_retargetAll_new (hnews b).1 (hnews b).2.2.1 (hfresh b q hq)
        (hcount b q hq).ge hmem, List.count_eq_one_of_mem (hnews b).1 hmem]
    · rw [List.count_eq_zero_of_not_mem hmem]
      rcases hn with rfl | hn
      · have := entryCount_retargetAll_old (p := q) (hnews b).2.2.1 (hcount b q hq).ge
        rw [hcount b q hq] at this
        omega
      · rw [entryCount_retargetAll_other
          (Nat.ne_of_gt (Nat.lt_of_lt_of_le h.parent_lt hn)) hmem]
        exact hclosed b q hq n hn

theorem splitSwitch_preserves {si : SwitchInst} {cfg : Cfg V} (hclosed : cfg.Closed)
    (h : Accepted cfg si) :
    ∃ r cfg', splitSwitch si cfg = some (r, cfg') ∧ Preserves si cfg r cfg' := by
  rw [splitSwitch]
  split
  next hskip => exact ⟨none, cfg, rfl, .skip hclosed h⟩
  next hskip =>
    push Not at hskip
    obtain ⟨hcases, hw, hw64⟩ := hskip
    obtain ⟨t, cfg₂, hrun, hconv⟩ := switchConvert_converts hw si.parent
      ((List.replicate ((7 + si.w) / 8) false).length + si.cases.length) si.cases
      (List.replicate ((7 + si.w) / 8) false) { cfg with next := cfg.next + 1 }
      (fun hnil => by simp [hnil] at hcases) h.distinct
      (by rw [List.length_replicate]; omega)
      ⟨0, by
        have hpos : si.w ≠ 0 := fun h0 => by
          have hdistinct := h.distinct
          match si, h0 with
          | ⟨_, c :: d :: _, _, _⟩, rfl =>
            simp [BitVec.eq_nil c.val, BitVec.eq_nil d.val] at hdistinct
          | ⟨_, [_], _, _⟩, rfl => simp at hcases
          | ⟨_, [], _, _⟩, rfl => simp at hcases
        rw [List.getElem?_replicate, if_pos (by omega)]⟩
      (fun c _ i hi => by simp [List.getElem?_replicate] at hi)
      (by simp)
    refine ⟨_, _, ?_, Preserves.split hclosed h hconv fun i => ?_⟩
    · simp only [Cfg.newBlock, hrun]
      rfl
    · simp [List.getElem?_replicate]

theorem Keeps.trans {keep keep' : Block → Prop} {cfg₁ cfg₂ cfg₃ : Cfg V}
    (h₁ : Keeps keep cfg₁ cfg₂) (h₂ : Keeps keep' cfg₂ cfg₃) :
    Keeps (fun n => keep n ∧ keep' n) cfg₁ cfg₃ := by
  intro b
  obtain ⟨f, hf, hkeep⟩ := h₁ b
  obtain ⟨g, hg, hkeep'⟩ := h₂ b
  refine ⟨g ∘ f, by rw [hg, hf, List.map_map], fun p hp n ⟨hn, hn'⟩ => ?_⟩
  obtain ⟨hl, hc, hu⟩ := hkeep p hp n hn
  obtain ⟨hl', hc', hu'⟩ := hkeep' (f p) (by rw [hf]; exact List.mem_map_of_mem hp) n hn'
  exact ⟨hl'.trans hl, hc'.trans hc, hu' ∘ hu⟩

theorem Keeps.mono {keep keep' : Block → Prop} {cfg cfg' : Cfg V} (h : Keeps keep cfg cfg')
    (himp : ∀ n, keep' n → keep n) : Keeps keep' cfg cfg' := by
  intro b
  obtain ⟨f, hf, hkeep⟩ := h b
  exact ⟨f, hf, fun p hp n hn => hkeep p hp n (himp n hn)⟩

theorem Keeps.enter {keep : Block → Prop} {cfg cfg' : Cfg V} (h : Keeps keep cfg cfg') {n : Block}
    (hn : keep n) (b : Block) : cfg'.enter (n, b) = cfg.enter (n, b) := by
  obtain ⟨f, hf, hkeep⟩ := h b
  rw [Cfg.enter, Cfg.enter, hf, List.map_map]
  exact List.map_congr_left fun p hp => (hkeep p hp n hn).1

/-- The turn of one switch leaves the others as the verifier accepts them. -/
theorem Accepted.after {si sj : SwitchInst} {r : Option Split} {cfg cfg' : Cfg V}
    (h : Accepted cfg sj) (hturn : Preserves si cfg r cfg') (hne : sj.parent ≠ si.parent) :
    Accepted cfg' sj where
  distinct := h.distinct
  parent_lt := Nat.lt_of_lt_of_le h.parent_lt hturn.next_le
  successors_lt := fun b hb => Nat.lt_of_lt_of_le (h.successors_lt b hb) hturn.next_le
  entries := by
    intro b p hp
    obtain ⟨f, hf, hkeep⟩ := hturn.keeps b
    rw [hf] at hp
    obtain ⟨q, hq, rfl⟩ := List.mem_map.mp hp
    rw [(hkeep q hq sj.parent ⟨h.parent_lt, hne⟩).2.1, h.entries b q hq]
  uniform := by
    intro b p hp
    obtain ⟨f, hf, hkeep⟩ := hturn.keeps b
    rw [hf] at hp
    obtain ⟨q, hq, rfl⟩ := List.mem_map.mp hp
    exact (hkeep q hq sj.parent ⟨h.parent_lt, hne⟩).2.2 (h.uniform b q hq)

/-- What the whole pass establishes for one switch and what replaced it. -/
structure Replaced (cfg cfg' : Cfg V) (si : SwitchInst) (r : Option Split) : Prop where
  target : ∀ v, (si.edgeAfter r v).2 = (si.edge v).2
  enter : ∀ v, cfg'.enter (si.edgeAfter r v) = cfg.enter (si.edge v)

theorem Preserves.replaced {si : SwitchInst} {r : Option Split} {cfg cfg₁ cfg₂ : Cfg V}
    {parents : List Block} (h : Accepted cfg si) (hturn : Preserves si cfg r cfg₁)
    (hold : ∀ n ∈ parents, n < cfg.next) (hparent : si.parent ∉ parents)
    (hrest : Keeps (fun n => n < cfg₁.next ∧ n ∉ parents) cfg₁ cfg₂) :
    Replaced cfg cfg₂ si r := by
  -- the edges made for this switch start at its block or at blocks made in its turn
  have hkept : ∀ e ∈ si.edgesAfter r, e.1 < cfg₁.next ∧ e.1 ∉ parents := by
    intro e he
    rcases hturn.source e he with heq | ⟨hge, hlt⟩
    · rw [heq]
      exact ⟨Nat.lt_of_lt_of_le h.parent_lt hturn.next_le, hparent⟩
    · exact ⟨hlt, fun hmem => Nat.not_lt.mpr hge (hold _ hmem)⟩
  refine ⟨hturn.target, fun v => ?_⟩
  exact (hrest.enter (hkept _ (hturn.edge_mem v)) _).trans (hturn.enter v)

/-- All edges into the old code from what replaced the switches. -/
def switchEdges (sis : List SwitchInst) (rs : List (Option Split)) : List (Block × Block) :=
  (List.zipWith SwitchInst.edgesAfter sis rs).flatten

/-- What a run of the pass establishes: for the phi nodes, one entry for each edge from the
switches' blocks and the new ones. -/
structure Run (sis : List SwitchInst) (cfg : Cfg V) (rs : List (Option Split)) (cfg' : Cfg V) :
    Prop where
  replaced : List.Forall₂ (Replaced cfg cfg') sis rs
  keeps : Keeps (fun n => n < cfg.next ∧ n ∉ sis.map SwitchInst.parent) cfg cfg'
  source : ∀ e ∈ switchEdges sis rs, e.1 ∈ sis.map SwitchInst.parent ∨ cfg.next ≤ e.1
  entries : ∀ b, ∀ p ∈ cfg'.phis b, ∀ n, n ∈ sis.map SwitchInst.parent ∨ cfg.next ≤ n →
    entryCount n p = (switchEdges sis rs).count (n, b)

theorem Run.nil {cfg : Cfg V} (hclosed : cfg.Closed) : Run [] cfg [] cfg where
  replaced := .nil
  keeps := fun b => ⟨id, (List.map_id _).symm, fun p _ n _ => ⟨rfl, rfl, id⟩⟩
  source := fun e he => absurd he List.not_mem_nil
  entries := by
    rintro b p hp n (hn | hn)
    · exact absurd hn List.not_mem_nil
    · exact hclosed b p hp n hn

/-- Edges that start elsewhere do not count. -/
theorem count_eq_zero_of_source {edges : List (Block × Block)} {n b : Block}
    (h : ∀ e ∈ edges, e.1 ≠ n) : edges.count (n, b) = 0 :=
  List.count_eq_zero_of_not_mem fun hmem => h _ hmem rfl

theorem Run.cons {si : SwitchInst} {sis : List SwitchInst} {r : Option Split}
    {rs : List (Option Split)} {cfg cfg₁ cfg₂ : Cfg V} (hturn : Preserves si cfg r cfg₁)
    (h : ∀ sj ∈ si :: sis, Accepted cfg sj) (hparent : si.parent ∉ sis.map SwitchInst.parent)
    (hrun : Run sis cfg₁ rs cfg₂) : Run (si :: sis) cfg (r :: rs) cfg₂ := by
  have hsi := h si List.mem_cons_self
  have hle := hturn.next_le
  have hold : ∀ n ∈ sis.map SwitchInst.parent, n < cfg.next := by
    intro n hn
    obtain ⟨sj, hsj, rfl⟩ := List.mem_map.mp hn
    exact (h sj (List.mem_cons_of_mem _ hsj)).parent_lt
  have hedges : switchEdges (si :: sis) (r :: rs) = si.edgesAfter r ++ switchEdges sis rs := rfl
  refine ⟨.cons ?_ ?_, ?_, fun e he => ?_, fun b p hp n hn => ?_⟩
  · exact hturn.replaced hsi hold hparent hrun.keeps
  · refine List.forall₂_iff_get.mpr ⟨hrun.replaced.length_eq, fun i hi hi' => ?_⟩
    have hrep := hrun.replaced.get hi hi'
    have hmem : sis.get ⟨i, hi⟩ ∈ sis := List.get_mem _ _
    have hne : (sis.get ⟨i, hi⟩).parent ≠ si.parent := fun heq =>
      hparent (heq ▸ List.mem_map_of_mem hmem)
    refine ⟨hrep.target, fun v => ?_⟩
    rw [hrep.enter v]
    exact hturn.keeps.enter ⟨hold _ (List.mem_map_of_mem hmem), hne⟩ _
  · refine (hturn.keeps.trans hrun.keeps).mono fun n ⟨hn, hnot⟩ => ?_
    rw [List.map_cons, List.mem_cons, not_or] at hnot
    exact ⟨⟨hn, hnot.1⟩, Nat.lt_of_lt_of_le hn hle, hnot.2⟩
  · rw [hedges, List.mem_append] at he
    rw [List.map_cons, List.mem_cons]
    rcases he with he | he
    · exact (hturn.source e he).elim (fun heq => .inl (.inl heq)) fun hge => .inr hge.1
    · exact (hrun.source e he).elim (fun hmem => .inl (.inr hmem)) fun hge => .inr (hle.trans hge)
  · rw [hedges, List.count_append]
    rw [List.map_cons, List.mem_cons, or_assoc] at hn
    by_cases hlater : n ∈ sis.map SwitchInst.parent ∨ cfg₁.next ≤ n
    · -- a block of a later turn
      have hfirst : (si.edgesAfter r).count (n, b) = 0 := by
        refine count_eq_zero_of_source ?_
        rintro e he rfl
        rcases hturn.source e he with hsource | ⟨hge, hlt⟩
        · rw [hsource] at hlater
          refine hlater.elim hparent (Nat.not_le.mpr (Nat.lt_of_lt_of_le hsi.parent_lt hle))
        · exact hlater.elim (fun hmem => Nat.not_lt.mpr hge (hold _ hmem)) (Nat.not_le.mpr hlt)
      rw [hfirst, Nat.zero_add]
      exact hrun.entries b p hp n hlater
    · -- a block of this turn, which the later ones leave alone
      rw [not_or, Nat.not_le] at hlater
      have hrest : (switchEdges sis rs).count (n, b) = 0 := by
        refine count_eq_zero_of_source ?_
        rintro e he rfl
        exact (hrun.source e he).elim hlater.1 (Nat.not_le.mpr hlater.2)
      obtain ⟨f, hf, hkeep⟩ := hrun.keeps b
      rw [hf] at hp
      obtain ⟨q, hq, rfl⟩ := List.mem_map.mp hp
      rw [(hkeep q hq n hlater.symm).2.1, hrest, Nat.add_zero]
      exact hturn.entries b q hq n (hn.imp_right fun hn => hn.resolve_left hlater.1)

theorem splitSwitches_run (sis : List SwitchInst) (cfg : Cfg V) (hclosed : cfg.Closed)
    (h : ∀ si ∈ sis, Accepted cfg si) (hparents : (sis.map SwitchInst.parent).Nodup) :
    ∃ rs cfg', splitSwitches sis cfg = some (rs, cfg') ∧ Run sis cfg rs cfg' := by
  induction sis generalizing cfg with
  | nil => exact ⟨[], cfg, rfl, .nil hclosed⟩
  | cons si sis ih =>
    rw [List.map_cons, List.nodup_cons] at hparents
    obtain ⟨r, cfg₁, hrun₁, hturn⟩ := splitSwitch_preserves hclosed (h si List.mem_cons_self)
    have hne : ∀ sj ∈ sis, sj.parent ≠ si.parent := fun sj hsj heq =>
      hparents.1 (heq ▸ List.mem_map_of_mem hsj)
    obtain ⟨rs, cfg₂, hrun₂, hrest⟩ := ih cfg₁ hturn.closed
      (fun sj hsj => (h sj (List.mem_cons_of_mem _ hsj)).after hturn (hne sj hsj)) hparents.2
    refine ⟨r :: rs, cfg₂, ?_, .cons hturn h hparents.1 hrest⟩
    simp only [splitSwitches, hrun₁, hrun₂, Option.bind_eq_bind, Option.bind_some]

/-- The pass keeps the meaning of the module: every switch is answered, on every value control
reaches the block the switch chose with the phi values it would have had, and the edges of all other
blocks are as before. -/
theorem splitSwitches_keeps_meaning (sis : List SwitchInst) (cfg : Cfg V) (hclosed : cfg.Closed)
    (h : ∀ si ∈ sis, Accepted cfg si) (hparents : (sis.map SwitchInst.parent).Nodup) :
    ∃ rs cfg', splitSwitches sis cfg = some (rs, cfg') ∧
      List.Forall₂ (fun si r => ∀ v, (si.edgeAfter r v).2 = (si.edge v).2 ∧
        cfg'.enter (si.edgeAfter r v) = cfg.enter (si.edge v)) sis rs ∧
      ∀ n < cfg.next, n ∉ sis.map SwitchInst.parent → ∀ b,
        cfg'.enter (n, b) = cfg.enter (n, b) := by
  obtain ⟨rs, cfg', hrun, hall⟩ := splitSwitches_run sis cfg hclosed h hparents
  refine ⟨rs, cfg', hrun, hall.replaced.imp fun si r hr v => ⟨hr.target v, hr.enter v⟩, ?_⟩
  exact fun n hn hnot b => hall.keeps.enter ⟨hn, hnot⟩ b

/-- Two cases of a 16-bit switch that share a target with one phi node. -/
def twoCases : SwitchInst := ⟨16, [⟨0x0102#16, 1⟩, ⟨0x0103#16, 1⟩], 2, 0⟩

def twoCasesCfg : Cfg ℕ where
  next := 4
  phis := fun b => if b = 1 then [[(0, 7), (3, 9), (0, 7)]] else if b = 2 then [[(0, 8)]] else []

theorem twoCases_accepted : Accepted twoCasesCfg twoCases where
  distinct := by decide
  parent_lt := by decide
  successors_lt := by decide
  entries := by
    intro b p hp
    by_cases h1 : b = 1
    · subst h1
      simp [twoCasesCfg] at hp
      subst hp
      decide
    · by_cases h2 : b = 2
      · subst h2
        simp [twoCasesCfg] at hp
        subst hp
        decide
      · simp [twoCasesCfg, h1, h2] at hp
  uniform := by
    intro b p hp
    by_cases h1 : b = 1
    · subst h1
      simp [twoCasesCfg] at hp
      subst hp
      simp [UniformAt, twoCases]
    · by_cases h2 : b = 2
      · subst h2
        simp [twoCasesCfg] at hp
        subst hp
        simp [UniformAt]
      · simp [twoCasesCfg, h1, h2] at hp

theorem twoCasesCfg_closed : twoCasesCfg.Closed := by
  intro b p hp n hn
  have hn4 : 4 ≤ n := hn
  have h0 : 0 ≠ n := Nat.ne_of_lt (Nat.lt_of_lt_of_le (by decide) hn4)
  have h3 : 3 ≠ n := Nat.ne_of_lt (Nat.lt_of_lt_of_le (by decide) hn4)
  by_cases h1 : b = 1
  · subst h1
    simp [twoCasesCfg] at hp
    subst hp
    simp [entryCount_cons, h0, h3]
  · by_cases h2 : b = 2
    · subst h2
      simp [twoCasesCfg] at hp
      subst hp
      simp [entryCount_cons, h0]
    · simp [twoCasesCfg, h1, h2] at hp

theorem splitSwitches_keeps_meaning_twoCases :
    ∃ rs cfg', splitSwitches [twoCases] twoCasesCfg = some (rs, cfg') ∧
      List.Forall₂ (fun si r => ∀ v, (si.edgeAfter r v).2 = (si.edge v).2 ∧
        cfg'.enter (si.edgeAfter r v) = twoCasesCfg.enter (si.edge v)) [twoCases] rs ∧
      ∀ n < 4, n ∉ [0] → ∀ b, cfg'.enter (n, b) = twoCasesCfg.enter (n, b) :=
  splitSwitches_keeps_meaning [twoCases] twoCasesCfg twoCasesCfg_closed
    (by simpa using twoCases_accepted) (by decide)

/-- After the pass each phi node has one entry for each edge that now leads to it from a block of a
switch or a new block (none for the blocks inside a tree, which only branch to new blocks), and for
every other block as many entries as before. -/
theorem splitSwitches_phi_entries (sis : List SwitchInst) (cfg : Cfg V) (hclosed : cfg.Closed)
    (h : ∀ si ∈ sis, Accepted cfg si) (hparents : (sis.map SwitchInst.parent).Nodup) :
    ∃ rs cfg', splitSwitches sis cfg = some (rs, cfg') ∧ sis.length = rs.length ∧
      ∀ b, (∀ n, n ∈ sis.map SwitchInst.parent ∨ cfg.next ≤ n → ∀ p ∈ cfg'.phis b,
          entryCount n p = (switchEdges sis rs).count (n, b)) ∧
        ∀ n < cfg.next, n ∉ sis.map SwitchInst.parent →
          (cfg'.phis b).map (entryCount n) = (cfg.phis b).map (entryCount n) := by
  obtain ⟨rs, cfg', hrun, hall⟩ := splitSwitches_run sis cfg hclosed h hparents
  refine ⟨rs, cfg', hrun, hall.replaced.length_eq, fun b =>
    ⟨fun n hn p hp => hall.entries b p hp n hn, fun n hn hnot => ?_⟩⟩
  obtain ⟨f, hf, hkeep⟩ := hall.keeps b
  rw [hf, List.map_map]
  exact List.map_congr_left fun p hp => (hkeep p hp n ⟨hn, hnot⟩).2.1

theorem splitSwitches_phi_entries_twoCases :
    ∃ rs cfg', splitSwitches [twoCases] twoCasesCfg = some (rs, cfg') ∧ 1 = rs.length ∧
      ∀ b, (∀ n, n ∈ [0] ∨ 4 ≤ n → ∀ p ∈ cfg'.phis b,
          entryCount n p = (switchEdges [twoCases] rs).count (n, b)) ∧
        ∀ n < 4, n ∉ [0] → (cfg'.phis b).map (entryCount n) =
          (twoCasesCfg.phis b).map (entryCount n) :=
  splitSwitches_phi_entries [twoCases] twoCasesCfg twoCasesCfg_closed
    (by simpa using twoCases_accepted) (by decide)

end Pass

end AflPlusPlus.Laf
