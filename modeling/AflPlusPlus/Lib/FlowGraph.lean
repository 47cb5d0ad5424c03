import Mathlib.Data.List.Basic
import Mathlib.Tactic.Push

/-!
# Flow graphs

Walks, dominators and postdominators of a graph with an entry, and what a set of vertices that a
walk is observed at tells about the rest of it. In a graph without critical edges nothing is lost
when the vertices that dominate all their successors are not observed, nor those with several
predecessors that postdominate them all.
-/

namespace Lib

variable {V : Type*}

/-- The walks from a vertex to another with their vertices. -/
inductive Walk (E : V → V → Prop) : V → V → List V → Prop
  | one (v : V) : Walk E v v [v]
  | step {u v w : V} {p : List V} : E u v → Walk E v w p → Walk E u w (u :: p)

variable {E : V → V → Prop} {a b c u v w x : V} {p q : List V}

namespace Walk

theorem first_mem (h : Walk E a b p) : a ∈ p := by
  cases h <;> exact List.mem_cons_self

theorem last_mem (h : Walk E a b p) : b ∈ p := by
  induction h with
  | one v => exact List.mem_cons_self
  | step _ _ ih => exact List.mem_cons_of_mem _ ih

theorem append (h : Walk E a b p) (h' : Walk E b c q) : Walk E a c (p ++ q.tail) := by
  induction h with
  | one v => cases h' with
    | one => exact .one _
    | step hE hwalk => exact .step hE hwalk
  | step hE _ ih => exact .step hE (ih h')

theorem snoc (h : Walk E a b p) (hE : E b c) : Walk E a c (p ++ [c]) := h.append (.step hE (.one c))

/-- A walk cut at a vertex it visits. -/
theorem cut (h : Walk E a b p) (hv : v ∈ p) : ∃ l r, p = l ++ v :: r ∧ Walk E a v (l ++ [v]) ∧
    Walk E v b (v :: r) := by
  induction h with
  | one u =>
    obtain rfl := List.mem_singleton.mp hv
    exact ⟨[], [], rfl, .one v, .one v⟩
  | @step u u' w p hE hwalk ih =>
    obtain rfl | hv := List.mem_cons.mp hv
    · exact ⟨[], p, rfl, .one v, .step hE hwalk⟩
    · obtain ⟨l, r, rfl, hl, hr⟩ := ih hv
      exact ⟨u :: l, r, rfl, .step hE hl, hr⟩

/-- Behind the last visit of `v` a walk goes on from one of its successors and stays away. -/
theorem after_last (h : Walk E a b p) (hv : v ∈ p) (hne : v ≠ b) :
    ∃ s r, E v s ∧ Walk E s b r ∧ v ∉ r := by
  induction h with
  | one u => exact absurd (List.mem_singleton.mp hv) hne
  | @step u u' w p hE hwalk ih =>
    by_cases hlater : v ∈ p
    · exact ih hlater hne
    · obtain rfl | hv := List.mem_cons.mp hv
      · exact ⟨u', p, hE, hwalk, hlater⟩
      · exact absurd hv hlater

/-- A walk to `b` from another vertex comes in through a predecessor that it visits. -/
theorem before_last (h : Walk E a b p) (hne : a ≠ b) : ∃ u ∈ p, E u b := by
  induction h with
  | one v => exact absurd rfl hne
  | @step u u' w p hE hwalk ih =>
    by_cases heq : u' = w
    · exact ⟨u, List.mem_cons_self, heq ▸ hE⟩
    · obtain ⟨x, hx, hxE⟩ := ih heq
      exact ⟨x, List.mem_cons_of_mem _ hx, hxE⟩

end Walk

/-! ### Dominators -/

/-- Every walk from the entry to `b` visits `a`. -/
def Dominates (E : V → V → Prop) (entry a b : V) : Prop := ∀ p, Walk E entry b p → a ∈ p

/-- Every walk from `b` to a root visits `a`. -/
def PostDominates (E : V → V → Prop) (root : V → Prop) (a b : V) : Prop :=
  ∀ x p, root x → Walk E b x p → a ∈ p

variable {entry : V} {root : V → Prop}

theorem Dominates.refl (a : V) : Dominates E entry a a := fun _ h => h.last_mem

/-- What a walk visits, its dominators are visited before. -/
theorem Dominates.mem (h : Dominates E entry a b) (hwalk : Walk E entry c p) (hb : b ∈ p) :
    a ∈ p := by
  obtain ⟨l, r, rfl, hl, -⟩ := hwalk.cut hb
  have hmem := h _ hl
  rw [List.mem_append, List.mem_singleton] at hmem
  rw [List.mem_append, List.mem_cons]
  exact hmem.imp_right Or.inl

theorem PostDominates.mem (h : PostDominates E root a b) (hx : root x) (hwalk : Walk E c x p)
    (hb : b ∈ p) : a ∈ p := by
  obtain ⟨l, r, rfl, -, hr⟩ := hwalk.cut hb
  exact List.mem_append_right l (h x _ hx hr)

/-- A strict dominator of the source of an edge into `b` dominates `b`'s other predecessors. -/
theorem Dominates.of_edge (h : Dominates E entry a b) (hE : E c b) (hne : a ≠ b) :
    Dominates E entry a c := by
  intro p hp
  have hmem := h _ (hp.snoc hE)
  rw [List.mem_append, List.mem_singleton] at hmem
  exact hmem.resolve_right hne

/-! ### What the pruned vertices lose -/

/-- What follows about a complete walk from the vertices `seen` on it. -/
inductive Recovered (E : V → V → Prop) (entry : V) (root : V → Prop) (seen : V → Prop) : V → Prop
  | seen {v : V} : seen v → Recovered E entry root seen v
  | dominator {v w : V} : Dominates E entry v w → Recovered E entry root seen w →
      Recovered E entry root seen v
  | postDominator {v w : V} : PostDominates E root v w → Recovered E entry root seen w →
      Recovered E entry root seen v

/-- A vertex with several predecessors. -/
def Join (E : V → V → Prop) (m : V) : Prop := ∃ p q, p ≠ q ∧ E p m ∧ E q m

/-- A flow graph; `dead` vertices are never entered, and edges to them may be critical. -/
structure FlowGraph (E : V → V → Prop) (entry : V) (dead : V → Prop) : Prop where
  entry_first : ∀ v, ¬ E v entry
  reachable : ∀ v w, E v w → ∃ p, Walk E entry v p
  dead_last : ∀ v w, dead v → ¬ E v w
  noncritical : ∀ m, ¬ dead m → Join E m → ∀ p, E p m → ∀ s, E p s → s = m

/-- `v` dominates where it can go on to. -/
def Forks (E : V → V → Prop) (entry : V) (dead : V → Prop) (v : V) : Prop :=
  (∃ s, E v s ∧ ¬ dead s) ∧ ∀ s, E v s → ¬ dead s → Dominates E entry v s

variable {dead : V → Prop} {seen : V → Prop}

/-- Where the only successor of a dominator is a join it is a loop header that dominates the
loop. -/
theorem FlowGraph.forks_join (G : FlowGraph E entry dead) {d m : V} (hd : Forks E entry dead d)
    (hE : E d m) (hm : ¬ dead m) (hjoin : Join E m) : Forks E entry dead m := by
  have honly : ∀ s, E d s → s = m := G.noncritical m hm hjoin d hE
  by_cases heq : d = m
  · exact heq ▸ hd
  have hdom := hd.2 m hE hm
  obtain ⟨q, hqd, hq⟩ : ∃ q, q ≠ d ∧ E q m := by
    obtain ⟨p, q, hpq, hp, hq⟩ := hjoin
    by_cases hpd : p = d
    · exact ⟨q, fun h => hpq (hpd.trans h.symm), hq⟩
    · exact ⟨p, hpd, hp⟩
  -- behind `d` there is only `m`, so `m` dominates the other predecessor
  have hmq : Dominates E entry m q := by
    intro p hp
    obtain ⟨s, r, hs, hwalk, -⟩ := hp.after_last (hdom.of_edge hq heq p hp) hqd.symm
    obtain ⟨l, r', rfl, -, hr⟩ := hp.cut (hdom.of_edge hq heq p hp)
    cases hr with
    | one => exact absurd rfl hqd
    | step hs' hwalk' =>
      rw [honly _ hs'] at hwalk'
      exact List.mem_append_right l (List.mem_cons_of_mem _ hwalk'.first_mem)
  obtain ⟨p, hp⟩ := G.reachable q m hq
  refine ⟨?_, fun s hs hdead => ?_⟩
  · by_cases hmeq : m = q
    · exact ⟨m, hmeq ▸ hq, hm⟩
    · obtain ⟨s, r, hs, hwalk, -⟩ := hp.after_last (hmq p hp) hmeq
      refine ⟨s, hs, fun hdead => ?_⟩
      cases hwalk with
      | one => exact G.dead_last _ _ hdead hq
      | step hE' _ => exact G.dead_last _ _ hdead hE'
  · by_contra hnot
    rw [Dominates] at hnot
    push Not at hnot
    obtain ⟨r, hr, hmr⟩ := hnot
    -- a walk around `m` makes the successor a join, so it is the only one
    have hne : entry ≠ s := fun h => G.entry_first m (h ▸ hs)
    obtain ⟨u, hu, hus⟩ := hr.before_last hne
    have hsjoin : Join E s := ⟨m, u, fun h => hmr (h ▸ hu), hs, hus⟩
    have hsonly := G.noncritical s hdead hsjoin m hs
    by_cases hmeq : m = q
    · have hself := hsonly m (hmeq ▸ hq)
      exact hmr (hself ▸ hr.last_mem)
    · obtain ⟨s', r', hs', hwalk, hmr'⟩ := hp.after_last (hmq p hp) hmeq
      rw [hsonly s' hs'] at hwalk
      have hmem := hmq _ (hr.append hwalk)
      rw [List.mem_append] at hmem
      exact hmem.elim hmr fun h => hmr' (List.mem_of_mem_tail h)

/-- What is known of every vertex on a walk when the others are not observed. -/
def Pruned (E : V → V → Prop) (entry : V) (root dead seen : V → Prop) (v : V) : Prop :=
  seen v ∨ Forks E entry dead v ∨ Join E v ∧ ∀ u, E u v → PostDominates E root v u

/-- A complete walk shows that it was at a vertex that forks: were it not so at any of the vertices
behind it, the last one would fork too. -/
theorem FlowGraph.recovered_of_forks (G : FlowGraph E entry dead) (hwalk : Walk E v x p)
    (hx : ∀ w, ¬ E x w) (halive : ∀ w ∈ p, ¬ dead w)
    (hpruned : ∀ w ∈ p, Pruned E entry root dead seen w) (hv : Forks E entry dead v) :
    Recovered E entry root seen v := by
  induction hwalk with
  | one v =>
    obtain ⟨⟨s, hs, -⟩, -⟩ := hv
    exact absurd hs (hx s)
  | @step u v w p hE hwalk ih =>
    rw [List.forall_mem_cons] at halive hpruned
    have hdead := halive.2 v hwalk.first_mem
    refine .dominator (hv.2 v hE hdead) ?_
    obtain hseen | hforks | ⟨hjoin, -⟩ := hpruned.2 v hwalk.first_mem
    · exact .seen hseen
    · exact ih hx halive.2 hpruned.2 hforks
    · exact ih hx halive.2 hpruned.2 (G.forks_join hv hE hdead hjoin)

/-- Behind a recovered vertex everything is recovered. -/
theorem FlowGraph.recovered_after (G : FlowGraph E entry dead) (hwalk : Walk E v x p)
    (hx : ∀ w, ¬ E x w) (halive : ∀ w ∈ p, ¬ dead w)
    (hpruned : ∀ w ∈ p, Pruned E entry root dead seen w) (hv : Recovered E entry root seen v) :
    ∀ w ∈ p, Recovered E entry root seen w := by
  induction hwalk with
  | one v =>
    intro w hw
    rw [List.mem_singleton.mp hw]
    exact hv
  | @step u v w p hE hwalk ih =>
    rw [List.forall_mem_cons] at halive hpruned
    refine List.forall_mem_cons.mpr ⟨hv, ih hx halive.2 hpruned.2 ?_⟩
    obtain hseen | hforks | ⟨-, hpost⟩ := hpruned.2 v hwalk.first_mem
    · exact .seen hseen
    · exact G.recovered_of_forks hwalk hx halive.2 hpruned.2 hforks
    · exact .postDominator (hpost u hE) hv

/-- A complete walk visits what is recovered from the vertices seen on it, and nothing else. -/
theorem FlowGraph.mem_iff_recovered (G : FlowGraph E entry dead) (hwalk : Walk E entry x p)
    (hroot : root x) (hx : ∀ w, ¬ E x w) (halive : ∀ w ∈ p, ¬ dead w) (hseen : ∀ w, seen w → w ∈ p)
    (hpruned : ∀ w ∈ p, Pruned E entry root dead seen w) :
    v ∈ p ↔ Recovered E entry root seen v := by
  constructor
  · have hentry : Recovered E entry root seen entry := by
      obtain hseen | hforks | ⟨⟨u, -, -, hu, -⟩, -⟩ := hpruned entry hwalk.first_mem
      · exact .seen hseen
      · exact G.recovered_of_forks hwalk hx halive hpruned hforks
      · exact absurd hu (G.entry_first u)
    exact G.recovered_after hwalk hx halive hpruned hentry v
  · intro h
    induction h with
    | seen h => exact hseen _ h
    | dominator hdom _ ih => exact hdom.mem hwalk ih
    | postDominator hpost _ ih => exact hpost.mem hroot hwalk ih

/-! ### Edges -/

/-- The walk takes the edge from `u` to `w`. -/
def Takes (p : List V) (u w : V) : Prop := ∃ l r, p = l ++ u :: w :: r

/-- A walk that goes on from `u` takes an edge out of it. -/
theorem Walk.takes_of_mem (h : Walk E a b p) (hu : u ∈ p) (hne : u ≠ b) :
    ∃ s, E u s ∧ Takes p u s := by
  obtain ⟨l, r, rfl, -, hr⟩ := h.cut hu
  cases hr with
  | one => exact absurd rfl hne
  | @step _ s _ r hE hwalk =>
    refine ⟨s, hE, l, r.tail, ?_⟩
    cases hwalk <;> rfl

/-- A walk that came to `w` took an edge into it. -/
theorem Walk.takes_into (h : Walk E a b p) (hw : w ∈ p) (hne : a ≠ w) :
    ∃ u, E u w ∧ Takes p u w := by
  induction h with
  | one v => exact absurd (List.mem_singleton.mp hw).symm hne
  | @step u v b p hE hwalk ih =>
    by_cases heq : v = w
    · obtain rfl := heq
      refine ⟨u, hE, [], p.tail, ?_⟩
      cases hwalk <;> rfl
    · have hw := (List.mem_cons.mp hw).resolve_left fun h => hne h.symm
      obtain ⟨u', hE', l, r, rfl⟩ := ih hw heq
      exact ⟨u', hE', u :: l, r, rfl⟩

theorem Walk.edge_of_takes (h : Walk E a b p) (ht : Takes p u w) : E u w := by
  induction h with
  | one v =>
    obtain ⟨l, r, hp⟩ := ht
    have := congrArg List.length hp
    simp only [List.length_append, List.length_cons, List.length_nil] at this
    omega
  | @step u' v b p hE hwalk ih =>
    obtain ⟨l, r, hp⟩ := ht
    cases l with
    | nil =>
      obtain ⟨rfl, rfl⟩ := List.cons.inj hp
      cases hwalk <;> exact hE
    | cons _ l => exact ih ⟨l, r, (List.cons.inj hp).2⟩

/-- Two complete walks with the same vertices take the same edges. -/
theorem FlowGraph.takes_of_same (G : FlowGraph E entry dead) {x y : V} (hp : Walk E entry x p)
    (hq : Walk E entry y q) (hy : ∀ w, ¬ E y w) (halive : ∀ w ∈ p, ¬ dead w)
    (hsame : ∀ v ∈ p, v ∈ q) (ht : Takes p u w) : Takes q u w := by
  have hE := hp.edge_of_takes ht
  obtain ⟨hu, hw⟩ : u ∈ p ∧ w ∈ p := by
    obtain ⟨l, r, rfl⟩ := ht
    simp
  by_cases hjoin : Join E w
  · have honly := G.noncritical w (halive w hw) hjoin u hE
    obtain ⟨s, hs, htakes⟩ := hq.takes_of_mem (hsame u hu) fun h => hy w (h ▸ hE)
    exact honly s hs ▸ htakes
  · obtain ⟨u', hu', htakes⟩ := hq.takes_into (hsame w hw) fun h => G.entry_first u (h ▸ hE)
    have heq : u' = u := by
      by_contra hne
      exact hjoin ⟨u', u, hne, hu', hE⟩
    exact heq ▸ htakes

end Lib
