import AflPlusPlus.Dict.Dedup
import AflPlusPlus.Dict.Tokens
import AflPlusPlus.Lib.Qsort
import Mathlib.Data.List.Nodup

/-!
# The tokens found on the way

`maybe_add_auto`. The tokens are sorted by their hit counts after every call, and the first of them
by their lengths. The comparison of two hit counts is their difference as an `int`, so the order is
right only as long as no count is `2 ^ 31` or more above another.
-/

namespace AflPlusPlus.Dict
open Lib Mutation

/-- `MAX_AUTO_EXTRAS`. -/
def maxAutoExtras : ℕ := useAutoExtras * 8

/-- `auto_extra_data`. -/
structure AutoExtra where
  data : List Byte
  hitCnt : BitVec 32
  deriving DecidableEq

structure AutoState where
  aExtras : List AutoExtra
  autoChanged : Bool

/-- A candidate, with the tokens of the user at that time and what `rand_below` returns for an
eviction. -/
structure AutoCall where
  extras : List (List Byte)
  sorted : SortedByLength extras
  mem : List Byte
  rnd : Fin ((maxAutoExtras + 1) / 2)

def tolower (c : Byte) : Byte := if isupper c then c + 32 else c

/-- `memcmp_nocase` of tokens of one length. -/
def memcmpNocase (m1 m2 : List Byte) : Bool :=
  (m1.zip m2).any fun p => tolower p.1 ^^^ tolower p.2 ≠ 0

/-- The same length, and `!memcmp_nocase`. -/
def SameNocase (data mem : List Byte) : Prop :=
  data.length = mem.length ∧ memcmpNocase data mem = false

instance (data mem : List Byte) : Decidable (SameNocase data mem) :=
  inferInstanceAs (Decidable (_ ∧ _))

/-- "Skip runs of identical bytes." -/
def identicalBytes : List Byte → Bool
  | [] => false
  | c :: rest => rest.all fun d => c ^^^ d = 0

/-- "Reject builtin interesting values." -/
def isInteresting (mem : List Byte) : Bool :=
  (mem.length = 2 && interesting16.any fun v =>
    let m := load 16 (tokenBytes mem) 0
    (m.toNat : ℤ) = v || m = swap16 (BitVec.ofInt 16 v)) ||
  (mem.length = 4 && interesting32.any fun v =>
    let m := load 32 (tokenBytes mem) 0
    m = BitVec.ofInt 32 v || m = swap32 (BitVec.ofInt 32 v))

/-- The two loops over the tokens of the user. -/
def matchesExtra (extras : List (List Byte)) (mem : List Byte) : Bool :=
  ((extras.dropWhile fun data => data.length < mem.length).takeWhile fun data =>
    data.length = mem.length).any fun data => SameNocase data mem

/-- The loop over `a_extras[]`: the first token that matches is hit. -/
def hitAuto (mem : List Byte) : List AutoExtra → Option (List AutoExtra)
  | [] => none
  | ae :: rest =>
    if SameNocase ae.data mem then some ({ ae with hitCnt := ae.hitCnt + 1 } :: rest)
    else (hitAuto mem rest).map (ae :: ·)

/-- The tokens before they are sorted. Behind the last token the array is still zero, so a token
that is appended has no hits. -/
def noteAuto (c : AutoCall) (aExtras : List AutoExtra) : List AutoExtra :=
  match hitAuto c.mem aExtras with
  | some aExtras => aExtras
  | none =>
    if aExtras.length < maxAutoExtras then aExtras ++ [⟨c.mem, 0⟩]
    else aExtras.set (maxAutoExtras / 2 + c.rnd) ⟨c.mem, 0⟩

/-- `compare_auto_extras_len`. -/
def compareAutoExtrasLen (ae1 ae2 : AutoExtra) : ℤ :=
  (BitVec.ofNat 32 ae1.data.length - BitVec.ofNat 32 ae2.data.length).toInt

/-- `compare_auto_extras_use_d`. -/
def compareAutoExtrasUseD (ae1 ae2 : AutoExtra) : ℤ := (ae2.hitCnt - ae1.hitCnt).toInt

/-- `sort_a_extras`. -/
def SortAExtras (aExtras sorted : List AutoExtra) : Prop :=
  ∃ byUse top, QsortCall compareAutoExtrasUseD aExtras byUse ∧
    QsortCall compareAutoExtrasLen (byUse.take useAutoExtras) top ∧
    sorted = top ++ byUse.drop useAutoExtras

/-- `maybe_add_auto`. -/
def MaybeAddAuto (c : AutoCall) (s t : AutoState) : Prop :=
  if identicalBytes c.mem ∨ c.mem.length > maxAutoExtra then t = s
  else if isInteresting c.mem ∨ matchesExtra c.extras c.mem then t = s
  else t.autoChanged = true ∧ SortAExtras (noteAuto c s.aExtras) t.aExtras

/-- What is reached by calls that all meet a condition. -/
inductive AutoRun (P : AutoState → AutoCall → Prop) : AutoState → Prop
  | start : AutoRun P ⟨[], false⟩
  | call {s t : AutoState} {c : AutoCall} :
      AutoRun P s → P s c → MaybeAddAuto c s t → AutoRun P t

/-! ### What is meant to hold -/

structure AutoInvariant (s : AutoState) : Prop where
  count : s.aExtras.length ≤ maxAutoExtras
  distinct : s.aExtras.Pairwise fun a b => ¬ SameNocase a.data b.data
  inserts : ∀ c t, MaybeAddAuto c s t → ∀ ae ∈ t.aExtras, ae.data ∉ s.aExtras.map AutoExtra.data →
    ae.data = c.mem ∧ ∀ data ∈ c.extras, ¬ SameNocase data ae.data
  sorted : (s.aExtras.take useAutoExtras).Pairwise fun a b => a.data.length ≤ b.data.length
  top : ∀ a ∈ s.aExtras.take useAutoExtras, ∀ b ∈ s.aExtras.drop useAutoExtras,
    b.hitCnt.toNat ≤ a.hitCnt.toNat

/-- There are few tokens, or no count is about to reach `2 ^ 31`. -/
def CountsSmall (s : AutoState) (_ : AutoCall) : Prop :=
  s.aExtras.length < useAutoExtras ∨ ∀ ae ∈ s.aExtras, ae.hitCnt.toNat + 1 < 2 ^ 31

/-! ### Comparing without case -/

theorem sameNocase_iff {a b : List Byte} : SameNocase a b ↔ a.map tolower = b.map tolower := by
  unfold SameNocase memcmpNocase
  induction a generalizing b with
  | nil => cases b <;> simp
  | cons c a ih =>
    cases b with
    | nil => simp
    | cons d b =>
      have hxor : tolower c ^^^ tolower d = 0 ↔ tolower c = tolower d := BitVec.xor_eq_zero_iff
      have hrest := @ih b
      simp only [List.length_cons, List.zip_cons_cons, List.any_cons, List.map_cons,
        List.cons.injEq,
        Bool.or_eq_false_iff, Nat.add_right_cancel_iff, ← hrest, ← hxor]
      simp
      tauto

/-- In a sorted list the tokens of one length are found. -/
theorem mem_takeWhile_of_sorted {extras : List (List Byte)} {data : List Byte} {n : ℕ}
    (hsorted : SortedByLength extras) (hmem : data ∈ extras) (hlen : data.length = n) :
    data ∈ (extras.dropWhile fun data => data.length < n).takeWhile fun data =>
      data.length = n := by
  have hrun : ∀ l : List (List Byte), SortedByLength l → (∀ d ∈ l, n ≤ d.length) → data ∈ l →
      data ∈ l.takeWhile fun data => data.length = n := by
    intro l
    induction l with
    | nil => exact fun _ _ h => h
    | cons d l ih =>
      intro hl hge hin
      obtain ⟨hfirst, hrest⟩ := List.pairwise_cons.mp hl
      have hd : d.length = n := by
        have := hge d List.mem_cons_self
        rcases List.mem_cons.mp hin with rfl | hin
        · exact hlen
        · have := hfirst data hin
          omega
      rw [List.takeWhile_cons_of_pos (by simpa using hd)]
      rcases List.mem_cons.mp hin with rfl | hin
      · exact List.mem_cons_self
      · exact List.mem_cons_of_mem d (ih hrest (fun e he => hge e (List.mem_cons_of_mem d he)) hin)
  induction extras with
  | nil => cases hmem
  | cons d extras ih =>
    obtain ⟨hfirst, hrest⟩ := List.pairwise_cons.mp hsorted
    by_cases hd : d.length < n
    · rw [List.dropWhile_cons_of_pos (by simpa using hd)]
      refine ih hrest ?_
      rcases List.mem_cons.mp hmem with rfl | hmem
      · omega
      · exact hmem
    · rw [List.dropWhile_cons_of_neg (by simpa using hd)]
      refine hrun _ hsorted (fun e he => ?_) hmem
      rcases List.mem_cons.mp he with rfl | he
      · omega
      · have := hfirst e he
        omega

theorem not_sameNocase_of_matchesExtra {c : AutoCall} (h : ¬ matchesExtra c.extras c.mem = true) :
    ∀ data ∈ c.extras, ¬ SameNocase data c.mem := by
  intro data hdata hsame
  refine h (List.any_eq_true.mpr ⟨data, mem_takeWhile_of_sorted c.sorted hdata hsame.1, ?_⟩)
  exact decide_eq_true hsame

/-! ### The tokens before they are sorted -/

section Note

variable {c : AutoCall} {mem : List Byte} {l l' : List AutoExtra}

theorem hitAuto_data (h : hitAuto mem l = some l') :
    l'.map AutoExtra.data = l.map AutoExtra.data := by
  induction l generalizing l' with
  | nil => cases h
  | cons ae rest ih =>
    unfold hitAuto at h
    split at h
    · obtain rfl := Option.some.inj h
      rfl
    · obtain ⟨rest', hrest, rfl⟩ := Option.map_eq_some_iff.mp h
      rw [List.map_cons, List.map_cons, ih hrest]

/-- A hit adds one to a count. -/
theorem hitAuto_count (h : hitAuto mem l = some l') {n : ℕ}
    (hn : ∀ ae ∈ l, ae.hitCnt.toNat + 1 < n) : ∀ ae ∈ l', ae.hitCnt.toNat < n := by
  induction l generalizing l' with
  | nil => cases h
  | cons ae rest ih =>
    have hae := hn ae List.mem_cons_self
    have hrest' : ∀ ae ∈ rest, ae.hitCnt.toNat + 1 < n := fun b hb =>
      hn b (List.mem_cons_of_mem ae hb)
    unfold hitAuto at h
    split at h
    · obtain rfl := Option.some.inj h
      refine List.forall_mem_cons.mpr ⟨?_, fun b hb => Nat.lt_of_succ_lt (hrest' b hb)⟩
      have hle : (ae.hitCnt + 1).toNat ≤ ae.hitCnt.toNat + 1 := by
        rw [BitVec.toNat_add]
        exact Nat.mod_le _ _
      exact lt_of_le_of_lt hle hae
    · obtain ⟨rest', hrest, rfl⟩ := Option.map_eq_some_iff.mp h
      exact List.forall_mem_cons.mpr ⟨Nat.lt_of_succ_lt hae, ih hrest hrest'⟩

theorem hitAuto_none (h : hitAuto mem l = none) : ∀ ae ∈ l, ¬ SameNocase ae.data mem := by
  induction l with
  | nil => exact fun _ h => absurd h List.not_mem_nil
  | cons ae rest ih =>
    unfold hitAuto at h
    split at h
    · cases h
    · rename_i hne
      exact List.forall_mem_cons.mpr ⟨hne, ih (Option.map_eq_none_iff.mp h)⟩

/-- The tokens are the ones before, but perhaps for one that is the candidate. -/
structure Noted (c : AutoCall) (l l' : List AutoExtra) : Prop where
  count : l'.length ≤ maxAutoExtras
  distinct : (l'.map fun ae => ae.data.map tolower).Nodup
  data : ∀ ae ∈ l', ae.data ∈ l.map AutoExtra.data ∨ ae.data = c.mem
  few : l.length < useAutoExtras → l'.length ≤ useAutoExtras
  small : ∀ n, 0 < n → (∀ ae ∈ l, ae.hitCnt.toNat + 1 < n) → ∀ ae ∈ l', ae.hitCnt.toNat < n

theorem noted_noteAuto (hcount : l.length ≤ maxAutoExtras)
    (hdistinct : (l.map fun ae => ae.data.map tolower).Nodup) : Noted c l (noteAuto c l) := by
  unfold noteAuto
  split
  · rename_i l' hhit
    have hdata := hitAuto_data hhit
    have hlen : l'.length = l.length := by simpa using congrArg List.length hdata
    refine ⟨hlen ▸ hcount, ?_, fun ae hae => .inl ?_, fun h => by omega, fun n _ =>
      hitAuto_count hhit⟩
    · have hkeys := congrArg (List.map (List.map tolower)) hdata
      rw [List.map_map, List.map_map] at hkeys
      exact hkeys.symm ▸ hdistinct
    · rw [← hdata]
      exact List.mem_map_of_mem hae
  · rename_i hnone
    have hnew : c.mem.map tolower ∉ l.map fun ae => ae.data.map tolower := by
      intro hmem
      obtain ⟨ae, hae, heq⟩ := List.mem_map.mp hmem
      exact hitAuto_none hnone ae hae (sameNocase_iff.mpr heq)
    have hsmall : ∀ n, 0 < n → (∀ ae ∈ l, ae.hitCnt.toNat + 1 < n) →
        ∀ ae, ae ∈ l ∨ ae = ⟨c.mem, 0⟩ → ae.hitCnt.toNat < n := by
      rintro n hpos hn ae (hae | rfl)
      · exact Nat.lt_of_succ_lt (hn ae hae)
      · exact hpos
    have hdata :
        ∀ ae, ae ∈ l ∨ ae = ⟨c.mem, 0⟩ → ae.data ∈ l.map AutoExtra.data ∨ ae.data = c.mem := by
      rintro ae (hae | rfl)
      · exact .inl (List.mem_map_of_mem hae)
      · exact .inr rfl
    split
    · rename_i hroom
      have hmem : ∀ ae ∈ l ++ [⟨c.mem, 0⟩], ae ∈ l ∨ ae = ⟨c.mem, 0⟩ := fun ae hae =>
        (List.mem_append.mp hae).imp_right List.mem_singleton.mp
      have hlen : (l ++ [(⟨c.mem, 0⟩ : AutoExtra)]).length = l.length + 1 := by simp
      refine ⟨by omega, ?_, fun ae hae => hdata ae (hmem ae hae), fun h => by omega,
        fun n hpos hn ae hae => hsmall n hpos hn ae (hmem ae hae)⟩
      rw [List.map_append, List.nodup_append_comm]
      exact List.nodup_cons.mpr ⟨hnew, hdistinct⟩
    · rename_i hfull
      have hmem : ∀ ae ∈ l.set (maxAutoExtras / 2 + c.rnd) ⟨c.mem, 0⟩, ae ∈ l ∨ ae = ⟨c.mem, 0⟩ :=
        fun ae hae => List.mem_or_eq_of_mem_set hae
      refine ⟨by simpa using hcount, ?_, fun ae hae => hdata ae (hmem ae hae), fun h => ?_,
        fun n hpos hn ae hae => hsmall n hpos hn ae (hmem ae hae)⟩
      · rw [List.map_set]
        exact List.Nodup.set hdistinct hnew
      · rw [List.length_set]
        omega

end Note

/-! ### The tokens after they are sorted -/

section Sorting

variable {c : AutoCall} {l out : List AutoExtra} {s t : AutoState}

theorem SortAExtras.perm (h : SortAExtras l out) : out.Perm l := by
  obtain ⟨byUse, top, huse, htop, rfl⟩ := h
  have hsplit := htop.perm.append_right (byUse.drop useAutoExtras)
  rw [List.take_append_drop] at hsplit
  exact hsplit.trans huse.perm

theorem SortAExtras.take_eq {byUse top : List AutoExtra}
    (htop : QsortCall compareAutoExtrasLen (byUse.take useAutoExtras) top) :
    (top ++ byUse.drop useAutoExtras).take useAutoExtras = top ∧
      (top ++ byUse.drop useAutoExtras).drop useAutoExtras = byUse.drop useAutoExtras := by
  have hlen := htop.perm.length_eq
  rw [List.length_take] at hlen
  by_cases hmany : useAutoExtras ≤ byUse.length
  · rw [Nat.min_eq_left hmany] at hlen
    exact ⟨List.take_left' hlen, List.drop_left' hlen⟩
  · have hnil : byUse.drop useAutoExtras = [] := List.drop_eq_nil_of_le (by omega)
    rw [hnil, List.append_nil]
    exact ⟨List.take_of_length_le (by omega), List.drop_eq_nil_of_le (by omega)⟩

/-- The lengths are always in order. -/
theorem SortAExtras.sorted (h : SortAExtras l out)
    (hlen : ∀ ae ∈ l, ae.data.length ≤ maxAutoExtra) :
    (out.take useAutoExtras).Pairwise fun a b => a.data.length ≤ b.data.length := by
  obtain ⟨byUse, top, huse, htop, rfl⟩ := h
  rw [(SortAExtras.take_eq htop).1]
  have hshort : ∀ ae ∈ byUse.take useAutoExtras, ae.data.length ≤ 32 := fun ae hae =>
    hlen ae (huse.perm.mem_iff.mp (List.mem_of_mem_take hae))
  have hkey : ∀ a ∈ byUse.take useAutoExtras, ∀ b ∈ byUse.take useAutoExtras,
      compareAutoExtrasLen a b = (a.data.length : ℤ) - b.data.length := by
    intro a ha b hb
    have ha := hshort a ha
    have hb := hshort b hb
    have hna : (BitVec.ofNat 32 a.data.length).toNat = a.data.length :=
      Nat.mod_eq_of_lt (by omega)
    have hnb : (BitVec.ofNat 32 b.data.length).toNat = b.data.length :=
      Nat.mod_eq_of_lt (by omega)
    rw [compareAutoExtrasLen, toInt_sub_of_near (by omega) (by omega), hna, hnb]
  exact (htop.ordered_of_key hkey).imp Int.ofNat_le.mp

/-- The counts are in order where they are small enough. -/
theorem SortAExtras.top (h : SortAExtras l out)
    (hsmall : l.length ≤ useAutoExtras ∨ ∀ ae ∈ l, ae.hitCnt.toNat < 2 ^ 31) :
    ∀ a ∈ out.take useAutoExtras, ∀ b ∈ out.drop useAutoExtras,
      b.hitCnt.toNat ≤ a.hitCnt.toNat := by
  have hperm := h.perm
  rcases hsmall with hfew | hsmall
  · -- nothing is behind the first tokens
    rw [List.drop_eq_nil_of_le (hperm.length_eq ▸ hfew)]
    exact fun _ _ _ hb => absurd hb List.not_mem_nil
  · obtain ⟨byUse, top, huse, htop, rfl⟩ := h
    have hkey : ∀ a ∈ l, ∀ b ∈ l,
        compareAutoExtrasUseD a b = -(a.hitCnt.toNat : ℤ) - -(b.hitCnt.toNat : ℤ) := by
      intro a ha b hb
      have ha := hsmall a ha
      have hb := hsmall b hb
      rw [compareAutoExtrasUseD, toInt_sub_of_near (by omega) (by omega)]
      omega
    have hordered := huse.ordered_of_key hkey
    rw [← List.take_append_drop useAutoExtras byUse] at hordered
    have hcross := (List.pairwise_append.mp hordered).2.2
    rw [(SortAExtras.take_eq htop).1, (SortAExtras.take_eq htop).2]
    intro a ha b hb
    have := hcross a (htop.perm.mem_iff.mp ha) b hb
    omega

/-! ### Runs -/

/-- What one call relies on. -/
structure AutoShape (s : AutoState) : Prop where
  count : s.aExtras.length ≤ maxAutoExtras
  distinct : (s.aExtras.map fun ae => ae.data.map tolower).Nodup
  short : ∀ ae ∈ s.aExtras, ae.data.length ≤ maxAutoExtra

/-- A call rejects its candidate, or takes it. -/
theorem maybeAddAuto_cases (h : MaybeAddAuto c s t) : t = s ∨
    (c.mem.length ≤ maxAutoExtra ∧ (∀ data ∈ c.extras, ¬ SameNocase data c.mem) ∧
      SortAExtras (noteAuto c s.aExtras) t.aExtras) := by
  unfold MaybeAddAuto at h
  split at h
  · exact .inl h
  · rename_i hlen
    split at h
    · exact .inl h
    · rename_i hmatch
      exact .inr ⟨Nat.not_lt.mp fun hlt => hlen (.inr hlt),
        not_sameNocase_of_matchesExtra fun hm => hmatch (.inr hm), h.2⟩

theorem AutoShape.noted (hs : AutoShape s) (hmem : c.mem.length ≤ maxAutoExtra) :
    Noted c s.aExtras (noteAuto c s.aExtras) ∧
      ∀ ae ∈ noteAuto c s.aExtras, ae.data.length ≤ maxAutoExtra := by
  have hnoted := noted_noteAuto (c := c) hs.count hs.distinct
  refine ⟨hnoted, fun ae hae => ?_⟩
  rcases hnoted.data ae hae with hold | hnew
  · obtain ⟨ae', hae', heq⟩ := List.mem_map.mp hold
    rw [← heq]
    exact hs.short ae' hae'
  · rwa [hnew]

theorem AutoShape.call (hs : AutoShape s) (h : MaybeAddAuto c s t) : AutoShape t := by
  rcases maybeAddAuto_cases h with rfl | ⟨hmem, -, hsort⟩
  · exact hs
  · obtain ⟨hnoted, hshort⟩ := hs.noted hmem
    have hperm := hsort.perm
    exact ⟨hperm.length_eq ▸ hnoted.count, (hperm.map _).nodup_iff.mpr hnoted.distinct,
      fun ae hae => hshort ae (hperm.mem_iff.mp hae)⟩

/-- A new token is the candidate, and no token of the user. -/
theorem AutoShape.inserts (hs : AutoShape s) (h : MaybeAddAuto c s t) : ∀ ae ∈ t.aExtras,
    ae.data ∉ s.aExtras.map AutoExtra.data →
      ae.data = c.mem ∧ ∀ data ∈ c.extras, ¬ SameNocase data ae.data := by
  intro ae hae hnew
  rcases maybeAddAuto_cases h with rfl | ⟨hmem, huser, hsort⟩
  · exact absurd (List.mem_map_of_mem hae) hnew
  · have hdata := ((hs.noted hmem).1.data ae (hsort.perm.mem_iff.mp hae)).resolve_left hnew
    rw [hdata]
    exact ⟨rfl, huser⟩

/-- The first tokens are in order. -/
structure AutoTop (s : AutoState) : Prop where
  sorted : (s.aExtras.take useAutoExtras).Pairwise fun a b => a.data.length ≤ b.data.length
  top : ∀ a ∈ s.aExtras.take useAutoExtras, ∀ b ∈ s.aExtras.drop useAutoExtras,
    b.hitCnt.toNat ≤ a.hitCnt.toNat

theorem AutoTop.call (htop : AutoTop s) (hs : AutoShape s) (hsmall : CountsSmall s c)
    (h : MaybeAddAuto c s t) : AutoTop t := by
  rcases maybeAddAuto_cases h with rfl | ⟨hmem, -, hsort⟩
  · exact htop
  · obtain ⟨hnoted, hshort⟩ := hs.noted hmem
    exact ⟨hsort.sorted hshort, hsort.top (hsmall.imp hnoted.few (hnoted.small _ (by decide)))⟩

/-- In every run in which the counts stay small, the tokens are what they are meant to be in every
state. -/
theorem autoRun_invariant (h : AutoRun CountsSmall s) : AutoInvariant s := by
  have hall : AutoShape s ∧ AutoTop s := by
    induction h with
    | start =>
      refine ⟨⟨Nat.zero_le _, .nil, fun _ h => absurd h List.not_mem_nil⟩, ⟨?_, fun _ h => ?_⟩⟩
      · rw [List.take_nil]
        exact .nil
      · rw [List.take_nil] at h
        exact absurd h List.not_mem_nil
    | call _ hsmall hcall ih => exact ⟨ih.1.call hcall, ih.2.call ih.1 hsmall hcall⟩
  obtain ⟨hshape, htop⟩ := hall
  refine ⟨hshape.count, ?_, fun c t hcall => hshape.inserts hcall, htop.sorted, htop.top⟩
  exact (List.pairwise_map.mp hshape.distinct).imp fun hne hsame => hne (sameNocase_iff.mp hsame)

end Sorting

/-! ### A count that gets too large -/

/-- Five bytes that are no letters. -/
def numbered (k : ℕ) : List Byte :=
  [16, BitVec.ofNat 8 (k % 16), BitVec.ofNat 8 (k / 16 % 16), BitVec.ofNat 8 (k / 256 % 16),
    BitVec.ofNat 8 (k / 4096 % 16)]

def numberedCall (k : ℕ) : AutoCall := ⟨[], .nil, numbered k, ⟨0, by decide⟩⟩

def numberedExtra (hits k : ℕ) : AutoExtra := ⟨numbered k, BitVec.ofNat 32 hits⟩

section Numbered

variable {k n : ℕ} {l out : List AutoExtra} {b : Bool}

theorem tolower_of_lt {c : Byte} (h : c.toNat < 65) : tolower c = c := by
  have hupper : isupper c = false := by
    have hle : ¬ chr 'A' ≤ c := by
      have hA : (chr 'A').toNat = 65 := rfl
      bv_omega
    simp [isupper, hle]
  rw [tolower, hupper, if_neg Bool.false_ne_true]

theorem digit_toNat (k : ℕ) : (BitVec.ofNat 8 (k % 16)).toNat = k % 16 :=
  Nat.mod_eq_of_lt (by omega)

theorem map_tolower_numbered (k : ℕ) : (numbered k).map tolower = numbered k := by
  have hdigit : ∀ n, tolower (BitVec.ofNat 8 (n % 16)) = BitVec.ofNat 8 (n % 16) := by
    intro n
    refine tolower_of_lt ?_
    rw [digit_toNat]
    omega
  have hfirst : tolower 16 = 16 := by decide
  simp only [numbered, List.map_cons, List.map_nil, hdigit, hfirst]

theorem numbered_inj (hk : k < 2 ^ 16) (hn : n < 2 ^ 16) (h : numbered k = numbered n) : k = n := by
  simp only [numbered, List.cons.injEq, and_true, true_and] at h
  obtain ⟨h0, h1, h2, h3⟩ := h
  have h0 := congrArg BitVec.toNat h0
  have h1 := congrArg BitVec.toNat h1
  have h2 := congrArg BitVec.toNat h2
  have h3 := congrArg BitVec.toNat h3
  rw [digit_toNat, digit_toNat] at h0 h1 h2 h3
  omega

theorem sameNocase_numbered (hk : k < 2 ^ 16) (hn : n < 2 ^ 16) :
    SameNocase (numbered k) (numbered n) ↔ k = n := by
  rw [sameNocase_iff, map_tolower_numbered, map_tolower_numbered]
  exact ⟨numbered_inj hk hn, congrArg numbered⟩

theorem maybeAddAuto_numbered (h : SortAExtras (noteAuto (numberedCall k) l) out) :
    MaybeAddAuto (numberedCall k) ⟨l, b⟩ ⟨out, true⟩ := by
  have hdiff : (16 : Byte) ^^^ BitVec.ofNat 8 (k % 16) ≠ 0 := by
    intro hxor
    have heq := congrArg BitVec.toNat (BitVec.xor_eq_zero_iff.mp hxor)
    rw [digit_toNat] at heq
    have : (16 : Byte).toNat = 16 := rfl
    omega
  have hrun : ¬ (identicalBytes (numbered k) = true ∨ (numbered k).length > maxAutoExtra) := by
    rintro (hall | hlen)
    · exact hdiff (of_decide_eq_true (List.all_eq_true.mp hall _ List.mem_cons_self))
    · have hfive : (numbered k).length = 5 := rfl
      rw [hfive] at hlen
      exact absurd hlen (by decide)
  have hnew : ¬ (isInteresting (numbered k) = true ∨ matchesExtra [] (numbered k) = true) := by
    simp [isInteresting, matchesExtra, numbered]
  have hmem : (numberedCall k).mem = numbered k := rfl
  have hextras : (numberedCall k).extras = [] := rfl
  unfold MaybeAddAuto
  rw [hmem, hextras, if_neg hrun, if_neg hnew]
  exact ⟨rfl, h⟩

/-- Tokens of one length need no sorting once they are sorted by their counts. -/
theorem sortAExtras_append (hlen : ∀ ae ∈ out, ae.data.length = 5)
    (huse : QsortCall compareAutoExtrasUseD l out) : SortAExtras l out := by
  refine ⟨out, out.take useAutoExtras, huse, QsortCall.refl ?_, (List.take_append_drop _ _).symm⟩
  refine List.pairwise_of_forall_mem_list fun a ha b hb => ?_
  rw [compareAutoExtrasLen, hlen a (List.mem_of_mem_take ha), hlen b (List.mem_of_mem_take hb)]
  decide

theorem hitAuto_eq_none {mem : List Byte} (h : ∀ ae ∈ l, ¬ SameNocase ae.data mem) :
    hitAuto mem l = none := by
  induction l with
  | nil => rfl
  | cons ae rest ih =>
    rw [hitAuto, if_neg (h ae List.mem_cons_self),
      ih fun a ha => h a (List.mem_cons_of_mem ae ha)]
    rfl

/-- Tokens without hits. -/
def fresh (start n : ℕ) : List AutoExtra := (List.range' start n).map (numberedExtra 0)

theorem compareAutoExtrasUseD_numbered (hits hits' k n : ℕ) :
    compareAutoExtrasUseD (numberedExtra hits k) (numberedExtra hits' n) =
      (BitVec.ofNat 32 hits' - BitVec.ofNat 32 hits).toInt := rfl

theorem pairwise_fresh (start n : ℕ) :
    (fresh start n).Pairwise fun a b => compareAutoExtrasUseD a b ≤ 0 := by
  refine List.pairwise_of_forall_mem_list fun a ha b hb => ?_
  obtain ⟨i, -, rfl⟩ := List.mem_map.mp ha
  obtain ⟨j, -, rfl⟩ := List.mem_map.mp hb
  rw [compareAutoExtrasUseD_numbered]
  decide

theorem length_fresh {start n : ℕ} {ae : AutoExtra} (h : ae ∈ fresh start n) :
    ae.data.length = 5 := by
  obtain ⟨i, -, rfl⟩ := List.mem_map.mp h
  rfl

theorem maybeAddAuto_fresh (hn : n ≤ useAutoExtras) :
    MaybeAddAuto (numberedCall n) ⟨fresh 0 n, b⟩ ⟨fresh 0 (n + 1), true⟩ := by
  have hn : n ≤ 4096 := hn
  have hnone : hitAuto (numbered n) (fresh 0 n) = none := by
    refine hitAuto_eq_none fun ae hae hsame => ?_
    obtain ⟨i, hi, rfl⟩ := List.mem_map.mp hae
    have hi := (List.mem_range'_1.mp hi).2
    have := (sameNocase_numbered (by omega) (by omega)).mp hsame
    omega
  have hroom : (fresh 0 n).length < maxAutoExtras := by
    rw [fresh, List.length_map, List.length_range', maxAutoExtras, useAutoExtras]
    omega
  refine maybeAddAuto_numbered (sortAExtras_append (fun _ => length_fresh) ?_)
  have hnote : noteAuto (numberedCall n) (fresh 0 n) = fresh 0 (n + 1) := by
    unfold noteAuto
    have hmem : (numberedCall n).mem = numbered n := rfl
    rw [hmem, hnone]
    dsimp only
    rw [if_pos hroom, fresh, fresh, List.range'_concat, List.map_append, Nat.one_mul, Nat.zero_add]
    rfl
  rw [hnote]
  exact QsortCall.refl (pairwise_fresh _ _)

theorem autoRun_fresh {P : AutoState → AutoCall → Prop} (hn : n ≤ useAutoExtras)
    (hP : ∀ i b, i ≤ n → P ⟨fresh 0 i, b⟩ (numberedCall i)) :
    AutoRun P ⟨fresh 0 (n + 1), true⟩ := by
  induction n with
  | zero => exact .call .start (hP 0 false (Nat.le_refl 0)) (maybeAddAuto_fresh (Nat.zero_le _))
  | succ n ih =>
    have hrun := ih (Nat.le_of_succ_le hn) fun i b hi => hP i b (Nat.le_succ_of_le hi)
    exact .call hrun (hP _ true (Nat.le_refl _)) (maybeAddAuto_fresh hn)

theorem noteAuto_hit (hits : ℕ) (l : List AutoExtra) :
    noteAuto (numberedCall 0) (numberedExtra hits 0 :: l) = numberedExtra (hits + 1) 0 :: l := by
  have hsame : SameNocase (numberedExtra hits 0).data (numberedCall 0).mem :=
    sameNocase_iff.mpr rfl
  unfold noteAuto
  rw [hitAuto, if_pos hsame]
  dsimp only [numberedExtra]
  rw [BitVec.ofNat_add]
  rfl

/-- The token that is hit stays in front as long as its count is not above `2 ^ 31`. -/
theorem sortAExtras_hit {hits : ℕ} (hhits : hits + 1 ≤ 2 ^ 31) :
    SortAExtras (noteAuto (numberedCall 0) (numberedExtra hits 0 :: fresh 1 n))
      (numberedExtra (hits + 1) 0 :: fresh 1 n) := by
  rw [noteAuto_hit]
  refine sortAExtras_append (List.forall_mem_cons.mpr ⟨rfl, fun _ => length_fresh⟩)
    (QsortCall.refl (List.pairwise_cons.mpr ⟨fun ae hae => ?_, pairwise_fresh _ _⟩))
  obtain ⟨i, -, rfl⟩ := List.mem_map.mp hae
  have hcount : (BitVec.ofNat 32 (hits + 1)).toNat = hits + 1 := Nat.mod_eq_of_lt (by omega)
  have hzero : (BitVec.ofNat 32 0).toNat = 0 := rfl
  rw [compareAutoExtrasUseD_numbered, toInt_sub_of_near (by omega) (by omega)]
  omega

theorem autoRun_hits {hits : ℕ} (hhits : hits ≤ 2 ^ 31) :
    AutoRun (fun _ _ => True) ⟨numberedExtra hits 0 :: fresh 1 useAutoExtras, true⟩ := by
  induction hits with
  | zero => exact autoRun_fresh (Nat.le_refl _) fun _ _ _ => trivial
  | succ hits ih =>
    exact .call (ih (Nat.le_of_succ_le hhits)) trivial
      (maybeAddAuto_numbered (sortAExtras_hit hhits))

/-- One more hit, and the token goes behind all others. -/
theorem maybeAddAuto_overflow : MaybeAddAuto (numberedCall 0)
    ⟨numberedExtra (2 ^ 31) 0 :: fresh 1 useAutoExtras, true⟩
    ⟨fresh 1 useAutoExtras ++ [numberedExtra (2 ^ 31 + 1) 0], true⟩ := by
  refine maybeAddAuto_numbered (sortAExtras_append (fun ae hae => ?_) ?_)
  · rcases List.mem_append.mp hae with hae | hae
    · exact length_fresh hae
    · obtain rfl := List.mem_singleton.mp hae
      rfl
  · rw [noteAuto_hit]
    refine ⟨List.perm_append_singleton _ _, fun _ => ?_⟩
    refine List.pairwise_append.mpr ⟨pairwise_fresh _ _, List.pairwise_singleton _ _,
      fun a ha b hb => ?_⟩
    obtain ⟨i, -, rfl⟩ := List.mem_map.mp ha
    obtain rfl := List.mem_singleton.mp hb
    rw [compareAutoExtrasUseD_numbered]
    decide

end Numbered

/-- The most used of 4097 tokens is not among the first 4096 after `2 ^ 31 + 1` hits. -/
theorem autoRun_not_invariant : ¬ ∀ s, AutoRun (fun _ _ => True) s → AutoInvariant s := by
  intro hall
  have hlen : (fresh 1 useAutoExtras).length = useAutoExtras := by
    rw [fresh, List.length_map, List.length_range']
  have htop := (hall _ (.call (autoRun_hits (Nat.le_refl _)) trivial maybeAddAuto_overflow)).top
  dsimp only at htop
  rw [List.take_left' hlen, List.drop_left' hlen] at htop
  have hfirst : numberedExtra 0 1 ∈ fresh 1 useAutoExtras :=
    List.mem_map_of_mem (List.mem_range'_1.mpr ⟨Nat.le_refl _, by decide⟩)
  exact absurd (htop _ hfirst _ (List.mem_singleton_self _)) (by decide)

/-- Three tokens, the first of which is hit twice. -/
theorem autoRun_invariant_hits : AutoInvariant ⟨numberedExtra 2 0 :: fresh 1 2, true⟩ := by
  have hfew : ∀ i b, i ≤ 2 → CountsSmall ⟨fresh 0 i, b⟩ (numberedCall i) := by
    intro i b hi
    left
    rw [fresh, List.length_map, List.length_range', useAutoExtras]
    omega
  have hfresh : AutoRun CountsSmall ⟨numberedExtra 0 0 :: fresh 1 2, true⟩ :=
    autoRun_fresh (by decide) hfew
  have hhit : AutoRun CountsSmall ⟨numberedExtra 1 0 :: fresh 1 2, true⟩ :=
    .call hfresh (.inl (by decide)) (maybeAddAuto_numbered (sortAExtras_hit (by decide)))
  exact autoRun_invariant
    (.call hhit (.inl (by decide)) (maybeAddAuto_numbered (sortAExtras_hit (by decide))))

end AflPlusPlus.Dict
