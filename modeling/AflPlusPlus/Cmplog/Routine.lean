import AflPlusPlus.Cmplog.Log

/-!
# What a slot of a routine site describes

The operands and lengths of a call go into the slot of the call, the address attributes of every
call go into slot 0. After a run of calls a slot therefore holds the operands of the last call that
was stored in it, while its attributes are those of the last call of all in slot 0 and whatever the
memory held before in the other slots.
-/

namespace AflPlusPlus.Cmplog
open Lib

/-- The slot holds the operands and lengths of the entry. -/
structure HoldsOperands (slot : Bytes) (e : RtnEntry) : Prop where
  v0 : ∀ b, b < 32 → slot b = e.v0 b
  v1 : ∀ b, b < 32 → slot (32 + b) = e.v1 b
  v0Len : slot 64 = e.v0Len
  v1Len : slot 65 = e.v1Len

/-- All fields of the slot belong to the entry. -/
def Describes (slot : Bytes) (e : RtnEntry) : Prop := HoldsOperands slot e ∧ slot 66 = e.addrAttr

/-- The length an entry carries, without the mark that hooks for strings put on it. -/
def RtnEntry.length (e : RtnEntry) : ℕ :=
  max (e.v0Len &&& 0x7f).toNat (e.v1Len &&& 0x7f).toNat

def maxLength (es : List RtnEntry) : ℕ := es.foldl (fun m e => max m e.length) 0

/-! ### Storing one entry -/

/-- The slot of an entry. -/
def Site.rtnSlot (s : Site) (e : RtnEntry) : ℕ :=
  (s.header.countHit .rtn (fun shape => shape < e.l) (e.l - 1)).1 &&& 15

/-- The slot after its operands were stored. -/
def storeOperands (slot : Bytes) (e : RtnEntry) : Bytes :=
  putBytes
    (putBytes (putBytes (putBytes slot 64 1 fun _ => e.v0Len) 65 1 fun _ => e.v1Len) 0 32 e.v0)
    32 32 e.v1

theorem holdsOperands_storeOperands (slot : Bytes) (e : RtnEntry) :
    HoldsOperands (storeOperands slot e) e := by
  constructor
  · intro b hb
    simp [storeOperands, putBytes, hb, show ¬ 32 ≤ b by omega]
  · intro b hb
    simp [storeOperands, putBytes, show 32 + b < 64 by omega]
  · simp [storeOperands, putBytes]
  · simp [storeOperands, putBytes]

theorem storeOperands_attr (slot : Bytes) (e : RtnEntry) : storeOperands slot e 66 = slot 66 := by
  simp [storeOperands, putBytes]

/-- Outside the attributes, an entry changes its own slot only. -/
theorem Site.rtnLog_operands (s : Site) (e : RtnEntry) (i : ℕ) {j : ℕ} (hj : j ≠ 66) :
    (s.rtnLog e).log i j =
      if i = s.rtnSlot e then storeOperands (s.log i) e j else s.log i j := by
  have hlog : (s.rtnLog e).log i j =
      Function.update s.log (s.rtnSlot e) (storeOperands (s.log (s.rtnSlot e)) e) i j := by
    by_cases hi : i = 0
    · subst hi
      have hout : ¬ (66 ≤ j ∧ j < 66 + 1) := by omega
      simp only [rtnLog, Function.update_self, putBytes, if_neg hout]
      rfl
    · simp only [rtnLog, Function.update_of_ne hi]
      rfl
  rw [hlog]
  by_cases hi : i = s.rtnSlot e
  · subst hi
    rw [Function.update_self, if_pos rfl]
  · rw [Function.update_of_ne hi, if_neg hi]

/-- The attributes of every entry end up in slot 0. -/
theorem Site.rtnLog_attr (s : Site) (e : RtnEntry) (i : ℕ) :
    (s.rtnLog e).log i 66 = if i = 0 then e.addrAttr else s.log i 66 := by
  by_cases hi : i = 0
  · subst hi
    simp [rtnLog, putBytes]
  · have hlog : (s.rtnLog e).log i = Function.update s.log (s.rtnSlot e)
        (storeOperands (s.log (s.rtnSlot e)) e) i := by
      simp only [rtnLog, Function.update_of_ne hi]
      rfl
    rw [hlog, if_neg hi]
    by_cases hslot : i = s.rtnSlot e
    · subst hslot
      rw [Function.update_self, storeOperands_attr]
    · rw [Function.update_of_ne hslot]

/-! ### Runs -/

section Runs

variable {s : Site} (hs : s.header.type ≠ .rtn) (es : List RtnEntry)
include hs

theorem rtnLogs_hits (hne : es ≠ []) :
    (es.foldl Site.rtnLog s).header.type = .rtn ∧
      (es.foldl Site.rtnLog s).header.hits.toNat = es.length % 64 := by
  obtain ⟨htype, hhits⟩ := @Site.stores_hits .rtn s es (fun h => absurd h hs) hne
  exact ⟨htype, (congrArg BitVec.toNat hhits).trans (BitVec.toNat_ofNat _ _)⟩

/-- The wrapping of the count does not disturb the order of the slots. -/
theorem rtnLogs_slot (e : RtnEntry) : (es.foldl Site.rtnLog s).rtnSlot e = es.length % 16 := by
  rw [Site.rtnSlot]
  by_cases hne : es = []
  · subst hne
    rw [List.foldl_nil, CmpHeader.countHit_of_ne hs]
    exact Nat.zero_and 15
  · obtain ⟨htype, hhits⟩ := rtnLogs_hits hs es hne
    have hmask : ∀ n : ℕ, n &&& 15 = n % 16 := fun n => Nat.and_two_pow_sub_one_eq_mod n 4
    rw [CmpHeader.countHit_of_eq htype, hhits, hmask, Nat.mod_mod_of_dvd _ (by decide)]

/-- A slot holds the operands of the last entry that was stored in it. -/
theorem rtnLogs_operands {i : ℕ} (hi : i < 16) {e : RtnEntry} (he : lastAt 16 es i = some e) :
    HoldsOperands ((es.foldl Site.rtnLog s).log i) e := by
  induction es using List.reverseRecOn with
  | nil => exact absurd he.symm (by simp)
  | append_singleton es x ih =>
    rw [List.foldl_append, List.foldl_cons, List.foldl_nil]
    have hslot := rtnLogs_slot hs es x
    have hlog : ∀ j, j ≠ 66 → ((es.foldl Site.rtnLog s).rtnLog x).log i j =
        if i = es.length % 16 then storeOperands ((es.foldl Site.rtnLog s).log i) x j
        else (es.foldl Site.rtnLog s).log i j := fun j hj => by
      rw [Site.rtnLog_operands _ _ _ hj, hslot]
    rw [lastAt_concat, Nat.mod_eq_of_lt hi] at he
    have hsource : HoldsOperands (fun j =>
        if i = es.length % 16 then storeOperands ((es.foldl Site.rtnLog s).log i) x j
        else (es.foldl Site.rtnLog s).log i j) e := by
      by_cases hmod : es.length % 16 = i
      · rw [if_pos hmod, Option.some.injEq] at he
        subst he
        simp only [if_pos hmod.symm]
        exact holdsOperands_storeOperands _ _
      · rw [if_neg hmod] at he
        simp only [if_neg (Ne.symm hmod)]
        exact ih he
    exact ⟨fun b hb => (hlog b (by omega)).trans (hsource.v0 b hb),
      fun b hb => (hlog (32 + b) (by omega)).trans (hsource.v1 b hb),
      (hlog 64 (by decide)).trans hsource.v0Len, (hlog 65 (by decide)).trans hsource.v1Len⟩

omit hs in
/-- The attributes: those of the last entry in slot 0, old memory elsewhere. -/
theorem rtnLogs_attr (hne : es ≠ []) (i : ℕ) : (es.foldl Site.rtnLog s).log i 66 =
    if i = 0 then (es.getLast hne).addrAttr else s.log i 66 := by
  induction es using List.reverseRecOn with
  | nil => exact absurd rfl hne
  | append_singleton es x ih =>
    rw [List.foldl_append, List.foldl_cons, List.foldl_nil, Site.rtnLog_attr,
      List.getLast_concat]
    by_cases hi : i = 0
    · rw [if_pos hi, if_pos hi]
    · rw [if_neg hi, if_neg hi]
      by_cases hes : es = []
      · subst hes
        rfl
      · rw [ih hes, if_neg hi]

/-- The shape is one less than the largest length. -/
theorem rtnLogs_shape (hne : es ≠ []) (hl : ∀ e ∈ es, 1 ≤ e.l ∧ e.l ≤ 32 ∧ e.l = e.length) :
    (es.foldl Site.rtnLog s).header.shape.toNat + 1 = maxLength es := by
  induction es using List.reverseRecOn with
  | nil => exact absurd rfl hne
  | append_singleton es x ih =>
    obtain ⟨hge, hle, hlen⟩ := hl x (by simp)
    have hshape : (BitVec.ofNat 5 (x.l - 1)).toNat = x.l - 1 := by
      rw [BitVec.toNat_ofNat]
      exact Nat.mod_eq_of_lt (by omega)
    rw [List.foldl_append, List.foldl_cons, List.foldl_nil, maxLength, List.foldl_append,
      List.foldl_cons, List.foldl_nil, ← hlen]
    change _ = max (maxLength es) x.l
    by_cases hes : es = []
    · subst hes
      simp only [Site.rtnLog, List.foldl_nil, CmpHeader.countHit_of_ne hs, hshape, maxLength]
      omega
    · have hmax := ih hes fun e he => hl e (List.mem_append_left _ he)
      obtain ⟨htype, -⟩ := rtnLogs_hits hs es hes
      simp only [Site.rtnLog, CmpHeader.countHit_of_eq htype, decide_eq_true_eq]
      split
      · rw [hshape]
        omega
      · omega

end Runs

/-! ### What the hooks log -/

theorem areaIsValid_le (rt : Runtime) (ptr : Pointer) (len : ℕ) : areaIsValid rt ptr len ≤ len := by
  rw [areaIsValid]
  split
  · exact Nat.zero_le len
  · dsimp only
    split
    · exact Nat.zero_le len
    · split <;> omega

theorem marked_length {n : ℕ} (hn : n ≤ 32) :
    (BitVec.ofNat 8 n &&& 0x7f).toNat = n ∧ (BitVec.ofNat 8 (0x80 + n) &&& 0x7f).toNat = n := by
  have hall : ∀ n : Fin 33, (BitVec.ofNat 8 n &&& 0x7f).toNat = n ∧
      (BitVec.ofNat 8 (0x80 + n) &&& 0x7f).toNat = n := by decide
  exact hall ⟨n, by omega⟩

theorem pickLen_eq (len1 len2 : ℕ) : pickLen len1 len2 = max len1 len2 := by
  rw [pickLen]
  split <;> [skip; split] <;> omega

theorem cutLen_le (rt : Runtime) (n : ℕ) : (if n > rt.maxLen then 0 else n) ≤ 32 := by
  have hmax := rt.maxLen_le
  split <;> omega

theorem cmplogRtnHookStrn_length {rt : Runtime} {ptr1 ptr2 : Pointer} {len : ℕ} {e : RtnEntry}
    (h : cmplogRtnHookStrn rt ptr1 ptr2 len = some e) :
    1 ≤ e.l ∧ e.l ≤ 32 ∧ e.l = e.length := by
  rw [cmplogRtnHookStrn] at h
  split at h
  · cases h
  · simp only [pickLen_eq] at h
    split at h
    · cases h
    · rename_i hl
      obtain rfl := Option.some.inj h
      have hle : max (strnLen rt ptr1 (min len 32)) (strnLen rt ptr2 (min len 32)) ≤ 32 :=
        Nat.max_le.mpr ⟨cutLen_le rt _, cutLen_le rt _⟩
      simp only [RtnEntry.make, RtnEntry.length, (marked_length hle).2, Nat.max_self]
      exact ⟨by omega, hle, trivial⟩

theorem cmplogRtnHookStr_length {rt : Runtime} {ptr1 ptr2 : Pointer} {e : RtnEntry}
    (h : cmplogRtnHookStr rt ptr1 ptr2 = some e) : 1 ≤ e.l ∧ e.l ≤ 32 ∧ e.l = e.length := by
  rw [cmplogRtnHookStr] at h
  split at h
  · cases h
  · simp only [pickLen_eq] at h
    split at h
    · cases h
    · rename_i hl
      obtain rfl := Option.some.inj h
      have hle1 : strLen rt ptr1 ≤ 32 := cutLen_le rt _
      have hle2 : strLen rt ptr2 ≤ 32 := cutLen_le rt _
      simp only [RtnEntry.make, RtnEntry.length, (marked_length hle1).2, (marked_length hle2).2]
      exact ⟨by omega, Nat.max_le.mpr ⟨hle1, hle2⟩, trivial⟩

theorem cmplogRtnHook_length {rt : Runtime} {ptr1 ptr2 : Pointer} {e : RtnEntry}
    (h : cmplogRtnHook rt ptr1 ptr2 = some e) : 1 ≤ e.l ∧ e.l ≤ 32 ∧ e.l = e.length := by
  have h1 := areaIsValid_le rt ptr1 32
  have h2 := areaIsValid_le rt ptr2 32
  have hmax := rt.maxLen_ge
  rw [cmplogRtnHook] at h
  dsimp only at h
  split at h
  · cases h
  · obtain rfl := Option.some.inj h
    have hlen := (marked_length (n := min rt.maxLen (min (areaIsValid rt ptr1 32)
      (areaIsValid rt ptr2 32))) (by omega)).1
    simp only [RtnEntry.make, RtnEntry.length, hlen]
    omega

/-- Every length a hook logs fits the shape, and the shape is raised to the length logged. -/
theorem HookCall.entry_length {rt : Runtime} {c : HookCall .rtn} {e : RtnEntry}
    (h : c.entry rt = some e) : 1 ≤ e.l ∧ e.l ≤ 32 ∧ e.l = e.length := by
  cases c with
  | rtnStrn ptr1 ptr2 len => exact cmplogRtnHookStrn_length h
  | rtnStr ptr1 ptr2 => exact cmplogRtnHookStr_length h
  | rtn ptr1 ptr2 => exact cmplogRtnHook_length h
  | rtnN ptr1 ptr2 len => exact cmplogRtnHook_length h
  | rtnStdstring string1 string2 ptr1 ptr2 =>
    rw [entry, cmplogRtnStdstring] at h
    split at h
    · cases h
    · exact cmplogRtnHook_length h

/-- Exactly when the slots that are looked at describe their calls: the attributes of the last call
of all have to be those of the last call in slot 0, and in each of the other slots the memory must
have held the right attributes before. The operands, the lengths and the shape are always right. -/
theorem rtn_slots_describe_calls_iff (rt : Runtime) (s : Site) (calls : List (HookCall .rtn))
    (hs : s.header.type ≠ .rtn) (hne : calls.filterMap (HookCall.entry rt) ≠ []) :
    let es : List RtnEntry := calls.filterMap (HookCall.entry rt)
    let final := s.calls rt calls
    ∀ count, count = final.header.hits.toNat ∨ count = es.length →
      ((∀ i, i < min count 16 → ∃ e, lastAt 16 es i = some e ∧ Describes (final.log i) e) ∧
          final.header.shape.toNat + 1 = maxLength es ↔
        ∀ i, i < min count 16 → ∀ e, lastAt 16 es i = some e →
          (if i = 0 then (es.getLast hne).addrAttr else s.log i 66) = e.addrAttr) := by
  intro es final count hcount
  have hfinal : final = es.foldl Site.rtnLog s := s.calls_eq rt calls
  obtain ⟨-, hhits⟩ := rtnLogs_hits hs es hne
  have hle : count ≤ es.length := by
    rcases hcount with h | h
    · rw [h, hfinal, hhits]
      exact Nat.mod_le _ _
    · exact Nat.le_of_eq h
  have hlengths : ∀ e ∈ es, 1 ≤ e.l ∧ e.l ≤ 32 ∧ e.l = e.length := by
    intro e he
    obtain ⟨c, -, hc⟩ := List.mem_filterMap.mp he
    exact HookCall.entry_length hc
  have hattr := rtnLogs_attr (s := s) es hne
  rw [hfinal]
  constructor
  · rintro ⟨hslots, -⟩ i hi e he
    obtain ⟨e', he', -, hattr'⟩ := hslots i hi
    obtain rfl : e' = e := Option.some.inj (he'.symm.trans he)
    rw [← hattr i, hattr']
  · intro hcond
    refine ⟨fun i hi => ?_, rtnLogs_shape hs es hne hlengths⟩
    have hi16 : i < 16 := by omega
    obtain ⟨e, he⟩ := Option.isSome_iff_exists.mp ((lastAt_isSome_iff es hi16).mpr (by omega))
    exact ⟨e, he, rtnLogs_operands hs es hi16 he, (hattr i).trans (hcond i hi e he)⟩

/-- A runtime with the default length limit. -/
def plainRuntime : Runtime := ⟨32, 4096, by decide, by decide, by decide⟩

/-- A site of a map that was cleared altogether. -/
def clearedSite : Site := ⟨.cleared, fun _ _ => 0⟩

/-- A call on two buffers whose addresses have the given attribute. -/
def bufferCall (attr : Byte) : HookCall .rtn :=
  let ptr : Pointer := ⟨4096, fun _ => 65, fun _ => false, fun len => len, attr⟩
  .rtn ptr ptr

def heapCalls : List (HookCall .rtn) := [bufferCall 0, bufferCall 0]

/-- Constants of the program first, heap buffers then: the second call overwrites the attributes of
the first. -/
theorem second_call_overwrites_attr :
    let calls := [bufferCall 1, bufferCall 0]
    let es : List RtnEntry := calls.filterMap (HookCall.entry plainRuntime)
    let final := clearedSite.calls plainRuntime calls
    final.header.hits.toNat = 2 ∧
      ¬ ∀ i, i < min final.header.hits.toNat 16 →
        ∃ e, lastAt 16 es i = some e ∧ Describes (final.log i) e := by
  intro calls es final
  refine ⟨by decide, fun hall => ?_⟩
  obtain ⟨e, he, -, hattr⟩ := hall 0 (by decide)
  have hfirst : e.addrAttr = 5 := by
    have h : (lastAt 16 es 0).map RtnEntry.addrAttr = some 5 := by decide
    rw [he] at h
    exact Option.some.inj h
  have hslot : final.log 0 66 = 0 := by decide
  rw [hslot, hfirst] at hattr
  exact absurd hattr (by decide)

/-- Two calls on heap buffers leave the attributes as the cleared memory had them. -/
theorem heap_calls_describe_themselves :
    (∀ i, i < min (heapCalls.filterMap (HookCall.entry plainRuntime)).length 16 →
      ∃ e, lastAt 16 (heapCalls.filterMap (HookCall.entry plainRuntime)) i = some e ∧
        Describes ((clearedSite.calls plainRuntime heapCalls).log i) e) ∧
      (clearedSite.calls plainRuntime heapCalls).header.shape.toNat + 1 =
        maxLength (heapCalls.filterMap (HookCall.entry plainRuntime)) := by
  have hlength : (heapCalls.filterMap (HookCall.entry plainRuntime)).length = 2 := by decide
  have hlast : ∀ i < 2, (lastAt 16 (heapCalls.filterMap (HookCall.entry plainRuntime)) i).map
      RtnEntry.addrAttr = some 0 := by decide
  have hgetLast : (heapCalls.filterMap (HookCall.entry plainRuntime)).getLast?.map
      RtnEntry.addrAttr = some 0 := by decide
  have hne : heapCalls.filterMap (HookCall.entry plainRuntime) ≠ [] :=
    List.ne_nil_of_length_pos (by omega)
  have hiff := rtn_slots_describe_calls_iff plainRuntime clearedSite heapCalls (by decide) hne _
    (Or.inr rfl)
  refine hiff.mpr fun i hi e he => ?_
  rw [hlength] at hi
  have hslot := hlast i (by omega)
  rw [he] at hslot
  rw [List.getLast?_eq_some_getLast hne] at hgetLast
  rw [Option.some.inj hslot, Option.some.inj hgetLast]
  exact ite_self _

end AflPlusPlus.Cmplog
