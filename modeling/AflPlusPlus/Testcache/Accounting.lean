import AflPlusPlus.Testcache.Slots

/-!
# The total size of the cached test cases

Every insertion adds and every eviction subtracts the length of an entry, so `q_testcase_cache_size`
is exact as long as no cached entry changes its length behind it. A trim does: the two retake
functions adjust the total only in some cases, and where they shrink it they add the difference as
an unsigned 32-bit number. A custom trim that makes the test case longer is the one that is
accounted for.
-/

namespace AflPlusPlus
open Lib

namespace TestcaseCache

variable {s t : TestcaseCache} {q : ℕ}

/-- What an entry contributes to the cache. -/
def cachedLen (e : CacheEntry) : ℕ := if e.cached then e.len.toNat else 0

/-- The sum of the lengths of the cached entries. -/
def heldSize (s : TestcaseCache) : ℕ := total s.queuedItems cachedLen s.entries

structure SizeInv (s : TestcaseCache) : Prop where
  slots : SlotInv s
  items : s.queuedItems < 2 ^ 32
  exact : s.cacheSize.toNat = s.heldSize

theorem cachedLen_le (e : CacheEntry) : cachedLen e ≤ 2 ^ 32 - 1 := by
  unfold cachedLen
  split <;> omega

/-- The exact sum fits into 64 bits. -/
theorem heldSize_lt (h : s.queuedItems < 2 ^ 32) : s.heldSize < 2 ^ 64 := by
  have hsum : s.heldSize ≤ s.queuedItems * (2 ^ 32 - 1) :=
    total_le_mul fun i _ => cachedLen_le (s.entries i)
  have hprod : s.queuedItems * (2 ^ 32 - 1) ≤ (2 ^ 32 - 1) * (2 ^ 32 - 1) :=
    Nat.mul_le_mul_right _ (by omega)
  omega

theorem Fresh.sizeInv (h : s.Fresh) : SizeInv s := by
  refine ⟨h.slotInv, h.queuedItems, ?_⟩
  have hzero : s.heldSize ≤ s.queuedItems * 0 := by
    apply total_le_mul
    intro i _
    simp [cachedLen, CacheEntry.cached, h.entry i]
  rw [h.cacheSize]
  exact (Nat.le_zero.mp hzero).symm

/-- Replacing an entry changes the sum by what it contributes. -/
theorem heldSize_update {e : CacheEntry} (hq : q < s.queuedItems)
    (hitems : t.queuedItems = s.queuedItems)
    (hentries : t.entries = Function.update s.entries q e) :
    t.heldSize + cachedLen (s.entries q) = s.heldSize + cachedLen e := by
  unfold heldSize
  rw [hitems, hentries]
  exact total_update cachedLen s.entries e hq

theorem SizeInv.learnMaxEntries (h : SizeInv s) (len : U32) : SizeInv (s.learnMaxEntries len) := by
  have hframe : (s.learnMaxEntries len).cacheSize = s.cacheSize := by
    unfold TestcaseCache.learnMaxEntries
    split <;> rfl
  obtain ⟨-, hentries, hitems⟩ := learnMaxEntries_frame s len
  refine ⟨h.slots.learnMaxEntries len, by rw [hitems]; exact h.items, ?_⟩
  rw [hframe, heldSize, hentries, hitems]
  exact h.exact

theorem toNat_sub_setWidth {size : U64} {len : U32} (h : len.toNat ≤ size.toNat) :
    (size - len.setWidth 64).toNat = size.toNat - len.toNat := by
  have hlen : (len.setWidth 64).toNat = len.toNat := by
    rw [BitVec.toNat_setWidth, Nat.mod_eq_of_lt (by omega)]
  rw [BitVec.toNat_sub_of_le, hlen]
  rw [BitVec.le_def, hlen]
  exact h

theorem toNat_add_setWidth {size : U64} {len : U32} (h : size.toNat + len.toNat < 2 ^ 64) :
    (size + len.setWidth 64).toNat = size.toNat + len.toNat := by
  rw [BitVec.toNat_add, BitVec.toNat_setWidth, Nat.mod_eq_of_lt (by omega : len.toNat < 2 ^ 64),
    Nat.mod_eq_of_lt h]

theorem SizeInv.evict (h : SizeInv s) {tid : ℕ} (htid : s.cache tid ≠ none) :
    SizeInv (s.evict tid) := by
  obtain ⟨old, hold⟩ := Option.ne_none_iff_exists'.mp htid
  have hcached : cachedLen (s.entries old) = (s.entries old).len.toNat :=
    if_pos ((h.slots.held old).mpr ⟨tid, hold⟩)
  have hsum := heldSize_update (t := s.evict tid) (h.slots.queued tid old hold)
    (by rw [evict_eq hold]) (by rw [evict_eq hold])
  have hnone : cachedLen { s.entries old with testcaseBuf := none } = 0 := rfl
  have hsize : (s.evict tid).cacheSize = s.cacheSize - (s.entries old).len.setWidth 64 := by
    rw [evict_eq hold]
  have hexact := h.exact
  refine ⟨h.slots.evict htid, by rw [evict_eq hold]; exact h.items, ?_⟩
  rw [hcached, hnone] at hsum
  rw [hsize, toNat_sub_setWidth (by omega)]
  omega

theorem SizeInv.register (h : SizeInv s) {slot : ℕ} {buf : List Byte} (hq : q < s.queuedItems)
    (hnew : (s.entries q).testcaseBuf = none) (hslot : slot < s.maxCacheEntries)
    (hfree : s.cache slot = none) (hroom : s.cacheCount + 1 < s.maxCacheEntries) :
    SizeInv (s.register q slot buf) := by
  have hsum := heldSize_update (t := s.register q slot buf) hq rfl rfl
  have hzero : cachedLen (s.entries q) = 0 := by simp [cachedLen, CacheEntry.cached, hnew]
  have hlen : cachedLen { s.entries q with testcaseBuf := some buf } = (s.entries q).len.toNat :=
    rfl
  have hlt := heldSize_lt (s := s.register q slot buf) h.items
  have hexact := h.exact
  refine ⟨h.slots.register hq hnew hslot hfree hroom, h.items, ?_⟩
  rw [hzero, hlen] at hsum
  show (s.cacheSize + (s.entries q).len.setWidth 64).toNat = _
  rw [toNat_add_setWidth (by omega)]
  omega

theorem SizeInv.kept : Kept SizeInv where
  slotInv := fun _ h => h.slots
  learnMaxEntries := fun _ len h _ => h.learnMaxEntries len
  evict := fun _ _ h htid => h.evict htid
  register := fun _ _ _ _ h hq hnew hslot hfree hroom => h.register hq hnew hslot hfree hroom

/-! ### Trims -/

/-- The total is adjusted by the difference of the lengths when a cached entry gets longer. -/
theorem SizeInv.resize (h : SizeInv s) (hslots : SameSlots s t) (hq : q < s.queuedItems)
    {e : CacheEntry} (hentries : t.entries = Function.update s.entries q e)
    (hle : (s.entries q).cached = true → (s.entries q).len ≤ e.len)
    (hsize : t.cacheSize = if (s.entries q).cached then
      s.cacheSize + (e.len - (s.entries q).len).setWidth 64 else s.cacheSize) : SizeInv t := by
  have hitems : t.queuedItems = s.queuedItems := by rw [hslots.rest]
  have hsum := heldSize_update hq hitems hentries
  have hcached : e.cached = (s.entries q).cached := by
    have := hslots.cached q
    rwa [hentries, Function.update_self] at this
  have hlt := heldSize_lt (s := t) (by rw [hitems]; exact h.items)
  have hexact := h.exact
  refine ⟨h.slots.of_sameSlots hslots, by rw [hitems]; exact h.items, ?_⟩
  cases hc : (s.entries q).cached with
  | false =>
    rw [hsize, hc, if_neg Bool.false_ne_true]
    rw [cachedLen, cachedLen, hcached, hc, if_neg Bool.false_ne_true,
      if_neg Bool.false_ne_true] at hsum
    omega
  | true =>
    -- the entry got no shorter, so that the 32-bit difference is the difference of the lengths
    have hdiff : (e.len - (s.entries q).len).toNat = e.len.toNat - (s.entries q).len.toNat :=
      BitVec.toNat_sub_of_le (hle hc)
    have hle' : (s.entries q).len.toNat ≤ e.len.toNat := BitVec.le_def.mp (hle hc)
    rw [cachedLen, cachedLen, hcached, hc, if_pos rfl, if_pos rfl] at hsum
    rw [hsize, hc, if_pos rfl, toNat_add_setWidth (by omega), hdiff]
    omega

/-- Both retake functions renew the buffer of the entry, and adjust the total by the difference of
the lengths or not at all. -/
theorem queueTestcaseRetakeMem_effect (s : TestcaseCache) (q : ℕ) (input : List Byte)
    (inPlace : Bool) (len oldLen : U32) :
    ∃ e, e.len = (s.entries q).len ∧
      (s.queueTestcaseRetakeMem q input inPlace len oldLen).entries =
        Function.update s.entries q e ∧
      (s.queueTestcaseRetakeMem q input inPlace len oldLen).cacheSize =
        if (s.entries q).cached ∧ inPlace = false ∧ len + 1024 < oldLen then
          s.cacheSize + (len - oldLen).setWidth 64 else s.cacheSize := by
  unfold queueTestcaseRetakeMem
  cases hbuf : (s.entries q).testcaseBuf with
  | none =>
    refine ⟨s.entries q, rfl, (Function.update_eq_self q s.entries).symm, ?_⟩
    simp [CacheEntry.cached, hbuf]
  | some buf =>
    dsimp only
    cases inPlace with
    | true => exact ⟨s.entries q, rfl, (Function.update_eq_self q s.entries).symm, by simp⟩
    | false =>
      have hcached : (s.entries q).cached = true := by rw [CacheEntry.cached, hbuf]; rfl
      rw [if_neg Bool.false_ne_true]
      by_cases hshort : len + 1024 < oldLen
      · rw [if_pos hshort, if_pos ⟨hcached, rfl, hshort⟩]
        exact ⟨{ s.entries q with testcaseBuf := some input }, rfl, rfl, rfl⟩
      · rw [if_neg hshort, if_neg fun h => hshort h.2.2]
        exact ⟨{ s.entries q with testcaseBuf := some (overwrite input buf) }, rfl, rfl, rfl⟩

theorem queueTestcaseRetake_effect (s : TestcaseCache) (q : ℕ) (oldLen : U32) :
    ∃ e, e.len = (s.entries q).len ∧
      (s.queueTestcaseRetake q oldLen).entries = Function.update s.entries q e ∧
      (s.queueTestcaseRetake q oldLen).cacheSize =
        if (s.entries q).cached ∧
            (oldLen < (s.entries q).len ∨ (s.entries q).len + 1024 < oldLen) then
          s.cacheSize + ((s.entries q).len - oldLen).setWidth 64 else s.cacheSize := by
  unfold queueTestcaseRetake
  cases hbuf : (s.entries q).testcaseBuf with
  | none =>
    refine ⟨s.entries q, rfl, (Function.update_eq_self q s.entries).symm, ?_⟩
    simp [CacheEntry.cached, hbuf]
  | some buf =>
    have hcached : (s.entries q).cached = true := by rw [CacheEntry.cached, hbuf]; rfl
    dsimp only
    by_cases hcond : oldLen < (s.entries q).len ∨ (s.entries q).len + 1024 < oldLen
    · rw [if_pos hcond, if_pos ⟨hcached, hcond⟩]
      exact ⟨{ s.entries q with testcaseBuf := some (s.readFile q) }, rfl, rfl, rfl⟩
    · rw [if_neg hcond, if_neg fun h => hcond h.2]
      exact ⟨{ s.entries q with testcaseBuf := some (overwrite (s.readFile q) buf) }, rfl, rfl, rfl⟩

/-- The length of the trimmed test case. -/
def newLen (data : List Byte) : U32 := BitVec.ofNat 32 data.length

theorem SizeInv.trimCase (h : SizeInv s) (hq : q < s.queuedItems) {data : List Byte}
    {inPlace : Bool}
    (hlen : (s.entries q).cached = true → newLen data = (s.entries q).len) :
    SizeInv (s.trimCase q data inPlace) := by
  obtain ⟨e, he, hentries, hsize⟩ := queueTestcaseRetakeMem_effect (s.rewrite q data inPlace) q data
    inPlace (newLen data) (s.entries q).len
  have helen : e.len = newLen data := by
    rw [he]
    simp [rewrite, modify, newLen]
  have hcached := (rewrite_sameSlots s q data inPlace).cached q
  refine h.resize (trimCase_sameSlots s q data inPlace) hq (e := e) ?_ ?_ ?_
  · refine hentries.trans ?_
    simp [rewrite, modify]
  · intro hc
    rw [helen, hlen hc]
    exact BitVec.le_refl _
  · refine hsize.trans ?_
    rw [hcached, helen]
    cases hc : (s.entries q).cached with
    | false => simp [rewrite, modify]
    | true =>
      rw [hlen hc, BitVec.sub_self]
      simp [rewrite, modify]

/-- A trim of a cached entry that changes its length makes the total wrong; files are at most
`MAX_FILE` bytes long. -/
theorem SizeInv.trimCase_exact_iff (h : SizeInv s) (hq : q < s.queuedItems) {data : List Byte}
    (inPlace : Bool) (hold : (s.entries q).len.toNat ≤ 2 ^ 20) (hdata : data.length ≤ 2 ^ 20) :
    (s.trimCase q data inPlace).cacheSize.toNat = (s.trimCase q data inPlace).heldSize ↔
      ((s.entries q).cached = true → newLen data = (s.entries q).len) := by
  refine ⟨fun hexact' hc => ?_, fun hlen => (h.trimCase hq hlen).exact⟩
  obtain ⟨e, he, hentries, hsize⟩ := queueTestcaseRetakeMem_effect (s.rewrite q data inPlace) q data
    inPlace (newLen data) (s.entries q).len
  have hnew : (newLen data).toNat = data.length := by
    rw [newLen, BitVec.toNat_ofNat, Nat.mod_eq_of_lt (by omega)]
  have hcached := (trimCase_sameSlots s q data inPlace).cached q
  have hitems : (s.trimCase q data inPlace).queuedItems = s.queuedItems := by
    rw [(trimCase_sameSlots s q data inPlace).rest]
  have hentries' : (s.trimCase q data inPlace).entries = Function.update s.entries q e := by
    refine hentries.trans ?_
    simp [rewrite, modify]
  have hlen : e.len = newLen data := by
    rw [he]
    simp [rewrite, modify, newLen]
  have hsum := heldSize_update hq hitems hentries'
  rw [hentries', Function.update_self] at hcached
  rw [cachedLen, cachedLen, hcached, hc, if_pos rfl, if_pos rfl, hlen] at hsum
  have hexact := h.exact
  apply BitVec.eq_of_toNat_eq
  by_contra hne
  rw [show (s.trimCase q data inPlace).cacheSize = _ from hsize] at hexact'
  split at hexact'
  · -- The difference is added as an unsigned 32-bit number.
    rename_i hcond
    have hlt := BitVec.lt_def.mp hcond.2.2
    rw [BitVec.toNat_add, BitVec.toNat_setWidth, BitVec.toNat_sub] at hexact'
    simp only [rewrite, modify] at hexact'
    have hgap : (1024 : U32).toNat = 1024 := rfl
    rw [BitVec.toNat_add, hgap] at hlt
    omega
  · -- The total stays while the length of the entry changes.
    simp only [rewrite, modify] at hexact'
    omega

theorem SizeInv.trimCaseCustom (h : SizeInv s) (hq : q < s.queuedItems) {data : List Byte}
    (hlen : (s.entries q).cached = true → (s.entries q).len ≤ newLen data) :
    SizeInv (s.trimCaseCustom q data) := by
  obtain ⟨e, he, hentries, hsize⟩ := queueTestcaseRetake_effect (s.rewrite q data false) q
    (s.entries q).len
  have hrlen : ((s.rewrite q data false).entries q).len = newLen data := by
    simp [rewrite, modify, newLen]
  have hcached := (rewrite_sameSlots s q data false).cached q
  refine h.resize (trimCaseCustom_sameSlots s q data) hq (e := e) ?_ ?_ ?_
  · refine hentries.trans ?_
    simp [rewrite, modify]
  · intro hc
    rw [he, hrlen]
    exact hlen hc
  · refine hsize.trans ?_
    rw [hcached, he, hrlen]
    cases hc : (s.entries q).cached with
    | false => simp [rewrite, modify]
    | true =>
      by_cases hlt : (s.entries q).len < newLen data
      · simp [rewrite, modify, hlt]
      · have heq : (s.entries q).len = newLen data :=
          BitVec.le_antisymm (hlen hc) (BitVec.not_lt.mp hlt)
        rw [← heq, BitVec.sub_self]
        simp [rewrite, modify]

end TestcaseCache

open TestcaseCache

/-- The condition on an operation under which the total stays exact: what is stored was not cached,
and a trim of a cached entry keeps its length or, with a custom trim, makes it longer. -/
def Accounted (s : TestcaseCache) : CacheOp → Prop
  | .storeMem q _ => (s.entries q).cached = false
  | .trim q data _ => (s.entries q).cached = true → newLen data = (s.entries q).len
  | .customTrim q data => (s.entries q).cached = true → (s.entries q).len ≤ newLen data
  | _ => True

instance (s : TestcaseCache) : (op : CacheOp) → Decidable (Accounted s op)
  | .storeMem q _ => inferInstanceAs (Decidable ((s.entries q).cached = false))
  | .trim q data _ => inferInstanceAs (Decidable (_ → newLen data = (s.entries q).len))
  | .customTrim q data => inferInstanceAs (Decidable (_ → (s.entries q).len ≤ newLen data))
  | .select _ | .reweigh _ _ | .get _ _ => .isTrue trivial

section Runs

variable {s t s₀ : TestcaseCache} {op : CacheOp}

theorem Accounted.storesNew (h : Accounted s op) : StoresNew s op := by
  cases op <;> first | exact h | trivial

theorem TestcaseCache.SizeInv.step (h : SizeInv s) (hok : Accounted s op)
    (hstep : cacheStep s op = some t) : SizeInv t := by
  refine SizeInv.kept.cacheStep h hok.storesNew (fun hlocal u hu => ?_) hstep
  rw [cacheStep, Option.ite_none_right_eq_some] at hstep
  have hslots := hlocal.sameSlots hu
  cases op with
  | select q =>
    cases hu
    exact ⟨h.slots.of_sameSlots hslots, h.items, h.exact⟩
  | reweigh q belowAverage =>
    cases hu
    refine h.resize hslots (hstep.1 q rfl) (e := { s.entries q with belowAverage }) rfl
      (fun _ => BitVec.le_refl _) ?_
    simp [modify]
  | get q draws => exact hlocal.elim
  | storeMem q mem => exact hlocal.elim
  | trim q data inPlace =>
    cases hu
    exact h.trimCase (hstep.1 q rfl) hok
  | customTrim q data =>
    cases hu
    exact h.trimCaseCustom (hstep.1 q rfl) hok

/-- The total size is the exact sum of the lengths of the cached entries in every state that is
reached from an empty cache by operations that meet the condition. -/
theorem cacheSize_eq_heldSize (h0 : s₀.Fresh) (hrun : Reaches cacheStep Accounted s₀ s) :
    s.cacheSize.toNat = s.heldSize :=
  (hrun.invariant h0.sizeInv fun _ _ _ h hok hstep => h.step hok hstep).exact

end Runs

/-- Two files are cached, one of them is made longer by a custom trim, and a third evicts the
other. -/
def growAndEvict : List CacheOp :=
  [.get 0 [], .storeMem 1 [5, 6, 7, 8], .customTrim 0 [1, 2, 3, 4, 5, 6], .select (some 0),
    .get 2 [[0, 1]]]

theorem cacheSize_eq_heldSize_after_eviction :
    ∃ s, exec cacheStep Accounted (.init [[1, 2, 3, 4], [5, 6, 7, 8], [9, 9]] 12 8) growAndEvict =
        some s ∧
      s.evictions = 1 ∧ s.cacheSize = 8 ∧ s.cacheSize.toNat = s.heldSize := by
  have hsome : (exec cacheStep Accounted (.init [[1, 2, 3, 4], [5, 6, 7, 8], [9, 9]] 12 8)
      growAndEvict).any (fun s => s.evictions = 1 ∧ s.cacheSize = 8) = true := by
    decide +kernel
  obtain ⟨s, hs, hprop⟩ := (Option.any_eq_true _ _).mp hsome
  obtain ⟨hev, hsize⟩ := of_decide_eq_true hprop
  exact ⟨s, hs, hev, hsize, cacheSize_eq_heldSize
    (TestcaseCache.init_fresh 12 (by decide) (by decide)) (reaches_of_exec .refl hs)⟩

/-- A cached file of eight bytes is trimmed in place to four: the total still says eight. -/
theorem trim_in_place_keeps_cacheSize :
    ∃ s, exec cacheStep StoresNew (.init [[1, 2, 3, 4, 5, 6, 7, 8]] 52428800 65536)
        [.get 0 [], .trim 0 [1, 2, 3, 4] true] = some s ∧
      s.cacheSize = 8 ∧ s.heldSize = 4 ∧ s.cacheSize.toNat ≠ s.heldSize := by
  have hsome : (exec cacheStep StoresNew (.init [[1, 2, 3, 4, 5, 6, 7, 8]] 52428800 65536)
      [.get 0 [], .trim 0 [1, 2, 3, 4] true]).any (fun s => s.cacheSize = 8 ∧ s.heldSize = 4) =
        true := by
    decide +kernel
  obtain ⟨s, hs, hprop⟩ := (Option.any_eq_true _ _).mp hsome
  obtain ⟨hsize, hheld⟩ := of_decide_eq_true hprop
  refine ⟨s, hs, hsize, hheld, ?_⟩
  rw [hsize, hheld]
  decide

end AflPlusPlus
