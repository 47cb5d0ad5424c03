import AflPlusPlus.Testcache.Cache

/-!
# The slots of the test-case cache

One joint invariant over the counters and the slots. It rules out that the search for a free slot
leaves the array, and with at least three allowed entries it provides a victim whenever the loop
that evicts runs.
-/

namespace AflPlusPlus
open Lib

namespace TestcaseCache

variable {s t u : TestcaseCache} {q : ℕ} {len : U32}

/-- An allocated cache before the first call. -/
structure Fresh (s : TestcaseCache) : Prop where
  entry : ∀ q, (s.entries q).testcaseBuf = none
  queuedItems : s.queuedItems < 2 ^ 32
  maxCacheEntries : 0 < s.maxCacheEntries
  allocated : s.allocated = s.maxCacheEntries
  cacheSize : s.cacheSize = 0
  maxCacheCount : s.maxCacheCount = 0
  cacheCount : s.cacheCount = 0
  smallestFree : s.smallestFree = 0
  cache : ∀ i, s.cache i = none
  doOnce : s.doOnce = false

structure SlotInv (s : TestcaseCache) : Prop where
  count : s.cacheCount = occupied s.allocated s.cache
  below : ∀ i, i < s.smallestFree → s.cache i ≠ none
  beyond : ∀ i, s.maxCacheCount ≤ i → s.cache i = none
  distinct : SlotsDistinct s.cache
  held : ∀ q, (s.entries q).cached = true ↔ ∃ i, s.cache i = some q
  queued : ∀ i q, s.cache i = some q → q < s.queuedItems
  count_lt : s.cacheCount < s.maxCacheEntries
  maxCount_le : s.maxCacheCount ≤ s.maxCacheEntries
  entries_le : s.maxCacheEntries ≤ s.allocated

theorem Fresh.slotInv (h : s.Fresh) : SlotInv s where
  count := by
    rw [h.cacheCount, occupied_of_le (m := 0) (fun i _ => h.cache i) (Nat.zero_le _)]
    exact (Nat.le_zero.mp (occupied_le 0 _)).symm
  below := fun i hi => by
    rw [h.smallestFree] at hi
    exact absurd hi (Nat.not_lt_zero i)
  beyond := fun i _ => h.cache i
  distinct := fun i j a hi => by
    rw [h.cache] at hi
    cases hi
  held := fun q => by simp [CacheEntry.cached, h.entry, h.cache]
  queued := fun i q hi => by
    rw [h.cache] at hi
    cases hi
  count_lt := by rw [h.cacheCount]; exact h.maxCacheEntries
  maxCount_le := by rw [h.maxCacheCount]; exact Nat.zero_le _
  entries_le := h.allocated.ge

theorem SlotInv.lt_maxCount (h : SlotInv s) {i : ℕ} (hi : s.cache i ≠ none) :
    i < s.maxCacheCount := by
  by_contra hle
  exact hi (h.beyond i (Nat.le_of_not_lt hle))

theorem SlotInv.count_le_maxCount (h : SlotInv s) : s.cacheCount ≤ s.maxCacheCount := by
  have hle : s.maxCacheCount ≤ s.allocated := h.maxCount_le.trans h.entries_le
  rw [h.count, occupied_of_le h.beyond hle]
  exact occupied_le _ _

/-! ### The pieces of a call -/

/-- The learned limit is one more than the highest number of slots ever in use. -/
theorem SlotInv.learnMaxEntries_eq (h : SlotInv s) (len : U32) :
    s.learnMaxEntries len = s ∨ (s.overSize len ∧ s.maxCacheCount < s.maxCacheEntries ∧
      s.learnMaxEntries len = { s with
        maxCacheEntries := s.maxCacheCount + 1, doOnce := true, allocated :=
          s.maxCacheCount + 2 }) := by
  unfold learnMaxEntries
  split
  · rename_i hcond
    refine .inr ⟨hcond.1, hcond.2.1.2, ?_⟩
    have hle := h.count_le_maxCount
    have hn : (if s.cacheCount < s.maxCacheCount then s.maxCacheCount + 1 else s.cacheCount + 1) =
        s.maxCacheCount + 1 := by
      split <;> omega
    simp only [hn]
  · exact .inl rfl

theorem SlotInv.learnMaxEntries (h : SlotInv s) (len : U32) : SlotInv (s.learnMaxEntries len) := by
  obtain heq | ⟨-, -, heq⟩ := h.learnMaxEntries_eq len
  · rwa [heq]
  · have hle := h.count_le_maxCount
    have hall : s.maxCacheCount ≤ s.allocated := h.maxCount_le.trans h.entries_le
    rw [heq]
    refine ⟨?_, h.below, h.beyond, h.distinct, h.held, h.queued, ?_, ?_, ?_⟩
    · show s.cacheCount = occupied (s.maxCacheCount + 2) s.cache
      rw [h.count, occupied_of_le h.beyond hall]
      exact (occupied_of_le h.beyond (Nat.le_add_right _ 2)).symm
    · show s.cacheCount < s.maxCacheCount + 1
      omega
    · show s.maxCacheCount ≤ s.maxCacheCount + 1
      omega
    · show s.maxCacheCount + 1 ≤ s.maxCacheCount + 2
      omega

theorem evict_eq {tid old : ℕ} (h : s.cache tid = some old) :
    s.evict tid =
      { s with
        entries := Function.update s.entries old { s.entries old with testcaseBuf := none }
        cacheSize := s.cacheSize - (s.entries old).len.setWidth 64
        cache := Function.update s.cache tid none
        cacheCount := s.cacheCount - 1
        evictions := s.evictions + 1
        smallestFree := if tid < s.smallestFree then tid else s.smallestFree } := by
  rw [evict, h]

theorem SlotInv.evict (h : SlotInv s) {tid : ℕ} (htid : s.cache tid ≠ none) :
    SlotInv (s.evict tid) := by
  obtain ⟨old, hold⟩ := Option.ne_none_iff_exists'.mp htid
  have hlt := h.lt_maxCount htid
  have hall : tid < s.allocated := hlt.trans_le (h.maxCount_le.trans h.entries_le)
  have hcount := occupied_clear hall hold
  have hlt' := h.count_lt
  rw [evict_eq hold]
  refine ⟨?_, fun i hi => ?_, fun i hi => ?_, h.distinct.clear, fun p => ?_, fun i p hp => ?_, ?_,
    h.maxCount_le, h.entries_le⟩
  · show s.cacheCount - 1 = occupied s.allocated (Function.update s.cache tid none)
    rw [h.count]
    omega
  · -- The freed slot is never below the smallest free one.
    replace hi : i < if tid < s.smallestFree then tid else s.smallestFree := hi
    have hne : i ≠ tid := by split at hi <;> omega
    show Function.update s.cache tid none i ≠ none
    rw [Function.update_of_ne hne]
    exact h.below i (by split at hi <;> omega)
  · show Function.update s.cache tid none i = none
    by_cases hi' : i = tid
    · rw [hi', Function.update_self]
    · rw [Function.update_of_ne hi']
      exact h.beyond i hi
  · show (Function.update s.entries old _ p).cached = true ↔
      ∃ i, Function.update s.cache tid none i = some p
    rw [h.distinct.exists_slot_clear hold, ← h.held]
    by_cases hp : p = old
    · simp [hp, CacheEntry.cached]
    · rw [Function.update_of_ne hp]
      simp [hp]
  · exact h.queued i p (clear_eq_some hp)
  · show s.cacheCount - 1 < s.maxCacheEntries
    omega

theorem SlotInv.register (h : SlotInv s) {tid : ℕ} {buf : List Byte}
    (hq : q < s.queuedItems) (hnew : (s.entries q).testcaseBuf = none)
    (htid : tid < s.maxCacheEntries) (hfree : s.cache tid = none)
    (hroom : s.cacheCount + 1 < s.maxCacheEntries) : SlotInv (s.register q tid buf) := by
  have hnot : ∀ i, s.cache i ≠ some q := by
    intro i hi
    have := (h.held q).mpr ⟨i, hi⟩
    rw [CacheEntry.cached, hnew] at this
    cases this
  refine ⟨?_, fun i hi => ?_, fun i hi => ?_, h.distinct.fill hnot, fun p => ?_, fun i p hp => ?_,
    hroom, ?_, h.entries_le⟩
  · show s.cacheCount + 1 = occupied s.allocated (Function.update s.cache tid (some q))
    rw [occupied_fill (htid.trans_le h.entries_le) hfree, h.count]
  · show Function.update s.cache tid (some q) i ≠ none
    by_cases hi' : i = tid
    · rw [hi', Function.update_self]
      exact Option.some_ne_none q
    · rw [Function.update_of_ne hi']
      apply h.below i
      -- `smallest_free` moves only when the slot itself has just been filled.
      have hi : i < if s.maxCacheCount ≤ tid then s.smallestFree
        else if tid = s.smallestFree then tid + 1 else s.smallestFree := hi
      split at hi
      · exact hi
      · split at hi <;> omega
  · have hi : (if s.maxCacheCount ≤ tid then tid + 1 else s.maxCacheCount) ≤ i := hi
    show Function.update s.cache tid (some q) i = none
    have hne : i ≠ tid := by split at hi <;> omega
    rw [Function.update_of_ne hne]
    exact h.beyond i (by split at hi <;> omega)
  · show (Function.update s.entries q _ p).cached = true ↔
      ∃ i, Function.update s.cache tid (some q) i = some p
    rw [exists_slot_fill hfree, ← h.held]
    by_cases hp : p = q
    · simp [hp, CacheEntry.cached]
    · rw [Function.update_of_ne hp]
      simp [hp]
  · obtain ⟨-, rfl⟩ | ⟨-, hold⟩ := fill_eq_some hp
    · exact hq
    · exact h.queued i p hold
  · show (if s.maxCacheCount ≤ tid then tid + 1 else s.maxCacheCount) ≤ s.maxCacheEntries
    split
    · exact htid
    · exact h.maxCount_le

/-! ### Whole calls -/

/-- `P` survives the pieces that the calls are made of. -/
structure Kept (P : TestcaseCache → Prop) : Prop where
  slotInv : ∀ s, P s → SlotInv s
  learnMaxEntries : ∀ s len, P s → s.full len → P (s.learnMaxEntries len)
  evict : ∀ s tid, P s → s.cache tid ≠ none → P (s.evict tid)
  register : ∀ s q slot buf, P s → q < s.queuedItems → (s.entries q).testcaseBuf = none →
    slot < s.maxCacheEntries → s.cache slot = none → s.cacheCount + 1 < s.maxCacheEntries →
    P (s.register q slot buf)

/-- A cache into which entry `q` can be registered once a slot is found from `tid` on. -/
structure Ready (P : TestcaseCache → Prop) (q tid : ℕ) (s : TestcaseCache) : Prop where
  kept : P s
  free : s.cache tid = none
  queued : q < s.queuedItems
  uncached : (s.entries q).testcaseBuf = none

theorem pickVictim_evictable {draws : List ℕ} {victim : ℕ} (h : s.pickVictim draws = some victim) :
    s.Evictable victim := by
  unfold pickVictim at h
  simpa using List.find?_some h

theorem learnMaxEntries_frame (s : TestcaseCache) (len : U32) :
    (s.learnMaxEntries len).cache = s.cache ∧ (s.learnMaxEntries len).entries = s.entries ∧
      (s.learnMaxEntries len).queuedItems = s.queuedItems := by
  unfold learnMaxEntries
  split <;> exact ⟨rfl, rfl, rfl⟩

/-- Eviction frees the slot and makes no entry cached. -/
theorem evict_frees {victim : ℕ} (h : s.cache victim ≠ none) :
    (s.evict victim).cache victim = none ∧ (s.evict victim).queuedItems = s.queuedItems ∧
      ∀ q, (s.entries q).testcaseBuf = none → ((s.evict victim).entries q).testcaseBuf = none := by
  obtain ⟨old, hold⟩ := Option.ne_none_iff_exists'.mp h
  rw [evict_eq hold]
  refine ⟨Function.update_self _ _ _, rfl, fun q hq => ?_⟩
  show (Function.update s.entries old _ q).testcaseBuf = none
  by_cases hqo : q = old
  · rw [hqo, Function.update_self]
  · rwa [Function.update_of_ne hqo]

section Calls

variable {P : TestcaseCache → Prop}

theorem Ready.evict (hk : Kept P) {tid victim : ℕ} (h : Ready P q tid s) (hfull : s.full len)
    (hv : (s.learnMaxEntries len).cache victim ≠ none) :
    Ready P q victim ((s.learnMaxEntries len).evict victim) := by
  obtain ⟨-, hentries, hitems⟩ := learnMaxEntries_frame s len
  obtain ⟨hfree, hitems', hun⟩ := evict_frees hv
  refine ⟨hk.evict _ _ (hk.learnMaxEntries s len h.kept hfull) hv, hfree, ?_, hun q ?_⟩
  · rw [hitems', hitems]
    exact h.queued
  · rw [hentries]
    exact h.uncached

theorem Ready.evictLoop (hk : Kept P) {draws : List (List ℕ)} {tid tid' : ℕ} (h : Ready P q tid s)
    (hloop : evictLoop len draws s tid = some (t, tid')) : Ready P q tid' t ∧ ¬ t.full len := by
  induction draws generalizing s tid with
  | nil =>
    rw [TestcaseCache.evictLoop] at hloop
    split at hloop
    · cases hloop
    · rename_i hnot
      cases hloop
      exact ⟨h, hnot⟩
  | cons ds draws ih =>
    rw [TestcaseCache.evictLoop] at hloop
    split at hloop
    · rename_i hfull
      obtain ⟨victim, hpick, hrest⟩ := Option.bind_eq_some_iff.mp hloop
      exact ih (h.evict hk hfull (pickVictim_evictable hpick).1) hrest
    · rename_i hnot
      cases hloop
      exact ⟨h, hnot⟩

/-- The search for a slot ends below the number of allowed entries, hence inside the array. -/
theorem Ready.place (hk : Kept P) {tid : ℕ} (h : Ready P q tid s)
    (hroom : s.cacheCount + 1 < s.maxCacheEntries) (buf : List Byte) :
    ∃ u, s.place q (if s.maxCacheEntries ≤ tid then s.smallestFree else tid) buf = .ok u ∧ P u := by
  have hinv := hk.slotInv s h.kept
  have hexists : ∃ j, (if s.maxCacheEntries ≤ tid then s.smallestFree else tid) ≤ j ∧
      j < s.maxCacheEntries ∧ s.cache j = none := by
    split
    · -- All allowed slots have been in use; one of them is free again.
      have hocc : occupied s.maxCacheEntries s.cache < s.maxCacheEntries := by
        rw [occupied_of_le hinv.beyond hinv.maxCount_le,
          ← occupied_of_le hinv.beyond (hinv.maxCount_le.trans hinv.entries_le), ← hinv.count]
        exact hinv.count_lt
      obtain ⟨j, hj, hfree⟩ := exists_free hocc
      refine ⟨j, ?_, hj, hfree⟩
      by_contra hlt
      exact hinv.below j (Nat.lt_of_not_le hlt) hfree
    · rename_i hlt
      exact ⟨tid, le_rfl, Nat.lt_of_not_le hlt, h.free⟩
  generalize (if s.maxCacheEntries ≤ tid then s.smallestFree else tid) = start at hexists ⊢
  obtain ⟨j, hle, hj, hfree⟩ := hexists
  have hbound : j < start + (s.allocated - start) := by
    have hall := hinv.entries_le
    omega
  obtain ⟨slot, hslot, -, hslotj, hslotfree⟩ := firstFree_spec hle hbound hfree
  refine ⟨s.register q slot buf, ?_, hk.register s q slot buf h.kept h.queued h.uncached (by omega)
    hslotfree hroom⟩
  rw [TestcaseCache.place, hslot]

theorem room_of_not_full (h : ¬ s.full len) : s.cacheCount + 1 < s.maxCacheEntries := by
  unfold full at h
  omega

theorem Ready.start (hk : Kept P) (h : P s) (hq : q < s.queuedItems)
    (hnew : (s.entries q).testcaseBuf = none) : Ready P q s.maxCacheCount s :=
  ⟨h, (hk.slotInv s h).beyond _ le_rfl, hq, hnew⟩

/-- `queue_testcase_get` never reads beyond the array, and keeps what its pieces keep. It has no
result only while the loop that evicts goes on. -/
theorem Kept.queueTestcaseGet (hk : Kept P) (h : P s) (hq : q < s.queuedItems)
    (draws : List (List ℕ)) :
    (s.queueTestcaseGet q draws = .error .unfinished ∧
        evictLoop (s.entries q).len draws s s.maxCacheCount = none) ∨
      ∃ data u, s.queueTestcaseGet q draws = .ok (data, u) ∧ P u := by
  unfold TestcaseCache.queueTestcaseGet
  cases hbuf : (s.entries q).testcaseBuf with
  | some buf => exact .inr ⟨buf, s, rfl, h⟩
  | none =>
    dsimp only
    split
    · exact .inr ⟨_, s, rfl, h⟩
    · cases hloop : evictLoop (s.entries q).len draws s s.maxCacheCount with
      | none => exact .inl ⟨rfl, rfl⟩
      | some r =>
        obtain ⟨t, tid⟩ := r
        obtain ⟨hready, hnot⟩ := (Ready.start hk h hq hbuf).evictLoop hk hloop
        obtain ⟨u, hu, hPu⟩ := hready.place hk (room_of_not_full hnot) (s.readFile q)
        refine .inr ⟨s.readFile q, u, ?_, hPu⟩
        dsimp only
        rw [hu]
        rfl

theorem Kept.queueTestcaseStoreMem (hk : Kept P) (h : P s) (hq : q < s.queuedItems)
    (hnew : (s.entries q).testcaseBuf = none) (mem : List Byte) :
    ∃ u, s.queueTestcaseStoreMem q mem = .ok u ∧ P u := by
  unfold TestcaseCache.queueTestcaseStoreMem
  split
  · exact ⟨s, rfl, h⟩
  · rename_i hroom
    rw [not_or, not_or] at hroom
    exact (Ready.start hk h hq hnew).place hk (by omega) _

end Calls

/-! ### Operations that move no entry -/

/-- `t` differs from `s` in the contents of entries, the total size and the current entry at
most. -/
structure SameSlots (s t : TestcaseCache) : Prop where
  rest : t = { s with entries := t.entries, cacheSize := t.cacheSize, queueCur := t.queueCur }
  cached : ∀ q, (t.entries q).cached = (s.entries q).cached

theorem SameSlots.trans (h : SameSlots s t) (h' : SameSlots t u) : SameSlots s u :=
  ⟨by rw [h'.rest, h.rest], fun q => (h'.cached q).trans (h.cached q)⟩

theorem SlotInv.of_sameSlots (h : SlotInv s) (hs : SameSlots s t) : SlotInv t := by
  have hheld : ∀ q, (t.entries q).cached = true ↔ ∃ i, s.cache i = some q := by
    intro q
    rw [hs.cached]
    exact h.held q
  rw [hs.rest]
  exact ⟨h.count, h.below, h.beyond, h.distinct, hheld, h.queued, h.count_lt, h.maxCount_le,
    h.entries_le⟩

theorem sameSlots_update {e : CacheEntry} {size : U64} (he : e.cached = (s.entries q).cached) :
    SameSlots s { s with entries := Function.update s.entries q e, cacheSize := size } := by
  refine ⟨rfl, fun p => ?_⟩
  by_cases hp : p = q
  · rw [hp]
    simpa using he
  · simp [Function.update_of_ne hp]

theorem rewrite_sameSlots (s : TestcaseCache) (q : ℕ) (data : List Byte) (inPlace : Bool) :
    SameSlots s (s.rewrite q data inPlace) := by
  apply sameSlots_update
  cases inPlace
  · rfl
  · exact Option.isSome_map

theorem queueTestcaseRetake_sameSlots (s : TestcaseCache) (q : ℕ) (oldLen : U32) :
    SameSlots s (s.queueTestcaseRetake q oldLen) := by
  unfold queueTestcaseRetake
  cases hbuf : (s.entries q).testcaseBuf with
  | none => exact ⟨rfl, fun _ => rfl⟩
  | some buf =>
    have hcached : (s.entries q).cached = true := by rw [CacheEntry.cached, hbuf]; rfl
    dsimp only
    split
    · exact sameSlots_update hcached.symm
    · exact sameSlots_update hcached.symm

theorem queueTestcaseRetakeMem_sameSlots (s : TestcaseCache) (q : ℕ) (input : List Byte)
    (inPlace : Bool) (len oldLen : U32) :
    SameSlots s (s.queueTestcaseRetakeMem q input inPlace len oldLen) := by
  unfold queueTestcaseRetakeMem
  cases hbuf : (s.entries q).testcaseBuf with
  | none => exact ⟨rfl, fun _ => rfl⟩
  | some buf =>
    have hcached : (s.entries q).cached = true := by rw [CacheEntry.cached, hbuf]; rfl
    dsimp only
    split
    · exact ⟨rfl, fun _ => rfl⟩
    · split
      · exact sameSlots_update hcached.symm
      · exact sameSlots_update hcached.symm

theorem trimCase_sameSlots (s : TestcaseCache) (q : ℕ) (data : List Byte) (inPlace : Bool) :
    SameSlots s (s.trimCase q data inPlace) :=
  (rewrite_sameSlots s q data inPlace).trans (queueTestcaseRetakeMem_sameSlots _ _ _ _ _ _)

theorem trimCaseCustom_sameSlots (s : TestcaseCache) (q : ℕ) (data : List Byte) :
    SameSlots s (s.trimCaseCustom q data) :=
  (rewrite_sameSlots s q data false).trans (queueTestcaseRetake_sameSlots _ _ _)

end TestcaseCache

open TestcaseCache

/-- `queue_testcase_store_mem` is called for an entry that is not cached, as its only caller does
with the entry it has just added. -/
def StoresNew (s : TestcaseCache) : CacheOp → Prop
  | .storeMem q _ => (s.entries q).cached = false
  | _ => True

instance (s : TestcaseCache) : (op : CacheOp) → Decidable (StoresNew s op)
  | .storeMem q _ => inferInstanceAs (Decidable ((s.entries q).cached = false))
  | .select _ | .reweigh _ _ | .get _ _ | .trim _ _ _ | .customTrim _ _ => .isTrue trivial

/-- The operations that leave the slots alone. -/
def CacheOp.Local : CacheOp → Prop
  | .get _ _ | .storeMem _ _ => False
  | _ => True

section Runs

variable {s t u s₀ : TestcaseCache} {op : CacheOp} {len : U32}

theorem CacheOp.Local.sameSlots (h : op.Local) (hrun : op.run s = some t) : SameSlots s t := by
  cases op with
  | select q =>
    cases hrun
    exact ⟨rfl, fun _ => rfl⟩
  | reweigh q belowAverage =>
    cases hrun
    exact sameSlots_update rfl
  | get q draws => exact h.elim
  | storeMem q mem => exact h.elim
  | trim q data inPlace =>
    cases hrun
    exact trimCase_sameSlots s q data inPlace
  | customTrim q data =>
    cases hrun
    exact trimCaseCustom_sameSlots s q data

/-- What the pieces of the calls and the local operations keep is kept by every step. -/
theorem TestcaseCache.Kept.cacheStep {P : TestcaseCache → Prop} (hk : Kept P) (h : P s)
    (hnew : StoresNew s op) (hlocal : op.Local → ∀ t, op.run s = some t → P t)
    (hstep : cacheStep s op = some t) : P t := by
  rw [AflPlusPlus.cacheStep, Option.ite_none_right_eq_some] at hstep
  obtain ⟨hq, hrun⟩ := hstep
  cases op with
  | get q draws =>
    obtain ⟨hun, -⟩ | ⟨data, v, hok, hv⟩ := hk.queueTestcaseGet h (hq q rfl) draws
    · simp [CacheOp.run, hun, Except.toOption] at hrun
    · obtain rfl : v = t := by simpa [CacheOp.run, hok, Except.toOption] using hrun
      exact hv
  | storeMem q mem =>
    have hnone : (s.entries q).testcaseBuf = none := by
      simpa [StoresNew, CacheEntry.cached] using hnew
    obtain ⟨v, hok, hv⟩ := hk.queueTestcaseStoreMem h (hq q rfl) hnone mem
    obtain rfl : v = t := by simpa [CacheOp.run, hok, Except.toOption] using hrun
    exact hv
  | select q => exact hlocal trivial t hrun
  | reweigh q belowAverage => exact hlocal trivial t hrun
  | trim q data inPlace => exact hlocal trivial t hrun
  | customTrim q data => exact hlocal trivial t hrun

/-! ### Victims -/

/-- The invariant with at least three allowed entries. -/
def VictimInv (s : TestcaseCache) : Prop := SlotInv s ∧ 3 ≤ s.maxCacheEntries

theorem VictimInv.two_le_count (h : VictimInv s) (hfull : s.full len) : 2 ≤ s.cacheCount := by
  have h3 := h.2
  unfold full at hfull
  omega

theorem VictimInv.learnMaxEntries (h : VictimInv s) (hfull : s.full len) :
    VictimInv (s.learnMaxEntries len) := by
  refine ⟨h.1.learnMaxEntries len, ?_⟩
  obtain heq | ⟨-, -, heq⟩ := h.1.learnMaxEntries_eq len
  · rw [heq]
    exact h.2
  · -- The cache was filled by size, so two slots at least have been in use.
    have htwo := h.two_le_count hfull
    have hle := h.1.count_le_maxCount
    rw [heq]
    show 3 ≤ s.maxCacheCount + 1
    omega

theorem evict_maxCacheEntries (s : TestcaseCache) (tid : ℕ) :
    (s.evict tid).maxCacheEntries = s.maxCacheEntries := by
  unfold evict
  split <;> rfl

theorem VictimInv.kept : Kept VictimInv where
  slotInv := fun _ h => h.1
  learnMaxEntries := fun _ _ h hfull => h.learnMaxEntries hfull
  evict := fun s tid h htid => ⟨h.1.evict htid, by rw [evict_maxCacheEntries]; exact h.2⟩
  register := fun _ _ _ _ h hq hnew hslot hfree hroom =>
    ⟨h.1.register hq hnew hslot hfree hroom, h.2⟩

theorem VictimInv.reaches (h : VictimInv s₀) (hrun : Reaches cacheStep StoresNew s₀ s) :
    VictimInv s := by
  refine hrun.invariant h fun t op u ht hnew hstep => ?_
  refine VictimInv.kept.cacheStep ht hnew (fun hop v hv => ?_) hstep
  have hs := hop.sameSlots hv
  refine ⟨ht.1.of_sameSlots hs, ?_⟩
  rw [hs.rest]
  exact ht.2

theorem learnMaxEntries_cacheCount (s : TestcaseCache) (len : U32) :
    (s.learnMaxEntries len).cacheCount = s.cacheCount := by
  unfold learnMaxEntries
  split <;> rfl

theorem VictimInv.exists_victim (h : VictimInv s) (hfull : s.full len) :
    ∃ tid, tid < (s.learnMaxEntries len).maxCacheCount ∧ (s.learnMaxEntries len).Evictable tid := by
  have h' := h.learnMaxEntries hfull
  have htwo : 2 ≤ occupied (s.learnMaxEntries len).allocated (s.learnMaxEntries len).cache := by
    rw [← h'.1.count, learnMaxEntries_cacheCount]
    exact h.two_le_count hfull
  obtain ⟨tid, -, hocc, hne⟩ :=
    exists_occupied_ne h'.1.distinct htwo (s.learnMaxEntries len).queueCur
  exact ⟨tid, h'.1.lt_maxCount hocc, hocc, hne⟩

theorem pickVictim_singleton {tid : ℕ} (hlt : tid < s.maxCacheCount) (h : s.Evictable tid) :
    s.pickVictim [tid] = some tid := by
  simp [pickVictim, randBelow_of_lt hlt, h]

/-- With the right draws the loop that evicts ends: every victim makes the cache smaller. -/
theorem VictimInv.evictLoop_returns (h : VictimInv s) (len : U32) (tid : ℕ) :
    ∃ draws r, evictLoop len draws s tid = some r := by
  induction hn : s.cacheCount using Nat.strong_induction_on generalizing s tid with
  | h n ih =>
    by_cases hfull : s.full len
    · obtain ⟨victim, hlt, hv⟩ := h.exists_victim hfull
      have h' := VictimInv.kept.evict _ _ (h.learnMaxEntries hfull) hv.1
      have hcount : ((s.learnMaxEntries len).evict victim).cacheCount = s.cacheCount - 1 := by
        obtain ⟨old, hold⟩ := Option.ne_none_iff_exists'.mp hv.1
        rw [evict_eq hold, ← learnMaxEntries_cacheCount s len]
      have htwo := h.two_le_count hfull
      obtain ⟨draws, r, hr⟩ := ih (s.cacheCount - 1) (by omega) h' victim hcount
      refine ⟨[victim] :: draws, r, ?_⟩
      rw [evictLoop, if_pos hfull, pickVictim_singleton hlt hv, Option.bind_some]
      exact hr
    · exact ⟨[], (s, tid), by rw [evictLoop, if_neg hfull]⟩

theorem VictimInv.queueTestcaseGet_returns (h : VictimInv s) {q : ℕ} (hq : q < s.queuedItems) :
    ∃ draws data u, s.queueTestcaseGet q draws = .ok (data, u) := by
  obtain ⟨draws, r, hr⟩ := h.evictLoop_returns (s.entries q).len s.maxCacheCount
  refine ⟨draws, ?_⟩
  obtain ⟨-, hnone⟩ | ⟨data, u, hok, -⟩ := VictimInv.kept.queueTestcaseGet h hq draws
  · rw [hr] at hnone
    cases hnone
  · exact ⟨data, u, hok⟩

/-- `t` is a state in which `queue_testcase_get`, called in state `s` with an entry of length `len`,
looks for a victim. -/
inductive Evicting (len : U32) : TestcaseCache → TestcaseCache → Prop
  | first {s : TestcaseCache} : s.full len → Evicting len s (s.learnMaxEntries len)
  | next {s t : TestcaseCache} {tid : ℕ} : s.full len → (s.learnMaxEntries len).Evictable tid →
      Evicting len ((s.learnMaxEntries len).evict tid) t → Evicting len s t

theorem Evicting.exists_victim (he : Evicting len s t) (h : VictimInv s) :
    ∃ tid, tid < t.maxCacheCount ∧ t.Evictable tid := by
  induction he with
  | first hfull => exact h.exists_victim hfull
  | next hfull htid _ ih =>
    exact ih (VictimInv.kept.evict _ _ (h.learnMaxEntries hfull) htid.1)

/-- The slots in every state that is reached from an empty cache with at least three allowed
entries, for all random choices: the counters describe the slots, an entry is cached exactly when it
has one slot, the search for a free slot stays inside the array, and there is a victim whenever one
is looked for. -/
theorem cacheSlots_wellFormed (h0 : s₀.Fresh) (h3 : 3 ≤ s₀.maxCacheEntries)
    (hrun : Reaches cacheStep StoresNew s₀ s) :
    s.cacheCount = occupied s.allocated s.cache ∧
      (∀ i, i < s.smallestFree → s.cache i ≠ none) ∧
      (∀ q, (s.entries q).cached = true ↔ ∃! i, i < s.allocated ∧ s.cache i = some q) ∧
      (∀ q, q < s.queuedItems → ∀ draws, s.queueTestcaseGet q draws ≠ .error .outOfRange) ∧
      (∀ q, q < s.queuedItems → (s.entries q).cached = false →
        ∀ mem, s.queueTestcaseStoreMem q mem ≠ .error .outOfRange) ∧
      (∀ len t, Evicting len s t → ∃ tid, tid < t.maxCacheCount ∧ t.Evictable tid) ∧
      (∀ q, q < s.queuedItems → ∃ draws r, s.queueTestcaseGet q draws = .ok r) := by
  have h : VictimInv s := VictimInv.reaches ⟨h0.slotInv, h3⟩ hrun
  refine ⟨h.1.count, h.1.below, fun q => ?_, fun q hq draws => ?_, fun q hq hnew mem => ?_,
    fun len t ht => ht.exists_victim h, fun q hq => ?_⟩
  · rw [h.1.held]
    constructor
    · rintro ⟨i, hi⟩
      have hlt : i < s.maxCacheCount := h.1.lt_maxCount (by rw [hi]; exact Option.some_ne_none q)
      exact ⟨i, ⟨hlt.trans_le (h.1.maxCount_le.trans h.1.entries_le), hi⟩,
        fun j hj => h.1.distinct j i q hj.2 hi⟩
    · rintro ⟨i, ⟨-, hi⟩, -⟩
      exact ⟨i, hi⟩
  · obtain ⟨hun, -⟩ | ⟨data, u, hok, -⟩ := VictimInv.kept.queueTestcaseGet h hq draws
    · rw [hun]
      intro hne
      cases hne
    · rw [hok]
      intro hne
      cases hne
  · have hnone : (s.entries q).testcaseBuf = none := by simpa [CacheEntry.cached] using hnew
    obtain ⟨u, hok, -⟩ := VictimInv.kept.queueTestcaseStoreMem h hq hnone mem
    rw [hok]
    intro hne
    cases hne
  · obtain ⟨draws, data, u, hok⟩ := h.queueTestcaseGet_returns hq
    exact ⟨draws, (data, u), hok⟩

end Runs

/-- The cache of a queue with the given files, none of them loaded yet. -/
def TestcaseCache.init (files : List (List Byte)) (maxCacheSize : U64) (maxCacheEntries : ℕ) :
    TestcaseCache where
  entries q := ⟨BitVec.ofNat 32 (files.getD q []).length, false, files.getD q [], none⟩
  queuedItems := files.length
  queueCur := none
  maxCacheSize := maxCacheSize
  maxCacheEntries := maxCacheEntries
  cacheSize := 0
  maxCacheCount := 0
  cacheCount := 0
  smallestFree := 0
  evictions := 0
  cache _ := none
  allocated := maxCacheEntries
  doOnce := false

theorem TestcaseCache.init_fresh {files : List (List Byte)} {maxCacheEntries : ℕ}
    (maxCacheSize : U64) (hfiles : files.length < 2 ^ 32) (hpos : 0 < maxCacheEntries) :
    (TestcaseCache.init files maxCacheSize maxCacheEntries).Fresh where
  entry _ := rfl
  queuedItems := hfiles
  maxCacheEntries := hpos
  allocated := rfl
  cacheSize := rfl
  maxCacheCount := rfl
  cacheCount := rfl
  smallestFree := rfl
  cache _ := rfl
  doOnce := rfl

/-- Four files of four bytes and room for ten: the third one evicts the second, and the limit on the
number of entries is learned. -/
def fillBySize : List CacheOp :=
  [.get 0 [], .select (some 0), .get 1 [], .get 2 [[2, 3]], .storeMem 3 [1, 2, 3, 4]]

theorem cacheSlots_wellFormed_after_learning :
    ∃ s, exec cacheStep StoresNew (.init (List.replicate 4 [1, 2, 3, 4]) 10 8) fillBySize = some s ∧
      s.doOnce = true ∧ s.maxCacheEntries = 3 ∧ s.cache 1 = some 2 ∧
      s.cacheCount = occupied s.allocated s.cache ∧
      ∀ q, q < s.queuedItems → ∃ draws r, s.queueTestcaseGet q draws = .ok r := by
  have hsome : (exec cacheStep StoresNew (.init (List.replicate 4 [1, 2, 3, 4]) 10 8)
      fillBySize).any (fun s => s.doOnce ∧ s.maxCacheEntries = 3 ∧ s.cache 1 = some 2) = true := by
    decide +kernel
  obtain ⟨s, hs, hprop⟩ := (Option.any_eq_true _ _).mp hsome
  obtain ⟨hdo, hmax, hslot⟩ := of_decide_eq_true hprop
  obtain ⟨hcount, -, -, -, -, -, hret⟩ := cacheSlots_wellFormed
    (TestcaseCache.init_fresh 10 (by decide) (by decide)) (by decide) (reaches_of_exec .refl hs)
  exact ⟨s, hs, hdo, hmax, hslot, hcount, hret⟩

/-- Stored twice, an entry takes two slots. -/
theorem storeMem_twice_takes_two_slots :
    ∃ s, exec cacheStep (fun _ _ => True) (.init [[1, 2, 3, 4]] 10485760 8)
        [.storeMem 0 [1, 2, 3, 4], .storeMem 0 [1, 2, 3, 4]] = some s ∧
      ¬ ∀ q, (s.entries q).cached = true ↔ ∃! i, i < s.allocated ∧ s.cache i = some q := by
  have hsome : (exec cacheStep (fun _ _ => True) (.init [[1, 2, 3, 4]] 10485760 8)
      [.storeMem 0 [1, 2, 3, 4], .storeMem 0 [1, 2, 3, 4]]).any (fun s => (s.entries 0).cached ∧
        s.allocated = 8 ∧ s.cache 0 = some 0 ∧ s.cache 1 = some 0) = true := by
    decide +kernel
  obtain ⟨s, hs, hprop⟩ := (Option.any_eq_true _ _).mp hsome
  obtain ⟨hcached, hall, hfirst, hsecond⟩ := of_decide_eq_true hprop
  refine ⟨s, hs, fun h => ?_⟩
  obtain ⟨i, -, huniq⟩ := (h 0).mp hcached
  have hzero := huniq 0 ⟨by omega, hfirst⟩
  have hone := huniq 1 ⟨by omega, hsecond⟩
  omega

end AflPlusPlus
