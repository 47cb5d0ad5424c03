import AflPlusPlus.Lib.Reach
import AflPlusPlus.Lib.SlotTable
import AflPlusPlus.Queue.State

/-!
# The test-case cache

`queue_testcase_get` keeps the contents of queue files in memory and evicts random ones when the
cache is full; `queue_testcase_store_mem` adds a new entry if there is room, and after a trim
`queue_testcase_retake` or `queue_testcase_retake_mem` renews the cached contents. A draw of
`rand_below` is an argument of the call, so that every statement is about all random choices.
-/

namespace AflPlusPlus
open Lib

/-- The members of a queue entry that the cache reads and writes, and the contents of its file.
`belowAverage` is `weight < 1.0`. -/
structure CacheEntry where
  len : U32
  belowAverage : Bool
  file : List Byte
  testcaseBuf : Option (List Byte)

def CacheEntry.cached (e : CacheEntry) : Bool := e.testcaseBuf.isSome

/-- The `q_testcase_*` members of the state. `allocated` is the number of slots that the array
`cache` has room for, and `doOnce` the static variable of `queue_testcase_get`. -/
structure TestcaseCache where
  entries : ℕ → CacheEntry
  queuedItems : ℕ
  queueCur : Option ℕ
  maxCacheSize : U64
  maxCacheEntries : ℕ
  cacheSize : U64
  maxCacheCount : ℕ
  cacheCount : ℕ
  smallestFree : ℕ
  evictions : ℕ
  cache : ℕ → Option ℕ
  allocated : ℕ
  doOnce : Bool

namespace TestcaseCache

def modify (s : TestcaseCache) (q : ℕ) (f : CacheEntry → CacheEntry) : TestcaseCache :=
  { s with entries := Function.update s.entries q (f (s.entries q)) }

/-- Adding `len` bytes reaches the limit. -/
def overSize (s : TestcaseCache) (len : U32) : Prop :=
  s.maxCacheSize ≤ s.cacheSize + len.setWidth 64

instance (s : TestcaseCache) (len : U32) : Decidable (s.overSize len) :=
  inferInstanceAs (Decidable (_ ≤ _))

/-- The condition of the loop that evicts. -/
def full (s : TestcaseCache) (len : U32) : Prop :=
  (s.overSize len ∧ 1 < s.cacheCount) ∨ s.maxCacheEntries - 1 ≤ s.cacheCount

instance (s : TestcaseCache) (len : U32) : Decidable (s.full len) :=
  inferInstanceAs (Decidable (_ ∨ _))

/-- The maximal number of entries is learned once, when the cache is first filled by size. -/
def learnMaxEntries (s : TestcaseCache) (len : U32) : TestcaseCache :=
  if s.overSize len ∧ (s.cacheCount < s.maxCacheEntries ∧ s.maxCacheCount < s.maxCacheEntries) ∧
      s.doOnce = false then
    let n := if s.cacheCount < s.maxCacheCount then s.maxCacheCount + 1 else s.cacheCount + 1
    -- `afl_realloc` to one slot more than the new limit
    { s with maxCacheEntries := n, doOnce := true, allocated := n + 1 }
  else s

/-- The slot holds an entry that is not in use. -/
def Evictable (s : TestcaseCache) (tid : ℕ) : Prop := s.cache tid ≠ none ∧ s.cache tid ≠ s.queueCur

instance (s : TestcaseCache) (tid : ℕ) : Decidable (s.Evictable tid) :=
  inferInstanceAs (Decidable (_ ∧ _))

/-- The loop around `rand_below`: the first of the drawn slots that can be evicted. -/
def pickVictim (s : TestcaseCache) (draws : List ℕ) : Option ℕ :=
  (draws.map (randBelow · s.maxCacheCount)).find? fun tid => decide (s.Evictable tid)

def evict (s : TestcaseCache) (tid : ℕ) : TestcaseCache :=
  match s.cache tid with
  | none => s
  | some old =>
    { s with
      entries := Function.update s.entries old { s.entries old with testcaseBuf := none }
      -- the length that the entry has now, which a trim may have changed since it was added
      cacheSize := s.cacheSize - (s.entries old).len.setWidth 64
      cache := Function.update s.cache tid none
      cacheCount := s.cacheCount - 1
      evictions := s.evictions + 1
      smallestFree := if tid < s.smallestFree then tid else s.smallestFree }

/-- The loop that evicts, each iteration with its draws; the result is the cache and the last slot
that was freed. `none` means that no victim has been drawn yet. -/
def evictLoop (len : U32) : List (List ℕ) → TestcaseCache → ℕ → Option (TestcaseCache × ℕ)
  | [], s, tid => if s.full len then none else some (s, tid)
  | draws :: rest, s, tid =>
    if s.full len then
      ((s.learnMaxEntries len).pickVictim draws).bind fun victim =>
        evictLoop len rest ((s.learnMaxEntries len).evict victim) victim
    else some (s, tid)

/-- Register a test case as cached in slot `tid`. -/
def register (s : TestcaseCache) (q tid : ℕ) (buf : List Byte) : TestcaseCache :=
  { s with
    entries := Function.update s.entries q { s.entries q with testcaseBuf := some buf }
    cache := Function.update s.cache tid (some q)
    cacheSize := s.cacheSize + (s.entries q).len.setWidth 64
    cacheCount := s.cacheCount + 1
    maxCacheCount := if s.maxCacheCount ≤ tid then tid + 1 else s.maxCacheCount
    smallestFree :=
      if s.maxCacheCount ≤ tid then s.smallestFree
      else if tid = s.smallestFree then tid + 1 else s.smallestFree }

/-- Why a call has no result: it is still looking for a victim, or it reads beyond the array. -/
inductive CacheFault
  | unfinished
  | outOfRange
  deriving DecidableEq

/-- The search for a free slot from `tid` on, and the registration there. -/
def place (s : TestcaseCache) (q tid : ℕ) (buf : List Byte) : Except CacheFault TestcaseCache :=
  match firstFree s.cache (s.allocated - tid) tid with
  | none => .error .outOfRange
  | some slot => .ok (s.register q slot buf)

/-- What `ck_read` gets from the file of an entry. -/
def readFile (s : TestcaseCache) (q : ℕ) : List Byte :=
  (s.entries q).file.take (s.entries q).len.toNat

/-- `queue_testcase_get`: the contents of the entry and the cache afterwards. -/
def queueTestcaseGet (s : TestcaseCache) (q : ℕ) (draws : List (List ℕ)) :
    Except CacheFault (List Byte × TestcaseCache) :=
  match (s.entries q).testcaseBuf with
  | some buf => .ok (buf, s)
  | none =>
    if (s.entries q).belowAverage = true ∨ s.maxCacheSize = 0 then .ok (s.readFile q, s)
    else
      match evictLoop (s.entries q).len draws s s.maxCacheCount with
      | none => .error .unfinished
      | some (t, tid) =>
        -- without an eviction `tid` is the end of the slots in use
        (t.place q (if t.maxCacheEntries ≤ tid then t.smallestFree else tid) (s.readFile q)).map
          fun u => (s.readFile q, u)

/-- `queue_testcase_store_mem`. -/
def queueTestcaseStoreMem (s : TestcaseCache) (q : ℕ) (mem : List Byte) :
    Except CacheFault TestcaseCache :=
  if (s.entries q).belowAverage = true ∨ s.overSize (s.entries q).len ∨
      s.maxCacheEntries - 1 ≤ s.cacheCount then .ok s
  else
    s.place q (if s.maxCacheEntries ≤ s.maxCacheCount then s.smallestFree else s.maxCacheCount)
      (mem.take (s.entries q).len.toNat)

/-- `data` copied over the beginning of a buffer. -/
def overwrite (data buf : List Byte) : List Byte := data ++ buf.drop data.length

/-- `queue_testcase_retake`, after a custom trim has changed the file and the length. -/
def queueTestcaseRetake (s : TestcaseCache) (q : ℕ) (oldLen : U32) : TestcaseCache :=
  match (s.entries q).testcaseBuf with
  | none => s
  | some buf =>
    let len := (s.entries q).len
    -- the difference is a `u32`, so that a shorter length adds almost `2 ^ 32`
    if oldLen < len ∨ len + 1024 < oldLen then
      { s with
        entries := Function.update s.entries q
          { s.entries q with testcaseBuf := some (s.readFile q) }
        cacheSize := s.cacheSize + (len - oldLen).setWidth 64 }
    else s.modify q fun e => { e with testcaseBuf := some (overwrite (s.readFile q) buf) }

/-- `queue_testcase_retake_mem`; `inPlace` says that `input` is the cached buffer itself. -/
def queueTestcaseRetakeMem (s : TestcaseCache) (q : ℕ) (input : List Byte) (inPlace : Bool)
    (len oldLen : U32) : TestcaseCache :=
  match (s.entries q).testcaseBuf with
  | none => s
  | some buf =>
    -- the caller has trimmed the cached buffer itself, and the total is left as it was
    if inPlace then s
    else if len + 1024 < oldLen then
      { s with
        entries := Function.update s.entries q { s.entries q with testcaseBuf := some input }
        cacheSize := s.cacheSize + (len - oldLen).setWidth 64 }
    else s.modify q fun e => { e with testcaseBuf := some (overwrite input buf) }

/-- The file of an entry after a trim. A trim in place works on the cached buffer. -/
def rewrite (s : TestcaseCache) (q : ℕ) (data : List Byte) (inPlace : Bool) : TestcaseCache :=
  s.modify q fun e =>
    { e with
      len := BitVec.ofNat 32 data.length
      file := data
      testcaseBuf := if inPlace then e.testcaseBuf.map (overwrite data) else e.testcaseBuf }

/-- `trim_case` with the result `data`, by the built-in trimmer. -/
def trimCase (s : TestcaseCache) (q : ℕ) (data : List Byte) (inPlace : Bool) : TestcaseCache :=
  (s.rewrite q data inPlace).queueTestcaseRetakeMem q data inPlace (BitVec.ofNat 32 data.length)
    (s.entries q).len

/-- `trim_case` with the result `data`, by a custom mutator. -/
def trimCaseCustom (s : TestcaseCache) (q : ℕ) (data : List Byte) : TestcaseCache :=
  (s.rewrite q data false).queueTestcaseRetake q (s.entries q).len

end TestcaseCache

/-- The calls, and what the rest of the fuzzer does in between: it selects the current entry and
computes weights. -/
inductive CacheOp
  | select (q : Option ℕ)
  | reweigh (q : ℕ) (belowAverage : Bool)
  | get (q : ℕ) (draws : List (List ℕ))
  | storeMem (q : ℕ) (mem : List Byte)
  | trim (q : ℕ) (data : List Byte) (inPlace : Bool)
  | customTrim (q : ℕ) (data : List Byte)

/-- The entry that an operation is about. -/
def CacheOp.entry : CacheOp → Option ℕ
  | .select q => q
  | .reweigh q _ | .get q _ | .storeMem q _ | .trim q _ _ | .customTrim q _ => some q

def CacheOp.run (s : TestcaseCache) : CacheOp → Option TestcaseCache
  | .select q => some { s with queueCur := q }
  | .reweigh q belowAverage => some (s.modify q fun e => { e with belowAverage })
  | .get q draws => (s.queueTestcaseGet q draws).toOption.map Prod.snd
  | .storeMem q mem => (s.queueTestcaseStoreMem q mem).toOption
  | .trim q data inPlace => some (s.trimCase q data inPlace)
  | .customTrim q data => some (s.trimCaseCustom q data)

/-- One operation on an entry of the queue. -/
def cacheStep (s : TestcaseCache) (op : CacheOp) : Option TestcaseCache :=
  if ∀ q ∈ op.entry, q < s.queuedItems then op.run s else none

end AflPlusPlus
