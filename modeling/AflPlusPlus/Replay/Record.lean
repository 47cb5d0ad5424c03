import AflPlusPlus.Lib.Memory
import AflPlusPlus.Lib.NameOrder
import AflPlusPlus.Lib.SlidingWindow
import Mathlib.Data.List.DropRight

/-!
# Persistent records

With `AFL_PERSISTENT_RECORD` the fork server keeps the last inputs in a ring. A new child starts a
new record with the input it was given, and a crash or a hang saves the record as numbered files.
What the fork servers of CmpLog and of the sanitizers run is written by the same fork server, and
thus recorded with its own inputs.
-/

namespace AflPlusPlus.Replay
open Lib

/-- The fields `persistent_record_*` of the fork server. -/
structure Recorder where
  data : ℕ → Option (List Byte)
  len : ℕ → ℕ
  idx : ℕ
  cnt : ℕ
  pid : ℕ

inductive Kind
  | crashes
  | hangs
deriving DecidableEq

/-- The files of a directory. -/
abbrev Dir := List (Name × List Byte)

/-- A run of the target. Trimming writes its inputs by `write_with_gap`. -/
structure Execution where
  input : List Byte
  trimming : Bool
  pid : ℕ
  outcome : Option Kind

structure Fuzzer where
  recorder : Recorder
  dirs : Kind → Dir

/-- What is run elsewhere goes into the ring, but no child of this fork server gets it. -/
inductive Event
  | execute (e : Execution)
  | elsewhere (input : List Byte)
  | save (kind : Kind) (name : Name) (content : List Byte)

variable (size : ℕ) (fileExtension : Option Name)

/-- `afl_fsrv_write_to_testcase`. -/
def Recorder.write (r : Recorder) (buf : List Byte) : Recorder :=
  { r with
    data := Function.update r.data r.idx (some buf)
    len := Function.update r.len r.idx (buf.length % 2 ^ 32)
    idx := ringNext size r.idx }

/-- The check of the child's pid in `afl_fsrv_run_target`. -/
def Recorder.newChild (r : Recorder) (childPid : ℕ) : Recorder :=
  if r.pid ≠ childPid then
    let idx := ringLast size r.idx
    { r with pid := childPid, len := fun i => if i = idx then r.len i else 0 }
  else r

/-- The file is created or overwritten. -/
def Dir.write (d : Dir) (name : Name) (content : List Byte) : Dir :=
  (name, content) :: d.filter fun f => f.1 ≠ name

def dotExtension : Name :=
  match fileExtension with
  | some ext => ascii "." ++ ext
  | none => []

/-- `RECORD:%06u,cnt:%06u%s%s`. -/
def recordName (cnt writecnt : ℕ) : Name :=
  ascii "RECORD:" ++ decimal 6 cnt ++ ascii ",cnt:" ++ decimal 6 writecnt ++
    dotExtension fileExtension

/-- The loop under `store_persistent_record`, over the numbers `is` of the slots. -/
def storeLoop (r : Recorder) : List ℕ → ℕ → Dir → Dir
  | [], _, d => d
  | i :: is, writecnt, d =>
    let entry := (i + r.idx) % size
    match r.data entry with
    | some data =>
      if r.len entry ≠ 0 then
        storeLoop r is (writecnt + 1)
          (d.write (recordName fileExtension r.cnt writecnt) (data.take (r.len entry)))
      else storeLoop r is writecnt d
    | none => storeLoop r is writecnt d

def storePersistentRecord (r : Recorder) (d : Dir) : Dir :=
  storeLoop size fileExtension r (List.range size) 0 d

/-- An input is handed over and run. -/
def execute (f : Fuzzer) (e : Execution) : Fuzzer :=
  let r := if e.trimming then f.recorder else f.recorder.write size e.input
  let r := r.newChild size e.pid
  match e.outcome with
  | some kind =>
    { recorder := { r with cnt := r.cnt + 1 }
      dirs := Function.update f.dirs kind
        (storePersistentRecord size fileExtension r (f.dirs kind)) }
  | none => { f with recorder := r }

def handle (f : Fuzzer) : Event → Fuzzer
  | .execute e => execute size fileExtension f e
  | .elsewhere input => { f with recorder := f.recorder.write size input }
  | .save kind name content =>
    { f with dirs := Function.update f.dirs kind ((f.dirs kind).write name content) }

/-- After `afl_fsrv_start`: the memory of the ring is cleared. -/
def startFuzzer : Fuzzer where
  recorder := { data := fun _ => none, len := fun _ => 0, idx := 0, cnt := 0, pid := 0 }
  dirs := fun _ => []

def play (events : List Event) : Fuzzer := events.foldl (handle size fileExtension) startFuzzer

/-! ### What a record holds -/

def Event.execution : Event → Option Execution
  | .execute e => some e
  | .elsewhere _ => none
  | .save _ _ _ => none

/-- What goes into the ring. -/
def Event.recorded : Event → Option (List Byte)
  | .execute e => if e.trimming then none else some e.input
  | .elsewhere input => some input
  | .save _ _ _ => none

def executions (events : List Event) : List Execution := events.filterMap Event.execution

def inputsOf (events : List Event) : List (List Byte) := events.filterMap Event.recorded

/-- A session, cut where the child was started that was run last. -/
structure Session where
  pid : ℕ
  earlier : List Event
  own : List Event

def Session.add (s : Session) (event : Event) : Session :=
  match event.execution with
  | some e =>
    if s.pid = e.pid then { s with own := s.own ++ [event] }
    else { pid := e.pid, earlier := s.earlier ++ s.own, own := [event] }
  | none => { s with own := s.own ++ [event] }

def session (events : List Event) : Session :=
  events.foldl Session.add { pid := 0, earlier := [], own := [] }

/-- The child was started to run an input of trimming. -/
def Session.trimmedFirst (s : Session) : Bool :=
  match s.own with
  | .execute e :: _ => e.trimming
  | _ => false

/-- What was recorded since the last child was started. When it was started by trimming, the input
recorded last before it has stayed in the ring. -/
def Session.recorded (s : Session) : List (List Byte) :=
  (if s.trimmedFirst then (inputsOf s.earlier).getLast?.toList else []) ++ inputsOf s.own

/-- What an event does to the inputs in the ring, and to the child they were written for: a new
child keeps the last one. -/
def keep (k : ℕ × List (List Byte)) (event : Event) : ℕ × List (List Byte) :=
  let inputs := k.2 ++ event.recorded.toList
  match event.execution with
  | some e => if k.1 ≠ e.pid then (e.pid, inputs.getLast?.toList) else (k.1, inputs)
  | none => (k.1, inputs)

def kept (events : List Event) : ℕ × List (List Byte) := events.foldl keep (0, [])

/-- The bytes that would be saved from a slot. -/
def Recorder.content (r : Recorder) (i : ℕ) : List Byte := ((r.data i).getD []).take (r.len i)

variable {size fileExtension} {r : Recorder} {f : Fuzzer} {e : Execution} {buf : List Byte}
  {events : List Event} {event : Event}

/-- The ring lists the inputs kept, the oldest first, after empty slots. -/
structure Ring (size : ℕ) (r : Recorder) (k : ℕ × List (List Byte)) : Prop where
  idx_lt : r.idx < size
  len_le : ∀ i, r.len i ≤ ((r.data i).getD []).length
  list_eq : ringList size r.content r.idx = window size [] k.2
  pid_eq : r.pid = k.1

theorem kept_concat : kept (events ++ [event]) = keep (kept events) event := by
  rw [kept, List.foldl_append]
  rfl

theorem content_write (hlen : buf.length < 2 ^ 32) :
    (r.write size buf).content = Function.update r.content r.idx buf := by
  funext i
  rw [Recorder.content, Recorder.write]
  dsimp only
  obtain rfl | hne := eq_or_ne i r.idx
  · rw [Function.update_self, Function.update_self, Function.update_self, Option.getD_some,
      Nat.mod_eq_of_lt hlen, List.take_length]
  · rw [Function.update_of_ne hne, Function.update_of_ne hne, Function.update_of_ne hne]
    rfl

section
variable {k : ℕ × List (List Byte)}

theorem Ring.write (hr : Ring size r k) (hlen : buf.length < 2 ^ 32) :
    Ring size (r.write size buf) (k.1, k.2 ++ [buf]) where
  idx_lt := ringNext_lt hr.idx_lt
  len_le := by
    intro i
    rw [Recorder.write]
    dsimp only
    obtain rfl | hne := eq_or_ne i r.idx
    · rw [Function.update_self, Function.update_self, Option.getD_some]
      exact Nat.mod_le ..
    · rw [Function.update_of_ne hne, Function.update_of_ne hne]
      exact hr.len_le i
  list_eq := by
    have hpos : 0 < size := Nat.lt_of_le_of_lt (Nat.zero_le _) hr.idx_lt
    rw [content_write hlen]
    refine (ringList_write hr.idx_lt).trans ?_
    rw [hr.list_eq, window_concat hpos]
  pid_eq := hr.pid_eq

/-- The slot written last holds the last input kept. -/
theorem Ring.content_last (hr : Ring size r k) :
    r.content (ringLast size r.idx) = k.2.getLast?.getD [] := by
  have hpos : 0 < size := Nat.lt_of_le_of_lt (Nat.zero_le _) hr.idx_lt
  have hlast : (ringList size r.content r.idx).getLast? =
      some (r.content (ringLast size r.idx)) := getLast?_ringList hr.idx_lt
  rw [hr.list_eq] at hlast
  obtain hnil | ⟨xs, x, hxs⟩ := List.eq_nil_or_concat k.2
  · rw [hnil, window_nil, List.getLast?_replicate, if_neg (by omega)] at hlast
    rw [hnil, ← Option.some.inj hlast]
    rfl
  · rw [List.concat_eq_append] at hxs
    rw [hxs, window_concat hpos, List.getLast?_concat] at hlast
    rw [hxs, List.getLast?_concat, ← Option.some.inj hlast]
    rfl

theorem Ring.newChild (hr : Ring size r k) (childPid : ℕ) : Ring size (r.newChild size childPid)
    (if k.1 ≠ childPid then (childPid, k.2.getLast?.toList) else k) := by
  have hpos : 0 < size := Nat.lt_of_le_of_lt (Nat.zero_le _) hr.idx_lt
  rw [Recorder.newChild, hr.pid_eq]
  by_cases hpid : k.1 = childPid
  · rw [if_neg (not_not_intro hpid), if_neg (not_not_intro hpid)]
    exact hr
  · rw [if_pos hpid, if_pos hpid]
    refine ⟨hr.idx_lt, fun i => ?_, ?_, rfl⟩
    · dsimp only
      split_ifs
      · exact hr.len_le i
      · exact Nat.zero_le _
    · have hcontent : Recorder.content { r with
          pid := childPid, len := fun i => if i = ringLast size r.idx then r.len i else 0 } =
          fun i => if i = ringLast size r.idx then r.content i else [] := by
        funext i
        rw [Recorder.content]
        dsimp only
        split_ifs
        · rfl
        · exact List.take_zero
      rw [hcontent]
      refine (ringList_clear hr.idx_lt).trans ?_
      rw [hr.content_last]
      cases k.2.getLast? with
      | none =>
        rw [Option.toList_none, window_nil, Option.getD_none, ← List.replicate_succ',
          Nat.sub_add_cancel hpos]
      | some x => rw [Option.toList_some, window_singleton hpos, Option.getD_some]

theorem Ring.execute (hr : Ring size r k) (hlen : e.input.length < 2 ^ 32) :
    Ring size ((if e.trimming then r else r.write size e.input).newChild size e.pid)
      (keep k (.execute e)) := by
  rw [keep, Event.recorded, Event.execution]
  dsimp only
  by_cases htrim : e.trimming = true
  · rw [if_pos htrim, if_pos htrim, Option.toList_none, List.append_nil]
    exact hr.newChild e.pid
  · rw [if_neg htrim, if_neg htrim, Option.toList_some]
    exact (hr.write hlen).newChild e.pid

end

theorem ring_start (hsize : 0 < size) : Ring size startFuzzer.recorder (kept []) where
  idx_lt := hsize
  len_le := fun _ => Nat.le_refl _
  list_eq := by
    have hempty : startFuzzer.recorder.content = fun _ => [] := by
      funext i
      exact List.take_nil
    rw [hempty, ringList, List.map_const', List.length_range]
    exact window_nil.symm
  pid_eq := rfl

/-- A slot is saved when it holds an input that is not empty. -/
theorem Ring.content_eq_nil_iff {k : ℕ × List (List Byte)} (hr : Ring size r k) (i : ℕ) :
    r.content i = [] ↔ r.len i = 0 := by
  have hle := hr.len_le i
  rw [Recorder.content, ← List.length_eq_zero_iff, List.length_take]
  omega

/-- The inputs that a record of the ring saves. -/
def saved (size : ℕ) (inputs : List (List Byte)) : List (List Byte) :=
  (lastN size inputs).filter fun c => !c.isEmpty

/-- The inputs are saved under ascending numbers. -/
def saveAll (fileExtension : Option Name) (cnt : ℕ) : List (List Byte) → ℕ → Dir → Dir
  | [], _, d => d
  | c :: cs, writecnt, d =>
    saveAll fileExtension cnt cs (writecnt + 1) (d.write (recordName fileExtension cnt writecnt) c)

theorem Ring.storeLoop_eq {k : ℕ × List (List Byte)} (hr : Ring size r k) (is : List ℕ)
    (writecnt : ℕ) (d : Dir) : storeLoop size fileExtension r is writecnt d =
      saveAll fileExtension r.cnt
        ((is.map fun i => r.content ((i + r.idx) % size)).filter fun c => !c.isEmpty)
        writecnt d := by
  induction is generalizing writecnt d with
  | nil => rfl
  | cons i is ih =>
    have hnil := hr.content_eq_nil_iff ((i + r.idx) % size)
    have hcontent : r.content ((i + r.idx) % size) =
      ((r.data ((i + r.idx) % size)).getD []).take (r.len ((i + r.idx) % size)) := rfl
    rw [storeLoop, List.map_cons]
    cases hdata : r.data ((i + r.idx) % size) with
    | none =>
      rw [hdata, Option.getD_none, List.take_nil] at hcontent
      rw [List.filter_cons_of_neg (by rw [hcontent]; decide)]
      exact ih writecnt d
    | some data =>
      rw [hdata, Option.getD_some] at hcontent
      dsimp only
      by_cases hlen : r.len ((i + r.idx) % size) = 0
      · rw [if_neg (not_not_intro hlen), List.filter_cons_of_neg (by rw [hnil.mpr hlen]; decide)]
        exact ih writecnt d
      · have hne : (!(r.content ((i + r.idx) % size)).isEmpty) = true := by
          rw [Bool.not_eq_true', List.isEmpty_eq_false_iff]
          exact fun h => hlen (hnil.mp h)
        rw [if_pos hlen, List.filter_cons_of_pos (p := fun c : List Byte => !c.isEmpty) hne,
          ← hcontent]
        exact ih (writecnt + 1) _

/-- A record saves the last inputs kept that are not empty. -/
theorem Ring.store_eq {k : ℕ × List (List Byte)} (hr : Ring size r k) (d : Dir) :
    storePersistentRecord size fileExtension r d =
      saveAll fileExtension r.cnt (saved size k.2) 0 d := by
  have hlist : (List.range size).map (fun i => r.content ((i + r.idx) % size)) =
      window size [] k.2 := hr.list_eq
  rw [storePersistentRecord, hr.storeLoop_eq, hlist, filter_window rfl]
  rfl

theorem session_concat : session (events ++ [event]) = (session events).add event := by
  rw [session, List.foldl_append]
  rfl

theorem inputsOf_append (before after : List Event) :
    inputsOf (before ++ after) = inputsOf before ++ inputsOf after :=
  List.filterMap_append ..

theorem inputsOf_singleton : inputsOf [event] = event.recorded.toList := by
  rw [inputsOf, List.filterMap_cons]
  cases event.recorded <;> rfl

/-- The cut loses no event. -/
theorem session_eq : (session events).earlier ++ (session events).own = events := by
  induction events using List.reverseRecOn with
  | nil => rfl
  | append_singleton events event ih =>
    rw [session_concat, Session.add]
    cases event.execution with
    | none => rw [← List.append_assoc, ih]
    | some e =>
      dsimp only
      split_ifs
      · rw [← List.append_assoc, ih]
      · rw [ih]

theorem own_concat : ∃ own, (session (events ++ [event])).own = own ++ [event] := by
  rw [session_concat, Session.add]
  cases event.execution with
  | none => exact ⟨_, rfl⟩
  | some e =>
    dsimp only
    split_ifs
    · exact ⟨_, rfl⟩
    · exact ⟨[], rfl⟩

/-- There is a child from the first event on. -/
theorem earlier_eq_nil (hown : (session events).own = []) : (session events).earlier = [] := by
  obtain rfl | ⟨events, event, rfl⟩ := List.eq_nil_or_concat' events
  · rfl
  · obtain ⟨own, hconcat⟩ : ∃ own, (session (events ++ [event])).own = own ++ [event] := own_concat
    exact absurd (hconcat.symm.trans hown) (List.concat_ne_nil _ _)

/-- What an event puts into the ring is recorded for the child that is there. -/
theorem recorded_own {s : Session} (hs : s.own = [] → s.earlier = []) :
    ({ s with own := s.own ++ [event] } : Session).recorded =
      s.recorded ++ event.recorded.toList := by
  rw [Session.recorded, Session.recorded, inputsOf_append, inputsOf_singleton, List.append_assoc]
  cases hown : s.own with
  | nil =>
    have hnone : (inputsOf s.earlier).getLast?.toList = [] := by rw [hs hown]; rfl
    rw [hnone, ite_self, ite_self]
  | cons x xs =>
    have hfirst : ({ s with own := x :: xs ++ [event] } : Session).trimmedFirst =
        s.trimmedFirst := by
      rw [Session.trimmedFirst, Session.trimmedFirst, hown]
      cases x <;> rfl
    rw [hfirst]

/-- A new child is recorded with what it was given, or with what was recorded last. -/
theorem recorded_new (earlier : List Event) : Session.recorded
    { pid := e.pid, earlier := earlier, own := [.execute e] } =
      (inputsOf (earlier ++ [.execute e])).getLast?.toList := by
  rw [Session.recorded, Session.trimmedFirst, inputsOf_append, inputsOf_singleton, Event.recorded]
  dsimp only
  split_ifs
  · rw [Option.toList_none, List.append_nil, List.append_nil]
  · rw [Option.toList_some, List.getLast?_concat]
    rfl

theorem getLast?_add {inputs : List (List Byte)}
    (h : inputs.getLast? = (inputsOf events).getLast?) :
    (inputs ++ event.recorded.toList).getLast? = (inputsOf (events ++ [event])).getLast? := by
  rw [inputsOf_append, inputsOf_singleton, List.getLast?_append, List.getLast?_append, h]

/-- The newest input in the ring is the one recorded last. -/
theorem getLast?_kept : (kept events).2.getLast? = (inputsOf events).getLast? := by
  induction events using List.reverseRecOn with
  | nil => rfl
  | append_singleton events event ih =>
    rw [kept_concat, keep, ← getLast?_add ih]
    cases event.execution with
    | none => rfl
    | some e =>
      dsimp only
      split_ifs
      · cases ((kept events).2 ++ event.recorded.toList).getLast? <;> rfl
      · rfl

/-- The ring keeps what was recorded for the last child. -/
theorem kept_eq : kept events = ((session events).pid, (session events).recorded) := by
  induction events using List.reverseRecOn with
  | nil => rfl
  | append_singleton events event ih =>
    have hown :
        ({ session events with own := (session events).own ++ [event] } : Session).recorded =
          (session events).recorded ++ event.recorded.toList := recorded_own earlier_eq_nil
    rw [kept_concat, session_concat, keep, Session.add]
    cases event with
    | elsewhere input =>
      rw [ih]
      exact congrArg (Prod.mk _) hown.symm
    | save kind name content =>
      rw [ih]
      exact congrArg (Prod.mk _) hown.symm
    | execute e =>
      rw [Event.execution]
      dsimp only
      by_cases hpid : (session events).pid = e.pid
      · rw [if_pos hpid, ih, if_neg (not_not_intro hpid)]
        exact congrArg (Prod.mk _) hown.symm
      · rw [if_neg hpid, session_eq, recorded_new, ← getLast?_add getLast?_kept, ih, if_pos hpid]

theorem kept_recorded : (kept events).2 = (session events).recorded := congrArg Prod.snd kept_eq

/-- While everything recorded since the child was started was given to it, and nothing else was,
this is what the child was given. -/
theorem recorded_eq {s : Session}
    (hs : ∀ event ∈ s.own, event.recorded = event.execution.map Execution.input) :
    s.recorded = (executions s.own).map Execution.input := by
  have hfirst : s.trimmedFirst = false := by
    rw [Session.trimmedFirst]
    split
    · rename_i e rest hown
      have he := hs (.execute e) (hown ▸ List.mem_cons_self ..)
      by_contra htrim
      rw [Event.recorded, if_pos (by simpa using htrim)] at he
      cases he
    · rfl
  rw [Session.recorded, hfirst, if_neg Bool.false_ne_true, List.nil_append, inputsOf, executions,
    List.map_filterMap]
  exact List.filterMap_congr hs

/-! ### What an execution does -/

theorem cnt_newChild {childPid : ℕ} : (r.newChild size childPid).cnt = r.cnt := by
  rw [Recorder.newChild]
  split_ifs <;> rfl

theorem cnt_handed : ((if e.trimming then f.recorder else f.recorder.write size e.input).newChild
    size e.pid).cnt = f.recorder.cnt := by
  rw [cnt_newChild]
  split_ifs <;> rfl

theorem cnt_execute : (execute size fileExtension f e).recorder.cnt =
    f.recorder.cnt + if e.outcome.isSome then 1 else 0 := by
  rw [execute]
  cases e.outcome with
  | none => exact cnt_handed
  | some kind => exact congrArg (· + 1) cnt_handed

theorem ring_execute (hr : Ring size f.recorder (kept events)) (hlen : e.input.length < 2 ^ 32) :
    Ring size (execute size fileExtension f e).recorder (kept (events ++ [.execute e])) := by
  have hnext := hr.execute hlen
  rw [execute, kept_concat]
  cases e.outcome with
  | none => exact hnext
  | some kind => exact ⟨hnext.idx_lt, hnext.len_le, hnext.list_eq, hnext.pid_eq⟩

theorem dirs_execute (hr : Ring size f.recorder (kept events)) (hlen : e.input.length < 2 ^ 32)
    (kind : Kind) : (execute size fileExtension f e).dirs kind =
      if e.outcome = some kind then
        saveAll fileExtension f.recorder.cnt (saved size (kept (events ++ [.execute e])).2) 0
          (f.dirs kind)
      else f.dirs kind := by
  rw [execute, kept_concat]
  cases houtcome : e.outcome with
  | none => rw [if_neg (Option.some_ne_none kind).symm]
  | some kind' =>
    dsimp only
    obtain rfl | hne := eq_or_ne kind kind'
    · rw [Function.update_self, if_pos rfl, (hr.execute hlen).store_eq, cnt_handed]
    · rw [Function.update_of_ne hne, if_neg fun h => hne (Option.some.inj h).symm]

end AflPlusPlus.Replay
