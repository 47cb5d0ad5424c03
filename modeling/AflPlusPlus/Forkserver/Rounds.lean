import AflPlusPlus.Forkserver.RunTarget
import Mathlib.Algebra.GroupWithZero.Nat

/-!
# The run protocol stays in step

A round passes through phases, from the request to the status. In each phase the places of the two
sides, the bytes in the pipes and the state of the child fit together, and every step leads from one
phase to the same or the next one. That the fuzzer has killed the child of the round shows in
`sigkill` of the process, in `last_run_timed_out` and then in the word of the next request.
-/

namespace AflPlusPlus.Forkserver
open Lib

/-! ### The child -/

/-- Between two rounds there is no child, or one that has stopped itself and is known to have. -/
def Parked (s : RunState) (killed : Bool) : Prop :=
  (s.childStopped = false ∧ s.procs = []) ∨
    (s.childStopped = true ∧ 0 < s.childPid.toInt ∧ ∃ p, s.procs = [p] ∧ p.pid = s.childPid ∧
      p.sigkill = killed ∧ p.Halted)

/-- In a round the only child is the one that serves the request. -/
def Serving (s : RunState) (proc : ℕ) (pid : BitVec 32) (killed : Bool) : Prop :=
  s.childStopped = false ∧ s.childPid = pid ∧ ∃ p, s.procs = [p] ∧ p.id = proc ∧ p.pid = pid ∧
    p.sigkill = killed ∧ p.Unreported

theorem Parked.child {s : RunState} {killed : Bool} (h : Parked s killed) {pid : BitVec 32}
    {a : ChildAct} {procs : ProcTable} (hact : s.procs.childAct pid a = some procs) :
    Parked { s with procs := procs } killed := by
  rcases h with ⟨-, hnone⟩ | ⟨hstopped, hpos, p, hone, hpid, hkill, hhalted⟩
  · rw [hnone] at hact
    exact absurd hact ProcTable.childAct_nil
  · rw [hone] at hact
    obtain ⟨q, hq, rfl⟩ := ProcTable.childAct_singleton hact
    obtain ⟨-, hqpid, hqkill⟩ := Process.act_id hq
    exact .inr ⟨hstopped, hpos, q, rfl, hqpid.trans hpid, hqkill.trans hkill, hhalted.act hq⟩

theorem Serving.child {s : RunState} {proc : ℕ} {pid : BitVec 32} {killed : Bool}
    (h : Serving s proc pid killed) {pid' : BitVec 32} {a : ChildAct} {procs : ProcTable}
    (hact : s.procs.childAct pid' a = some procs) :
    Serving { s with procs := procs } proc pid killed := by
  obtain ⟨hstopped, hchild, p, hone, hid, hpid, hkill, hunreported⟩ := h
  rw [hone] at hact
  obtain ⟨q, hq, rfl⟩ := ProcTable.childAct_singleton hact
  obtain ⟨hqid, hqpid, hqkill⟩ := Process.act_id hq
  exact ⟨hstopped, hchild, q, rfl, hqid.trans hid, hqpid.trans hpid, hqkill.trans hkill,
    hunreported.act hq⟩

/-! ### Places and pipes -/

/-- The fuzzer waits for its `pid`, and the forkserver has not sent anything. -/
structure Asking (s : RunState) : Prop where
  fuzzer : ∃ timeout, s.fuzzer = .recvPid timeout ∧ timeout ≠ 0
  st : s.st = []
  last : s.lastRunTimedOut = 0

/-- The `pid` has been sent, followed by `tail`. The indices are what the fuzzer has read in this
round and whether it has killed the child. -/
inductive Reading (s : RunState) (pid : BitVec 32) (tail : List Byte) : List Event → Bool → Prop
  | recvPid (timeout : BitVec 32) : s.fuzzer = .recvPid timeout → timeout ≠ 0 →
      s.st = le32 pid ++ tail → s.lastRunTimedOut = 0 → Reading s pid tail [] false
  | timedRead (timeout : BitVec 32) : s.fuzzer = .timedRead timeout → timeout ≠ 0 →
      s.fsrvChildPid = pid → s.st = tail → s.lastRunTimedOut = 0 →
      Reading s pid tail [.gotPid pid] false
  | kill : s.fuzzer = .kill → s.fsrvChildPid = pid → s.st = tail →
      Reading s pid tail [.gotPid pid] false
  | recvLate : s.fuzzer = .recvLate → s.st = tail → s.lastRunTimedOut = 1 →
      Reading s pid tail [.gotPid pid] true

theorem Asking.frame {s t : RunState} (h : Asking s) (hfuzzer : t.fuzzer = s.fuzzer)
    (hst : t.st = s.st)
    (hlast : t.lastRunTimedOut = s.lastRunTimedOut) : Asking t where
  fuzzer := h.fuzzer.imp fun _ hf => ⟨hfuzzer.trans hf.1, hf.2⟩
  st := hst.trans h.st
  last := hlast.trans h.last

/-- `Reading` is about the fuzzer and the status pipe only. -/
theorem Reading.frame {s t : RunState} {pid : BitVec 32} {tail : List Byte} {now : List Event}
    {killed : Bool} (h : Reading s pid tail now killed) (hfuzzer : t.fuzzer = s.fuzzer)
    (hchild : t.fsrvChildPid = s.fsrvChildPid) (hlast : t.lastRunTimedOut = s.lastRunTimedOut)
    (hst : t.st = s.st) : Reading t pid tail now killed := by
  cases h with
  | recvPid timeout hf htimeout hs hl =>
    exact .recvPid timeout (hfuzzer.trans hf) htimeout (hst.trans hs) (hlast.trans hl)
  | timedRead timeout hf htimeout hp hs hl =>
    exact .timedRead timeout (hfuzzer.trans hf) htimeout (hchild.trans hp) (hst.trans hs)
      (hlast.trans hl)
  | kill hf hp hs => exact .kill (hfuzzer.trans hf) (hchild.trans hp) (hst.trans hs)
  | recvLate hf hs hl => exact .recvLate (hfuzzer.trans hf) (hst.trans hs) (hlast.trans hl)

/-- The forkserver has sent the `pid` and works on the status. The indices are what is in the pipe
behind the `pid`, the part of the exchange that has happened and whether the fuzzer has killed the
child. -/
inductive Replying (s : RunState) (pid : BitVec 32) : List Byte → List Event → Bool → Prop
  | working (word : BitVec 32) (proc : ℕ) (resumed : Bool) (killed : Bool) :
      s.loop = .waitChild → Serving s proc pid killed →
      Replying s pid [] [.request word, .served proc pid resumed, .sentPid pid] killed
  | reported (word : BitVec 32) (proc : ℕ) (resumed : Bool) (status : BitVec 32) (killed : Bool) :
      s.loop = .sendStatus proc status → s.childPid = pid → Parked s killed →
      Replying s pid [] [.request word, .served proc pid resumed, .sentPid pid] killed
  | answered (word : BitVec 32) (proc : ℕ) (resumed : Bool) (status : BitVec 32) (killed : Bool) :
      s.loop = .recvRequest → s.childPid = pid → Parked s killed →
      Replying s pid (le32 status) (Round.exchange ⟨word, proc, pid, resumed, status⟩) killed

/-- The phases of a round. The indices are the part of the round's exchange and of the fuzzer's
reads that has happened. -/
inductive Phase (s : RunState) : List Event → List Event → Prop
  | idle : s.fuzzer = .idle → s.loop = .recvRequest → s.ctl = [] → s.st = [] →
      Parked s (decide (s.lastRunTimedOut ≠ 0)) → Phase s [] []
  | asked (word : BitVec 32) : Asking s → s.loop = .recvRequest → s.ctl = le32 word →
      Parked s (decide (word ≠ 0)) → Phase s [.request word] []
  | reaping (word : BitVec 32) : Asking s → s.loop = .reapKilled → s.ctl = [] →
      s.childStopped = true → Parked s true → Phase s [.request word] []
  | serving (word : BitVec 32) : Asking s → s.loop = .serve → s.ctl = [] →
      Parked s false → Phase s [.request word] []
  | served (word : BitVec 32) (proc : ℕ) (pid : BitVec 32) (resumed : Bool) : Asking s →
      s.loop = .sendPid → s.ctl = [] → 0 < pid.toInt → Serving s proc pid false →
      Phase s [.request word, .served proc pid resumed] []
  | replying (pid : BitVec 32) (tail : List Byte) (part now : List Event) (killed : Bool) :
      Reading s pid tail now killed → Replying s pid tail part killed → s.ctl = [] →
      0 < pid.toInt → Phase s part now

/-- What is known of the processes: which of them there have been, and that the fuzzer's kills show
in them. -/
structure Marks (s : RunState) : Prop where
  killed_lt : ∀ proc, .killed proc ∈ s.log → proc < s.forks
  proc_lt : ∀ p ∈ s.procs, p.id < s.forks
  marked : ∀ p ∈ s.procs, .killed p.id ∈ s.log → p.sigkill = true
  resumed : NeverResumesKilled s.log

structure RunInv (s : RunState) : Prop where
  rounds : ∃ (rounds : List Round) (part now : List Event),
    s.log.filter Event.isExchange = rounds.flatMap Round.exchange ++ part ∧
    s.log.filter Event.isRead = rounds.flatMap Round.reads ++ now ∧
    Phase s part now
  marks : Marks s

theorem runInv_start : RunInv runStart where
  rounds := ⟨[], [], [], rfl, rfl, .idle rfl rfl rfl rfl (.inl ⟨rfl, rfl⟩)⟩
  marks :=
    { killed_lt := fun _ h => absurd h List.not_mem_nil
      proc_lt := fun _ h => absurd h List.not_mem_nil
      marked := fun _ h => absurd h List.not_mem_nil
      resumed := fun before after proc pid h => by simp [runStart] at h }

/-! ### The kills -/

theorem neverResumesKilled_append {log : List Event} (h : NeverResumesKilled log) {e : Event}
    (he : ∀ proc pid, e = .served proc pid true → .killed proc ∉ log) :
    NeverResumesKilled (log ++ [e]) := by
  intro before after proc pid hlog
  rcases List.append_eq_append_iff.mp hlog with ⟨c, hbefore, hend⟩ | ⟨c, hlog', hend⟩
  · cases c with
    | nil =>
      obtain ⟨rfl, -⟩ : e = .served proc pid true ∧ [] = after := by simpa using hend
      rw [hbefore, List.append_nil]
      exact he proc pid rfl
    | cons d c => simp at hend
  · cases c with
    | nil =>
      obtain ⟨rfl, -⟩ : .served proc pid true = e ∧ after = [] := by simpa using hend
      rw [List.append_nil] at hlog'
      rw [← hlog']
      exact he proc pid rfl
    | cons d c =>
      obtain ⟨rfl, rfl⟩ : .served proc pid true = d ∧ after = c ++ [e] := by simpa using hend
      exact h before c proc pid hlog'

/-- Neither a kill nor a resumption. -/
def Event.isPlain : Event → Bool
  | .killed _ | .served _ _ true => false
  | _ => true

theorem Marks.plain {s : RunState} (h : Marks s) {t : RunState} {e : Event}
    (hprocs : t.procs = s.procs) (hforks : t.forks = s.forks) (hlog : t.log = s.log ++ [e])
    (he : e.isPlain = true) : Marks t := by
  have hkilled : ∀ proc, .killed proc ∈ t.log → .killed proc ∈ s.log := by
    intro proc hmem
    rw [hlog, List.mem_append, List.mem_singleton] at hmem
    rcases hmem with hmem | rfl
    · exact hmem
    · simp [Event.isPlain] at he
  refine ⟨?_, ?_, ?_, ?_⟩
  · rw [hforks]
    exact fun proc hmem => h.killed_lt proc (hkilled proc hmem)
  · rw [hprocs, hforks]
    exact h.proc_lt
  · rw [hprocs]
    exact fun p hp hmem => h.marked p hp (hkilled p.id hmem)
  · rw [hlog]
    refine neverResumesKilled_append h.resumed fun proc pid heq => ?_
    rw [heq] at he
    simp [Event.isPlain] at he

/-- The processes may change their state, and may disappear. -/
theorem Marks.procs {s : RunState} (h : Marks s) {t : RunState}
    (hprocs : ∀ q ∈ t.procs, ∃ p ∈ s.procs, q.id = p.id ∧ q.sigkill = p.sigkill)
    (hforks : t.forks = s.forks) (hlog : t.log = s.log) : Marks t := by
  refine ⟨?_, ?_, ?_, ?_⟩
  · rw [hlog, hforks]
    exact h.killed_lt
  · intro q hq
    obtain ⟨p, hp, hid, -⟩ := hprocs q hq
    rw [hid, hforks]
    exact h.proc_lt p hp
  · intro q hq hmem
    obtain ⟨p, hp, hid, hkill⟩ := hprocs q hq
    rw [hid, hlog] at hmem
    rw [hkill]
    exact h.marked p hp hmem
  · rw [hlog]
    exact h.resumed

/-- A process that has just been forked was never killed. -/
theorem Marks.fork {s : RunState} (h : Marks s) {t : RunState} {pid : BitVec 32} {p : Process}
    (hprocs : t.procs = [p]) (hid : p.id = s.forks)
    (hforks : t.forks = s.forks + 1) (hlog : t.log = s.log ++ [.served s.forks pid false]) :
    Marks t := by
  have hs : Marks { s with log := t.log } := h.plain rfl rfl hlog rfl
  refine ⟨fun proc hmem => ?_, fun q hq => ?_, fun q hq hmem => ?_, hs.resumed⟩
  · have := hs.killed_lt proc hmem
    rw [hforks]
    exact Nat.lt_succ_of_lt this
  · obtain rfl : q = p := by simpa [hprocs] using hq
    rw [hid, hforks]
    exact Nat.lt_succ_self _
  · obtain rfl : q = p := by simpa [hprocs] using hq
    have := hs.killed_lt q.id hmem
    rw [hid] at this
    exact absurd this (Nat.lt_irrefl _)

/-- A process that is resumed while `sigkill` is not set was never killed. -/
theorem Marks.resume {s : RunState} (h : Marks s) {t : RunState} {p : Process}
    (hone : s.procs = [p]) (hkill : p.sigkill = false) (hprocs : t.procs = [p.continued])
    (hforks : t.forks = s.forks) (hlog : t.log = s.log ++ [.served p.id p.pid true]) :
    Marks t := by
  have hp : p ∈ s.procs := by rw [hone]; exact List.mem_singleton_self p
  have hunkilled : .killed p.id ∉ s.log := by
    intro hmem
    have := h.marked p hp hmem
    rw [hkill] at this
    exact absurd this Bool.false_ne_true
  have hkilled : ∀ proc, .killed proc ∈ t.log → .killed proc ∈ s.log := by
    intro proc hmem
    simpa [hlog] using hmem
  refine ⟨fun proc hmem => ?_, fun q hq => ?_, fun q hq hmem => ?_, ?_⟩
  · rw [hforks]
    exact h.killed_lt proc (hkilled proc hmem)
  · obtain rfl : q = p.continued := by simpa [hprocs] using hq
    rw [hforks]
    exact h.proc_lt p hp
  · obtain rfl : q = p.continued := by simpa [hprocs] using hq
    exact absurd (hkilled p.id hmem) hunkilled
  · rw [hlog]
    refine neverResumesKilled_append h.resumed fun proc pid heq => ?_
    obtain ⟨rfl, -⟩ : p.id = proc ∧ p.pid = pid := by simpa using heq
    exact hunkilled

/-- A kill is marked in the process. -/
theorem Marks.kill {s : RunState} (h : Marks s) {t : RunState} {p : Process}
    (hone : s.procs = [p]) (hprocs : t.procs = [p.sigkilled]) (hforks : t.forks = s.forks)
    (hlog : t.log = s.log ++ [.killed p.id]) : Marks t := by
  have hp : p ∈ s.procs := by rw [hone]; exact List.mem_singleton_self p
  refine ⟨fun proc hmem => ?_, fun q hq => ?_, fun q hq _ => ?_, ?_⟩
  · rw [hlog, List.mem_append, List.mem_singleton] at hmem
    rw [hforks]
    rcases hmem with hmem | heq
    · exact h.killed_lt proc hmem
    · obtain rfl : proc = p.id := by simpa using heq
      exact h.proc_lt p hp
  · obtain rfl : q = p.sigkilled := by simpa [hprocs] using hq
    rw [hforks]
    exact h.proc_lt p hp
  · obtain rfl : q = p.sigkilled := by simpa [hprocs] using hq
    rfl
  · rw [hlog]
    exact neverResumesKilled_append h.resumed fun proc pid heq => by simp at heq

/-! ### One step -/

/-- A step leads to a phase of the same round, or ends the round, and notes what has happened. -/
def Progress (s t : RunState) (part now : List Event) : Prop :=
  ∃ (noted : List Event) (rounds : List Round) (part' now' : List Event),
    t.log = s.log ++ noted ∧
    part ++ noted.filter Event.isExchange = rounds.flatMap Round.exchange ++ part' ∧
    now ++ noted.filter Event.isRead = rounds.flatMap Round.reads ++ now' ∧
    Phase t part' now'

/-- How many steps the round may still take. -/
def RunPc.work : RunPc → ℕ
  | .idle => 0
  | .recvPid _ => 4
  | .timedRead _ => 3
  | .kill => 2
  | .recvLate => 1
  | .fatal => 0

def LoopPc.work (ctl : Pipe) : LoopPc → ℕ
  | .recvRequest => if ctl = [] then 0 else 6
  | .reapKilled => 5
  | .serve => 4
  | .sendPid => 3
  | .waitChild => 2
  | .sendStatus _ _ => 1
  | .exited => 0

def procWork (p : Process) : ℕ :=
  match p.state with
  | .running => 2
  | .stopped => 1
  | .zombie => 0

/-- A step of the forkserver counts for three, as it may start a child. -/
def runWork (s : RunState) : ℕ :=
  s.fuzzer.work + 3 * s.loop.work s.ctl + (s.procs.map procWork).sum

theorem procWork_le (p : Process) : procWork p ≤ 2 := by
  rw [procWork]
  split <;> omega

theorem procWork_act {p q : Process} {a : ChildAct} (h : p.act a = some q) :
    procWork q < procWork p := by
  cases a with
  | stop =>
    simp only [Process.act, Option.ite_none_right_eq_some, Option.some.injEq] at h
    obtain ⟨hrunning, rfl⟩ := h
    simp [procWork, hrunning]
  | exit status lost =>
    simp only [Process.act, Option.ite_none_right_eq_some, Option.some.injEq] at h
    obtain ⟨⟨hrunning, -⟩, rfl⟩ := h
    simp [procWork, Process.ends, hrunning]
  | die lost =>
    simp only [Process.act, Option.ite_none_right_eq_some, Option.some.injEq] at h
    obtain ⟨⟨-, hzombie⟩, rfl⟩ := h
    cases hstate : p.state <;> simp_all [procWork, Process.ends]

structure Advances (s t : RunState) (part now : List Event) : Prop where
  progress : Progress s t part now
  marks : Marks t
  work : runWork t < runWork s

theorem Progress.silent {s t : RunState} {part now : List Event} (hlog : t.log = s.log)
    (h : Phase t part now) : Progress s t part now :=
  ⟨[], [], part, now, by simp [hlog], by simp, by simp, h⟩

theorem Progress.exchange {s t : RunState} {part now : List Event} {e : Event}
    (he : e.isExchange = true) (hread : e.isRead = false) (hlog : t.log = s.log ++ [e])
    (h : Phase t (part ++ [e]) now) : Progress s t part now :=
  ⟨[e], [], part ++ [e], now, hlog, by simp [he], by simp [hread], h⟩

theorem RunInv.of_progress {s t : RunState} {rounds : List Round} {part now : List Event}
    (hexchange : s.log.filter Event.isExchange = rounds.flatMap Round.exchange ++ part)
    (hread : s.log.filter Event.isRead = rounds.flatMap Round.reads ++ now)
    (h : Progress s t part now) (hmarks : Marks t) : RunInv t := by
  obtain ⟨noted, rounds', part', now', hlog, hpart, hnow, hphase⟩ := h
  refine ⟨⟨rounds ++ rounds', part', now', ?_, ?_, hphase⟩, hmarks⟩
  · rw [hlog, List.filter_append, hexchange, List.append_assoc, hpart, List.flatMap_append,
      List.append_assoc]
  · rw [hlog, List.filter_append, hread, List.append_assoc, hnow, List.flatMap_append,
      List.append_assoc]

theorem Replying.child {s : RunState} {pid : BitVec 32} {tail : List Byte} {part : List Event}
    {killed : Bool} (h : Replying s pid tail part killed) {pid' : BitVec 32} {a : ChildAct}
    {procs : ProcTable} (hact : s.procs.childAct pid' a = some procs) :
    Replying { s with procs := procs } pid tail part killed := by
  cases h with
  | working word proc resumed _ hloop hserving =>
    exact .working word proc resumed _ hloop (hserving.child hact)
  | reported word proc resumed status _ hloop hchild hparked =>
    exact .reported word proc resumed status _ hloop hchild (hparked.child hact)
  | answered word proc resumed status _ hloop hchild hparked =>
    exact .answered word proc resumed status _ hloop hchild (hparked.child hact)

/-- The child does something by itself. -/
theorem Phase.child {s : RunState} {part now : List Event} (h : Phase s part now)
    {pid : BitVec 32} {a : ChildAct} {procs : ProcTable}
    (hact : s.procs.childAct pid a = some procs) :
    Phase { s with procs := procs } part now := by
  cases h with
  | idle hfuzzer hloop hctl hst hparked => exact .idle hfuzzer hloop hctl hst (hparked.child hact)
  | asked word hask hloop hctl hparked =>
    exact .asked word (hask.frame rfl rfl rfl) hloop hctl (hparked.child hact)
  | reaping word hask hloop hctl hstopped hparked =>
    exact .reaping word (hask.frame rfl rfl rfl) hloop hctl hstopped (hparked.child hact)
  | serving word hask hloop hctl hparked =>
    exact .serving word (hask.frame rfl rfl rfl) hloop hctl (hparked.child hact)
  | served word proc pid resumed hask hloop hctl hpos hserving =>
    exact .served word proc pid resumed (hask.frame rfl rfl rfl) hloop hctl hpos
      (hserving.child hact)
  | replying pid tail _ _ killed hreading hreplying hctl hpos =>
    exact .replying pid tail part now killed (hreading.frame rfl rfl rfl rfl)
      (hreplying.child hact) hctl hpos

theorem Phase.eq_idle {s : RunState} {part now : List Event} (h : Phase s part now)
    (hfuzzer : s.fuzzer = .idle) : part = [] ∧ now = [] ∧ s.loop = .recvRequest ∧ s.ctl = [] ∧
      s.st = [] ∧ Parked s (decide (s.lastRunTimedOut ≠ 0)) := by
  have hasking : ¬ Asking s := by
    rintro ⟨⟨timeout, htimeout, -⟩, -, -⟩
    simp [hfuzzer] at htimeout
  have hreading : ∀ {pid tail now killed}, ¬ Reading s pid tail now killed := by
    intro pid tail now killed hreading
    cases hreading with
    | recvPid timeout hf _ _ _ => simp [hfuzzer] at hf
    | timedRead timeout hf _ _ _ _ => simp [hfuzzer] at hf
    | kill hf _ _ => simp [hfuzzer] at hf
    | recvLate hf _ _ => simp [hfuzzer] at hf
  cases h with
  | idle _ hloop hctl hst hparked => exact ⟨rfl, rfl, hloop, hctl, hst, hparked⟩
  | asked _ hask _ _ _ => exact absurd hask hasking
  | reaping _ hask _ _ _ _ => exact absurd hask hasking
  | serving _ hask _ _ _ => exact absurd hask hasking
  | served _ _ _ _ hask _ _ _ _ => exact absurd hask hasking
  | replying _ _ _ _ _ hread _ _ _ => exact absurd hread hreading

/-- The fuzzer asks for the next run. -/
theorem Phase.request {s t : RunState} {part now : List Event} (h : Phase s part now)
    (hmarks : Marks s) {cap : ℕ} {timeout : BitVec 32} (htimeout : timeout ≠ 0)
    (hstep : requestStep cap timeout s = some t) : Progress s t part now ∧ Marks t := by
  have hidle : s.fuzzer = .idle := by
    by_contra hne
    rw [requestStep] at hstep
    split at hstep
    · contradiction
    · exact absurd hstep (by simp)
  obtain ⟨rfl, rfl, hloop, hctl, hst, hparked⟩ := h.eq_idle hidle
  simp only [requestStep, hidle, hctl, Pipe.send, Option.map_eq_some_iff,
    Option.ite_none_right_eq_some, Option.some.injEq] at hstep
  obtain ⟨ctl, ⟨-, rfl⟩, rfl⟩ := hstep
  refine ⟨.exchange rfl rfl rfl ?_, hmarks.plain rfl rfl rfl rfl⟩
  exact .asked s.lastRunTimedOut ⟨⟨timeout, rfl, htimeout⟩, hst, rfl⟩ hloop rfl hparked

/-! ### Steps of the forkserver -/

section Loop

variable {s t : RunState} {cap : ℕ} {isPersistent : Bool} {fork : BitVec 32}

/-- The forkserver reads the request. A child that stopped and was killed is to be reaped first. -/
theorem loop_asked {word : BitVec 32} (hask : Asking s) (hloop : s.loop = .recvRequest)
    (hctl : s.ctl = le32 word) (hparked : Parked s (decide (word ≠ 0))) (hmarks : Marks s)
    (hstep : loopStep cap isPersistent fork s = some t) :
    Advances s t [.request word] [] := by
  have hrecv := Pipe.recv32_append word []
  rw [List.append_nil] at hrecv
  simp only [loopStep, hloop, hctl, hrecv, Option.map_some, Option.some.injEq] at hstep
  subst hstep
  have hne : le32 word ≠ [] := le32_ne_nil word
  refine ⟨.silent rfl ?_, hmarks.procs (fun q hq => ⟨q, hq, rfl, rfl⟩) rfl rfl, ?_⟩
  · by_cases hreap : s.childStopped = true ∧ word ≠ 0
    · rw [decide_eq_true hreap.2] at hparked
      exact .reaping word (hask.frame rfl rfl rfl) (if_pos hreap) rfl hreap.1 hparked
    · refine .serving word (hask.frame rfl rfl rfl) (if_neg hreap) rfl ?_
      rcases hparked with ⟨hstopped, hnone⟩ | ⟨hstopped, hpos, p, hone, hpid, hkill, hhalted⟩
      · exact .inl ⟨hstopped, hnone⟩
      · have hword : ¬ word ≠ 0 := fun hne => hreap ⟨hstopped, hne⟩
        rw [decide_eq_false hword] at hkill
        exact .inr ⟨hstopped, hpos, p, hone, hpid, hkill, hhalted⟩
  · have hnext : LoopPc.work [] (if s.childStopped = true ∧ word ≠ 0 then .reapKilled else .serve) ≤
        5 := by
      split <;> simp [LoopPc.work]
    simp only [runWork]
    rw [hloop, hctl, LoopPc.work, if_neg hne]
    omega

/-- The child that was killed is written off. -/
theorem loop_reaping {word : BitVec 32} (hask : Asking s) (hloop : s.loop = .reapKilled)
    (hctl : s.ctl = []) (hstopped : s.childStopped = true) (hparked : Parked s true)
    (hmarks : Marks s) (hstep : loopStep cap isPersistent fork s = some t) :
    Advances s t [.request word] [] := by
  rcases hparked with ⟨hrunning, -⟩ | ⟨-, hpos, p, hone, hpid, hkill, hhalted⟩
  · rw [hstopped] at hrunning
    exact absurd hrunning.symm Bool.false_ne_true
  · simp only [loopStep, hloop, hone, ← hpid, Option.map_eq_some_iff] at hstep
    obtain ⟨r, hwait, rfl⟩ := hstep
    obtain ⟨status, rfl⟩ := ProcTable.waitpid_halted hhalted hwait
    refine ⟨.silent rfl (.serving word (hask.frame rfl rfl rfl) rfl hctl (.inl ⟨rfl, rfl⟩)),
      hmarks.procs (fun q hq => absurd hq List.not_mem_nil) rfl rfl, ?_⟩
    simp only [runWork, hloop, hone, LoopPc.work, List.map_nil, List.sum_nil]
    omega

/-- The request goes to a new process, or to the one that is stopped. -/
theorem loop_serving {word : BitVec 32} (hask : Asking s) (hloop : s.loop = .serve)
    (hctl : s.ctl = []) (hparked : Parked s false) (hmarks : Marks s) (hfork : 0 < fork.toInt)
    (hstep : loopStep cap isPersistent fork s = some t) :
    Advances s t [.request word] [] := by
  rcases hparked with ⟨hstopped, hnone⟩ | ⟨hstopped, hpos, p, hone, hpid, hkill, hhalted⟩
  · have hok : ¬ fork.toInt < 0 := by omega
    rw [loopStep, hloop] at hstep
    simp only [if_pos hstopped, if_neg hok, hnone, List.nil_append, Option.some.injEq] at hstep
    subst hstep
    refine ⟨.exchange rfl rfl rfl ?_, hmarks.fork rfl rfl rfl rfl, ?_⟩
    · exact .served word s.forks fork false (hask.frame rfl rfl rfl) rfl hctl hfork
        ⟨hstopped, rfl, _, rfl, rfl, rfl, rfl, .running rfl rfl⟩
    · simp [runWork, RunState.note, hloop, hnone, LoopPc.work, procWork]
  · have hne : ¬ s.childStopped = false := by simp [hstopped]
    rw [loopStep, hloop] at hstep
    simp only [if_neg hne, hone, ← hpid, ProcTable.find_singleton, ProcTable.update_singleton,
      Option.some.injEq] at hstep
    subst hstep
    refine ⟨.exchange rfl rfl rfl ?_, hmarks.resume hone hkill rfl rfl rfl, ?_⟩
    · exact .served word p.id p.pid true (hask.frame rfl rfl rfl) rfl hctl (by rwa [hpid])
        ⟨rfl, rfl, p.continued, rfl, rfl, rfl, hkill, hhalted.continued hkill⟩
    · have := procWork_le p.continued
      simp only [runWork, RunState.note, hloop, hone, LoopPc.work, List.map_singleton,
        List.sum_singleton]
      omega

theorem loop_sendPid {word : BitVec 32} {proc : ℕ} {pid : BitVec 32} {resumed : Bool}
    (hask : Asking s) (hloop : s.loop = .sendPid) (hctl : s.ctl = []) (hpos : 0 < pid.toInt)
    (hserving : Serving s proc pid false) (hmarks : Marks s)
    (hstep : loopStep cap isPersistent fork s = some t) :
    Advances s t [.request word, .served proc pid resumed] [] := by
  obtain ⟨hstopped, rfl, p, hone, hid, hpid, hkill, hunreported⟩ := hserving
  obtain ⟨⟨timeout, hfuzzer, htimeout⟩, hst, hlast⟩ := hask
  simp only [loopStep, hloop, hst, Pipe.send, Option.map_eq_some_iff,
    Option.ite_none_right_eq_some, Option.some.injEq] at hstep
  obtain ⟨st, ⟨-, rfl⟩, rfl⟩ := hstep
  refine ⟨.exchange rfl rfl rfl ?_, hmarks.plain rfl rfl rfl rfl, ?_⟩
  · exact .replying s.childPid [] _ [] false
      (.recvPid timeout hfuzzer htimeout (List.append_nil _).symm hlast)
      (.working word proc resumed false rfl
        ⟨hstopped, rfl, p, hone, hid, hpid, hkill, hunreported⟩) hctl hpos
  · simp only [runWork, RunState.note, hloop, LoopPc.work]
    omega

/-- The forkserver learns that the child has stopped or ended. -/
theorem loop_waitChild {word : BitVec 32} {proc : ℕ} {pid : BitVec 32} {resumed : Bool}
    {now : List Event} {killed : Bool} (hreading : Reading s pid [] now killed)
    (hloop : s.loop = .waitChild) (hctl : s.ctl = []) (hpos : 0 < pid.toInt)
    (hserving : Serving s proc pid killed) (hmarks : Marks s)
    (hstep : loopStep cap isPersistent fork s = some t) :
    Advances s t [.request word, .served proc pid resumed, .sentPid pid] now := by
  obtain ⟨hstopped, rfl, p, hone, hid, hpid, hkill, hunreported⟩ := hserving
  simp only [loopStep, hloop, hone, ← hpid, Option.map_eq_some_iff] at hstep
  obtain ⟨r, hwait, rfl⟩ := hstep
  obtain ⟨status, ps, rfl, ⟨hstop, q, rfl, hqid, hqpid, hqkill, hhalted⟩ | ⟨hend, rfl⟩⟩ :=
    ProcTable.waitpid_unreported hunreported hwait
  · refine ⟨.silent rfl (.replying s.childPid [] _ now killed (hreading.frame rfl rfl rfl rfl)
      (.reported word proc resumed status killed (congrArg (LoopPc.sendStatus · status) hid) hpid
        (.inr ⟨if_pos hstop, ?_⟩)) hctl hpos),
      hmarks.procs (fun q' hq' => ?_) rfl rfl, ?_⟩
    · exact ⟨hpid ▸ hpos, q, rfl, hqpid, hqkill.trans hkill, hhalted⟩
    · obtain rfl : q' = q := List.mem_singleton.mp hq'
      exact ⟨p, by rw [hone]; exact List.mem_singleton_self p, hqid, hqkill⟩
    · have := procWork_le q
      simp only [runWork, hloop, hone, LoopPc.work, List.map_singleton, List.sum_singleton]
      omega
  · refine ⟨.silent rfl (.replying s.childPid [] _ now killed (hreading.frame rfl rfl rfl rfl)
      (.reported word proc resumed status killed (congrArg (LoopPc.sendStatus · status) hid) hpid
        (.inl ⟨?_, rfl⟩)) hctl hpos),
      hmarks.procs (fun q' hq' => absurd hq' List.not_mem_nil) rfl rfl, ?_⟩
    · simp [hend, hstopped]
    · simp only [runWork, hloop, hone, LoopPc.work, List.map_nil, List.sum_nil]
      omega

theorem loop_sendStatus {word : BitVec 32} {proc : ℕ} {pid : BitVec 32} {resumed : Bool}
    {status : BitVec 32} {now : List Event} {killed : Bool} (hreading : Reading s pid [] now killed)
    (hloop : s.loop = .sendStatus proc status) (hctl : s.ctl = []) (hpos : 0 < pid.toInt)
    (hchild : s.childPid = pid) (hparked : Parked s killed) (hmarks : Marks s)
    (hstep : loopStep cap isPersistent fork s = some t) :
    Advances s t [.request word, .served proc pid resumed, .sentPid pid] now := by
  simp only [loopStep, hloop, Pipe.send, Option.map_eq_some_iff,
    Option.ite_none_right_eq_some, Option.some.injEq] at hstep
  obtain ⟨st, ⟨-, rfl⟩, rfl⟩ := hstep
  refine ⟨.exchange rfl rfl rfl ?_, hmarks.plain rfl rfl rfl rfl, ?_⟩
  · refine .replying pid (le32 status) _ now killed ?_
      (.answered word proc resumed status killed rfl hchild hparked) hctl hpos
    cases hreading with
    | recvPid timeout hf htimeout hs hl =>
      refine .recvPid timeout hf htimeout ?_ hl
      simp [RunState.note, hs]
    | timedRead timeout hf htimeout hp hs hl =>
      refine .timedRead timeout hf htimeout hp ?_ hl
      simp [RunState.note, hs]
    | kill hf hp hs =>
      refine .kill hf hp ?_
      simp [RunState.note, hs]
    | recvLate hf hs hl =>
      refine .recvLate hf ?_ hl
      simp [RunState.note, hs]
  · simp only [runWork, RunState.note, hloop, hctl, LoopPc.work, if_true]
    omega

theorem Phase.loop {part now : List Event} (h : Phase s part now) (hmarks : Marks s)
    (hfork : 0 < fork.toInt) (hstep : loopStep cap isPersistent fork s = some t) :
    Advances s t part now := by
  cases h with
  | idle _ hloop hctl _ _ => simp [loopStep, hloop, hctl, Pipe.recv32] at hstep
  | asked word hask hloop hctl hparked => exact loop_asked hask hloop hctl hparked hmarks hstep
  | reaping word hask hloop hctl hstopped hparked =>
    exact loop_reaping hask hloop hctl hstopped hparked hmarks hstep
  | serving word hask hloop hctl hparked =>
    exact loop_serving hask hloop hctl hparked hmarks hfork hstep
  | served word proc pid resumed hask hloop hctl hpos hserving =>
    exact loop_sendPid hask hloop hctl hpos hserving hmarks hstep
  | replying pid tail _ _ killed hreading hreplying hctl hpos =>
    cases hreplying with
    | working word proc resumed _ hloop hserving =>
      exact loop_waitChild hreading hloop hctl hpos hserving hmarks hstep
    | reported word proc resumed status _ hloop hchild hparked =>
      exact loop_sendStatus hreading hloop hctl hpos hchild hparked hmarks hstep
    | answered word proc resumed status _ hloop hchild hparked =>
      simp [loopStep, hloop, hctl, Pipe.recv32] at hstep

end Loop

/-! ### Steps of the fuzzer -/

section Fuzzer

variable {s t : RunState} {elapsed : BitVec 32}

theorem execMs_le {timeout : BitVec 32} (h : timeout ≠ 0) (elapsed : BitVec 32) :
    ¬ execMs timeout elapsed > timeout ∧ execMs timeout elapsed ≠ 0 := by
  by_cases hlt : timeout < elapsed
  · have hpos : timeout > 0 := by bv_omega
    simp only [execMs, if_pos hlt, if_pos hpos]
    bv_omega
  · by_cases hpos : elapsed > 0
    · simp only [execMs, if_neg hlt, if_pos hpos]
      bv_omega
    · simp only [execMs, if_neg hlt, if_neg hpos]
      bv_omega

/-- A timed read that is not cut short by the timeout ends the run. -/
theorem afterTimedRead_read {timeout : BitVec 32} (h : timeout ≠ 0) (elapsed : BitVec 32)
    (s : RunState) : s.afterTimedRead timeout (execMs timeout elapsed) = s.finish := by
  obtain ⟨hle, hne⟩ := execMs_le h elapsed
  rw [RunState.afterTimedRead, if_neg hle, if_neg hne]

/-- A `poll` that gives up leads to the kill. -/
theorem afterTimedRead_timeout {timeout : BitVec 32} (hpoll : 0 ≤ timeout.toInt) (s : RunState) :
    s.afterTimedRead timeout (timeout + 1) = { s with fuzzer := .kill } := by
  have hlt : timeout + 1 > timeout := by
    rw [BitVec.toInt_eq_toNat_cond] at hpoll
    split at hpoll <;> bv_omega
  rw [RunState.afterTimedRead, if_pos hlt]

theorem Parked.sigkilled {killed : Bool} (h : Parked s killed)
    (hstopped : t.childStopped = s.childStopped) (hchild : t.childPid = s.childPid)
    (hprocs : t.procs = s.procs.update s.childPid Process.sigkilled) : Parked t true := by
  rcases h with ⟨hrunning, hnone⟩ | ⟨hhalted, hpos, p, hone, hpid, -, hp⟩
  · exact .inl ⟨hstopped.trans hrunning, by rw [hprocs, hnone]; rfl⟩
  · refine .inr ⟨hstopped.trans hhalted, by rwa [hchild], p.sigkilled, ?_, ?_, rfl, hp.sigkilled⟩
    · rw [hprocs, hone, ← hpid, ProcTable.update_singleton]
    · rw [hchild]
      exact hpid

theorem Serving.sigkilled {proc : ℕ} {pid : BitVec 32} {killed : Bool}
    (h : Serving s proc pid killed) (hstopped : t.childStopped = s.childStopped)
    (hchild : t.childPid = s.childPid)
    (hprocs : t.procs = s.procs.update pid Process.sigkilled) : Serving t proc pid true := by
  obtain ⟨hrunning, hpid, p, hone, hid, hppid, -, hp⟩ := h
  refine ⟨hstopped.trans hrunning, hchild.trans hpid, p.sigkilled, ?_, hid, hppid, rfl,
    hp.sigkilled⟩
  rw [hprocs, hone, ← hppid, ProcTable.update_singleton]

theorem Replying.sigkilled {pid : BitVec 32} {tail : List Byte} {part : List Event} {killed : Bool}
    (h : Replying s pid tail part killed) (hloop : t.loop = s.loop)
    (hstopped : t.childStopped = s.childStopped) (hchild : t.childPid = s.childPid)
    (hprocs : t.procs = s.procs.update pid Process.sigkilled) :
    Replying t pid tail part true := by
  cases h with
  | working word proc resumed _ hl hserving =>
    exact .working word proc resumed true (hloop.trans hl)
      (hserving.sigkilled hstopped hchild hprocs)
  | reported word proc resumed status _ hl hpid hparked =>
    subst hpid
    exact .reported word proc resumed status true (hloop.trans hl) hchild
      (hparked.sigkilled hstopped hchild hprocs)
  | answered word proc resumed status _ hl hpid hparked =>
    subst hpid
    exact .answered word proc resumed status true (hloop.trans hl) hchild
      (hparked.sigkilled hstopped hchild hprocs)

/-- The child that the fuzzer knows of is there, or has been reaped. -/
theorem Replying.procs {pid : BitVec 32} {tail : List Byte} {part : List Event} {killed : Bool}
    (h : Replying s pid tail part killed) :
    s.procs = [] ∨ ∃ p, s.procs = [p] ∧ p.pid = pid := by
  have hparked : Parked s killed → s.childPid = pid →
      s.procs = [] ∨ ∃ p, s.procs = [p] ∧ p.pid = pid := by
    rintro (⟨-, hnone⟩ | ⟨-, -, p, hone, hp, -, -⟩) hchild
    · exact .inl hnone
    · exact .inr ⟨p, hone, hp.trans hchild⟩
  cases h with
  | working _ _ _ _ _ hserving =>
    obtain ⟨-, -, p, hone, -, hp, -, -⟩ := hserving
    exact .inr ⟨p, hone, hp⟩
  | reported _ _ _ _ _ _ hchild h => exact hparked h hchild
  | answered _ _ _ _ _ _ hchild h => exact hparked h hchild

/-- A step of the fuzzer that does not touch the forkserver. -/
theorem Replying.frame {pid : BitVec 32} {tail : List Byte} {part : List Event} {killed : Bool}
    (h : Replying s pid tail part killed) (hloop : t.loop = s.loop)
    (hstopped : t.childStopped = s.childStopped) (hchild : t.childPid = s.childPid)
    (hprocs : t.procs = s.procs) : Replying t pid tail part killed := by
  cases h with
  | working word proc resumed _ hl hserving =>
    refine .working word proc resumed _ (hloop.trans hl) ?_
    rwa [Serving, hstopped, hchild, hprocs]
  | reported word proc resumed status _ hl hpid hparked =>
    refine .reported word proc resumed status _ (hloop.trans hl) (hchild.trans hpid) ?_
    rwa [Parked, hstopped, hchild, hprocs]
  | answered word proc resumed status _ hl hpid hparked =>
    refine .answered word proc resumed status _ (hloop.trans hl) (hchild.trans hpid) ?_
    rwa [Parked, hstopped, hchild, hprocs]

/-- The fuzzer learns which process serves its request. -/
theorem fuzzer_recvPid {pid : BitVec 32} {tail : List Byte} {part : List Event}
    {timeout : BitVec 32}
    (hfuzzer : s.fuzzer = .recvPid timeout) (htimeout : timeout ≠ 0) (hst : s.st = le32 pid ++ tail)
    (hlast : s.lastRunTimedOut = 0) (hreplying : Replying s pid tail part false)
    (hctl : s.ctl = []) (hpos : 0 < pid.toInt) (hmarks : Marks s)
    (hstep : runTargetStep elapsed s = some t) : Advances s t part [] := by
  have hok : ¬ pid.toInt ≤ 0 := by omega
  simp only [runTargetStep, hfuzzer, hst, Pipe.recv32_append, Option.map_some, if_neg hok,
    Option.some.injEq] at hstep
  subst hstep
  refine ⟨⟨[.gotPid pid], [], part, [.gotPid pid], rfl, ?_, rfl, ?_⟩,
    hmarks.plain rfl rfl rfl rfl, ?_⟩
  · simp [Event.isExchange]
  · exact .replying pid tail part [.gotPid pid] false
      (.timedRead timeout rfl htimeout rfl rfl hlast)
      (hreplying.frame rfl rfl rfl rfl) hctl hpos
  · simp only [runWork, RunState.note, hfuzzer, RunPc.work]
    omega

/-- The fuzzer reads the status; `hnext` is what it makes of it. -/
theorem fuzzer_recvStatus {pid : BitVec 32} {tail : List Byte} {part : List Event} {killed : Bool}
    (hreplying : Replying s pid tail part killed) (hst : s.st = tail)
    (hlast : s.lastRunTimedOut = if killed then 1 else 0) (hctl : s.ctl = []) (hmarks : Marks s)
    (hwork : 0 < s.fuzzer.work)
    {next : Option (BitVec 32) × Pipe → RunState}
    (hnext : ∀ status, next (some status, []) =
      ({ s with st := [], childStatus := status }.note (.gotStatus status)).finish)
    (hstep : (Pipe.recv32 s.st).map next = some t) :
    Advances s t part [.gotPid pid] := by
  rw [hst] at hstep
  cases hreplying with
  | working => simp [Pipe.recv32] at hstep
  | reported => simp [Pipe.recv32] at hstep
  | answered word proc resumed status _ hloop hchild hparked =>
    have hrecv := Pipe.recv32_append status []
    rw [List.append_nil] at hrecv
    rw [hrecv, Option.map_some, Option.some.injEq, hnext] at hstep
    subst hstep
    refine ⟨⟨[.gotStatus status], [⟨word, proc, pid, resumed, status⟩], [], [], rfl, ?_, rfl, ?_⟩,
      hmarks.plain rfl rfl rfl rfl, ?_⟩
    · simp [Event.isExchange]
    · refine .idle rfl hloop hctl rfl ?_
      have hkilled : decide (s.lastRunTimedOut ≠ 0) = killed := by
        rw [hlast]
        cases killed <;> rfl
      exact hkilled ▸ hparked
    · have hidle : RunPc.work .idle = 0 := rfl
      simp only [runWork, RunState.finish, RunState.note, hidle]
      omega

/-- The fuzzer kills the child. -/
theorem fuzzer_kill {pid : BitVec 32} {tail : List Byte} {part : List Event}
    (hfuzzer : s.fuzzer = .kill) (hpid : s.fsrvChildPid = pid) (hst : s.st = tail)
    (hreplying : Replying s pid tail part false) (hctl : s.ctl = []) (hpos : 0 < pid.toInt)
    (hmarks : Marks s) (hstep : runTargetStep elapsed s = some t) :
    Advances s t part [.gotPid pid] := by
  subst hpid
  rcases hreplying.procs with hnone | ⟨p, hone, hp⟩
  · simp only [runTargetStep, hfuzzer, gt_iff_lt, if_pos hpos, hnone, ProcTable.find_nil,
      ProcTable.update_nil, Option.some.injEq] at hstep
    subst hstep
    refine ⟨.silent rfl ?_, hmarks.procs (fun q hq => absurd hq List.not_mem_nil) rfl rfl, ?_⟩
    · exact .replying s.fsrvChildPid tail part _ true (.recvLate rfl hst rfl)
        (hreplying.sigkilled rfl rfl rfl (by rw [hnone]; rfl)) hctl hpos
    · simp only [runWork, hfuzzer, hnone, RunPc.work]
      omega
  · simp only [runTargetStep, hfuzzer, gt_iff_lt, if_pos hpos] at hstep
    rw [hone, ← hp, ProcTable.find_singleton, ProcTable.update_singleton] at hstep
    simp only [Option.some.injEq] at hstep
    subst hstep
    refine ⟨⟨[.killed p.id], [], part, [.gotPid s.fsrvChildPid], rfl, ?_, rfl, ?_⟩,
      hmarks.kill hone rfl rfl rfl, ?_⟩
    · simp [Event.isExchange]
    · exact .replying s.fsrvChildPid tail part _ true (.recvLate rfl hst rfl)
        (hreplying.sigkilled rfl rfl rfl (by rw [hone, ← hp, ProcTable.update_singleton]; rfl))
        hctl hpos
    · have hsame : procWork p.sigkilled = procWork p := rfl
      simp only [runWork, RunState.note, hfuzzer, hone, RunPc.work, List.map_singleton, hsame]
      omega

theorem Phase.fuzzer {part now : List Event} (h : Phase s part now) (hmarks : Marks s)
    (hstep : runTargetStep elapsed s = some t) : Advances s t part now := by
  have hasking : ¬ Asking s := by
    rintro ⟨⟨timeout, htimeout, -⟩, hst, -⟩
    simp [runTargetStep, htimeout, hst, Pipe.recv32] at hstep
  cases h with
  | idle hfuzzer _ _ _ _ => simp [runTargetStep, hfuzzer] at hstep
  | asked _ hask _ _ _ => exact absurd hask hasking
  | reaping _ hask _ _ _ _ => exact absurd hask hasking
  | serving _ hask _ _ _ => exact absurd hask hasking
  | served _ _ _ _ hask _ _ _ _ => exact absurd hask hasking
  | replying pid tail _ _ killed hreading hreplying hctl hpos =>
    cases hreading with
    | recvPid timeout hfuzzer htimeout hst hlast =>
      exact fuzzer_recvPid hfuzzer htimeout hst hlast hreplying hctl hpos hmarks hstep
    | timedRead timeout hfuzzer htimeout hpid hst hlast =>
      simp only [runTargetStep, hfuzzer] at hstep
      exact fuzzer_recvStatus hreplying hst hlast hctl hmarks (by simp [hfuzzer, RunPc.work])
        (fun status => afterTimedRead_read htimeout elapsed _) hstep
    | kill hfuzzer hpid hst =>
      exact fuzzer_kill hfuzzer hpid hst hreplying hctl hpos hmarks hstep
    | recvLate hfuzzer hst hlast =>
      simp only [runTargetStep, hfuzzer] at hstep
      exact fuzzer_recvStatus hreplying hst hlast hctl hmarks (by simp [hfuzzer, RunPc.work])
        (fun status => rfl) hstep

theorem Phase.timeout {part now : List Event} (h : Phase s part now) (hmarks : Marks s)
    (hstep : timeoutStep s = some t) : Advances s t part now := by
  have hasking : ¬ Asking s := by
    rintro ⟨⟨timeout, htimeout, -⟩, -, -⟩
    simp [timeoutStep, htimeout] at hstep
  cases h with
  | idle hfuzzer _ _ _ _ => simp [timeoutStep, hfuzzer] at hstep
  | asked _ hask _ _ _ => exact absurd hask hasking
  | reaping _ hask _ _ _ _ => exact absurd hask hasking
  | serving _ hask _ _ _ => exact absurd hask hasking
  | served _ _ _ _ hask _ _ _ _ => exact absurd hask hasking
  | replying pid tail _ _ killed hreading hreplying hctl hpos =>
    cases hreading with
    | timedRead timeout hfuzzer htimeout hpid hst hlast =>
      simp only [timeoutStep, hfuzzer, Option.ite_none_right_eq_some, Option.some.injEq] at hstep
      obtain ⟨⟨hempty, hpoll⟩, rfl⟩ := hstep
      rw [afterTimedRead_timeout hpoll]
      refine ⟨.silent rfl ?_, hmarks.procs (fun q hq => ⟨q, hq, rfl, rfl⟩) rfl rfl, ?_⟩
      · exact .replying pid tail part _ false (.kill rfl hpid hst)
          (hreplying.frame rfl rfl rfl rfl) hctl hpos
      · simp only [runWork, hfuzzer, RunPc.work]
        omega
    | recvPid timeout hfuzzer _ _ _ => simp [timeoutStep, hfuzzer] at hstep
    | kill hfuzzer _ _ => simp [timeoutStep, hfuzzer] at hstep
    | recvLate hfuzzer _ _ => simp [timeoutStep, hfuzzer] at hstep

end Fuzzer

/-! ### The invariant -/

section Invariant

variable {s t : RunState} {cap : ℕ} {isPersistent : Bool}

theorem Phase.procs {part now : List Event} (h : Phase s part now) :
    s.procs = [] ∨ ∃ p, s.procs = [p] := by
  have hparked : ∀ {killed}, Parked s killed → s.procs = [] ∨ ∃ p, s.procs = [p] := by
    rintro killed (⟨-, hnone⟩ | ⟨-, -, p, hone, -⟩)
    · exact .inl hnone
    · exact .inr ⟨p, hone⟩
  cases h with
  | idle _ _ _ _ h => exact hparked h
  | asked _ _ _ _ h => exact hparked h
  | reaping _ _ _ _ _ h => exact hparked h
  | serving _ _ _ _ h => exact hparked h
  | served _ _ _ _ _ _ _ _ h =>
    obtain ⟨-, -, p, hone, -⟩ := h
    exact .inr ⟨p, hone⟩
  | replying _ _ _ _ _ _ h _ _ => exact h.procs.imp_right fun ⟨p, hone, _⟩ => ⟨p, hone⟩

/-- Every step but the next request brings the end of the round nearer. -/
theorem Phase.advances {part now : List Event} (h : Phase s part now) (hmarks : Marks s)
    {a : RunAct} (ha : answering s a) (hstep : runStep cap isPersistent s a = some t) :
    Advances s t part now := by
  cases a with
  | request timeout => exact absurd rfl (ha.2 timeout)
  | fuzzer elapsed => exact h.fuzzer hmarks hstep
  | timeout => exact h.timeout hmarks hstep
  | loop fork => exact h.loop hmarks ha.1.1 hstep
  | child pid act =>
    obtain ⟨procs, hact, rfl⟩ := Option.map_eq_some_iff.mp hstep
    rcases h.procs with hnone | ⟨p, hone⟩
    · rw [hnone] at hact
      exact absurd hact ProcTable.childAct_nil
    · refine ⟨.silent rfl (h.child hact), ?_, ?_⟩
      all_goals
        rw [hone] at hact
        obtain ⟨q, hq, rfl⟩ := ProcTable.childAct_singleton hact
      · obtain ⟨hid, -, hkill⟩ := Process.act_id hq
        refine hmarks.procs (fun q' hq' => ?_) rfl rfl
        obtain rfl : q' = q := List.mem_singleton.mp hq'
        exact ⟨p, by rw [hone]; exact List.mem_singleton_self p, hid, hkill⟩
      · have := procWork_act hq
        simp only [runWork, hone, List.map_singleton, List.sum_singleton]
        omega

theorem RunInv.step (h : RunInv s) {a : RunAct} (hok : runOk s a)
    (hstep : runStep cap isPersistent s a = some t) : RunInv t := by
  obtain ⟨⟨rounds, part, now, hexchange, hread, hphase⟩, hmarks⟩ := h
  by_cases ha : ∃ timeout, a = .request timeout
  · obtain ⟨timeout, rfl⟩ := ha
    obtain ⟨hprogress, hmarks'⟩ := hphase.request hmarks hok hstep
    exact .of_progress hexchange hread hprogress hmarks'
  · have hadv := hphase.advances hmarks ⟨hok, fun timeout heq => ha ⟨timeout, heq⟩⟩ hstep
    exact .of_progress hexchange hread hadv.progress hadv.marks

theorem RunInv.work_lt (h : RunInv s) {a : RunAct} (ha : answering s a)
    (hstep : runStep cap isPersistent s a = some t) : runWork t < runWork s := by
  obtain ⟨⟨rounds, part, now, -, -, hphase⟩, hmarks⟩ := h
  exact (hphase.advances hmarks ha hstep).work

/-! ### What the invariant says -/

theorem Reading.begun {pid : BitVec 32} {tail : List Byte} {now : List Event} {killed : Bool}
    (h : Reading s pid tail now killed) (status : BitVec 32) :
    now <+: [.gotPid pid, .gotStatus status] ∧ s.fuzzer ≠ .idle ∧ s.fuzzer ≠ .fatal := by
  cases h with
  | recvPid _ hf _ _ _ => simp [hf]
  | timedRead _ hf _ _ _ _ => simp [hf]
  | kill hf _ _ => simp [hf]
  | recvLate hf _ _ => simp [hf]

theorem Replying.begun {pid : BitVec 32} {tail : List Byte} {part : List Event} {killed : Bool}
    (h : Replying s pid tail part killed) :
    (∃ last : Round, last.pid = pid ∧ part <+: last.exchange) ∧ s.loop ≠ .exited := by
  cases h with
  | working word proc resumed _ hloop _ =>
    exact ⟨⟨⟨word, proc, pid, resumed, 0⟩, rfl, by simp [Round.exchange]⟩, by simp [hloop]⟩
  | reported word proc resumed status _ hloop _ _ =>
    exact ⟨⟨⟨word, proc, pid, resumed, status⟩, rfl, by simp [Round.exchange]⟩, by simp [hloop]⟩
  | answered word proc resumed status _ hloop _ _ =>
    exact ⟨⟨⟨word, proc, pid, resumed, status⟩, rfl, List.prefix_refl _⟩, by simp [hloop]⟩

theorem Phase.begun {part now : List Event} (h : Phase s part now) :
    (∃ last : Round, part <+: last.exchange ∧ now <+: last.reads) ∧ s.fuzzer ≠ .fatal ∧
      s.loop ≠ .exited := by
  have hasking : Asking s → s.fuzzer ≠ .fatal := by
    rintro ⟨⟨timeout, hf, -⟩, -, -⟩
    simp [hf]
  cases h with
  | idle hf hloop _ _ _ =>
    exact ⟨⟨⟨0, 0, 0, false, 0⟩, List.nil_prefix, List.nil_prefix⟩, by simp [hf], by simp [hloop]⟩
  | asked word hask hloop _ _ =>
    exact ⟨⟨⟨word, 0, 0, false, 0⟩, by simp [Round.exchange], List.nil_prefix⟩, hasking hask,
      by simp [hloop]⟩
  | reaping word hask hloop _ _ _ =>
    exact ⟨⟨⟨word, 0, 0, false, 0⟩, by simp [Round.exchange], List.nil_prefix⟩, hasking hask,
      by simp [hloop]⟩
  | serving word hask hloop _ _ =>
    exact ⟨⟨⟨word, 0, 0, false, 0⟩, by simp [Round.exchange], List.nil_prefix⟩, hasking hask,
      by simp [hloop]⟩
  | served word proc pid resumed hask hloop _ _ _ =>
    exact ⟨⟨⟨word, proc, pid, resumed, 0⟩, by simp [Round.exchange], List.nil_prefix⟩,
      hasking hask, by simp [hloop]⟩
  | replying pid tail _ _ killed hreading hreplying _ _ =>
    obtain ⟨⟨last, rfl, hpart⟩, hloop⟩ := hreplying.begun
    obtain ⟨hnow, -, hfuzzer⟩ := hreading.begun last.status
    exact ⟨⟨last, hpart, hnow⟩, hfuzzer, hloop⟩

theorem RunInv.inStep (h : RunInv s) : RunsInStep s := by
  obtain ⟨⟨rounds, part, now, hexchange, hread, hphase⟩, -⟩ := h
  obtain ⟨⟨last, hpart, hnow⟩, hfuzzer, hloop⟩ := hphase.begun
  refine ⟨⟨rounds, last, part, now, hexchange, hread, hpart, hnow, fun hidle => ?_⟩, hfuzzer,
    hloop⟩
  obtain ⟨hpart, hnow, -, hctl, hst, -⟩ := hphase.eq_idle hidle
  exact ⟨hpart, hnow, hctl, hst⟩

/-! ### No side waits for ever -/

/-- A child that was killed dies, whether it runs or is stopped. -/
theorem zombie_of_sigkill {p : Process} (hone : s.procs = [p]) (hkill : p.sigkill = true)
    (hchild : ∀ pid act, s.procs.childAct pid act = none) : p.state = .zombie := by
  by_contra hzombie
  have hdie : p.act (.die false) = some (p.ends statusKill false) := if_pos ⟨hkill, hzombie⟩
  have := hchild p.pid (.die false)
  simp [hone, ProcTable.childAct, hdie] at this

theorem send_ne_none {cap : ℕ} (hcap : 4 ≤ cap) (x : BitVec 32) :
    Pipe.send cap [] (le32 x) ≠ none := by
  simp [Pipe.send, hcap]

theorem recv32_ne_none {p : Pipe} (h : p ≠ []) : Pipe.recv32 p ≠ none := by
  rw [Pipe.recv32, if_neg h]
  split <;> simp

/-- There is always a `pid` that is not in use. -/
theorem exists_fork (h : s.procs = [] ∨ ∃ p, s.procs = [p]) :
    ∃ fork : BitVec 32, 0 < fork.toInt ∧ s.procs.find fork = none := by
  rcases h with hnone | ⟨p, hone⟩
  · exact ⟨1, by decide, by rw [hnone]; rfl⟩
  · by_cases hp : p.pid = 1
    · exact ⟨2, by decide, by simp [hone, ProcTable.find, hp]⟩
    · exact ⟨1, by decide, by simpa [hone, ProcTable.find] using hp⟩

theorem loopStep_serve_ne_none (hpc : s.loop = .serve) (fork : BitVec 32) :
    loopStep cap isPersistent fork s ≠ none := by
  rw [loopStep, hpc]
  simp only
  split
  · split <;> exact Option.some_ne_none _
  · split <;> exact Option.some_ne_none _

/-- The fuzzer can read, unless it has read the `pid` and the status is not there. -/
theorem Reading.stuck {pid : BitVec 32} {tail : List Byte} {now : List Event} {killed : Bool}
    (h : Reading s pid tail now killed) {elapsed : BitVec 32}
    (hfuzzer : runTargetStep elapsed s = none) :
    tail = [] ∧ s.st = [] ∧ ((∃ timeout, s.fuzzer = .timedRead timeout) ∨ killed = true) := by
  have hread : ∀ {f : Option (BitVec 32) × Pipe → RunState},
      (Pipe.recv32 s.st).map f = none → s.st = [] := by
    intro f hnone
    by_contra hne
    exact recv32_ne_none hne (Option.map_eq_none_iff.mp hnone)
  cases h with
  | recvPid timeout hf _ hst _ =>
    simp only [runTargetStep, hf] at hfuzzer
    have := hread hfuzzer
    rw [hst] at this
    exact absurd (List.append_eq_nil_iff.mp this).1 (le32_ne_nil pid)
  | timedRead timeout hf _ _ hst _ =>
    simp only [runTargetStep, hf] at hfuzzer
    have := hread hfuzzer
    exact ⟨hst.symm.trans this, this, .inl ⟨timeout, hf⟩⟩
  | kill hf _ _ =>
    rw [runTargetStep, hf] at hfuzzer
    simp only at hfuzzer
    split at hfuzzer
    · split at hfuzzer <;> exact absurd hfuzzer (Option.some_ne_none _)
    · exact absurd hfuzzer (Option.some_ne_none _)
  | recvLate hf hst _ =>
    simp only [runTargetStep, hf] at hfuzzer
    have := hread hfuzzer
    exact ⟨hst.symm.trans this, this, .inr rfl⟩

/-- The forkserver can go on, unless it waits for a child that was not killed. -/
theorem Replying.stuck {pid : BitVec 32} {part : List Event} {killed : Bool}
    (h : Replying s pid [] part killed) (hcap : 4 ≤ cap) (hst : s.st = []) {fork : BitVec 32}
    (hloop : loopStep cap isPersistent fork s = none)
    (hchild : ∀ pid act, s.procs.childAct pid act = none) : killed = false := by
  generalize htail : ([] : List Byte) = tail at h
  cases h with
  | working word proc resumed _ hpc hserving =>
    obtain ⟨-, hpid, p, hone, -, hp, hkill, hunreported⟩ := hserving
    by_contra hne
    have hzombie := zombie_of_sigkill hone (hkill.trans ((Bool.not_eq_false _).mp hne)) hchild
    simp only [loopStep, hpc, hone, hpid, ← hp, Option.map_eq_none_iff] at hloop
    exact ProcTable.waitpid_zombie hunreported hzombie isPersistent hloop
  | reported word proc resumed status _ hpc _ _ =>
    simp only [loopStep, hpc, hst, Option.map_eq_none_iff] at hloop
    exact absurd hloop (send_ne_none hcap status)
  | answered word proc resumed status _ _ _ _ => exact absurd htail.symm (le32_ne_nil status)

/-- Where nothing but a request can happen, the fuzzer is between two calls, or in a `poll` that
does not time out. -/
theorem Phase.stuck {part now : List Event} (h : Phase s part now) (hcap : 4 ≤ cap)
    (hstuck : ∀ a, answering s a → runStep cap isPersistent s a = none) :
    s.fuzzer = .idle ∨ ∃ timeout, s.fuzzer = .timedRead timeout ∧ timeout.toInt < 0 := by
  obtain ⟨fork, hpos, hfresh⟩ := exists_fork h.procs
  have hloop : loopStep cap isPersistent fork s = none :=
    hstuck (.loop fork) ⟨⟨hpos, hfresh⟩, by simp⟩
  have hfuzzer : runTargetStep 0 s = none := hstuck (.fuzzer 0) ⟨trivial, by simp⟩
  have htimeout : timeoutStep s = none := hstuck .timeout ⟨trivial, by simp⟩
  have hchild : ∀ pid act, s.procs.childAct pid act = none := by
    intro pid act
    have := hstuck (.child pid act) ⟨trivial, by simp⟩
    simpa [runStep] using this
  cases h with
  | idle hidle _ _ _ _ => exact .inl hidle
  | asked word _ hpc hctl _ =>
    simp only [loopStep, hpc, hctl, Option.map_eq_none_iff] at hloop
    exact absurd hloop (recv32_ne_none (le32_ne_nil word))
  | reaping word _ hpc _ hstopped hparked =>
    rcases hparked with ⟨hrunning, -⟩ | ⟨-, -, p, hone, hp, hkill, hhalted⟩
    · rw [hstopped] at hrunning
      exact absurd hrunning.symm Bool.false_ne_true
    · simp only [loopStep, hpc, hone, ← hp, Option.map_eq_none_iff] at hloop
      exact absurd hloop
        (ProcTable.waitpid_halted_zombie hhalted (zombie_of_sigkill hone hkill hchild))
  | serving word _ hpc _ hparked => exact absurd hloop (loopStep_serve_ne_none hpc fork)
  | served word proc pid resumed hask hpc _ _ _ =>
    simp only [loopStep, hpc, hask.st, Option.map_eq_none_iff] at hloop
    exact absurd hloop (send_ne_none hcap s.childPid)
  | replying pid tail _ _ killed hreading hreplying _ _ =>
    obtain ⟨rfl, hst, ⟨timeout, hf⟩ | rfl⟩ := hreading.stuck hfuzzer
    · refine .inr ⟨timeout, hf, ?_⟩
      by_contra hpoll
      have hgo : s.st = [] ∧ 0 ≤ timeout.toInt := ⟨hst, by omega⟩
      simp [timeoutStep, hf, hgo] at htimeout
    · exact absurd (hreplying.stuck hcap hst hloop hchild).symm Bool.false_ne_true

theorem RunInv.answers (h : RunInv s) (hcap : 4 ≤ cap) : Answers cap isPersistent s := by
  have hstep : ∀ u a v, RunInv u → answering u a → runStep cap isPersistent u a = some v →
      RunInv v ∧ runWork v < runWork u := fun u a v hu ha hstep =>
    ⟨hu.step ha.1 hstep, hu.work_lt ha hstep⟩
  refine ⟨not_runsForever runWork h hstep, fun t ht hstuck => ?_⟩
  have ht : RunInv t := ht.invariant h fun u a v hu ha hs => (hstep u a v hu ha hs).1
  obtain ⟨⟨rounds, part, now, -, -, hphase⟩, -⟩ := ht
  exact hphase.stuck hcap hstuck

end Invariant

/-- Whatever the child does and whenever the fuzzer gives up on it: every request is answered with
the `pid` of the one process that serves it and then one status of this process, nothing stays in
the pipes, and no process is resumed that the fuzzer has killed. -/
theorem runs_stay_in_step (cap : ℕ) (hcap : 4 ≤ cap) (isPersistent : Bool) (s : RunState)
    (hs : Reaches (runStep cap isPersistent) runOk runStart s) :
    RunsInStep s ∧ Answers cap isPersistent s ∧ NeverResumesKilled s.log := by
  have h : RunInv s := hs.invariant runInv_start fun u a v hu hok hstep => hu.step hok hstep
  exact ⟨h.inStep, h.answers hcap, h.marks.resumed⟩

instance (s : RunState) (a : RunAct) : Decidable (runOk s a) :=
  match a with
  | .request timeout => inferInstanceAs (Decidable (timeout ≠ 0))
  | .loop fork => inferInstanceAs (Decidable (0 < fork.toInt ∧ s.procs.find fork = none))
  | .fuzzer _ | .timeout | .child _ _ => inferInstanceAs (Decidable True)

/-- The child stops itself when the fuzzer has given up on it, and the status is in the pipe before
the kill; then the next request. -/
def lateStop : List RunAct :=
  [.request 100, .loop 7, .loop 7, .loop 8, .fuzzer 0, .timeout, .child 7 .stop, .loop 8, .loop 8,
    .fuzzer 0, .fuzzer 0, .request 100, .loop 8, .child 7 (.die false), .loop 8, .loop 8]

/-- The child that was killed while it was stopped is reaped, and a second process is forked. -/
theorem lateStop_stays_in_step :
    ∃ s, Reaches (runStep 4096 true) runOk runStart s ∧ s.forks = 2 ∧ RunsInStep s := by
  have hrun : (exec (runStep 4096 true) runOk runStart lateStop).isSome := by decide
  refine ⟨_, reaches_exec hrun, by decide, ?_⟩
  exact (runs_stay_in_step 4096 (by decide) true _ (reaches_exec hrun)).1

end AflPlusPlus.Forkserver
