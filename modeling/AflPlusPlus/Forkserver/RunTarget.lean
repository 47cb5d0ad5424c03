import AflPlusPlus.Lib.Pipe
import AflPlusPlus.Lib.Process
import AflPlusPlus.Lib.Reach

/-!
# The run protocol

After the handshake, every call of `afl_fsrv_run_target` in the fuzzer is one round with the loop of
`__afl_start_forkserver` in the target. As in the handshake, both sides stop at every read, write,
`kill`, `fork` and `waitpid`, and the child that runs the test case does what it likes in between.
-/

namespace AflPlusPlus.Forkserver
open Lib

/-- What is observed of a run of the protocol, oldest first. A process is named by the number of its
`fork`. -/
inductive Event
  /-- the fuzzer asks for a run -/
  | request (writeValue : BitVec 32)
  /-- the forkserver gives the request to a process: a new one, or one it resumes -/
  | served (proc : ℕ) (pid : BitVec 32) (resumed : Bool)
  | sentPid (pid : BitVec 32)
  /-- the forkserver relays the status that `waitpid` reported of a process -/
  | sentStatus (proc : ℕ) (status : BitVec 32)
  | gotPid (pid : BitVec 32)
  | gotStatus (status : BitVec 32)
  /-- the fuzzer kills a process -/
  | killed (proc : ℕ)
  deriving DecidableEq

/-- Where the fuzzer is in `afl_fsrv_run_target`; `idle` is between two calls. -/
inductive RunPc
  | idle
  | recvPid (timeout : BitVec 32)
  | timedRead (timeout : BitVec 32)
  | kill
  | recvLate
  | fatal
  deriving DecidableEq

/-- Where the forkserver is in its loop. -/
inductive LoopPc
  | recvRequest
  | reapKilled
  | serve
  | sendPid
  | waitChild
  | sendStatus (proc : ℕ) (status : BitVec 32)
  | exited
  deriving DecidableEq

structure RunState where
  fuzzer : RunPc
  loop : LoopPc
  /-- `fsrv->last_run_timed_out`, `fsrv->child_pid` and `fsrv->child_status`. -/
  lastRunTimedOut : BitVec 32
  fsrvChildPid : BitVec 32
  childStatus : BitVec 32
  /-- `was_killed`, `child_stopped` and `child_pid` of the forkserver. -/
  wasKilled : BitVec 32
  childStopped : Bool
  childPid : BitVec 32
  procs : ProcTable
  /-- How many times the forkserver has forked. -/
  forks : ℕ
  ctl : Pipe
  st : Pipe
  log : List Event

def RunState.note (s : RunState) (e : Event) : RunState := { s with log := s.log ++ [e] }

/-! ### The fuzzer -/

/-- What `read_s32_timed` returns when it has read four bytes. -/
def execMs (timeout elapsed : BitVec 32) : BitVec 32 :=
  let execMs := if timeout < elapsed then timeout else elapsed
  if execMs > 0 then execMs else 1

/-- The end of a run. -/
def RunState.finish (s : RunState) : RunState :=
  { s with
    fsrvChildPid := if wifStopped s.childStatus then s.fsrvChildPid else -1
    fuzzer := .idle }

/-- After `read_s32_timed`. -/
def RunState.afterTimedRead (s : RunState) (timeout execMs : BitVec 32) : RunState :=
  if execMs > timeout then { s with fuzzer := .kill }
  else if execMs = 0 then { s with fuzzer := .fatal }
  else s.finish

/-- The call writes its request. -/
def requestStep (cap : ℕ) (timeout : BitVec 32) (s : RunState) : Option RunState :=
  match s.fuzzer with
  | .idle => (Pipe.send cap s.ctl (le32 s.lastRunTimedOut)).map fun ctl =>
    { s with ctl := ctl, lastRunTimedOut := 0, fuzzer := .recvPid timeout }.note
      (.request s.lastRunTimedOut)
  | _ => none

/-- `elapsed` is the time that a timed read took. -/
def runTargetStep (elapsed : BitVec 32) (s : RunState) : Option RunState :=
  match s.fuzzer with
  | .idle => none
  | .recvPid timeout => (Pipe.recv32 s.st).map fun r =>
    match r.1 with
    | none => { s with st := r.2, fuzzer := .fatal }
    | some pid =>
      { s with
        st := r.2
        fsrvChildPid := pid
        fuzzer := if pid.toInt ≤ 0 then .fatal else .timedRead timeout }.note (.gotPid pid)
  | .timedRead timeout => (Pipe.recv32 s.st).map fun r =>
    match r.1 with
    | none => { s with st := r.2, fuzzer := .fatal }
    | some status => ({ s with st := r.2, childStatus := status }.note
        (.gotStatus status)).afterTimedRead timeout (execMs timeout elapsed)
  | .kill =>
    let s' := { s with lastRunTimedOut := 1, fuzzer := .recvLate }
    if s.fsrvChildPid.toInt > 0 then
      let s' := { s' with
        procs := s.procs.update s.fsrvChildPid Process.sigkilled
        fsrvChildPid := -1 }
      match s.procs.find s.fsrvChildPid with
      | none => some s'
      | some p => some (s'.note (.killed p.id))
    else some s'
  | .recvLate => (Pipe.recv32 s.st).map fun r =>
    match r.1 with
    | none => { s with st := r.2, fuzzer := .fatal }
    | some status => ({ s with st := r.2, childStatus := status }.note
        (.gotStatus status)).finish
  | .fatal => none

/-- `poll` gives up. It takes the timeout as a signed number, and waits without an end when that is
negative. -/
def timeoutStep (s : RunState) : Option RunState :=
  match s.fuzzer with
  | .timedRead timeout =>
    if s.st = [] ∧ 0 ≤ timeout.toInt then
      some ({ s with childStatus := -1 }.afterTimedRead timeout (timeout + 1))
    else none
  | _ => none

/-! ### The forkserver -/

/-- `fork` is what a `fork` returns to the parent. -/
def loopStep (cap : ℕ) (isPersistent : Bool) (fork : BitVec 32) (s : RunState) :
    Option RunState :=
  match s.loop with
  | .recvRequest => (Pipe.recv32 s.ctl).map fun r =>
    match r.1 with
    | none => { s with ctl := r.2, loop := .exited }
    | some wasKilled =>
      { s with
        ctl := r.2
        wasKilled := wasKilled
        loop := if s.childStopped = true ∧ wasKilled ≠ 0 then .reapKilled else .serve }
  | .reapKilled => (s.procs.waitpid false s.childPid).map fun r =>
    match r with
    | none => { s with childStopped := false, loop := .exited }
    | some (_, _, procs) => { s with childStopped := false, procs := procs, loop := .serve }
  | .serve =>
    if s.childStopped = false then
      if fork.toInt < 0 then some { s with childPid := fork, loop := .exited }
      else some ({ s with
        childPid := fork
        procs := s.procs ++ [Process.mk s.forks fork .running false []]
        forks := s.forks + 1
        loop := .sendPid }.note (.served s.forks fork false))
    else
      let s' := { s with
        procs := s.procs.update s.childPid Process.continued
        childStopped := false
        loop := .sendPid }
      match s.procs.find s.childPid with
      | none => some s'
      | some p => some (s'.note (.served p.id p.pid true))
  | .sendPid => (Pipe.send cap s.st (le32 s.childPid)).map fun st =>
    { s with st := st, loop := .waitChild }.note (.sentPid s.childPid)
  | .waitChild => (s.procs.waitpid isPersistent s.childPid).map fun r =>
    match r with
    | none => { s with loop := .exited }
    | some (p, status, procs) =>
      { s with
        procs := procs
        childStopped := if wifStopped status then true else s.childStopped
        loop := .sendStatus p.id status }
  | .sendStatus proc status => (Pipe.send cap s.st (le32 status)).map fun st =>
    { s with st := st, loop := .recvRequest }.note (.sentStatus proc status)
  | .exited => none

/-! ### The system -/

inductive RunAct
  | request (timeout : BitVec 32)
  | fuzzer (elapsed : BitVec 32)
  | timeout
  | loop (fork : BitVec 32)
  | child (pid : BitVec 32) (act : ChildAct)

def runStep (cap : ℕ) (isPersistent : Bool) (s : RunState) : RunAct → Option RunState
  | .request timeout => requestStep cap timeout s
  | .fuzzer elapsed => runTargetStep elapsed s
  | .timeout => timeoutStep s
  | .loop fork => loopStep cap isPersistent fork s
  | .child pid act => (s.procs.childAct pid act).map fun procs => { s with procs := procs }

/-- Callers ask for a timeout that is not zero, and `fork` returns a `pid` that is not in use. -/
def runOk (s : RunState) : RunAct → Prop
  | .request timeout => timeout ≠ 0
  | .loop fork => 0 < fork.toInt ∧ s.procs.find fork = none
  | _ => True

/-- The handshake is over. -/
def runStart : RunState := ⟨.idle, .recvRequest, 0, 0, 0, 0, false, 0, [], 0, [], [], []⟩

/-! ### What keeping in step means -/

/-- A request with its answer. -/
structure Round where
  writeValue : BitVec 32
  proc : ℕ
  pid : BitVec 32
  resumed : Bool
  status : BitVec 32

/-- One request, one process that serves it, then its `pid` and a status of it. -/
def Round.exchange (r : Round) : List Event :=
  [.request r.writeValue, .served r.proc r.pid r.resumed, .sentPid r.pid,
    .sentStatus r.proc r.status]

/-- What the fuzzer takes out of the pipe in the round. -/
def Round.reads (r : Round) : List Event := [.gotPid r.pid, .gotStatus r.status]

def Event.isExchange : Event → Bool
  | .request _ | .served _ _ _ | .sentPid _ | .sentStatus _ _ => true
  | _ => false

def Event.isRead : Event → Bool
  | .gotPid _ | .gotStatus _ => true
  | _ => false

/-- Both sides are in step: the requests so far are answered one after the other, with at most the
last answer still under way. Between two calls of `afl_fsrv_run_target` nothing is missing and
nothing is left over. -/
structure RunsInStep (s : RunState) : Prop where
  rounds : ∃ (rounds : List Round) (last : Round) (part now : List Event),
    s.log.filter Event.isExchange = rounds.flatMap Round.exchange ++ part ∧
    s.log.filter Event.isRead = rounds.flatMap Round.reads ++ now ∧
    part <+: last.exchange ∧ now <+: last.reads ∧
    (s.fuzzer = .idle → part = [] ∧ now = [] ∧ s.ctl = [] ∧ s.st = [])
  fuzzer_up : s.fuzzer ≠ .fatal
  loop_up : s.loop ≠ .exited

/-- No process is resumed that the fuzzer killed before. -/
def NeverResumesKilled (log : List Event) : Prop :=
  ∀ before after proc pid, log = before ++ .served proc pid true :: after →
    .killed proc ∉ before

/-- An admissible step that is not the next request. -/
def answering (s : RunState) (a : RunAct) : Prop :=
  runOk s a ∧ ∀ timeout, a ≠ .request timeout

/-- Every way to go on without a new request ends, and it ends between two calls. Only a `poll` with
a timeout that is negative may wait for ever. -/
def Answers (cap : ℕ) (isPersistent : Bool) (s : RunState) : Prop :=
  ¬ RunsForever (runStep cap isPersistent) answering s ∧
    ∀ t, Reaches (runStep cap isPersistent) answering s t →
      (∀ a, answering t a → runStep cap isPersistent t a = none) →
      t.fuzzer = .idle ∨ ∃ timeout, t.fuzzer = .timedRead timeout ∧ timeout.toInt < 0

end AflPlusPlus.Forkserver
