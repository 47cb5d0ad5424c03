import Mathlib.Data.Nat.Init

/-!
# The child processes of one parent

A process table lists the children that exist, zombies included. A child may stop or end by itself,
dies some time after `SIGKILL` was sent to it, whether it runs or is stopped, and goes on with
`SIGCONT`. Every change of its state is reported by `waitpid` at most once; a stop that was not
reported yet may be lost when the child ends.
-/

namespace Lib

/-- `WIFSTOPPED`. -/
def wifStopped (status : BitVec 32) : Bool := status &&& 0xff == 0x7f

/-- The status of a child that stopped with `SIGSTOP`. -/
def statusStop : BitVec 32 := 0x137f

/-- The status of a child that `SIGKILL` ended. -/
def statusKill : BitVec 32 := 9

inductive ProcState
  | running
  | stopped
  | zombie
  deriving DecidableEq

/-- `id` tells apart processes that have had the same `pid` one after the other. `changes` are the
changes of state that have not been reported. -/
structure Process where
  id : ℕ
  pid : BitVec 32
  state : ProcState
  sigkill : Bool
  changes : List (BitVec 32)
  deriving DecidableEq

inductive ChildAct
  | stop
  | exit (status : BitVec 32) (lost : Bool)
  | die (lost : Bool)

namespace Process

def ends (p : Process) (status : BitVec 32) (lost : Bool) : Process :=
  { p with state := .zombie, changes := (if lost then [] else p.changes) ++ [status] }

/-- What a child does by itself, and how it dies. -/
def act (p : Process) : ChildAct → Option Process
  | .stop =>
    if p.state = .running then
      some { p with state := .stopped, changes := p.changes ++ [statusStop] }
    else none
  | .exit status lost =>
    if p.state = .running ∧ wifStopped status = false then some (p.ends status lost) else none
  | .die lost =>
    if p.sigkill = true ∧ p.state ≠ .zombie then some (p.ends statusKill lost) else none

def sigkilled (p : Process) : Process := { p with sigkill := true }

def continued (p : Process) : Process :=
  { p with state := if p.state = .stopped then .running else p.state }

/-- Since it was last started, the child has reported nothing. -/
inductive Unreported (p : Process) : Prop
  | running : p.state = .running → p.changes = [] → Unreported p
  | stopped : p.state = .stopped → p.changes = [statusStop] → Unreported p
  | ended (status : BitVec 32) : p.state = .zombie → wifStopped status = false →
      p.changes = [status] ∨ (p.changes = [statusStop, status] ∧ p.sigkill = true) → Unreported p

/-- The child has reported that it stopped, and has not been continued. -/
inductive Halted (p : Process) : Prop
  | stopped : p.state = .stopped → p.changes = [] → Halted p
  | killed (status : BitVec 32) : p.state = .zombie → wifStopped status = false →
      p.changes = [status] → p.sigkill = true → Halted p

theorem wifStopped_statusStop : wifStopped statusStop = true := by decide

theorem wifStopped_statusKill : wifStopped statusKill = false := by decide

/-- No act changes who the process is. -/
theorem act_id {p q : Process} {a : ChildAct} (h : p.act a = some q) :
    q.id = p.id ∧ q.pid = p.pid ∧ q.sigkill = p.sigkill := by
  cases a <;> simp only [act, Option.ite_none_right_eq_some, Option.some.injEq] at h <;>
    obtain ⟨-, rfl⟩ := h <;> exact ⟨rfl, rfl, rfl⟩

theorem Unreported.act {p q : Process} {a : ChildAct} (hp : p.Unreported)
    (h : p.act a = some q) : q.Unreported := by
  cases a with
  | stop =>
    simp only [Process.act, Option.ite_none_right_eq_some, Option.some.injEq] at h
    obtain ⟨hrunning, rfl⟩ := h
    cases hp with
    | running _ hchanges => exact .stopped rfl (by simp [hchanges])
    | stopped hstate _ => simp [hstate] at hrunning
    | ended _ hstate _ _ => simp [hstate] at hrunning
  | exit status lost =>
    simp only [Process.act, Option.ite_none_right_eq_some, Option.some.injEq] at h
    obtain ⟨⟨hrunning, hstatus⟩, rfl⟩ := h
    cases hp with
    | running _ hchanges => exact .ended status rfl hstatus (.inl (by simp [ends, hchanges]))
    | stopped hstate _ => simp [hstate] at hrunning
    | ended _ hstate _ _ => simp [hstate] at hrunning
  | die lost =>
    simp only [Process.act, Option.ite_none_right_eq_some, Option.some.injEq] at h
    obtain ⟨⟨hkill, hzombie⟩, rfl⟩ := h
    cases hp with
    | running _ hchanges =>
      exact .ended statusKill rfl wifStopped_statusKill (.inl (by simp [ends, hchanges]))
    | stopped _ hchanges =>
      refine .ended statusKill rfl wifStopped_statusKill ?_
      cases lost with
      | true => exact .inl rfl
      | false => exact .inr ⟨by simp [ends, hchanges], hkill⟩
    | ended _ hstate _ _ => exact absurd hstate hzombie

theorem Halted.act {p q : Process} {a : ChildAct} (hp : p.Halted) (h : p.act a = some q) :
    q.Halted := by
  cases a with
  | stop =>
    simp only [Process.act, Option.ite_none_right_eq_some] at h
    cases hp with
    | stopped hstate _ => simp [hstate] at h
    | killed _ hstate _ _ _ => simp [hstate] at h
  | exit status lost =>
    simp only [Process.act, Option.ite_none_right_eq_some] at h
    cases hp with
    | stopped hstate _ => simp [hstate] at h
    | killed _ hstate _ _ _ => simp [hstate] at h
  | die lost =>
    simp only [Process.act, Option.ite_none_right_eq_some, Option.some.injEq] at h
    obtain ⟨⟨hkill, hzombie⟩, rfl⟩ := h
    cases hp with
    | stopped _ hchanges =>
      exact .killed statusKill rfl wifStopped_statusKill (by simp [ends, hchanges]) hkill
    | killed _ hstate _ _ _ => exact absurd hstate hzombie

/-- The kill does not undo what has happened. -/
theorem Unreported.sigkilled {p : Process} (h : p.Unreported) : p.sigkilled.Unreported := by
  cases h with
  | running hstate hchanges => exact .running hstate hchanges
  | stopped hstate hchanges => exact .stopped hstate hchanges
  | ended status hstate hstatus hchanges =>
    exact .ended status hstate hstatus (hchanges.imp_right fun h => ⟨h.1, rfl⟩)

theorem Halted.sigkilled {p : Process} (h : p.Halted) : p.sigkilled.Halted := by
  cases h with
  | stopped hstate hchanges => exact .stopped hstate hchanges
  | killed status hstate hstatus hchanges _ => exact .killed status hstate hstatus hchanges rfl

/-- A stopped child that was not killed runs again. -/
theorem Halted.continued {p : Process} (h : p.Halted) (hkill : p.sigkill = false) :
    p.continued.Unreported := by
  cases h with
  | stopped hstate hchanges => exact .running (by simp [Process.continued, hstate]) hchanges
  | killed _ _ _ _ hkilled => simp [hkill] at hkilled

end Process

/-! ### Tables -/

abbrev ProcTable := List Process

namespace ProcTable

def find (ps : ProcTable) (pid : BitVec 32) : Option Process := List.find? (·.pid = pid) ps

def update (ps : ProcTable) (pid : BitVec 32) (f : Process → Process) : ProcTable :=
  ps.map fun p => if p.pid = pid then f p else p

/-- The child with this `pid` acts by itself. -/
def childAct (ps : ProcTable) (pid : BitVec 32) (a : ChildAct) : Option ProcTable :=
  ((ps.find pid).bind fun p => p.act a).map fun q => ps.update pid fun _ => q

/-- `waitpid`, with `WUNTRACED` or without. It waits (`none`) while there is no change to report. It
fails (`some none`) when there is no such child. Else it reports the oldest change, and to report
the end of a child takes it out of the table. -/
def waitpid (untraced : Bool) (ps : ProcTable) (pid : BitVec 32) :
    Option (Option (Process × BitVec 32 × ProcTable)) :=
  match ps.find pid with
  | none => some none
  | some p =>
    match p.changes.dropWhile fun status => !untraced && wifStopped status with
    | [] => none
    | status :: later => some (some (p, status,
        if wifStopped status then ps.update pid fun p => { p with changes := later }
        else ps.filter fun p => p.pid ≠ pid))

@[simp]
theorem find_nil (pid : BitVec 32) : find [] pid = none := rfl

@[simp]
theorem find_singleton (p : Process) : find [p] p.pid = some p := by simp [find]

@[simp]
theorem update_nil (pid : BitVec 32) (f : Process → Process) : update [] pid f = [] := rfl

@[simp]
theorem update_singleton (p : Process) (f : Process → Process) : update [p] p.pid f = [f p] := by
  simp [update]

/-- What an act does to the only child. -/
theorem childAct_singleton {p : Process} {pid : BitVec 32} {a : ChildAct} {ps : ProcTable}
    (h : childAct [p] pid a = some ps) : ∃ q, p.act a = some q ∧ ps = [q] := by
  by_cases hpid : p.pid = pid
  · subst hpid
    simp only [childAct, find_singleton, Option.bind_some, update_singleton,
      Option.map_eq_some_iff] at h
    obtain ⟨q, hq, rfl⟩ := h
    exact ⟨q, hq, rfl⟩
  · simp [childAct, find, hpid] at h

theorem childAct_nil {pid : BitVec 32} {a : ChildAct} {ps : ProcTable} :
    childAct [] pid a ≠ some ps := by
  simp [childAct]

/-- What `waitpid` reports of a child that has not reported anything: that it stopped, or its
end. -/
theorem waitpid_unreported {p : Process} (hp : p.Unreported) {untraced : Bool}
    {r : Option (Process × BitVec 32 × ProcTable)} (h : waitpid untraced [p] p.pid = some r) :
    ∃ status ps, r = some (p, status, ps) ∧
      ((wifStopped status = true ∧ ∃ q : Process, ps = [q] ∧ q.id = p.id ∧ q.pid = p.pid ∧
          q.sigkill = p.sigkill ∧ q.Halted) ∨
        (wifStopped status = false ∧ ps = [])) := by
  have hstop := Process.wifStopped_statusStop
  simp only [waitpid, find_singleton] at h
  cases hp with
  | running _ hchanges => simp [hchanges] at h
  | stopped hstate hchanges =>
    cases untraced with
    | false => simp [hchanges, hstop] at h
    | true =>
      simp [hchanges, hstop] at h
      exact ⟨_, _, h.symm, .inl ⟨hstop, _, rfl, rfl, rfl, rfl, .stopped hstate rfl⟩⟩
  | ended status hstate hstatus hchanges =>
    rcases hchanges with hchanges | ⟨hchanges, hkill⟩
    · simp [hchanges, hstatus] at h
      exact ⟨_, _, h.symm, .inr ⟨hstatus, rfl⟩⟩
    · cases untraced with
      | false =>
        simp [hchanges, hstop, hstatus] at h
        exact ⟨_, _, h.symm, .inr ⟨hstatus, rfl⟩⟩
      | true =>
        simp [hchanges, hstop] at h
        exact ⟨_, _, h.symm, .inl ⟨hstop, _, rfl, rfl, rfl, rfl,
          .killed status hstate hstatus rfl hkill⟩⟩

/-- A child that ended is reported, whatever was reported of it before. -/
theorem waitpid_zombie {p : Process} (hp : p.Unreported) (hzombie : p.state = .zombie)
    (untraced : Bool) : waitpid untraced [p] p.pid ≠ none := by
  have hstop := Process.wifStopped_statusStop
  simp only [waitpid, find_singleton]
  cases hp with
  | running hstate _ => simp [hstate] at hzombie
  | stopped hstate _ => simp [hstate] at hzombie
  | ended status _ hstatus hchanges =>
    rcases hchanges with hchanges | ⟨hchanges, -⟩
    · simp [hchanges, hstatus]
    · cases untraced <;> simp [hchanges, hstop, hstatus]

/-- After a child has reported that it stopped, only its end is left to report. -/
theorem waitpid_halted {p : Process} (hp : p.Halted)
    {r : Option (Process × BitVec 32 × ProcTable)} (h : waitpid false [p] p.pid = some r) :
    ∃ status, r = some (p, status, []) := by
  simp only [waitpid, find_singleton] at h
  cases hp with
  | stopped _ hchanges => simp [hchanges] at h
  | killed status _ hstatus hchanges _ =>
    simp [hchanges, hstatus] at h
    exact ⟨status, h.symm⟩

theorem waitpid_halted_zombie {p : Process} (hp : p.Halted) (hzombie : p.state = .zombie) :
    waitpid false [p] p.pid ≠ none := by
  simp only [waitpid, find_singleton]
  cases hp with
  | stopped hstate _ => simp [hstate] at hzombie
  | killed status _ hstatus hchanges _ => simp [hchanges, hstatus]

end ProcTable

end Lib
