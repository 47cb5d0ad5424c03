import AflPlusPlus.Lib.NameOrder
import AflPlusPlus.Lib.Reach

/-!
# Importing the queue of another fuzzer

`sync_fuzzers` for one peer of the sync directory. How many of the peer's files have been looked at
is kept in the file `.synced/PEER`; `.synced/PEER.last` is touched by every pass, and its time stamp
is compared with that of the peer's `cmdline` to find out whether the peer was restarted. A
secondary node syncs from main nodes only. A pass is uninterrupted and the files it looks at are
readable; an import is a dummy run, which is made also where a custom mutator drops the data.
-/

namespace AflPlusPlus
open Lib

/-- `MAX_FILE`. -/
def maxImport : ℕ := 1024 * 1024

/-- `is_known_case`: the name says that the file was imported from the fuzzer `syncId`. -/
def isKnownCase (syncId name : Name) : Bool :=
  decide (15 + 4 + 6 + (syncId.length + 1) ≤ name.length) &&
    (name.drop 10).take 4 == ascii "sync" &&
    (name.drop 15).take (syncId.length + 1) == syncId ++ ascii ","

/-- A file of a queue directory. -/
structure PeerFile where
  name : Name
  size : ℕ
  deriving DecidableEq

/-- Zero-sized and oversized files are ignored. -/
def PeerFile.Importable (f : PeerFile) : Prop := f.size ≠ 0 ∧ f.size ≤ maxImport

instance (f : PeerFile) : Decidable f.Importable := inferInstanceAs (Decidable (_ ∧ _))

/-! ### From whom a node syncs -/

/-- `afl_no_sync`, `is_secondary_node` and `is_main_node`. -/
structure SyncNode where
  noSync : Bool
  isSecondary : Bool
  isMain : Bool

namespace SyncNode

/-- Whether a fuzzer of the sync directory is synced from, where `main` says that it has the file
`is_main_node`. An elected temporary main node that meets another one is downgraded. -/
def visit (node : SyncNode) (main : Bool) : Bool × SyncNode :=
  if node.isSecondary then
    if node.isMain then (true, if main then { node with isMain := false } else node)
    else (main, node)
  else (true, node)

/-- The same for several fuzzers, with whether any of them is synced from. -/
def visitAll (node : SyncNode) (mains : List Bool) : Bool × SyncNode :=
  mains.foldl (fun r main => (r.1 || (r.2.visit main).1, (r.2.visit main).2)) (false, node)

/-- A secondary node that found nobody to sync from becomes the main node. -/
def elect (node : SyncNode) (synced : Bool) : SyncNode :=
  if !synced && node.isSecondary then { node with isMain := true } else node

end SyncNode

/-! ### One pass -/

/-- The peer (its clock, its queue in the order of the ids, the time stamp of `cmdline`, whether it
is a main node), our node, and what we keep about the peer. Three history variables do not exist in
the program: the number of restarts of the peer, the incarnation of the peer whose files `minAccept`
counts, and the number of passes in a row that left out the peer while a file was waiting. -/
structure SyncState where
  now : ℕ
  incarnation : ℕ
  queue : List PeerFile
  cmdline : Option ℕ
  peerMain : Bool
  node : SyncNode
  minAccept : ℕ
  maxStartId : Option ℕ
  lastMtime : Option ℕ
  executed : List (ℕ × Name)
  cursorFor : ℕ
  leftOut : ℕ

/-- In a pass the other fuzzers stand before and after the peer in the sync directory; each is told
by whether it is a main node. -/
inductive SyncOp
  | tick
  | peerAdd (description : Name) (size : ℕ)
  | peerRestart
  | peerElected (main : Bool)
  | pass (before after : List Bool)
  deriving DecidableEq

/-- The name of the peer's queue file number `id`. -/
def peerName (id : ℕ) (description : Name) : Name :=
  ascii "id:" ++ (decimal 6 id ++ (ascii "," ++ description))

/-- What else is in a queue directory. -/
def dotFiles : List PeerFile := [⟨ascii ".", 4096⟩, ⟨ascii "..", 4096⟩, ⟨ascii ".state", 4096⟩]

namespace SyncState

/-- `scandir` of the peer's queue directory. -/
def namelist (s : SyncState) : List PeerFile := sortBy PeerFile.name (dotFiles ++ s.queue)

/-- The files from the first one on whose name `strncmp(…, 9)` finds equal to the next id. -/
def pending (s : SyncState) : List PeerFile :=
  s.namelist.dropWhile fun f => f.name.take 9 != (ascii "id:" ++ decimal 6 s.minAccept).take 9

/-- The time stamp of our last visit is not newer than that of the peer's `cmdline`. -/
def detectsRestart (s : SyncState) : Bool :=
  match s.lastMtime, s.cmdline with
  | some lastMtime, some mtime => lastMtime != 0 && decide (lastMtime ≤ mtime)
  | _, _ => false

/-- The files of the loop that are executed; `next` is `next_min_accept` before it. -/
def importFiles (syncId : Name) (maxStartId : ℕ) : ℕ → List PeerFile → List Name
  | _, [] => []
  | next, f :: rest =>
    if f.Importable ∧ (next + 1 < maxStartId ∨ isKnownCase syncId f.name = false) then
      f.name :: importFiles syncId maxStartId (next + 1) rest
    else importFiles syncId maxStartId (next + 1) rest

/-- Document the attempt to sync. -/
def touchLast (s : SyncState) : SyncState := { s with lastMtime := some s.now }

/-- The file with the maximal id seen on startup is removed once the cursor has passed it. -/
def dropMaxStart (s : SyncState) : SyncState :=
  match s.maxStartId with
  | some m => if m < s.minAccept then { s with maxStartId := none } else s
  | none => s

/-- Run the pending files and write the cursor. -/
def importPending (syncId : Name) (maxStartId : ℕ) (s : SyncState) : SyncState :=
  if s.pending = [] then s
  else
    { s with
      minAccept := s.minAccept + s.pending.length
      cursorFor := s.incarnation
      executed := s.executed ++
        (importFiles syncId maxStartId s.minAccept s.pending).map fun name =>
          (s.incarnation, name) }

/-- The body of the loop for a peer that is synced from. -/
def syncPeer (syncId : Name) (s : SyncState) : SyncState :=
  -- the time stamp is renewed before it is read, so that it is the time of this pass
  if s.touchLast.detectsRestart then
    { s.touchLast with minAccept := 0, cursorFor := s.incarnation }
  else s.touchLast.dropMaxStart.importPending syncId (s.maxStartId.getD 0)

/-- The peer is synced from in a pass that meets the fuzzers `before` first. -/
def visits (s : SyncState) (before : List Bool) : Bool :=
  !s.node.noSync && ((s.node.visitAll before).2.visit s.peerMain).1

/-- Our node after a pass over all fuzzers. -/
def nodeAfter (s : SyncState) (before after : List Bool) : SyncNode :=
  let first := s.node.visitAll before
  let peer := first.2.visit s.peerMain
  let last := peer.2.visitAll after
  last.2.elect (first.1 || peer.1 || last.1)

/-- One pass of `sync_fuzzers`. -/
def syncFuzzers (syncId : Name) (before after : List Bool) (s : SyncState) : SyncState :=
  if s.node.noSync then s
  else
    { if s.visits before then s.syncPeer syncId else s with node := s.nodeAfter before after }

/-- The pass looks for new files of the peer. -/
def takesUp (s : SyncState) (before : List Bool) : Bool :=
  s.visits before && !s.touchLast.detectsRestart

/-- A file of the peer's queue is not known to be ours, and has not been executed. -/
def someWaiting (syncId : Name) (s : SyncState) : Bool :=
  s.queue.any fun f =>
    !isKnownCase syncId f.name && !s.executed.contains (s.incarnation, f.name)

/-- `leftOut` after a pass. -/
def leftOutAfter (syncId : Name) (before : List Bool) (s : SyncState) : ℕ :=
  if !s.takesUp before && s.someWaiting syncId then s.leftOut + 1 else 0

end SyncState

def syncStep (syncId : Name) (s : SyncState) : SyncOp → Option SyncState
  | .tick => some { s with now := s.now + 1 }
  | .peerAdd description size =>
    some { s with queue := s.queue ++ [⟨peerName s.queue.length description, size⟩] }
  | .peerRestart =>
    some
      { s with
        incarnation := s.incarnation + 1
        queue := []
        cmdline := some s.now
        leftOut := 0 }
  | .peerElected main => some { s with peerMain := main }
  | .pass before after =>
    some { s.syncFuzzers syncId before after with leftOut := s.leftOutAfter syncId before }

/-! ### What a pass finds -/

theorem peerName_lt {i j : ℕ} (h : i < j) (hj : j < 10 ^ 6) (d e : Name) :
    peerName i d < peerName j e := by
  rw [peerName, peerName, append_lt_append_left]
  refine append_lt_append _ _ ?_ (decimal_lt (by decide) h hj)
  rw [decimal_length (by decide) hj, decimal_length (by decide) (h.trans hj)]

theorem peerName_take {i : ℕ} (h : i < 10 ^ 6) (d : Name) :
    (peerName i d).take 9 = ascii "id:" ++ decimal 6 i := by
  have hlen : (ascii "id:" ++ decimal 6 i).length = 9 := by
    rw [List.length_append, decimal_length (by decide) h]
    rfl
  rw [peerName, ← List.append_assoc, ← hlen, List.take_left]

/-- The files of the queue are numbered from 0 on. -/
def Numbered (queue : List PeerFile) : Prop :=
  ∀ i f, queue[i]? = some f → ∃ d, f.name = peerName i d

theorem Numbered.pairwise {queue : List PeerFile} (h : Numbered queue)
    (hlen : queue.length ≤ 10 ^ 6) : queue.Pairwise fun f g => f.name < g.name := by
  rw [List.pairwise_iff_getElem]
  intro i j hi hj hij
  obtain ⟨d, hd⟩ := h i queue[i] (List.getElem?_eq_getElem hi)
  obtain ⟨e, he⟩ := h j queue[j] (List.getElem?_eq_getElem hj)
  rw [hd, he]
  exact peerName_lt hij (by omega) d e

/-- The directory is listed in the order of the ids as long as these have six digits. -/
theorem namelist_eq {s : SyncState} (h : Numbered s.queue) (hlen : s.queue.length ≤ 10 ^ 6) :
    s.namelist = dotFiles ++ s.queue := by
  have hpair : (dotFiles ++ s.queue).Pairwise fun f g => f.name < g.name := by
    rw [List.pairwise_append]
    refine ⟨by decide, h.pairwise hlen, fun dot hdot f hf => ?_⟩
    obtain ⟨i, hi, rfl⟩ := List.mem_iff_getElem.mp hf
    obtain ⟨d, hd⟩ := h i s.queue[i] (List.getElem?_eq_getElem hi)
    have hfirst : ∃ rest, dot.name = 46 :: rest := by
      simp only [dotFiles, List.mem_cons, List.not_mem_nil, or_false] at hdot
      obtain rfl | rfl | rfl := hdot
      · exact ⟨[], rfl⟩
      · exact ⟨ascii ".", rfl⟩
      · exact ⟨ascii "state", rfl⟩
    obtain ⟨rest, hrest⟩ := hfirst
    rw [hd, hrest]
    exact List.cons_lt_cons_iff.mpr (.inl (by decide))
  exact (hpair.imp le_of_lt).insertionSort_eq

/-- Dropping all before position `c`, where the predicate first fails. -/
theorem dropWhile_eq_drop {α : Type} {l : List α} {p : α → Bool} {c : ℕ}
    (hbefore : ∀ i x, i < c → l[i]? = some x → p x = true)
    (hat : ∀ x, l[c]? = some x → p x = false) : l.dropWhile p = l.drop c := by
  induction l generalizing c with
  | nil => simp
  | cons x l ih =>
    cases c with
    | zero => rw [List.dropWhile_cons, hat x rfl, if_neg Bool.false_ne_true, List.drop_zero]
    | succ c =>
      rw [List.dropWhile_cons, hbefore 0 x (Nat.succ_pos c) rfl, if_pos rfl, List.drop_succ_cons]
      exact ih (fun i y hi hy => hbefore (i + 1) y (Nat.succ_lt_succ hi) hy) hat

/-- With six-digit ids the pending files are those from the cursor on. -/
theorem pending_eq {s : SyncState} (h : Numbered s.queue) (hlen : s.queue.length ≤ 10 ^ 6)
    (hc : s.minAccept < 10 ^ 6) : s.pending = s.queue.drop s.minAccept := by
  have hkey :
      (ascii "id:" ++ decimal 6 s.minAccept).take 9 = ascii "id:" ++ decimal 6 s.minAccept := by
    apply List.take_of_length_le
    rw [List.length_append, decimal_length (by decide) hc]
    decide
  -- below a million files the nine characters that are compared hold the whole id
  have hfind : ∀ i f, s.queue[i]? = some f →
      (f.name.take 9 != ascii "id:" ++ decimal 6 s.minAccept) = decide (i ≠ s.minAccept) := by
    intro i f hf
    obtain ⟨d, hd⟩ := h i f hf
    have hi : i < 10 ^ 6 := by
      have := (List.getElem?_eq_some_iff.mp hf).1
      omega
    rw [hd, peerName_take hi]
    by_cases heq : i = s.minAccept
    · simp [heq]
    · have hne := decimal_ne (by decide) hi hc heq
      simp [heq, hne]
  have hdots :
      ∀ dot ∈ dotFiles, (dot.name.take 9 != ascii "id:" ++ decimal 6 s.minAccept) = true := by
    intro dot hdot
    simp only [dotFiles, List.mem_cons, List.not_mem_nil, or_false] at hdot
    obtain rfl | rfl | rfl := hdot <;> rfl
  unfold SyncState.pending
  rw [namelist_eq h hlen, hkey, List.dropWhile_append_of_pos hdots]
  apply dropWhile_eq_drop
  · intro i f hi hf
    rw [hfind i f hf]
    exact decide_eq_true (by omega)
  · intro f hf
    rw [hfind _ f hf]
    exact decide_eq_false (by omega)

/-- Every pending file that is not ignored is executed or known to be ours. -/
theorem mem_importFiles {syncId : Name} {maxStartId next : ℕ} {files : List PeerFile} {f : PeerFile}
    (h : f ∈ files) (hf : f.Importable ∨ isKnownCase syncId f.name = true) :
    f.name ∈ SyncState.importFiles syncId maxStartId next files ∨
      isKnownCase syncId f.name = true := by
  by_cases hknown : isKnownCase syncId f.name = true
  · exact .inr hknown
  · left
    have hgood := hf.resolve_right hknown
    rw [Bool.not_eq_true] at hknown
    induction files generalizing next with
    | nil => cases h
    | cons g rest ih =>
      rw [SyncState.importFiles]
      obtain rfl | hrest := List.mem_cons.mp h
      · rw [if_pos ⟨hgood, .inr hknown⟩]
        exact List.mem_cons_self
      · split
        · exact List.mem_cons_of_mem _ (ih hrest)
        · exact ih hrest

end AflPlusPlus
