import AflPlusPlus.Lib.Reach
import AflPlusPlus.Network.Messages

/-!
# The network proxy

Three parties: the fuzzer, `afl-network-client` in the place of its forkserver, and
`afl-network-server` with the target on another machine. The connection delivers what was sent in
order and in pieces of any size. As long as no number is torn the fuzzer gets for every test case
the status and the map of its run, in order, and every exchange comes to its end.
-/

namespace AflPlusPlus.Network
open Lib

inductive Client
  | waiting
  | reading (rd : Reader Reply)
  | exited

inductive Server
  | reading (rd : Reader (List Byte × Option ℕ))
  | exited
  | corrupt

/-- `up` and `down` are the bytes on their way, `todo` and `answers` belong to the fuzzer. -/
structure ProxyState where
  todo : List (List Byte)
  client : Client
  up : List Byte
  down : List Byte
  server : Server
  buf2Len : ℕ
  /-- `lenptr` points into `buf2`. -/
  lenptr : Bool
  runs : ℕ
  answers : List Reply

/-- A receive returns `k` bytes, and reads a number that was torn as `torn`; in other steps they
have no meaning. -/
inductive Action
  | client (k : ℕ) (torn : BitVec 32)
  | server (k : ℕ) (torn : BitVec 32)

variable (cfg : Config) (target : ℕ → List Byte → Reply)

def startState (todo : List (List Byte)) : ProxyState where
  todo := todo
  client := .waiting
  up := []
  down := []
  server := .reading (.reading (recvTestcase cfg) [])
  buf2Len := cfg.mapSize + 16
  lenptr := true
  runs := 0
  answers := []

/-- The process has ended, and its side of the connection is closed. -/
def Client.gone : Client → Bool
  | .waiting => false
  | .reading rd => rd.failed
  | .exited => true

def Server.gone : Server → Bool
  | .reading rd => rd.failed
  | .exited => true
  | .corrupt => false

def clientStep (k : ℕ) (torn : BitVec 32) (s : ProxyState) : Option ProxyState :=
  match s.client with
  | .waiting =>
    match s.todo with
    | [] => none
    | testcase :: todo =>
      -- `__afl_next_testcase`
      let data := testcase.take cfg.maxLen
      if data = [] then some { s with client := .exited, todo := todo }
      else
        some { s with
          client := .reading (.reading (recvReply cfg) []), todo := todo,
          up := s.up ++ request cfg data }
  | .reading (.reading (.done r) _) =>
    -- `__afl_end_testcase`
    some { s with client := .waiting, answers := s.answers ++ [r] }
  | .reading (.reading .fatal _) => none
  | .reading rd =>
    if s.down = [] ∧ s.server.gone then some { s with client := .reading (.reading .fatal []) }
    else
      match rd.receive k torn s.down with
      | none => none
      | some (rd, down) => some { s with client := .reading rd, down := down }
  | .exited => none

/-- The length of `buf2` behind a test case, and whether `lenptr` still points into it. -/
def growBuf2 (buf2Len : ℕ) (lenptr : Bool) (clen : Option ℕ) : ℕ × Bool :=
  match clen with
  | none => (buf2Len, lenptr)
  | some n => (n, lenptr && n + 8 ≤ cfg.buf2Size)

def serverStep (k : ℕ) (torn : BitVec 32) (s : ProxyState) : Option ProxyState :=
  match s.server with
  | .reading (.reading (.done (data, clen)) _) =>
    if 0 < (BitVec.ofNat 32 data.length).toInt then
      let buf2 := growBuf2 cfg s.buf2Len s.lenptr clen
      let r := target s.runs data
      -- a write through a stale `lenptr`, or a room of less than no bytes
      if cfg.deflate.isSome && (!buf2.2 || buf2.1 < 8) then some { s with server := .corrupt }
      else
        some { s with
          server := .reading (.reading (recvTestcase cfg) []), runs := s.runs + 1,
          buf2Len := buf2.1, lenptr := buf2.2, down := s.down ++ reply cfg buf2.1 r }
    else some { s with server := .exited }
  | .reading (.reading .fatal _) => none
  | .reading rd =>
    if s.up = [] ∧ s.client.gone then some { s with server := .reading (.reading .fatal []) }
    else
      match rd.receive k torn s.up with
      | none => none
      | some (rd, up) => some { s with server := .reading rd, up := up }
  | .exited => none
  | .corrupt => none

def step (s : ProxyState) : Action → Option ProxyState
  | .client k torn => clientStep cfg k torn s
  | .server k torn => serverStep cfg target k torn s

/-- No number is torn. -/
def Untorn (s : ProxyState) : Action → Prop
  | .client k _ => ∀ rd, s.client = .reading rd → rd.Whole k
  | .server k _ => ∀ rd, s.server = .reading rd → rd.Whole k

instance (s : ProxyState) : (a : Action) → Decidable (Untorn s a)
  | .client k _ =>
    match h : s.client with
    | .waiting => isTrue fun _ hrd => absurd (h.symm.trans hrd) Client.noConfusion
    | .reading rd => decidable_of_iff (rd.Whole k)
        ⟨fun hwhole _ hrd => Client.reading.inj (h.symm.trans hrd) ▸ hwhole, fun hall => hall rd h⟩
    | .exited => isTrue fun _ hrd => absurd (h.symm.trans hrd) Client.noConfusion
  | .server k _ =>
    match h : s.server with
    | .reading rd => decidable_of_iff (rd.Whole k)
        ⟨fun hwhole _ hrd => Server.reading.inj (h.symm.trans hrd) ▸ hwhole, fun hall => hall rd h⟩
    | .exited => isTrue fun _ hrd => absurd (h.symm.trans hrd) Server.noConfusion
    | .corrupt => isTrue fun _ hrd => absurd (h.symm.trans hrd) Server.noConfusion

/-! ### What the fuzzer is to get -/

/-- The results of the test cases; the client exits at an empty one. -/
def answersFrom : ℕ → List (List Byte) → List Reply
  | _, [] => []
  | n, testcase :: todo =>
    if testcase.take cfg.maxLen = [] then []
    else target n (testcase.take cfg.maxLen) :: answersFrom (n + 1) todo

def nextLen (buf2Len : ℕ) (data : List Byte) : ℕ :=
  ((cfg.zips data).map List.length).getD buf2Len

/-- All that is compressed on the way fits its room. -/
def Fits : ℕ → ℕ → List (List Byte) → Prop
  | _, _, [] => True
  | n, buf2Len, testcase :: todo =>
    testcase.take cfg.maxLen = [] ∨
      RequestFits cfg (testcase.take cfg.maxLen) ∧
      ReplyFits cfg (nextLen cfg buf2Len (testcase.take cfg.maxLen))
        (target n (testcase.take cfg.maxLen)) ∧
      Fits (n + 1) (nextLen cfg buf2Len (testcase.take cfg.maxLen)) todo

/-- A bound for the steps that the test cases take. -/
def cost : ℕ → ℕ → List (List Byte) → ℕ
  | _, _, [] => 0
  | n, buf2Len, testcase :: todo =>
    let data := testcase.take cfg.maxLen
    4 + (request cfg data).length +
      (reply cfg (nextLen cfg buf2Len data) (target n data)).length +
      cost (n + 1) (nextLen cfg buf2Len data) todo

/-- The phases of an exchange, with the results still to come and a bound for the steps left. -/
inductive Phase (s : ProxyState) : List Reply → ℕ → Prop
  | waiting : s.client = .waiting →
      s.server = .reading (.reading (recvTestcase cfg) []) → s.up = [] → s.down = [] →
      Fits cfg target s.runs s.buf2Len s.todo → s.lenptr = true →
      Phase s (answersFrom cfg target s.runs s.todo) (cost cfg target s.runs s.buf2Len s.todo)
  | sent {data : List Byte} {rd : Reader (List Byte × Option ℕ)} :
      s.client = .reading (.reading (recvReply cfg) []) → s.server = .reading rd → s.down = [] →
      rd.Expects s.up (data, (cfg.zips data).map List.length) → data ≠ [] →
      data.length ≤ cfg.maxLen → RequestFits cfg data →
      ReplyFits cfg (nextLen cfg s.buf2Len data) (target s.runs data) →
      Fits cfg target (s.runs + 1) (nextLen cfg s.buf2Len data) s.todo → s.lenptr = true →
      Phase s (target s.runs data :: answersFrom cfg target (s.runs + 1) s.todo)
        (3 + s.up.length + (reply cfg (nextLen cfg s.buf2Len data) (target s.runs data)).length +
          cost cfg target (s.runs + 1) (nextLen cfg s.buf2Len data) s.todo)
  | replied {r : Reply} {rd : Reader Reply} : s.client = .reading rd →
      s.server = .reading (.reading (recvTestcase cfg) []) → s.up = [] →
      rd.Expects s.down r → Fits cfg target s.runs s.buf2Len s.todo → s.lenptr = true →
      Phase s (r :: answersFrom cfg target s.runs s.todo)
        (2 + s.down.length + cost cfg target s.runs s.buf2Len s.todo)
  | exited : s.client = .exited → s.up = [] →
      s.server = .reading (.reading (recvTestcase cfg) []) → Phase s [] 1
  | closed : s.client = .exited → s.server = .reading (.reading .fatal []) → Phase s [] 0

variable {cfg target} {s s' : ProxyState} {k rank : ℕ} {torn : BitVec 32}
variable {remaining : List Reply} {a : Action}

/-! ### Steps of the parties -/

theorem clientStep_reading {rd : Reader Reply} (hclient : s.client = .reading rd)
    (hrun : rd.ended = false) : clientStep cfg k torn s =
      if s.down = [] ∧ s.server.gone then some { s with client := .reading (.reading .fatal []) }
      else (rd.receive k torn s.down).map fun q =>
        { s with client := .reading q.1, down := q.2 } := by
  rw [clientStep, hclient]
  obtain ⟨r, got⟩ := rd
  cases r with
  | done r => exact absurd hrun Bool.false_ne_true.symm
  | fatal => exact absurd hrun Bool.false_ne_true.symm
  | word f =>
    dsimp only
    cases Reader.receive k torn s.down (.reading (.word f) got) <;> rfl
  | bytes n ask f =>
    dsimp only
    cases Reader.receive k torn s.down (.reading (.bytes n ask f) got) <;> rfl

theorem serverStep_reading {rd : Reader (List Byte × Option ℕ)} (hserver : s.server = .reading rd)
    (hrun : rd.ended = false) : serverStep cfg target k torn s =
      if s.up = [] ∧ s.client.gone then some { s with server := .reading (.reading .fatal []) }
      else (rd.receive k torn s.up).map fun q => { s with server := .reading q.1, up := q.2 } := by
  rw [serverStep, hserver]
  obtain ⟨r, got⟩ := rd
  cases r with
  | done r => exact absurd hrun Bool.false_ne_true.symm
  | fatal => exact absurd hrun Bool.false_ne_true.symm
  | word f =>
    dsimp only
    cases Reader.receive k torn s.up (.reading (.word f) got) <;> rfl
  | bytes n ask f =>
    dsimp only
    cases Reader.receive k torn s.up (.reading (.bytes n ask f) got) <;> rfl

/-- A party whose message has not begun to arrive waits. -/
theorem clientStep_wait (hclient : s.client = .reading (.reading (recvReply cfg) []))
    (hdown : s.down = []) (hserver : s.server.gone = false) : clientStep cfg k torn s = none := by
  rw [clientStep_reading hclient rfl, hdown, hserver, if_neg (by simp)]
  have hnone : Reader.receive k torn [] (.reading (recvReply cfg) []) = none := by
    rw [recvReply, Reader.receive, if_neg (by rw [List.length_nil]; omega)]
  rw [hnone, Option.map_none]

theorem serverStep_wait (hserver : s.server = .reading (.reading (recvTestcase cfg) []))
    (hup : s.up = []) (hclient : s.client.gone = false) :
    serverStep cfg target k torn s = none := by
  rw [serverStep_reading hserver rfl, hup, hclient, if_neg (by simp)]
  have hnone : Reader.receive k torn [] (.reading (recvTestcase cfg) []) = none := by
    rw [recvTestcase, Reader.receive, if_neg (by rw [List.length_nil]; omega)]
  rw [hnone, Option.map_none]

/-! ### Phases -/

theorem growBuf2_eq {data : List Byte} {buf2Len : ℕ} (h : RequestFits cfg data) :
    growBuf2 cfg buf2Len true ((cfg.zips data).map List.length) =
      (nextLen cfg buf2Len data, true) := by
  rw [nextLen]
  cases hzips : cfg.zips data with
  | none => rfl
  | some z =>
    have hsize := (h z hzips).2.2
    simp [growBuf2, hsize]

/-- The server runs a test case that has arrived. -/
theorem serverStep_done {data : List Byte} {got : List Byte}
    (hserver : s.server =
      .reading (.reading (.done (data, (cfg.zips data).map List.length)) got))
    (hne : data ≠ []) (hlen : data.length ≤ cfg.maxLen) (hlenptr : s.lenptr = true)
    (hrequest : RequestFits cfg data)
    (hreply : ReplyFits cfg (nextLen cfg s.buf2Len data) (target s.runs data)) :
    serverStep cfg target k torn s = some { s with
      server := .reading (.reading (recvTestcase cfg) []), runs := s.runs + 1,
      buf2Len := nextLen cfg s.buf2Len data, lenptr := true,
      down := s.down ++ reply cfg (nextLen cfg s.buf2Len data) (target s.runs data) } := by
  have hmax := cfg.maxLen_lt
  have hpos := List.length_pos_iff.mpr hne
  have htoInt : 0 < (BitVec.ofNat 32 data.length).toInt := by
    rw [BitVec.toInt_eq_toNat_of_lt] <;> rw [BitVec.toNat_ofNat, Nat.mod_eq_of_lt (by omega)] <;>
      omega
  have hroom : (cfg.deflate.isSome && (!true || nextLen cfg s.buf2Len data < 8)) = false := by
    cases hc : cfg.deflate with
    | none => rfl
    | some c =>
      have := (hreply c hc).1
      simpa using this
  rw [serverStep, hserver]
  dsimp only
  rw [if_pos htoInt, hlenptr, growBuf2_eq hrequest]
  dsimp only
  rw [hroom, if_neg Bool.false_ne_true]

/-- A step leads to the next phase, with less to do. -/
def Continues (cfg : Config) (target : ℕ → List Byte → Reply) (s s' : ProxyState)
    (remaining : List Reply) (rank : ℕ) : Prop :=
  ∃ remaining' rank', rank' < rank ∧ s'.answers ++ remaining' = s.answers ++ remaining ∧
    Phase cfg target s' remaining' rank'

theorem Phase.clientStep (h : Phase cfg target s remaining rank)
    (huntorn : Untorn s (.client k torn)) (hstep : clientStep cfg k torn s = some s') :
    Continues cfg target s s' remaining rank := by
  cases h with
  | waiting hclient hserver hup hdown hfits hlenptr =>
    rw [Network.clientStep, hclient] at hstep
    dsimp only at hstep
    cases htodo : s.todo with
    | nil =>
      rw [htodo] at hstep
      exact absurd hstep (Option.some_ne_none _).symm
    | cons testcase todo =>
      rw [htodo, Fits] at hfits
      rw [htodo] at hstep
      dsimp only at hstep
      split_ifs at hstep with hempty
      · obtain rfl := Option.some.inj hstep
        refine ⟨[], 1, ?_, ?_, .exited rfl hup hserver⟩
        · rw [cost]
          omega
        · rw [answersFrom, if_pos hempty]
      · obtain rfl := Option.some.inj hstep
        obtain ⟨hrequest, hreply, hrest⟩ := hfits.resolve_left hempty
        refine ⟨_, _, ?_, ?_, .sent rfl hserver hdown (.start ?_) hempty ?_ hrequest
          hreply hrest hlenptr⟩
        · rw [cost]
          dsimp only
          rw [hup, List.nil_append]
          omega
        · rw [answersFrom, if_neg hempty]
        · dsimp only
          rw [hup, List.nil_append]
          exact recvTestcase_request hempty (List.length_take_le _ _) hrequest
        · exact List.length_take_le _ _
  | sent hclient hserver hdown hexpects =>
    have hgone : s.server.gone = false := by
      rw [hserver]
      exact hexpects.not_failed
    rw [clientStep_wait hclient hdown hgone] at hstep
    exact absurd hstep (Option.some_ne_none _).symm
  | @replied r rd hclient hserver hup hexpects hfits hlenptr =>
    cases hended : rd.ended with
    | true =>
      obtain ⟨rfl, hdown⟩ := hexpects.ended hended
      rw [Network.clientStep, hclient] at hstep
      obtain rfl := Option.some.inj hstep
      refine ⟨_, _, ?_, ?_, .waiting rfl hserver hup hdown hfits hlenptr⟩
      · dsimp only
        omega
      · simp
    | false =>
      have hgone : s.server.gone = false := by
        rw [hserver]
        rfl
      rw [clientStep_reading hclient hended, if_neg (by simp [hgone]), Option.map_eq_some_iff]
        at hstep
      obtain ⟨⟨rd', down⟩, hrecv, rfl⟩ := hstep
      obtain ⟨hnext, hlt⟩ := hexpects.receive (huntorn rd hclient) hrecv
      refine ⟨_, _, ?_, rfl, .replied rfl hserver hup hnext hfits hlenptr⟩
      dsimp only
      omega
  | exited hclient hup hserver =>
    rw [Network.clientStep, hclient] at hstep
    exact absurd hstep (Option.some_ne_none _).symm
  | closed hclient hserver =>
    rw [Network.clientStep, hclient] at hstep
    exact absurd hstep (Option.some_ne_none _).symm

theorem Phase.serverStep (h : Phase cfg target s remaining rank)
    (htrace : ∀ n data, (target n data).trace.length = cfg.mapSize)
    (huntorn : Untorn s (.server k torn)) (hstep : serverStep cfg target k torn s = some s') :
    Continues cfg target s s' remaining rank := by
  cases h with
  | waiting hclient hserver hup hdown hfits hlenptr =>
    rw [serverStep_wait hserver hup (by rw [hclient]; rfl)] at hstep
    exact absurd hstep (Option.some_ne_none _).symm
  | @sent data rd hclient hserver hdown hexpects hne hlen hrequest hreply hfits hlenptr =>
    cases hended : rd.ended with
    | true =>
      obtain ⟨rfl, hup⟩ := hexpects.ended hended
      rw [serverStep_done hserver hne hlen hlenptr hrequest hreply] at hstep
      obtain rfl := Option.some.inj hstep
      refine ⟨_, _, ?_, rfl, .replied hclient rfl hup (.start ?_) hfits rfl⟩
      · dsimp only
        rw [hdown, hup, List.nil_append, List.length_nil]
        omega
      · dsimp only
        rw [hdown, List.nil_append]
        exact recvReply_reply (htrace _ _) hreply
    | false =>
      have hgone : s.client.gone = false := by
        rw [hclient]
        rfl
      rw [serverStep_reading hserver hended, if_neg (by simp [hgone]), Option.map_eq_some_iff]
        at hstep
      obtain ⟨⟨rd', up⟩, hrecv, rfl⟩ := hstep
      obtain ⟨hnext, hlt⟩ := hexpects.receive (huntorn rd hserver) hrecv
      refine ⟨_, _, ?_, rfl,
        .sent hclient rfl hdown hnext hne hlen hrequest hreply hfits hlenptr⟩
      dsimp only
      omega
  | replied hclient hserver hup hexpects =>
    rw [serverStep_wait hserver hup (by rw [hclient]; exact hexpects.not_failed)] at hstep
    exact absurd hstep (Option.some_ne_none _).symm
  | exited hclient hup hserver =>
    rw [serverStep_reading hserver rfl, if_pos ⟨hup, by rw [hclient]; rfl⟩] at hstep
    obtain rfl := Option.some.inj hstep
    exact ⟨[], 0, Nat.one_pos, rfl, .closed hclient rfl⟩
  | closed hclient hserver =>
    rw [Network.serverStep, hserver] at hstep
    exact absurd hstep (Option.some_ne_none _).symm

theorem Phase.step (h : Phase cfg target s remaining rank)
    (htrace : ∀ n data, (target n data).trace.length = cfg.mapSize)
    (huntorn : Untorn s a) (hstep : step cfg target s a = some s') :
    Continues cfg target s s' remaining rank := by
  cases a with
  | client k torn => exact h.clientStep huntorn hstep
  | server k torn => exact h.serverStep htrace huntorn hstep

/-- Until the last result is there some step is possible without tearing a number. -/
theorem Phase.exists_step (h : Phase cfg target s remaining rank) (hne : remaining ≠ []) :
    ∃ a, Untorn s a ∧ Network.step cfg target s a ≠ none := by
  cases h with
  | waiting hclient hserver hup hdown hfits hlenptr =>
    refine ⟨.client 0 0, fun rd hrd => ?_, ?_⟩
    · rw [hclient] at hrd
      exact absurd hrd Client.noConfusion
    · rw [Network.step, Network.clientStep, hclient]
      cases htodo : s.todo with
      | nil =>
        rw [htodo] at hne
        exact absurd rfl hne
      | cons testcase todo =>
        dsimp only
        split_ifs <;> exact Option.some_ne_none _
  | @sent data rd hclient hserver hdown hexpects hnil hlen hrequest hreply hfits hlenptr =>
    obtain ⟨rfl, hup⟩ | ⟨k, hwhole, hrecv⟩ := hexpects.exists_receive 0
    · refine ⟨.server 0 0, fun rd hrd => ?_, ?_⟩
      · rw [hserver] at hrd
        obtain rfl := Server.reading.inj hrd
        trivial
      · rw [Network.step, serverStep_done hserver hnil hlen hlenptr hrequest hreply]
        exact Option.some_ne_none _
    · refine ⟨.server k 0, fun rd' hrd => ?_, ?_⟩
      · rw [hserver] at hrd
        exact Server.reading.inj hrd ▸ hwhole
      · have hgone : s.client.gone = false := by
          rw [hclient]
          rfl
        rw [Network.step, serverStep_reading hserver (Reader.not_ended_of_receive hrecv),
          if_neg (by simp [hgone]), Ne, Option.map_eq_none_iff]
        exact hrecv
  | @replied r rd hclient hserver hup hexpects hfits hlenptr =>
    obtain ⟨rfl, hdown⟩ | ⟨k, hwhole, hrecv⟩ := hexpects.exists_receive 0
    · refine ⟨.client 0 0, fun rd hrd => ?_, ?_⟩
      · rw [hclient] at hrd
        obtain rfl := Client.reading.inj hrd
        trivial
      · rw [Network.step, Network.clientStep, hclient]
        exact Option.some_ne_none _
    · refine ⟨.client k 0, fun rd' hrd => ?_, ?_⟩
      · rw [hclient] at hrd
        exact Client.reading.inj hrd ▸ hwhole
      · have hgone : s.server.gone = false := by
          rw [hserver]
          rfl
        rw [Network.step, clientStep_reading hclient (Reader.not_ended_of_receive hrecv),
          if_neg (by simp [hgone]), Ne, Option.map_eq_none_iff]
        exact hrecv
  | exited => exact absurd rfl hne
  | closed => exact absurd rfl hne

/-! ### Runs -/

/-- A process has come to an error. The server does when the client has exited. -/
inductive Failed (s : ProxyState) : Prop
  | client {rd : Reader Reply} : s.client = .reading rd → rd.failed = true → Failed s
  | server {rd : Reader (List Byte × Option ℕ)} : s.server = .reading rd → rd.failed = true →
      s.client ≠ .exited → Failed s
  | corrupt : s.server = .corrupt → Failed s

theorem Phase.not_failed (h : Phase cfg target s remaining rank) : ¬ Failed s := by
  have hok : (∀ rd, s.client = .reading rd → rd.failed = false) ∧
      ∃ rd, s.server = .reading rd ∧ (rd.failed = false ∨ s.client = .exited) := by
    cases h with
    | waiting hclient hserver =>
      exact ⟨fun rd hrd => absurd (hclient.symm.trans hrd) Client.noConfusion, _, hserver, .inl rfl⟩
    | sent hclient hserver hdown hexpects =>
      refine ⟨fun rd hrd => ?_, _, hserver, .inl hexpects.not_failed⟩
      obtain rfl := Client.reading.inj (hclient.symm.trans hrd)
      rfl
    | replied hclient hserver hup hexpects =>
      refine ⟨fun rd hrd => ?_, _, hserver, .inl rfl⟩
      obtain rfl := Client.reading.inj (hclient.symm.trans hrd)
      exact hexpects.not_failed
    | exited hclient hup hserver =>
      exact ⟨fun rd hrd => absurd (hclient.symm.trans hrd) Client.noConfusion, _, hserver, .inl rfl⟩
    | closed hclient hserver =>
      exact ⟨fun rd hrd => absurd (hclient.symm.trans hrd) Client.noConfusion, _, hserver,
        .inr hclient⟩
  obtain ⟨hclient, rd, hserver, hrd⟩ := hok
  rintro (⟨hrd', hfail⟩ | ⟨hrd', hfail, hnot⟩ | hcorrupt)
  · exact absurd ((hclient _ hrd').symm.trans hfail) Bool.false_ne_true
  · obtain rfl := Server.reading.inj (hserver.symm.trans hrd')
    exact absurd ((hrd.resolve_right hnot).symm.trans hfail) Bool.false_ne_true
  · exact absurd (hserver.symm.trans hcorrupt) Server.noConfusion

variable {todo : List (List Byte)}

theorem phase_start (hfits : Fits cfg target 0 (cfg.mapSize + 16) todo) :
    Phase cfg target (startState cfg todo) (answersFrom cfg target 0 todo)
      (cost cfg target 0 (cfg.mapSize + 16) todo) :=
  .waiting rfl rfl rfl rfl hfits rfl

theorem phase_of_untorn (htrace : ∀ n data, (target n data).trace.length = cfg.mapSize)
    (hfits : Fits cfg target 0 (cfg.mapSize + 16) todo)
    (hrun : Reaches (step cfg target) Untorn (startState cfg todo) s) :
    ∃ remaining rank, s.answers ++ remaining = answersFrom cfg target 0 todo ∧
      Phase cfg target s remaining rank := by
  refine hrun.invariant (P := fun s => ∃ remaining rank,
    s.answers ++ remaining = answersFrom cfg target 0 todo ∧ Phase cfg target s remaining rank)
    ⟨_, _, rfl, phase_start hfits⟩ ?_
  rintro u a v ⟨remaining, rank, hanswers, hphase⟩ huntorn hstep
  obtain ⟨remaining', rank', -, hsame, hphase'⟩ := hphase.step htrace huntorn hstep
  exact ⟨remaining', rank', hsame.trans hanswers, hphase'⟩

/-- A compression that puts a byte in front. -/
def storeCodec : Codec where
  compress := fun room data => if data.length + 1 ≤ room then 0 :: data else []
  decompress := fun available z => if z.tail.length ≤ available then some z.tail else none
  length_le := fun room data => by
    split_ifs with hroom
    · exact hroom
    · exact Nat.zero_le _
  round_trip := fun room data available hne hle => by
    by_cases hroom : data.length + 1 ≤ room
    · rw [if_pos hroom]
      exact if_pos hle
    · exact absurd (if_neg hroom) hne

def smallConfig : Config where
  deflate := some storeCodec
  compressTestcases := false
  maxLen := 10
  mapSize := 8
  maxLen_lt := by decide
  le_mapSize := by decide
  mapSize_lt := by decide

/-- A target that reports the number of the run and a map of ones. -/
def smallTarget (n : ℕ) (_ : List Byte) : Reply := ⟨BitVec.ofNat 32 n, List.replicate 8 1⟩

theorem smallFits : Fits smallConfig smallTarget 0 (smallConfig.mapSize + 16) [[5, 6]] := by
  refine Or.inr ⟨fun z hz => absurd hz (Option.some_ne_none z).symm, fun c hc => ?_, trivial⟩
  obtain rfl := Option.some.inj hc
  decide

/-- The exchange of one test case, with the map in two pieces. -/
def smallRun : List Action :=
  [.client 0 0, .server 4 0, .server 2 0, .server 0 0, .client 4 0, .client 4 0, .client 3 0,
    .client 6 0, .client 0 0]

/-- While no number is torn the fuzzer has got the results of the test cases in order, and no
process has failed. -/
theorem exchange_agrees (htrace : ∀ n data, (target n data).trace.length = cfg.mapSize)
    (hfits : Fits cfg target 0 (cfg.mapSize + 16) todo)
    (hrun : Reaches (step cfg target) Untorn (startState cfg todo) s) :
    s.answers <+: answersFrom cfg target 0 todo ∧ ¬ Failed s := by
  obtain ⟨remaining, rank, hanswers, hphase⟩ := phase_of_untorn htrace hfits hrun
  exact ⟨⟨remaining, hanswers⟩, hphase.not_failed⟩

def smallState : ProxyState :=
  (exec (step smallConfig smallTarget) Untorn (startState smallConfig [[5, 6]]) smallRun).getD
    (startState smallConfig [[5, 6]])

theorem exchange_agrees_small :
    smallState.answers.length = 1 ∧ smallState.answers <+: [smallTarget 0 [5, 6]] ∧
      ¬ Failed smallState := by
  have hrun : Reaches (step smallConfig smallTarget) Untorn (startState smallConfig [[5, 6]])
      smallState := reaches_exec (by decide +kernel)
  exact ⟨by decide +kernel, exchange_agrees (fun _ _ => rfl) smallFits hrun⟩

/-- A run that tears no number does not go on for ever, and it ends with all results. -/
theorem exchange_finishes (htrace : ∀ n data, (target n data).trace.length = cfg.mapSize)
    (hfits : Fits cfg target 0 (cfg.mapSize + 16) todo) :
    ¬ RunsForever (step cfg target) Untorn (startState cfg todo) ∧
      ∀ s, Reaches (step cfg target) Untorn (startState cfg todo) s →
        (∀ a, Untorn s a → step cfg target s a = none) →
        s.answers = answersFrom cfg target 0 todo := by
  constructor
  · refine not_runsForever_of_rank (P := fun s n => ∃ remaining, Phase cfg target s remaining n)
      ⟨_, phase_start hfits⟩ ?_
    rintro u n a v ⟨remaining, hphase⟩ huntorn hstep
    obtain ⟨remaining', rank', hlt, -, hphase'⟩ := hphase.step htrace huntorn hstep
    exact ⟨rank', hlt, remaining', hphase'⟩
  · intro s hrun hstuck
    obtain ⟨remaining, rank, hanswers, hphase⟩ := phase_of_untorn htrace hfits hrun
    have hnil : remaining = [] := by
      by_contra hne
      obtain ⟨a, huntorn, hstep⟩ := hphase.exists_step hne
      exact hstep (hstuck a huntorn)
    rw [← hanswers, hnil, List.append_nil]

theorem exchange_finishes_small :
    ¬ RunsForever (step smallConfig smallTarget) Untorn (startState smallConfig [[5, 6]]) ∧
      ∀ s, Reaches (step smallConfig smallTarget) Untorn (startState smallConfig [[5, 6]]) s →
        (∀ a, Untorn s a → step smallConfig smallTarget s a = none) →
        s.answers = [smallTarget 0 [5, 6]] :=
  exchange_finishes (fun _ _ => rfl) smallFits

end AflPlusPlus.Network
