import AflPlusPlus.Lib.Pipe
import AflPlusPlus.Lib.Reach

/-!
# The handshake of the forkserver

`__afl_start_forkserver` in the target and `afl_fsrv_start` in the fuzzer talk over two pipes: the
status pipe towards the fuzzer and the control pipe towards the target. Both sides are modelled as
programs that stop at every read and write, so that a run of the system is any interleaving of
their steps. Numbers are written and read whole, as pipes do with four bytes; the dictionary goes
through in pieces of any size.
-/

namespace AflPlusPlus.Forkserver
open Lib

def fsNewVersionMin : BitVec 32 := 1

def fsNewVersionMax : BitVec 32 := 1

def fsNewError : BitVec 32 := 0xeffe0000

def fsNewOptMapsize : BitVec 32 := 0x00000001

def fsNewOptShdmemFuzz : BitVec 32 := 0x00000002

def fsNewOptAutodict : BitVec 32 := 0x00000800

def fsOptIjon : BitVec 32 := 0x04000000

/-- `version` of the target. -/
def version : BitVec 32 := 0x41464c00 + fsNewVersionMax

/-- The autodictionary: tokens of 1 to 255 bytes, each behind its length. -/
structure Dictionary where
  tokens : List (List Byte)
  token_length : ∀ t ∈ tokens, 1 ≤ t.length ∧ t.length ≤ 255
  size_le : (tokens.flatMap fun t => BitVec.ofNat 8 t.length :: t).length ≤ 0xffffff

/-- `__afl_dictionary`; empty means that there is none. -/
def Dictionary.bytes (d : Dictionary) : List Byte :=
  d.tokens.flatMap fun t => BitVec.ofNat 8 t.length :: t

/-- What the target has been compiled and started with. -/
structure TargetConfig where
  mapSize : BitVec 32
  sharedmemFuzzing : Bool
  ijonEnabled : Bool
  dictionary : Dictionary

/-- The options the target sends. -/
def TargetConfig.options (c : TargetConfig) : BitVec 32 :=
  fsNewOptMapsize |||
    (if c.sharedmemFuzzing then fsNewOptShdmemFuzz else 0) |||
    (if c.dictionary.bytes ≠ [] then fsNewOptAutodict else 0) |||
    (if c.ijonEnabled then fsOptIjon else 0)

/-- The settings of the fuzzer that the handshake reads. -/
structure FuzzerConfig where
  /-- `fsrv->map_size` before the handshake. -/
  mapSize : BitVec 32
  supportShmemFuzz : Bool
  ignoreAutodict : Bool
  /-- `fsrv->add_extra_func` is set. -/
  addExtraFunc : Bool

/-- The fields of `afl_forkserver_t` that the handshake writes, and the calls of
`add_extra_func`. -/
structure Fsrv where
  mapSize : BitVec 32
  realMapSize : BitVec 32
  useShmemFuzz : Bool
  useIjon : Bool
  extras : List (List Byte)
  deriving DecidableEq

/-- Where the target is. `sendDict offset` is in its write loop. -/
inductive TargetPc
  | sendVersion
  | recvReply
  | sendOptions
  | sendMapSize
  | sendDictLen
  | sendDict (offset : ℕ)
  | sendWelcome
  | connected
  | exited
  deriving DecidableEq

/-- Where the fuzzer is, with its local variables. `recvDict` is in its read loop. -/
inductive FuzzerPc
  | recvHello
  | sendReply (keep : BitVec 32)
  | recvOptions (keep : BitVec 32)
  | recvMapSize (keep options : BitVec 32)
  | recvDictSize (keep : BitVec 32)
  | recvDict (keep : BitVec 32) (dictSize : ℕ) (dict : List Byte)
  | recvFinal (keep : BitVec 32)
  | up
  | oldModel
  | fatal
  deriving DecidableEq

structure Handshake where
  target : TargetPc
  fuzzer : FuzzerPc
  fsrv : Fsrv
  st : Pipe
  ctl : Pipe
  deriving DecidableEq

/-! ### The target -/

/-- `n` is how many bytes of the dictionary a write takes, if it is asked to take at least as
many. -/
def targetStep (cap : ℕ) (c : TargetConfig) (n : ℕ) (s : Handshake) : Option Handshake :=
  let put (bs : List Byte) (next : TargetPc) : Option Handshake :=
    (Pipe.send cap s.st bs).map fun st => { s with target := next, st := st }
  match s.target with
  | .sendVersion => put (le32 version) .recvReply
  | .recvReply => (Pipe.recv32 s.ctl).map fun r =>
    { s with
      ctl := r.2
      target := if r.1 = some (version ^^^ 0xffffffff) then .sendOptions else .exited }
  | .sendOptions => put (le32 c.options) .sendMapSize
  | .sendMapSize =>
    put (le32 c.mapSize) (if c.dictionary.bytes ≠ [] then .sendDictLen else .sendWelcome)
  | .sendDictLen => put (le32 (BitVec.ofNat 32 c.dictionary.bytes.length)) (.sendDict 0)
  | .sendDict offset =>
    let len := c.dictionary.bytes.length - offset
    let ret := min n len
    if ret < 1 then none
    else put ((c.dictionary.bytes.drop offset).take ret)
      (if len - ret ≠ 0 then .sendDict (offset + ret) else .sendWelcome)
  | .sendWelcome => put (le32 version) .connected
  | .connected => none
  | .exited => none

/-! ### The fuzzer -/

/-- What is made of the hello message. -/
def checkHello (status : BitVec 32) : FuzzerPc :=
  if status &&& fsNewError = fsNewError then .fatal
  else if 0x41464c00 ≤ status ∧ status ≤ 0x41464cff then
    let version := status - 0x41464c00
    if version = 0 then .fatal
    else if version < fsNewVersionMin ∨ version > fsNewVersionMax then .fatal
    else .sendReply status
  else .oldModel

/-- `FS_NEW_OPT_MAPSIZE`; `none` is `FATAL`. -/
def Fsrv.readMapSize (fsrv : Fsrv) (tmpMapSize : BitVec 32) : Option Fsrv :=
  let mapSize := if fsrv.mapSize = 0 then 65536 else fsrv.mapSize
  let rounded := if tmpMapSize % 64 ≠ 0 then ((tmpMapSize + 63) >>> 6) <<< 6 else tmpMapSize
  if rounded > mapSize then none
  else some { fsrv with realMapSize := tmpMapSize, mapSize := rounded }

/-- `FS_NEW_OPT_SHDMEM_FUZZ` and `FS_OPT_IJON`; `none` is `FATAL`. -/
def Fsrv.readFlags (fsrv : Fsrv) (f : FuzzerConfig) (options : BitVec 32) : Option Fsrv :=
  if options &&& fsNewOptShdmemFuzz ≠ 0 ∧ ¬ f.supportShmemFuzz then none
  else some { fsrv with
    useShmemFuzz := if options &&& fsNewOptShdmemFuzz ≠ 0 then true else fsrv.useShmemFuzz
    useIjon := if options &&& fsOptIjon ≠ 0 then true else fsrv.useIjon }

/-- The loop over the tokens of the dictionary, from `offset` on. -/
def tokenLoop (dict : List Byte) : ℕ → ℕ → List (List Byte)
  | 0, _ => []
  | fuel + 1, offset =>
    match dict[offset]? with
    | none => []
    | some len =>
      if len.toNat + offset < dict.length then
        (dict.drop (offset + 1)).take len.toNat :: tokenLoop dict fuel (offset + (1 + len.toNat))
      else []

def Fsrv.loadDict (fsrv : Fsrv) (f : FuzzerConfig) (dict : List Byte) : Fsrv :=
  if !f.ignoreAutodict && f.addExtraFunc then
    { fsrv with extras := fsrv.extras ++ tokenLoop dict dict.length 0 }
  else fsrv

/-- The options are looked at when the map size is known. -/
def afterMapSize (f : FuzzerConfig) (keep options : BitVec 32) (fsrv : Option Fsrv)
    (s : Handshake) : Handshake :=
  match fsrv.bind fun fsrv => fsrv.readFlags f options with
  | none => { s with fuzzer := .fatal }
  | some fsrv => { s with
      fsrv := fsrv
      fuzzer := if options &&& fsNewOptAutodict ≠ 0 then .recvDictSize keep else .recvFinal keep }

/-- Read a number and go on with it. A number that is not there in full is an error. -/
def Handshake.read32 (s : Handshake) (next : BitVec 32 → Handshake → Handshake) :
    Option Handshake :=
  (Pipe.recv32 s.st).map fun r =>
    match r.1 with
    | none => { s with fuzzer := .fatal, st := r.2 }
    | some x => next x { s with st := r.2 }

/-- `n` is how many bytes of the dictionary a read returns, if as many are there. -/
def fuzzerStep (cap : ℕ) (f : FuzzerConfig) (n : ℕ) (s : Handshake) : Option Handshake :=
  match s.fuzzer with
  | .recvHello => s.read32 fun status s => { s with fuzzer := checkHello status }
  | .sendReply keep => (Pipe.send cap s.ctl (le32 (keep ^^^ 0xffffffff))).map fun ctl =>
    { s with fuzzer := .recvOptions keep, ctl := ctl }
  | .recvOptions keep => s.read32 fun options s =>
    if options &&& fsNewOptMapsize ≠ 0 then { s with fuzzer := .recvMapSize keep options }
    else afterMapSize f keep options
      (some { s.fsrv with realMapSize := 65536, mapSize := 65536 }) s
  | .recvMapSize keep options => s.read32 fun tmpMapSize s =>
    afterMapSize f keep options (s.fsrv.readMapSize tmpMapSize) s
  | .recvDictSize keep => s.read32 fun dictSize s =>
    { s with fuzzer := if dictSize.toNat < 2 ∨ dictSize.toNat > 0xffffff then .fatal
      else .recvDict keep dictSize.toNat [] }
  | .recvDict keep dictSize dict =>
    let rlen := min n (min s.st.length (dictSize - dict.length))
    if rlen < 1 then none
    else
      let dict := dict ++ s.st.take rlen
      let s := { s with st := s.st.drop rlen }
      if dict.length < dictSize then some { s with fuzzer := .recvDict keep dictSize dict }
      else some { s with fuzzer := .recvFinal keep, fsrv := s.fsrv.loadDict f dict }
  | .recvFinal keep => s.read32 fun status2 s =>
    let expectedFlags := if s.fsrv.useIjon then fsOptIjon else 0
    { s with fuzzer := if status2 &&& ~~~ expectedFlags ≠ keep then .fatal else .up }
  | .up => none
  | .oldModel => none
  | .fatal => none

/-! ### The system -/

inductive Party
  | target
  | fuzzer
  deriving DecidableEq

def handshakeStep (cap : ℕ) (c : TargetConfig) (f : FuzzerConfig) (s : Handshake)
    (a : Party × ℕ) : Option Handshake :=
  match a.1 with
  | .target => targetStep cap c a.2 s
  | .fuzzer => fuzzerStep cap f a.2 s

def handshakeStart (f : FuzzerConfig) : Handshake :=
  ⟨.sendVersion, .recvHello, ⟨f.mapSize, 0, false, false, []⟩, [], []⟩

/-- The next multiple of 64. -/
def roundUp64 (n : ℕ) : ℕ := (n + 63) / 64 * 64

/-- The fuzzer's side can satisfy the target: its map is large enough, and it shares test cases if
the target wants that. -/
structure CanSatisfy (f : FuzzerConfig) (c : TargetConfig) : Prop where
  mapSize : roundUp64 c.mapSize.toNat ≤ if f.mapSize = 0 then 65536 else f.mapSize.toNat
  shmem : c.sharedmemFuzzing = true → f.supportShmemFuzz = true

/-- The outcome of the handshake that both sides agree on. -/
structure Agreed (c : TargetConfig) (f : FuzzerConfig) (s : Handshake) : Prop where
  connected : s.target = .connected
  up : s.fuzzer = .up
  realMapSize : s.fsrv.realMapSize = c.mapSize
  mapSize : s.fsrv.mapSize.toNat = roundUp64 c.mapSize.toNat
  shmem : s.fsrv.useShmemFuzz = c.sharedmemFuzzing
  ijon : s.fsrv.useIjon = c.ijonEnabled
  extras : s.fsrv.extras =
    if f.ignoreAutodict = false ∧ f.addExtraFunc = true then c.dictionary.tokens else []
  st_empty : s.st = []
  ctl_empty : s.ctl = []

end AflPlusPlus.Forkserver
