import AflPlusPlus.Alloc.Growth
import AflPlusPlus.Lib.StreamReader

/-!
# Messages of the network proxy

`afl-network-client` sends a test case as its length and its bytes, `afl-network-server` answers
with the status and the coverage map. With libdeflate the map is compressed, and long test cases are
too when the client is built to. Each side's receive loops get back what the other side has sent.
-/

namespace AflPlusPlus.Network
open Lib

/-- libdeflate: a compression that does not fit its room gives nothing. -/
structure Codec where
  compress : ℕ → List Byte → List Byte
  decompress : ℕ → List Byte → Option (List Byte)
  length_le : ∀ room data, (compress room data).length ≤ room
  round_trip : ∀ room data available, compress room data ≠ [] → data.length ≤ available →
    decompress available (compress room data) = some data

/-- How the two programs are built and called; both have the same map size. -/
structure Config where
  deflate : Option Codec
  compressTestcases : Bool
  maxLen : ℕ
  mapSize : ℕ
  maxLen_lt : maxLen < 2 ^ 31
  le_mapSize : 8 ≤ mapSize
  mapSize_lt : mapSize < 2 ^ 30

structure Reply where
  status : BitVec 32
  trace : List Byte
deriving DecidableEq

variable (cfg : Config)

/-! ### The client -/

/-- `buf2_len` of the client. -/
def Config.clientRoom : ℕ := max cfg.maxLen cfg.mapSize

/-- The compressed test case, where the client compresses it. -/
def Config.zips (data : List Byte) : Option (List Byte) :=
  match cfg.deflate with
  | none => none
  | some c =>
    if cfg.compressTestcases && 1500 - 20 - 32 - 4 < data.length then
      some (c.compress cfg.clientRoom data)
    else none

/-- What the client sends for a test case. -/
def request (data : List Byte) : List Byte :=
  match cfg.zips data with
  | some z =>
    le32 (BitVec.ofNat 32 data.length ||| 0xff000000) ++ (le32 (BitVec.ofNat 32 z.length) ++ z)
  | none => le32 (BitVec.ofNat 32 data.length) ++ data

/-- How the client receives status and map. -/
def recvReply : Recv Reply :=
  .word fun status =>
    match cfg.deflate with
    | none => .upTo cfg.mapSize cfg.mapSize fun trace => .done ⟨status, trace⟩
    | some c =>
      .word fun compressLen =>
        .upTo compressLen.toNat cfg.clientRoom fun z =>
          match c.decompress cfg.mapSize z with
          | none => .fatal
          | some trace => if trace.length = cfg.mapSize then .done ⟨status, trace⟩ else .fatal

/-! ### The server -/

/-- `recv_testcase`: the test case, and the length it had compressed. -/
def recvTestcase : Recv (List Byte × Option ℕ) :=
  .word fun size =>
    if size = 0 then .fatal
    else if size &&& 0xff000000 ≠ 0xff000000 then
      .upTo size.toNat size.toNat fun data => .done (data, none)
    else
      match cfg.deflate with
      | none => .fatal
      | some c =>
        .word fun clen =>
          if clen < 1 then .fatal
          else
            .upTo clen.toNat clen.toNat fun z =>
              match c.decompress (size - 0xff000000).toNat z with
              | none => .fatal
              | some data =>
                if data.length = (size - 0xff000000).toNat then .done (data, some clen.toNat)
                else .fatal

/-- What the server sends after a run; `buf2Len` bounds the compressed map and its header. -/
def reply (buf2Len : ℕ) (r : Reply) : List Byte :=
  match cfg.deflate with
  | none => le32 r.status ++ r.trace
  | some c =>
    let z := c.compress (buf2Len - 8) r.trace
    le32 r.status ++ (le32 (BitVec.ofNat 32 z.length) ++ z)

/-- The size that `afl_realloc` gives `buf2` in the beginning, with the header. -/
def Config.buf2Size : ℕ :=
  (Alloc.nextSize (BitVec.ofNat 64 (cfg.mapSize + 16) + Alloc.aflAllocSizeOffset)).toNat

/-! ### Round trips -/

/-- A compressed test case fits, has a length of 24 bits and does not make `buf2` grow. -/
def RequestFits (data : List Byte) : Prop :=
  ∀ z, cfg.zips data = some z → z ≠ [] ∧ data.length < 2 ^ 24 ∧ z.length + 8 ≤ cfg.buf2Size

/-- The compressed map fits the buffers of both sides. -/
def ReplyFits (buf2Len : ℕ) (r : Reply) : Prop :=
  ∀ c, cfg.deflate = some c → 8 ≤ buf2Len ∧ c.compress (buf2Len - 8) r.trace ≠ [] ∧
    (c.compress (buf2Len - 8) r.trace).length ≤ cfg.clientRoom

variable {cfg} {data : List Byte} {buf2Len : ℕ} {r : Reply}

theorem clientRoom_lt : cfg.clientRoom < 2 ^ 32 := by
  have := cfg.maxLen_lt
  have := cfg.mapSize_lt
  rw [Config.clientRoom]
  omega

theorem length_of_zips {z : List Byte} (h : cfg.zips data = some z) : z.length < 2 ^ 32 := by
  rw [Config.zips] at h
  split at h
  · exact absurd h (Option.some_ne_none _).symm
  · rename_i c _
    split_ifs at h
    rw [← Option.some.inj h]
    exact (c.length_le _ _).trans_lt clientRoom_lt

theorem codec_of_zips {z : List Byte} (h : cfg.zips data = some z) :
    ∃ c, cfg.deflate = some c ∧ z = c.compress cfg.clientRoom data := by
  rw [Config.zips] at h
  split at h
  · exact absurd h (Option.some_ne_none _).symm
  · rename_i c hc
    split_ifs at h
    exact ⟨c, hc, (Option.some.inj h).symm⟩

/-- The mark of a compressed test case is never part of a length. -/
theorem unmarked {n : ℕ} (h : n < 2 ^ 31) : BitVec.ofNat 32 n &&& 0xff000000 ≠ 0xff000000 := by
  intro heq
  have hbit := congrArg (·.getLsbD 31) heq
  simp only [BitVec.getLsbD_and, BitVec.getLsbD_ofNat] at hbit
  rw [Nat.testBit_lt_two_pow h] at hbit
  exact absurd hbit (by decide)

/-- Setting and clearing the mark leaves a length of 24 bits. -/
theorem marked {n : ℕ} (h : n < 2 ^ 24) :
    (BitVec.ofNat 32 n ||| 0xff000000) &&& 0xff000000 = 0xff000000 ∧
      ((BitVec.ofNat 32 n ||| 0xff000000) - 0xff000000).toNat = n := by
  have hor : (BitVec.ofNat 32 n ||| 0xff000000).toNat = n + 2 ^ 24 * 255 := by
    rw [BitVec.toNat_or, BitVec.toNat_ofNat, Nat.mod_eq_of_lt (by omega), Nat.or_comm]
    exact ((Nat.two_pow_add_eq_or_of_lt h 255).symm).trans (Nat.add_comm _ _)
  constructor
  · apply BitVec.eq_of_getLsbD_eq
    intro i _
    rw [BitVec.getLsbD_and, BitVec.getLsbD_or]
    cases (0xff000000#32).getLsbD i <;> simp
  · rw [BitVec.toNat_sub, hor]
    change (2 ^ 32 - 0xff000000 + (n + 2 ^ 24 * 255)) % 2 ^ 32 = n
    omega

/-- The server gets back the test case. -/
theorem recvTestcase_request (hne : data ≠ []) (hlen : data.length ≤ cfg.maxLen)
    (hfits : RequestFits cfg data) :
    (recvTestcase cfg).eval (request cfg data) =
      some (data, (cfg.zips data).map List.length) := by
  have hmax := cfg.maxLen_lt
  have hpos := List.length_pos_iff.mpr hne
  rw [recvTestcase, request]
  cases hzips : cfg.zips data with
  | none =>
    have htoNat : (BitVec.ofNat 32 data.length).toNat = data.length := by
      rw [BitVec.toNat_ofNat, Nat.mod_eq_of_lt (by omega)]
    have hzero : BitVec.ofNat 32 data.length ≠ 0 := fun h => by
      rw [h] at htoNat
      exact absurd htoNat (by simpa using hpos.ne)
    rw [Recv.eval_word, if_neg hzero, if_pos (unmarked (by omega)), htoNat]
    exact Recv.eval_upTo rfl le_rfl (by simp [Recv.eval])
  | some z =>
    obtain ⟨hz, hshort, -⟩ := hfits z hzips
    obtain ⟨c, hc, rfl⟩ := codec_of_zips hzips
    obtain ⟨hmark, hsize⟩ := marked hshort
    have hclen : (BitVec.ofNat 32 (c.compress cfg.clientRoom data).length).toNat =
        (c.compress cfg.clientRoom data).length := by
      rw [BitVec.toNat_ofNat, Nat.mod_eq_of_lt (length_of_zips hzips)]
    have hzero : BitVec.ofNat 32 data.length ||| 0xff000000 ≠ 0 := fun h => by
      rw [h] at hmark
      exact absurd hmark (by decide)
    have hone : ¬ BitVec.ofNat 32 (c.compress cfg.clientRoom data).length < 1 := fun h => by
      rw [BitVec.lt_def, hclen] at h
      have hzpos := List.length_pos_iff.mpr hz
      simp at h
      exact hz h
    rw [Recv.eval_word, if_neg hzero, if_neg (not_not_intro hmark), hc]
    dsimp only
    rw [Recv.eval_word, if_neg hone, hclen, hsize]
    refine Recv.eval_upTo rfl le_rfl ?_
    rw [c.round_trip _ _ _ hz le_rfl]
    simp [Recv.eval]

/-- The client gets back status and map. -/
theorem recvReply_reply (htrace : r.trace.length = cfg.mapSize)
    (hfits : ReplyFits cfg buf2Len r) :
    (recvReply cfg).eval (reply cfg buf2Len r) = some r := by
  rw [recvReply, reply]
  cases hc : cfg.deflate with
  | none =>
    dsimp only
    rw [Recv.eval_word]
    exact Recv.eval_upTo htrace le_rfl (by simp [Recv.eval])
  | some c =>
    obtain ⟨-, hz, hroom⟩ := hfits c hc
    have hlt := hroom.trans_lt clientRoom_lt
    dsimp only
    rw [Recv.eval_word, Recv.eval_word, BitVec.toNat_ofNat, Nat.mod_eq_of_lt hlt]
    refine Recv.eval_upTo rfl hroom ?_
    rw [c.round_trip _ _ _ hz (le_of_eq htrace)]
    simp [Recv.eval, htrace]

end AflPlusPlus.Network
